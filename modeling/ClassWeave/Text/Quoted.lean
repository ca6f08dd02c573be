import ClassWeave.Text.Unprintable

/-!
# Quoted texts in messages

A message that shows a text as data puts it between double quotes. The quote and the backslash are
escaped by a backslash, four control characters have a letter of their own, and every other
character that cannot be shown is given by its code point in hexadecimal.
-/

namespace ClassWeave.Text

/-- The lower-case hexadecimal digits of a number, without leading zeros. -/
def hex (n : Nat) : String := .ofList (Nat.toDigits 16 n)

/-- The form of one character between the quotes. -/
def quotedChar (c : Char) : String :=
  if c = '"' then "\\\""
  else if c = '\\' then "\\\\"
  else if c = '\t' then "\\t"
  else if c = '\n' then "\\n"
  else if c = '\r' then "\\r"
  else if c.toNat = 0 then "\\0"
  else if c.toNat < 0x20 || isUnprintable c then "\\u\x7b" ++ hex c.toNat ++ "\x7d"
  else c.toString

/-- A text between double quotes. -/
def quoted (s : String) : String := "\"" ++ String.join (s.toList.map quotedChar) ++ "\""

/-- The items of a list between brackets, separated by a comma and a space. -/
def bracketed (items : List String) : String := "[" ++ ", ".intercalate items ++ "]"

/-- The items of a list between braces, separated by a comma and a space. -/
def braced (items : List String) : String := "\x7b" ++ ", ".intercalate items ++ "\x7d"

example : quoted "a\"\x01é" = "\"a\\\"\\u\x7b1\x7dé\"" := by decide +kernel

end ClassWeave.Text
