/-!
# White space and its removal at the ends of a text

The class of blank characters is the Unicode property `White_Space`, as a table of ranges.
-/

namespace ClassWeave.Text

/-- The ranges of the property `White_Space`, ends included. -/
def blankRanges : List (Nat × Nat) :=
  [(0x9, 0xd), (0x20, 0x20), (0x85, 0x85), (0xa0, 0xa0), (0x1680, 0x1680), (0x2000, 0x200a),
    (0x2028, 0x2029), (0x202f, 0x202f), (0x205f, 0x205f), (0x3000, 0x3000)]

def isBlank (c : Char) : Bool := blankRanges.any fun r ↦ r.1 ≤ c.toNat && c.toNat ≤ r.2

/-- Removes blanks from both ends of a list of characters. -/
def trimChars (cs : List Char) : List Char :=
  ((cs.dropWhile isBlank).reverse.dropWhile isBlank).reverse

/-- Removes blanks from both ends of a text. -/
def trim (s : String) : String := .ofList (trimChars s.toList)

example : trim "\u0085 a b\u3000\t" = "a b" := by decide +kernel

end ClassWeave.Text
