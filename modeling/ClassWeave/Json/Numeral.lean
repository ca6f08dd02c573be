import ClassWeave.Json.Basic

/-!
# JSON numerals

A numeral is an optional minus sign, digits without a leading zero, an optional fraction and an
optional exponent. One without fraction and exponent that fits 64 bits is an integer; minus zero
counts as a decimal, since an integer has no signed zero.

Every other numeral is a decimal. As many of its digits as fit 64 bits make an integer, which is
scaled by a power of ten: one product or quotient of doubles, which need not give the double nearest
to the numeral. A numeral that comes out infinite denotes nothing.
-/

namespace ClassWeave.Json.Numeral

def digitValue (d : Char) : Nat := d.toNat - '0'.toNat

/-- The value of a digit sequence. -/
def digitsValue (ds : List Char) : Nat := ds.foldl (fun n d ↦ n * 10 + digitValue d) 0

/-! ### Decimals -/

/-- An integer below `2 ^ 64` times a power of ten. -/
structure Scaled where
  significand : Nat
  exponent : Int

namespace Scaled

/-- Goes on with digits before the point. From the first that does not fit on, a digit only adds to
the exponent. -/
def takeWhole (n : Nat) : List Char → Scaled
  | [] => ⟨n, 0⟩
  | d :: ds =>
    let next := n * 10 + digitValue d
    if next < UInt64.size then takeWhole next ds else ⟨n, ds.length + 1⟩

/-- Goes on with digits after the point, up to the first that does not fit. -/
def takeFraction (s : Scaled) : List Char → Scaled
  | [] => s
  | d :: ds =>
    let next := s.significand * 10 + digitValue d
    if next < UInt64.size then takeFraction ⟨next, s.exponent - 1⟩ ds else s

/-- The largest exponent of a power of ten that is a finite double. -/
def maxPower : Nat := 308

def powerOfTen (n : Nat) : Float := .ofScientific 1 false n

/-- Divides by `10 ^ n`, in steps that stay within the powers of ten. -/
def shrink (x : Float) (n : Nat) : Float :=
  if n ≤ maxPower then x / powerOfTen n
  else if x == 0 then x
  else shrink (x / powerOfTen maxPower) (n - maxPower)
termination_by n
decreasing_by
  have : 0 < maxPower := by decide
  omega

/-- The double that comes out of the scaling, if it is finite. -/
def toFloat? (s : Scaled) : Option Float :=
  let x := s.significand.toUInt64.toFloat
  match s.exponent with
  | .ofNat n =>
    if n ≤ maxPower then
      let y := x * powerOfTen n
      if y.isInf then none else some y
    else if x == 0 then some x
    else none
  | .negSucc n => some (shrink x (n + 1))

end Scaled

/-! ### The grammar -/

/-- The parts of a numeral as they were written, and the text after it. -/
structure Parts where
  negative : Bool
  whole : List Char
  fraction : Option (List Char)
  exponent : Option (Bool × List Char)
  rest : List Char

/-- Splits digits off the front; there must be one at least. -/
def digits? (cs : List Char) : Option (List Char × List Char) :=
  let ds := cs.takeWhile Char.isDigit
  if ds.isEmpty then none else some (ds, cs.dropWhile Char.isDigit)

/-- Digits without a leading zero. -/
def whole? (cs : List Char) : Option (List Char × List Char) := do
  let (ds, rest) ← digits? cs
  if ds.length > 1 && ds.head? = some '0' then none else some (ds, rest)

def fraction? : List Char → Option (Option (List Char) × List Char)
  | '.' :: r => (digits? r).map fun p ↦ (some p.1, p.2)
  | r => some (none, r)

def exponent? : List Char → Option (Option (Bool × List Char) × List Char)
  | c :: r =>
    if c = 'e' || c = 'E' then
      match r with
      | '-' :: r => (digits? r).map fun p ↦ (some (true, p.1), p.2)
      | '+' :: r => (digits? r).map fun p ↦ (some (false, p.1), p.2)
      | r => (digits? r).map fun p ↦ (some (false, p.1), p.2)
    else some (none, c :: r)
  | [] => some (none, [])

def parts? (cs : List Char) : Option Parts := do
  let (negative, cs) := match cs with
    | '-' :: r => (true, r)
    | r => (false, r)
  let (whole, cs) ← whole? cs
  let (fraction, cs) ← fraction? cs
  let (exponent, cs) ← exponent? cs
  some ⟨negative, whole, fraction, exponent, cs⟩

/-- The power of ten that the exponent stands for. -/
def Parts.power (p : Parts) : Int :=
  match p.exponent with
  | none => 0
  | some (true, ds) => -digitsValue ds
  | some (false, ds) => digitsValue ds

/-- The digits before the point. -/
def Parts.scaled (p : Parts) : Scaled := .takeWhole 0 p.whole

/-- The integer that a numeral denotes, if it is one. -/
def Parts.integer? (p : Parts) : Option Int :=
  let n := p.scaled.significand
  if p.fraction.isSome || p.exponent.isSome || p.scaled.exponent ≠ 0 then none
  else if !p.negative then some n
  else if n = 0 || Nat.pow 2 63 < n then none
  else some (-n)

/-- The double that a numeral comes out as, if it is finite. -/
def Parts.double? (p : Parts) : Option Float :=
  let s := p.scaled.takeFraction (p.fraction.getD [])
  (Scaled.toFloat? ⟨s.significand, s.exponent + p.power⟩).map fun x ↦
    if p.negative then -x else x

/-- The value of a numeral. -/
def Parts.value (p : Parts) : Json :=
  match p.integer? with
  | some n => .int n
  | none => ((p.double?).map .decimal).getD .invalid

/-- Reads the numeral at the front of a text. -/
def read? (cs : List Char) : Option (Json × List Char) :=
  (parts? cs).map fun p ↦ (p.value, p.rest)

end ClassWeave.Json.Numeral
