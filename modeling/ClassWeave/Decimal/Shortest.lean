/-!
# Short texts of doubles

The reals that round to a double form an interval; its ends belong to it when the significand is
even. The text of a double has the fewest digits of all decimals in the interval, and of two such
decimals it is the one nearer to the double.
-/

namespace ClassWeave.Decimal

/-- A positive double, `significand * 2 ^ exponent`. -/
structure Binary where
  significand : Nat
  exponent : Int
  /-- The gap to the double below is half as wide as that to the double above. -/
  narrowBelow : Bool

/-- The absolute value of a finite double. -/
def Binary.ofFloat (x : Float) : Binary :=
  let bits := x.toBits.toNat
  let e : Nat := bits / Nat.pow 2 52 % Nat.pow 2 11
  let f : Nat := bits % Nat.pow 2 52
  if e = 0 then ⟨f, -1074, false⟩ else ⟨Nat.pow 2 52 + f, (e : Int) - 1075, f = 0 && 1 < e⟩

/-- An integer times a power of ten. -/
structure Scaled where
  digits : Nat
  exponent : Int

/-- Compares `a * 10 ^ i` with `b * 2 ^ j`. -/
def compareScaled (a : Nat) (i : Int) (b : Nat) (j : Int) : Ordering :=
  compare (a * Nat.pow 10 i.toNat * Nat.pow 2 (-j).toNat)
    (b * Nat.pow 2 j.toNat * Nat.pow 10 (-i).toNat)

/-- Whether a decimal rounds to a double. -/
def Binary.isNearestTo (x : Binary) (d : Scaled) : Bool :=
  let low := 4 * x.significand - (if x.narrowBelow then 1 else 2)
  let high := 4 * x.significand + 2
  let closed := x.significand % 2 = 0
  let fromLow := compareScaled d.digits d.exponent low (x.exponent - 2)
  let fromHigh := compareScaled d.digits d.exponent high (x.exponent - 2)
  (fromLow = .gt || (closed && fromLow = .eq)) && (fromHigh = .lt || (closed && fromHigh = .eq))

/-- The multiple of `10 ^ e` for a double, if one of the two next to it rounds to it. Of two the
nearer is taken, and of two equally near the even one. -/
def Binary.onGrid? (x : Binary) (e : Int) : Option Scaled :=
  let n := x.significand * Nat.pow 2 x.exponent.toNat * Nat.pow 10 (-e).toNat
  let unit := Nat.pow 10 e.toNat * Nat.pow 2 (-x.exponent).toNat
  let below := n / unit
  let up :=
    match compare (2 * (n % unit)) unit with
    | .lt => false
    | .eq => below % 2 = 1
    | .gt => true
  let near := if up then below + 1 else below
  let far := if up then below else below + 1
  [near, far].findSome? fun d ↦ if x.isNearestTo ⟨d, e⟩ then some ⟨d, e⟩ else none

/-- The exponents of the grids, the coarsest first. -/
def exponents : List Int := (List.range 634).map fun n : Nat ↦ 309 - (n : Int)

/-- The decimal with the fewest digits for a positive double. -/
def Binary.shortest? (x : Binary) : Option Scaled := exponents.findSome? x.onGrid?

/-- The digits of a decimal with their point. From `10 ^ -5` on and below `10 ^ 16` the point stands
in its place, otherwise it stands after the first digit, and an exponent says how far it is off. -/
def Scaled.layout (d : Scaled) : List Char :=
  let ds := (toString d.digits).toList
  match d.exponent + ds.length - 1 with
  | .ofNat lead =>
    if 16 ≤ lead then scientific ds ('+' :: (toString lead).toList)
    else if ds.length ≤ lead + 1 then
      ds ++ List.replicate (lead + 1 - ds.length) '0' ++ ['.', '0']
    else ds.take (lead + 1) ++ '.' :: ds.drop (lead + 1)
  | .negSucc n =>
    if 5 ≤ n then scientific ds ('-' :: (toString (n + 1)).toList)
    else '0' :: '.' :: (List.replicate n '0' ++ ds)
where
  scientific (ds exponent : List Char) : List Char :=
    ds.take 1 ++ (if ds.length = 1 then [] else '.' :: ds.drop 1) ++ 'e' :: exponent

/-- The short text of a finite double. -/
def text (x : Float) : String :=
  let sign := if Nat.pow 2 63 ≤ x.toBits.toNat then "-" else ""
  let digits :=
    if x == 0 then "0.0".toList
    else ((Binary.ofFloat x).shortest?.map Scaled.layout).getD []
  sign ++ .ofList digits

end ClassWeave.Decimal
