import ClassWeave.Json.Numeral
import ClassWeave.Json.Printer

/-!
# Reading back written integers

An integer is written as its digits after a possible minus sign. The reader takes all of them for
one numeral, provided that what follows does not go on with it, and the numeral denotes the integer
if that fits 64 bits (`Numeral.read?_integer`).
-/

namespace ClassWeave.Json

/-- The integers that a numeral without fraction and exponent can denote. -/
def FitsNumeral (n : Int) : Prop := -Int.ofNat (Nat.pow 2 63) ≤ n ∧ n < UInt64.size

/-- A text that a numeral before it does not go on into. -/
def EndsNumeral (rest : List Char) : Prop :=
  ∀ c ∈ rest.head?, c.isDigit = false ∧ c ≠ '.' ∧ c ≠ 'e' ∧ c ≠ 'E'

namespace Numeral

/-! ### The digits of a number -/

/-- A number above zero is written without leading zeros. -/
theorem head?_toDigits_ne_zero {n : Nat} (hn : 0 < n) : (Nat.toDigits 10 n).head? ≠ some '0' := by
  induction n using Nat.strongRecOn with
  | _ n ih =>
    rw [Nat.toDigits_eq_if (by decide)]
    split
    · simp only [List.head?_cons, ne_eq, Option.some.injEq, Nat.digitChar_eq_zero]
      omega
    · obtain ⟨d, ds, hd⟩ := List.exists_cons_of_ne_nil (Nat.toDigits_ne_nil (n := n / 10) (b := 10))
      have hhead := ih (n / 10) (by omega) (by omega)
      rw [hd] at hhead ⊢
      exact hhead

theorem digits?_toDigits (n : Nat) {rest : List Char} (hrest : EndsNumeral rest) :
    digits? (Nat.toDigits 10 n ++ rest) = some (Nat.toDigits 10 n, rest) := by
  have hdigits : ∀ c ∈ Nat.toDigits 10 n, c.isDigit = true := fun c hc ↦
    Nat.isDigit_of_mem_toDigits (by decide) (by decide) hc
  have hstop : rest.takeWhile Char.isDigit = [] ∧ rest.dropWhile Char.isDigit = rest := by
    cases rest with
    | nil => exact ⟨rfl, rfl⟩
    | cons c r =>
      have hc : c.isDigit = false := (hrest c rfl).1
      simp [hc]
  rw [digits?, List.takeWhile_append_of_pos hdigits, List.dropWhile_append_of_pos hdigits, hstop.1,
    hstop.2, List.append_nil]
  simp [Nat.toDigits_ne_nil]

theorem whole?_toDigits (n : Nat) {rest : List Char} (hrest : EndsNumeral rest) :
    whole? (Nat.toDigits 10 n ++ rest) = some (Nat.toDigits 10 n, rest) := by
  have hnoZero : ¬(1 < (Nat.toDigits 10 n).length ∧ (Nat.toDigits 10 n).head? = some '0') := by
    rintro ⟨hlength, hhead⟩
    rcases Nat.eq_zero_or_pos n with rfl | hn
    · exact absurd hlength (by decide)
    · exact head?_toDigits_ne_zero hn hhead
  simp [whole?, digits?_toDigits n hrest, hnoZero]

/-! ### The parts of a numeral without fraction and exponent -/

theorem fraction?_of_ends {rest : List Char} (hrest : EndsNumeral rest) :
    fraction? rest = some (none, rest) := by
  unfold fraction?
  split
  · exact absurd rfl (hrest _ rfl).2.1
  · rfl

theorem exponent?_of_ends {rest : List Char} (hrest : EndsNumeral rest) :
    exponent? rest = some (none, rest) := by
  cases rest with
  | nil => rfl
  | cons c r =>
    obtain ⟨-, -, he, hE⟩ := hrest c rfl
    simp [exponent?, he, hE]

/-- Digits do not begin with a minus sign. -/
theorem toDigits_append_ne_minus (n : Nat) (rest r : List Char) :
    Nat.toDigits 10 n ++ rest ≠ '-' :: r := by
  intro h
  obtain ⟨d, ds, hd⟩ := List.exists_cons_of_ne_nil (Nat.toDigits_ne_nil (b := 10) (n := n))
  have hdigit : d.isDigit = true :=
    Nat.isDigit_of_mem_toDigits (by decide) (by decide) (hd ▸ List.mem_cons_self)
  rw [hd, List.cons_append, List.cons.injEq] at h
  rw [h.1] at hdigit
  exact absurd hdigit (by decide)

theorem parts?_toDigits (n : Nat) {rest : List Char} (hrest : EndsNumeral rest) :
    parts? (Nat.toDigits 10 n ++ rest) = some ⟨false, Nat.toDigits 10 n, none, none, rest⟩ := by
  unfold parts?
  split
  rename_i hsign
  split at hsign
  · exact absurd ‹_› (toDigits_append_ne_minus n rest _)
  · cases hsign
    simp [whole?_toDigits n hrest, fraction?_of_ends hrest, exponent?_of_ends hrest]

theorem parts?_minus_toDigits (n : Nat) {rest : List Char} (hrest : EndsNumeral rest) :
    parts? ('-' :: Nat.toDigits 10 n ++ rest) =
      some ⟨true, Nat.toDigits 10 n, none, none, rest⟩ := by
  simp [parts?, whole?_toDigits n hrest, fraction?_of_ends hrest, exponent?_of_ends hrest]

/-! ### The value -/

theorem le_ofDigitChars (ds : List Char) (n : Nat) : n ≤ Nat.ofDigitChars 10 ds n := by
  induction ds generalizing n with
  | nil => exact Nat.le_refl n
  | cons d ds ih =>
    rw [Nat.ofDigitChars_cons]
    exact Nat.le_trans (by omega) (ih _)

/-- Digits that fit 64 bits are all taken. -/
theorem takeWhole_eq {ds : List Char} {n : Nat} (h : Nat.ofDigitChars 10 ds n < UInt64.size) :
    Scaled.takeWhole n ds = ⟨Nat.ofDigitChars 10 ds n, 0⟩ := by
  induction ds generalizing n with
  | nil => rfl
  | cons d ds ih =>
    rw [Nat.ofDigitChars_cons, Nat.mul_comm] at h ⊢
    have hnext : n * 10 + digitValue d < UInt64.size := Nat.lt_of_le_of_lt (le_ofDigitChars ds _) h
    rw [Scaled.takeWhole, if_pos hnext]
    exact ih h

theorem takeWhole_toDigits {n : Nat} (h : n < UInt64.size) :
    Scaled.takeWhole 0 (Nat.toDigits 10 n) = ⟨n, 0⟩ := by
  have hvalue : Nat.ofDigitChars 10 (Nat.toDigits 10 n) 0 = n :=
    Nat.ofDigitChars_toDigits (by decide) (by decide)
  rw [takeWhole_eq (by rwa [hvalue]), hvalue]

theorem value_toDigits {n : Nat} (hn : n < UInt64.size) (rest : List Char) :
    (Parts.mk false (Nat.toDigits 10 n) none none rest).value = .int n := by
  simp [Parts.value, Parts.integer?, Parts.scaled, takeWhole_toDigits hn]

theorem value_minus_toDigits {n : Nat} (hpos : n ≠ 0) (hn : n ≤ Nat.pow 2 63) (rest : List Char) :
    (Parts.mk true (Nat.toDigits 10 n) none none rest).value = .int (-n) := by
  have hsize : n < UInt64.size := Nat.lt_of_le_of_lt hn (by decide)
  have hfits : ¬(n = 0 ∨ Nat.pow 2 63 < n) := not_or.2 ⟨hpos, Nat.not_lt.2 hn⟩
  simp [Parts.value, Parts.integer?, Parts.scaled, takeWhole_toDigits hsize, hfits]

/-- **A written integer that fits a numeral is read back.** -/
theorem read?_integer {n : Int} (hn : FitsNumeral n) {rest : List Char}
    (hrest : EndsNumeral rest) : read? (Printer.integer n ++ rest) = some (.int n, rest) := by
  obtain ⟨hlow, hhigh⟩ := hn
  rw [Printer.integer, Int.toString_eq_repr, read?]
  cases n with
  | ofNat m =>
    have hsize : m < UInt64.size := Int.ofNat_lt.1 hhigh
    rw [Int.repr, Nat.toList_repr, parts?_toDigits m hrest, Option.map_some, value_toDigits hsize]
    rfl
  | negSucc m =>
    have hsize : m + 1 ≤ Nat.pow 2 63 := Int.ofNat_le.1 (Int.neg_le_neg_iff.1 hlow)
    have htext : (Int.negSucc m).repr.toList = '-' :: Nat.toDigits 10 (m + 1) := by
      rw [Int.repr, String.toList_append, Nat.toList_repr]
      rfl
    rw [htext, parts?_minus_toDigits (m + 1) hrest, Option.map_some,
      value_minus_toDigits (Nat.succ_ne_zero m) hsize]
    rfl

end Numeral

end ClassWeave.Json
