import ClassWeave.Descriptor
import Mathlib.Data.List.Basic

/-!
# Byte positions in a text

A program that scans a text as UTF-8 names places by bytes. It may ask for the byte at a position,
which must be inside the text, and cut the text at a position, which must not be inside a character
either (`Descriptor.cutAt?_eq_some_iff`). Where the position is the size of a front part of the
text, both go well: the byte there is the first of the next character
(`Descriptor.exists_getElem?_bytes`), and the cut leaves the front part and the rest. A first byte
tells an ASCII character from every other one, so nothing is lost in comparing bytes.
-/

namespace ClassWeave.Descriptor

variable {c : Char} {cs front middle back : List Char} {n : ℕ}

/-! ### Bytes -/

/-- A text in UTF-8. -/
def bytes (cs : List Char) : List UInt8 := cs.flatMap String.utf8EncodeChar

/-- The first byte of a character tells whether it is a given ASCII character. -/
theorem head?_utf8EncodeChar {a : Char} (ha : a.val.toNat ≤ 127) :
    (String.utf8EncodeChar c).head? = some a.toUInt8 ↔ c = a := by
  have hchar : c = a ↔ c.val.toNat = a.val.toNat := by rw [UInt32.toNat_inj, Char.ext_iff]
  have hbyte : ∀ n : ℕ, some (UInt8.ofNat n) = some a.toUInt8 ↔ n % 256 = a.val.toNat % 256 := by
    intro n
    rw [Option.some.injEq, ← UInt8.toNat_inj, Char.toUInt8, UInt32.toNat_toUInt8]
    simp
  -- every byte that opens a longer character is 192 at least
  rw [String.utf8EncodeChar, hchar]
  split_ifs <;> simp only [List.head?_cons, hbyte] <;> omega

theorem byteSize_nil : byteSize [] = 0 := rfl

theorem byteSize_cons (c : Char) (cs : List Char) :
    byteSize (c :: cs) = c.utf8Size + byteSize cs := rfl

theorem byteSize_append (front back : List Char) :
    byteSize (front ++ back) = byteSize front + byteSize back := by
  induction front with
  | nil => rw [List.nil_append, byteSize_nil, Nat.zero_add]
  | cons c front ih => rw [List.cons_append, byteSize_cons, byteSize_cons, ih, Nat.add_assoc]

theorem byteSize_pos (h : cs ≠ []) : 0 < byteSize cs := by
  obtain ⟨c, cs, rfl⟩ := List.exists_cons_of_ne_nil h
  have hc := c.utf8Size_pos
  rw [byteSize_cons]
  omega

theorem length_le_byteSize (cs : List Char) : cs.length ≤ byteSize cs := by
  induction cs with
  | nil => exact Nat.le_refl 0
  | cons c cs ih =>
    have hc := c.utf8Size_pos
    rw [List.length_cons, byteSize_cons]
    omega

theorem length_bytes (cs : List Char) : (bytes cs).length = byteSize cs := by
  induction cs with
  | nil => rfl
  | cons c cs ih =>
    rw [bytes] at ih
    rw [bytes, List.flatMap_cons, List.length_append, ih, String.length_utf8EncodeChar,
      byteSize_cons]

/-- **Behind a front part stands the first byte of the next character.** -/
theorem exists_getElem?_bytes (front : List Char) (c : Char) (back : List Char) :
    ∃ b, (bytes (front ++ c :: back))[byteSize front]? = some b ∧
      ∀ a : Char, a.val.toNat ≤ 127 → (b = a.toUInt8 ↔ c = a) := by
  obtain ⟨b, more, hbytes⟩ := List.exists_cons_of_ne_nil (String.utf8EncodeChar_ne_nil (c := c))
  refine ⟨b, ?_, fun a ha ↦ ?_⟩
  · rw [bytes, List.flatMap_append, ← bytes, ← length_bytes,
      List.getElem?_append_right (Nat.le_refl _), Nat.sub_self, List.flatMap_cons, hbytes]
    rfl
  · rw [← head?_utf8EncodeChar ha, hbytes, List.head?_cons, Option.some.injEq]

/-! ### Cuts -/

/-- Cuts a text at a byte position. There is no cut behind the end, nor inside a character. -/
def cutAt? : ℕ → List Char → Option (List Char × List Char)
  | 0, cs => some ([], cs)
  | _ + 1, [] => none
  | n + 1, c :: cs =>
    if c.utf8Size ≤ n + 1 then
      (cutAt? (n + 1 - c.utf8Size) cs).map fun parts ↦ (c :: parts.1, parts.2)
    else none

/-- **A text can be cut where a front part of it ends**, and nowhere else. -/
theorem cutAt?_eq_some_iff :
    cutAt? n cs = some (front, back) ↔ cs = front ++ back ∧ byteSize front = n := by
  induction cs generalizing n front with
  | nil =>
    cases n with
    | zero =>
      rw [cutAt?, Option.some.injEq, Prod.mk.injEq]
      constructor
      · rintro ⟨rfl, rfl⟩
        exact ⟨rfl, rfl⟩
      · rintro ⟨h, -⟩
        obtain ⟨rfl, rfl⟩ := List.append_eq_nil_iff.1 h.symm
        exact ⟨rfl, rfl⟩
    | succ n =>
      refine iff_of_false nofun fun ⟨h, hsize⟩ ↦ ?_
      rw [(List.append_eq_nil_iff.1 h.symm).1, byteSize_nil] at hsize
      cases hsize
  | cons c cs ih =>
    have hc := c.utf8Size_pos
    cases n with
    | zero =>
      rw [cutAt?, Option.some.injEq, Prod.mk.injEq]
      constructor
      · rintro ⟨rfl, rfl⟩
        exact ⟨rfl, rfl⟩
      · rintro ⟨h, hsize⟩
        cases front with
        | nil => exact ⟨rfl, h⟩
        | cons a front =>
          have hpos := byteSize_pos (List.cons_ne_nil a front)
          exact absurd hsize (Nat.ne_of_gt hpos)
    | succ n =>
      rw [cutAt?]
      cases front with
      | nil =>
        refine iff_of_false (fun h ↦ ?_) fun ⟨_, hsize⟩ ↦ nomatch hsize
        split at h
        · obtain ⟨parts, -, hparts⟩ := Option.map_eq_some_iff.1 h
          cases hparts
        · cases h
      | cons a front =>
        rw [List.cons_append, List.cons.injEq, byteSize_cons]
        constructor
        · intro h
          split at h
          · obtain ⟨⟨front', back'⟩, hcut, hparts⟩ := Option.map_eq_some_iff.1 h
            cases hparts
            obtain ⟨rfl, hsize⟩ := ih.1 hcut
            dsimp only at hsize ⊢
            exact ⟨⟨rfl, rfl⟩, by omega⟩
          · cases h
        · rintro ⟨⟨rfl, rfl⟩, hsize⟩
          rw [if_pos (by omega), ih.2 ⟨rfl, by omega⟩]
          rfl

/-- The text before a byte position. -/
def takeBytes? (cs : List Char) (n : ℕ) : Option (List Char) := (cutAt? n cs).map (·.1)

/-- The text from a byte position on. -/
def dropBytes? (cs : List Char) (n : ℕ) : Option (List Char) := (cutAt? n cs).map (·.2)

/-- The text between two byte positions. -/
def sliceBytes? (cs : List Char) (i j : ℕ) : Option (List Char) :=
  (takeBytes? cs j).bind (dropBytes? · i)

theorem takeBytes?_append (front back : List Char) :
    takeBytes? (front ++ back) (byteSize front) = some front := by
  rw [takeBytes?, cutAt?_eq_some_iff.2 ⟨rfl, rfl⟩]
  rfl

theorem dropBytes?_append (front back : List Char) :
    dropBytes? (front ++ back) (byteSize front) = some back := by
  rw [dropBytes?, cutAt?_eq_some_iff.2 ⟨rfl, rfl⟩]
  rfl

theorem sliceBytes?_append (front middle back : List Char) :
    sliceBytes? (front ++ middle ++ back) (byteSize front) (byteSize (front ++ middle)) =
      some middle := by
  rw [sliceBytes?, takeBytes?_append, Option.bind_some, dropBytes?_append]

/-! ### Searches -/

/-- The byte position of the first occurrence of a character. -/
def position? (c : Char) : List Char → Option ℕ
  | [] => none
  | a :: cs => if a = c then some 0 else (position? c cs).map (a.utf8Size + ·)

theorem position?_append (h : c ∉ front) (back : List Char) :
    position? c (front ++ c :: back) = some (byteSize front) := by
  induction front with
  | nil => exact if_pos rfl
  | cons a front ih =>
    rw [List.mem_cons, not_or] at h
    rw [List.cons_append, position?, if_neg (Ne.symm h.1), ih h.2, Option.map_some, byteSize_cons]

theorem position?_eq_none (h : c ∉ cs) : position? c cs = none := by
  induction cs with
  | nil => rfl
  | cons a cs ih =>
    rw [List.mem_cons, not_or] at h
    rw [position?, if_neg (Ne.symm h.1), ih h.2, Option.map_none]

end ClassWeave.Descriptor
