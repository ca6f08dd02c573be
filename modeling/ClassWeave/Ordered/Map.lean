/-!
# Maps with one entry per key, in ascending order of the keys

`OrderedMap κ ν` is a list of entries that carries the proof that its keys ascend. Two maps with
the same entries are therefore the same value: plain equality of maps is equality of contents.

The only builder that has work to do is `insert`, which puts an entry at its place and replaces an
entry of the same key. `get?_insert` says what it does to a look-up.
-/

universe u v w

namespace ClassWeave

/-- Entries in strictly ascending order of their keys. -/
structure OrderedMap (κ : Type u) (ν : Type v) [Ord κ] where
  /-- The entries, the smallest key first. -/
  entries : List (κ × ν)
  ascending : entries.Pairwise fun a b ↦ compare a.1 b.1 = .lt

namespace OrderedMap

variable {κ : Type u} {ν : Type v} {μ : Type w} [Ord κ]

instance [DecidableEq κ] [DecidableEq ν] : DecidableEq (OrderedMap κ ν) := fun a b ↦
  decidable_of_iff (a.entries = b.entries) <| by cases a; cases b; simp

theorem ext {a b : OrderedMap κ ν} (h : a.entries = b.entries) : a = b := by
  cases a; cases b; simpa using h

/-- The map without entries. -/
def empty : OrderedMap κ ν := ⟨[], .nil⟩

instance : EmptyCollection (OrderedMap κ ν) := ⟨empty⟩
instance : Inhabited (OrderedMap κ ν) := ⟨empty⟩

def isEmpty (m : OrderedMap κ ν) : Bool := m.entries.isEmpty

def size (m : OrderedMap κ ν) : Nat := m.entries.length

def keys (m : OrderedMap κ ν) : List κ := m.entries.map (·.1)

def values (m : OrderedMap κ ν) : List ν := m.entries.map (·.2)

/-- The value of the first entry of a key. -/
def findEntry? (k : κ) (l : List (κ × ν)) : Option ν :=
  (l.find? fun e ↦ compare k e.1 == .eq).map (·.2)

/-- The value stored under a key. -/
def get? (m : OrderedMap κ ν) (k : κ) : Option ν := findEntry? k m.entries

def contains (m : OrderedMap κ ν) (k : κ) : Bool := (m.get? k).isSome

/-! ### Insertion -/

/-- Puts an entry before the first larger key, in place of an equal one. -/
def insertEntry (k : κ) (v : ν) : List (κ × ν) → List (κ × ν)
  | [] => [(k, v)]
  | e :: rest =>
    match compare k e.1 with
    | .lt => (k, v) :: e :: rest
    | .eq => (k, v) :: rest
    | .gt => e :: insertEntry k v rest

theorem mem_insertEntry {k : κ} {v : ν} {l : List (κ × ν)} {e : κ × ν}
    (h : e ∈ insertEntry k v l) : e = (k, v) ∨ e ∈ l := by
  induction l with
  | nil => simpa [insertEntry] using h
  | cons a rest ih =>
    unfold insertEntry at h
    split at h
    · simpa using h
    · rcases List.mem_cons.1 h with h | h
      · exact .inl h
      · exact .inr (List.mem_cons_of_mem _ h)
    · rcases List.mem_cons.1 h with h | h
      · exact .inr (h ▸ List.mem_cons_self)
      · exact (ih h).imp_right (List.mem_cons_of_mem _)

theorem ascending_insertEntry [Std.TransOrd κ] (k : κ) (v : ν) {l : List (κ × ν)}
    (h : l.Pairwise fun a b ↦ compare a.1 b.1 = .lt) :
    (insertEntry k v l).Pairwise fun a b ↦ compare a.1 b.1 = .lt := by
  induction l with
  | nil => simp [insertEntry]
  | cons a rest ih =>
    obtain ⟨ha, hrest⟩ := List.pairwise_cons.1 h
    unfold insertEntry
    split
    · rename_i hk
      refine List.pairwise_cons.2 ⟨fun b hb ↦ ?_, h⟩
      rcases List.mem_cons.1 hb with rfl | hb
      · exact hk
      · exact Std.TransCmp.lt_trans hk (ha b hb)
    · rename_i hk
      exact List.pairwise_cons.2 ⟨fun b hb ↦ Std.TransCmp.lt_of_eq_of_lt hk (ha b hb), hrest⟩
    · rename_i hk
      refine List.pairwise_cons.2 ⟨fun b hb ↦ ?_, ih hrest⟩
      rcases mem_insertEntry hb with rfl | hb
      · exact Std.OrientedCmp.gt_iff_lt.1 hk
      · exact ha b hb

/-- Stores a value under a key, in place of an earlier one. -/
def insert [Std.TransOrd κ] (m : OrderedMap κ ν) (k : κ) (v : ν) : OrderedMap κ ν :=
  ⟨insertEntry k v m.entries, ascending_insertEntry k v m.ascending⟩

/-- Inserts the entries one after the other: of two with the same key the later one stays. -/
def insertAll [Std.TransOrd κ] (m : OrderedMap κ ν) (l : List (κ × ν)) : OrderedMap κ ν :=
  l.foldl (fun m e ↦ m.insert e.1 e.2) m

def ofList [Std.TransOrd κ] (l : List (κ × ν)) : OrderedMap κ ν := empty.insertAll l

theorem findEntry?_insertEntry [DecidableEq κ] [Std.TransOrd κ] [Std.LawfulEqOrd κ] (k k' : κ)
    (v : ν) (l : List (κ × ν)) :
    findEntry? k' (insertEntry k v l) = if k' = k then some v else findEntry? k' l := by
  unfold findEntry?
  induction l with
  | nil => by_cases h : k' = k <;> simp [insertEntry, h]
  | cons a rest ih =>
    unfold insertEntry
    split
    · by_cases h : k' = k <;> simp [List.find?_cons, h]
    · rename_i hk
      have hka : k = a.1 := by simpa using hk
      by_cases h : k' = k
      · simp [h]
      · have h' : ¬ k' = a.1 := by rwa [← hka]
        simp [h, h']
    · rename_i hk
      by_cases ha : k' = a.1
      · have h : ¬ k' = k := by
          rintro rfl
          simp [ha] at hk
        simp [ha] at h ⊢
        exact fun he ↦ absurd he h
      · simp [ha, ih]

/-- A look-up after an insertion finds the new value under its key and is otherwise unchanged. -/
@[simp]
theorem get?_insert [DecidableEq κ] [Std.TransOrd κ] [Std.LawfulEqOrd κ] (m : OrderedMap κ ν)
    (k k' : κ) (v : ν) : (m.insert k v).get? k' = if k' = k then some v else m.get? k' :=
  findEntry?_insertEntry k k' v m.entries

@[simp]
theorem get?_empty (k : κ) : (empty : OrderedMap κ ν).get? k = none := rfl

/-! ### Removal and maps over the values -/

/-- Removes the entry of a key. -/
def erase (m : OrderedMap κ ν) (k : κ) : OrderedMap κ ν :=
  ⟨m.entries.filter fun e ↦ compare k e.1 != .eq, m.ascending.filter _⟩

/-- Applies a function to every value. -/
def mapValues (m : OrderedMap κ ν) (f : ν → μ) : OrderedMap κ μ :=
  ⟨m.entries.map fun e ↦ (e.1, f e.2), List.pairwise_map.2 m.ascending⟩

end OrderedMap

end ClassWeave
