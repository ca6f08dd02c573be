/-!
# Sets as ascending lists

`OrderedSet α` is a list that carries the proof that it ascends, so that equality of sets is plain
equality. `mem_insert` and `mem_ofList` describe the builders through membership.
-/

universe u

namespace ClassWeave

/-- Elements in strictly ascending order. -/
structure OrderedSet (α : Type u) [Ord α] where
  /-- The elements, the smallest first. -/
  toList : List α
  ascending : toList.Pairwise fun a b ↦ compare a b = .lt

namespace OrderedSet

variable {α : Type u} [Ord α]

instance [DecidableEq α] : DecidableEq (OrderedSet α) := fun a b ↦
  decidable_of_iff (a.toList = b.toList) <| by cases a; cases b; simp

theorem ext {a b : OrderedSet α} (h : a.toList = b.toList) : a = b := by
  cases a; cases b; simpa using h

/-- The set without elements. -/
def empty : OrderedSet α := ⟨[], .nil⟩

instance : EmptyCollection (OrderedSet α) := ⟨empty⟩
instance : Inhabited (OrderedSet α) := ⟨empty⟩

instance : Membership α (OrderedSet α) := ⟨fun s a ↦ a ∈ s.toList⟩

instance [DecidableEq α] (a : α) (s : OrderedSet α) : Decidable (a ∈ s) :=
  inferInstanceAs (Decidable (a ∈ s.toList))

theorem mem_def {a : α} {s : OrderedSet α} : a ∈ s ↔ a ∈ s.toList := .rfl

def size (s : OrderedSet α) : Nat := s.toList.length

/-- The smallest element. -/
def min? (s : OrderedSet α) : Option α := s.toList.head?

/-! ### Insertion -/

/-- Puts an element before the first larger one, unless it is there already. -/
def insertElement (a : α) : List α → List α
  | [] => [a]
  | b :: rest =>
    match compare a b with
    | .lt => a :: b :: rest
    | .eq => b :: rest
    | .gt => b :: insertElement a rest

theorem mem_insertElement [Std.LawfulEqOrd α] {a x : α} {l : List α} :
    x ∈ insertElement a l ↔ x = a ∨ x ∈ l := by
  induction l with
  | nil => simp [insertElement]
  | cons b rest ih =>
    unfold insertElement
    split
    · simp
    · rename_i h
      have hab : a = b := by simpa using h
      simp [hab]
    · simp [ih]
      constructor <;> rintro (h | h | h) <;> simp [h]

theorem ascending_insertElement [Std.TransOrd α] [Std.LawfulEqOrd α] (a : α) {l : List α}
    (h : l.Pairwise fun a b ↦ compare a b = .lt) :
    (insertElement a l).Pairwise fun a b ↦ compare a b = .lt := by
  induction l with
  | nil => simp [insertElement]
  | cons b rest ih =>
    obtain ⟨hb, hrest⟩ := List.pairwise_cons.1 h
    unfold insertElement
    split
    · rename_i hk
      refine List.pairwise_cons.2 ⟨fun x hx ↦ ?_, h⟩
      rcases List.mem_cons.1 hx with rfl | hx
      · exact hk
      · exact Std.TransCmp.lt_trans hk (hb x hx)
    · exact h
    · rename_i hk
      refine List.pairwise_cons.2 ⟨fun x hx ↦ ?_, ih hrest⟩
      rcases mem_insertElement.1 hx with rfl | hx
      · exact Std.OrientedCmp.gt_iff_lt.1 hk
      · exact hb x hx

/-- Adds an element. -/
def insert [Std.TransOrd α] [Std.LawfulEqOrd α] (s : OrderedSet α) (a : α) : OrderedSet α :=
  ⟨insertElement a s.toList, ascending_insertElement a s.ascending⟩

/-- Adds the elements of a list. -/
def insertAll [Std.TransOrd α] [Std.LawfulEqOrd α] (s : OrderedSet α) (l : List α) :
    OrderedSet α :=
  l.foldl insert s

/-- The set of the elements of a list. -/
def ofList [Std.TransOrd α] [Std.LawfulEqOrd α] (l : List α) : OrderedSet α := empty.insertAll l

instance [Std.TransOrd α] [Std.LawfulEqOrd α] : Union (OrderedSet α) :=
  ⟨fun s t ↦ s.insertAll t.toList⟩

@[simp]
theorem mem_insert [Std.TransOrd α] [Std.LawfulEqOrd α] {s : OrderedSet α} {a x : α} :
    x ∈ s.insert a ↔ x = a ∨ x ∈ s :=
  mem_insertElement

theorem mem_insertAll [Std.TransOrd α] [Std.LawfulEqOrd α] {s : OrderedSet α} {l : List α}
    {x : α} : x ∈ s.insertAll l ↔ x ∈ s ∨ x ∈ l := by
  induction l generalizing s with
  | nil => simp [insertAll]
  | cons a rest ih =>
    have := ih (s := s.insert a)
    simp only [insertAll, List.foldl_cons] at this ⊢
    rw [this, mem_insert, List.mem_cons]
    constructor
    · rintro ((h | h) | h) <;> simp [h]
    · rintro (h | h | h) <;> simp [h]

@[simp]
theorem mem_ofList [Std.TransOrd α] [Std.LawfulEqOrd α] {l : List α} {x : α} :
    x ∈ ofList l ↔ x ∈ l := by
  have h : ¬ x ∈ (empty : OrderedSet α) := List.not_mem_nil
  simp [ofList, mem_insertAll, h]

end OrderedSet

end ClassWeave
