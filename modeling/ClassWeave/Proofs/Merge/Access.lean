import ClassWeave.Merge.Access
import ClassWeave.Proofs.Ordered.Map

/-!
# Tables of what the versions declare

Visibilities and inheritances are kept in the same way: a physical value, and as overrides the
declared values that differ from it (`Versioned.ofDeclared`). Whatever the physical value is, such a
table has for each version the value that the version declared (`forVersion_ofDeclared`), and it
depends on the declarations as a set (`ofDeclared_congr`).

The physical visibility is the widest declared one: it is declared, and no declared one is wider.
These two properties determine it, so it too depends on the set of the declarations only.
-/

namespace ClassWeave

namespace Versioned

variable {α : Type} [DecidableEq α]

/-- The table of a physical value and of what the versions declare beside it. -/
def ofDeclared (physical : α) (declared : List (Version × α)) : Versioned α :=
  ⟨physical, .ofList (declared.filter (·.2 ≠ physical))⟩

variable {physical : α} {declared declared' : List (Version × α)}

/-- The overrides are the declarations that differ from the physical value. -/
theorem mem_overrides_ofDeclared (h : OrderedMap.Functional declared) {e : Version × α} :
    e ∈ (ofDeclared physical declared).overrides.entries ↔ e ∈ declared ∧ e.2 ≠ physical := by
  rw [ofDeclared, OrderedMap.mem_entries_ofList (h.filter _), List.mem_filter,
    decide_eq_true_iff]

/-- **A table has for each version what the version declared.** -/
theorem forVersion_ofDeclared (h : OrderedMap.Functional declared) {v : Version} {a : α}
    (ha : (v, a) ∈ declared) : (ofDeclared physical declared).forVersion v = a := by
  rw [forVersion]
  cases hget : (ofDeclared physical declared).overrides.get? v with
  | some b =>
    have hb := ((mem_overrides_ofDeclared h).1 (OrderedMap.get?_eq_some_iff.1 hget)).1
    exact h hb ha
  | none =>
    by_contra hne
    have hmem : (v, a) ∈ (ofDeclared physical declared).overrides.entries :=
      (mem_overrides_ofDeclared h).2 ⟨ha, Ne.symm hne⟩
    rw [OrderedMap.get?_eq_some_iff.2 hmem] at hget
    cases hget

/-- **A table depends on the set of the declarations.** -/
theorem ofDeclared_congr (h : OrderedMap.Functional declared)
    (hmem : ∀ e, e ∈ declared ↔ e ∈ declared') :
    ofDeclared physical declared = ofDeclared physical declared' := by
  refine congrArg (Versioned.mk physical) (OrderedMap.ofList_congr (h.filter _) ?_)
  intro e
  rw [List.mem_filter, List.mem_filter, hmem]

end Versioned

/-! ### The widest visibility -/

namespace Visibility

theorem rank_injective {a b : Visibility} (h : a.rank = b.rank) : a = b := by
  cases a <;> cases b <;> first | rfl | cases h

theorem wider_eq_or (a b : Visibility) : a.wider b = a ∨ a.wider b = b := by
  rw [wider]
  split
  · exact .inr rfl
  · exact .inl rfl

theorem rank_le_wider_left (a b : Visibility) : a.rank ≤ (a.wider b).rank := by
  rw [wider]
  split <;> omega

theorem rank_le_wider_right (a b : Visibility) : b.rank ≤ (a.wider b).rank := by
  rw [wider]
  split <;> omega

theorem foldl_wider_mem (a : Visibility) (l : List Visibility) :
    l.foldl wider a ∈ a :: l := by
  induction l generalizing a with
  | nil => exact List.mem_singleton_self a
  | cons b l ih =>
    rw [List.foldl_cons]
    rcases List.mem_cons.1 (ih (a.wider b)) with h | h
    · rcases wider_eq_or a b with hw | hw
      · exact List.mem_cons.2 (.inl (h.trans hw))
      · exact List.mem_cons_of_mem _ (List.mem_cons.2 (.inl (h.trans hw)))
    · exact List.mem_cons_of_mem _ (List.mem_cons_of_mem _ h)

theorem rank_le_foldl_wider {a b : Visibility} {l : List Visibility} (h : b ∈ a :: l) :
    b.rank ≤ (l.foldl wider a).rank := by
  induction l generalizing a b with
  | nil => rw [List.mem_singleton.1 h]; exact Nat.le_refl _
  | cons c l ih =>
    rw [List.foldl_cons]
    have hacc : (a.wider c).rank ≤ (l.foldl wider (a.wider c)).rank := ih List.mem_cons_self
    rcases List.mem_cons.1 h with rfl | h
    · exact Nat.le_trans (rank_le_wider_left _ _) hacc
    · rcases List.mem_cons.1 h with rfl | h
      · exact Nat.le_trans (rank_le_wider_right _ _) hacc
      · exact ih (List.mem_cons_of_mem _ h)

/-- The widest visibility is one of them. -/
theorem widest_mem {l : List Visibility} (h : l ≠ []) : widest l ∈ l := by
  cases l with
  | nil => exact absurd rfl h
  | cons a l => exact foldl_wider_mem a l

/-- No visibility is wider than the widest. -/
theorem rank_le_widest {a : Visibility} {l : List Visibility} (h : a ∈ l) :
    a.rank ≤ (widest l).rank := by
  cases l with
  | nil => exact absurd h List.not_mem_nil
  | cons b l => exact rank_le_foldl_wider h

/-- **The widest visibility depends on the set of the visibilities.** -/
theorem widest_congr {l l' : List Visibility} (h : ∀ a, a ∈ l ↔ a ∈ l') : widest l = widest l' := by
  by_cases hl : l = []
  · have hl' : l' = [] := List.eq_nil_iff_forall_not_mem.2 fun a ha ↦
      absurd ((h a).2 ha) (hl ▸ List.not_mem_nil)
    rw [hl, hl']
  · have hl' : l' ≠ [] := by
      obtain ⟨a, ha⟩ := List.exists_mem_of_ne_nil l hl
      exact List.ne_nil_of_mem ((h a).1 ha)
    -- each is among the visibilities that the other is no narrower than
    refine rank_injective (Nat.le_antisymm ?_ ?_)
    · exact rank_le_widest ((h _).1 (widest_mem hl))
    · exact rank_le_widest ((h _).2 (widest_mem hl'))

end Visibility

/-! ### The table of the visibilities -/

section Reconcile

variable {declared declared' : List (Version × Visibility)}

theorem reconcileAccess_eq (declared : List (Version × Visibility)) :
    reconcileAccess declared =
      .ofDeclared (Visibility.widest (declared.map (·.2))) declared := rfl

theorem forVersion_reconcileAccess (h : OrderedMap.Functional declared) {v : Version}
    {a : Visibility} (ha : (v, a) ∈ declared) : (reconcileAccess declared).forVersion v = a :=
  Versioned.forVersion_ofDeclared h ha

/-- **The table of the visibilities depends on the set of the declarations.** -/
theorem reconcileAccess_congr (h : OrderedMap.Functional declared)
    (hmem : ∀ e, e ∈ declared ↔ e ∈ declared') :
    reconcileAccess declared = reconcileAccess declared' := by
  have hwidest : Visibility.widest (declared.map (·.2)) = Visibility.widest (declared'.map (·.2)) :=
    Visibility.widest_congr fun a ↦ by simp only [List.mem_map, hmem]
  rw [reconcileAccess_eq, reconcileAccess_eq, hwidest, Versioned.ofDeclared_congr h hmem]

end Reconcile

end ClassWeave
