import ClassWeave.Ordered.Set
import Mathlib.Data.List.Basic
import Mathlib.Data.List.Nodup

/-!
# Ordered sets through membership

An ordered set is sorted, so its first element is the smallest (`min?_eq_some_iff`) and two sets
with the same members are equal (`ext_mem`). The set of a list depends on the members of the list
alone (`ofList_congr`), and its elements in order are the set again (`ofList_toList`). For the same
reason, sorting can be told from its result (`mergeSort_map`).
-/

universe u

namespace ClassWeave.OrderedSet

variable {α : Type u} [Ord α] [Std.TransOrd α] [Std.LawfulEqOrd α]

omit [Std.TransOrd α] in
theorem nodup_toList (s : OrderedSet α) : s.toList.Nodup := by
  refine s.ascending.imp fun {a b} h heq ↦ ?_
  have hself : compare b b = .lt := heq ▸ h
  exact absurd hself (by simp)

omit [Std.TransOrd α] [Std.LawfulEqOrd α] in
/-- A set with an element has a smallest one. -/
theorem exists_min? {s : OrderedSet α} {a : α} (h : a ∈ s) : ∃ b ∈ s, s.min? = some b := by
  obtain ⟨b, rest, hb⟩ := List.exists_cons_of_ne_nil (List.ne_nil_of_mem h)
  exact ⟨b, mem_def.2 (hb ▸ List.mem_cons_self), by rw [min?, hb, List.head?_cons]⟩

omit [Std.LawfulEqOrd α] in
/-- The smallest element of a set comes before all others. -/
theorem isLE_of_min? {s : OrderedSet α} {a b : α} (h : s.min? = some a) (hb : b ∈ s) :
    (compare a b).isLE = true := by
  obtain ⟨rest, hrest⟩ := List.head?_eq_some_iff.1 h
  have hascending := s.ascending
  rw [hrest] at hascending
  rw [mem_def, hrest] at hb
  rcases List.mem_cons.1 hb with rfl | hb
  · exact Std.ReflCmp.isLE_rfl
  · exact Ordering.isLE_of_eq_lt ((List.pairwise_cons.1 hascending).1 b hb)

/-- **The smallest element is the one that comes before all others.** -/
theorem min?_eq_some_iff {s : OrderedSet α} {a : α} :
    s.min? = some a ↔ a ∈ s ∧ ∀ b ∈ s, (compare a b).isLE = true := by
  constructor
  · intro h
    exact ⟨List.mem_of_head? h, fun b hb ↦ isLE_of_min? h hb⟩
  · rintro ⟨ha, hfirst⟩
    obtain ⟨b, hb, hmin⟩ := exists_min? ha
    have heq : compare b a = .eq :=
      Std.OrientedCmp.isLE_antisymm (isLE_of_min? hmin ha) (hfirst b hb)
    rw [hmin, Std.LawfulEqOrd.eq_of_compare heq]

/-- **A set is what belongs to it.** -/
theorem ext_mem {s t : OrderedSet α} (h : ∀ a, a ∈ s ↔ a ∈ t) : s = t := by
  refine OrderedSet.ext (List.Perm.eq_of_pairwise ?_ s.ascending t.ascending ?_)
  · intro x y _ _ hxy hyx
    exact absurd hxy (Std.OrientedCmp.not_lt_of_lt hyx)
  · exact (List.perm_ext_iff_of_nodup s.nodup_toList t.nodup_toList).2 h

/-- **Lists with the same members build the same set.** -/
theorem ofList_congr {l l' : List α} (h : ∀ a, a ∈ l ↔ a ∈ l') : ofList l = ofList l' :=
  ext_mem fun a ↦ by rw [mem_ofList, mem_ofList, h]

@[simp]
theorem ofList_toList (s : OrderedSet α) : ofList s.toList = s :=
  ext_mem fun a ↦ by rw [mem_ofList, mem_def]

@[simp]
theorem mem_toList_ofList {l : List α} {a : α} : a ∈ (ofList l).toList ↔ a ∈ l :=
  mem_ofList

instance [DecidableEq α] (s : OrderedSet α) (p : α → Prop) [DecidablePred p] :
    Decidable (∀ a ∈ s, p a) :=
  inferInstanceAs (Decidable (∀ a ∈ s.toList, p a))

omit [Std.TransOrd α] [Std.LawfulEqOrd α] in
/-- The elements with a property. -/
def filter (s : OrderedSet α) (p : α → Bool) : OrderedSet α :=
  ⟨s.toList.filter p, s.ascending.filter p⟩

omit [Std.TransOrd α] [Std.LawfulEqOrd α] in
theorem mem_filter {s : OrderedSet α} {p : α → Bool} {a : α} :
    a ∈ s.filter p ↔ a ∈ s ∧ p a = true :=
  List.mem_filter

/-! ### Sorting by a key -/

/-- **Sorting puts what a set is mapped to into the order of the set**, if each result has its
element as its key. -/
theorem mergeSort_map {β : Type u} (key : β → α) {s : OrderedSet α} {f : α → β}
    (hf : ∀ a, key (f a) = a) {l : List β} (h : l.Perm (s.toList.map f)) :
    l.mergeSort (fun a b ↦ (compare (key a) (key b)).isLE) = s.toList.map f := by
  have hsorted : (l.mergeSort fun a b ↦ (compare (key a) (key b)).isLE).Pairwise
      fun a b ↦ (compare (key a) (key b)).isLE = true := by
    refine List.pairwise_mergeSort (fun a b c ↦ Std.TransCmp.isLE_trans) (fun a b ↦ ?_) l
    rw [Bool.or_eq_true]
    by_cases hab : (compare (key a) (key b)).isLE = true
    · exact .inl hab
    · exact .inr (Ordering.isLE_of_eq_lt (Std.OrientedCmp.lt_of_not_isLE hab))
  have hascending : (s.toList.map f).Pairwise
      fun a b ↦ (compare (key a) (key b)).isLE = true := by
    refine List.pairwise_map.2 (s.ascending.imp fun {a b} hab ↦ ?_)
    rw [hf, hf, hab]
    rfl
  refine List.Perm.eq_of_pairwise ?_ hsorted hascending ((List.mergeSort_perm _ _).trans h)
  intro x y hx hy hxy hyx
  obtain ⟨a, -, rfl⟩ := List.mem_map.1 (h.mem_iff.1 ((List.mergeSort_perm _ _).mem_iff.1 hx))
  obtain ⟨b, -, rfl⟩ := List.mem_map.1 hy
  rw [hf, hf] at hxy hyx
  rw [Std.LawfulEqOrd.eq_of_compare (Std.OrientedCmp.isLE_antisymm hxy hyx)]

/-- **Sorting a list puts it into the order of its set.** -/
theorem mergeSort_eq {s : OrderedSet α} {l : List α} (h : l.Perm s.toList) :
    l.mergeSort (fun a b ↦ (compare a b).isLE) = s.toList := by
  rw [← List.map_id s.toList] at h
  exact (mergeSort_map id (fun _ ↦ rfl) h).trans (List.map_id _)

end ClassWeave.OrderedSet
