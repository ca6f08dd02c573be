import ClassWeave.Ordered.Map
import ClassWeave.Ordered.Set
import Mathlib.Data.List.Basic
import Mathlib.Data.List.Nodup

/-!
# Ordered maps through their look-ups

The entries of an ordered map are sorted, so a map is determined by its look-ups (`ext_get?`) and by
the *set* of its entries (`ext_mem`). What `insertAll` builds can therefore be described without
saying in which order it stored anything: a key that the list does not mention keeps its value, and
a key that it mentions gets a value that the list mentions for it.

A list is **functional** when it never gives one key two values. Two functional lists with the same
members build the same map (`ofList_congr`), whatever their order and however often an entry is
repeated. A map that is built key by key from a function is `tabulate`.
-/

universe u v w

namespace ClassWeave.OrderedMap

variable {κ : Type u} {ν : Type v} {μ : Type w} [Ord κ]

/-- The keys as a set. -/
def keySet (m : OrderedMap κ ν) : OrderedSet κ := ⟨m.keys, List.pairwise_map.2 m.ascending⟩

/-! ### Look-ups and entries -/

section Lookup

variable [Std.LawfulEqOrd κ]

/-- No two entries share a key. -/
theorem nodup_keys (m : OrderedMap κ ν) : m.keys.Nodup := by
  refine List.pairwise_map.2 (m.ascending.imp fun {a b} h heq ↦ ?_)
  have hself : compare b.1 b.1 = .lt := heq ▸ h
  exact absurd hself (by simp)

/-- The look-up of a key succeeds exactly on the entry stored under it. -/
theorem get?_eq_some_iff {m : OrderedMap κ ν} {k : κ} {a : ν} :
    m.get? k = some a ↔ (k, a) ∈ m.entries := by
  constructor
  · intro h
    obtain ⟨e, he, rfl⟩ := Option.map_eq_some_iff.1 h
    have hk : k = e.1 := by simpa using List.find?_some he
    rw [hk]
    exact List.mem_of_find?_eq_some he
  · intro h
    obtain ⟨e, he⟩ : ∃ e, m.entries.find? (fun e ↦ compare k e.1 == .eq) = some e :=
      Option.isSome_iff_exists.1 (List.find?_isSome.2 ⟨(k, a), h, by simp⟩)
    have hk : k = e.1 := by simpa using List.find?_some he
    have hea : e = (k, a) :=
      List.inj_on_of_nodup_map m.nodup_keys (List.mem_of_find?_eq_some he) h hk.symm
    rw [get?, findEntry?, he, hea]
    rfl

theorem mem_keys {m : OrderedMap κ ν} {k : κ} : k ∈ m.keys ↔ ∃ a, m.get? k = some a := by
  constructor
  · intro h
    obtain ⟨e, he, rfl⟩ := List.mem_map.1 h
    exact ⟨e.2, get?_eq_some_iff.2 he⟩
  · rintro ⟨a, ha⟩
    exact List.mem_map.2 ⟨(k, a), get?_eq_some_iff.1 ha, rfl⟩

theorem mem_values {m : OrderedMap κ ν} {a : ν} : a ∈ m.values ↔ ∃ k, m.get? k = some a := by
  constructor
  · intro h
    obtain ⟨e, he, rfl⟩ := List.mem_map.1 h
    exact ⟨e.1, get?_eq_some_iff.2 he⟩
  · rintro ⟨k, hk⟩
    exact List.mem_map.2 ⟨(k, a), get?_eq_some_iff.1 hk, rfl⟩

variable [Std.TransOrd κ]

/-- **A map is the set of its entries.** -/
theorem ext_mem {a b : OrderedMap κ ν} (h : ∀ e, e ∈ a.entries ↔ e ∈ b.entries) : a = b := by
  refine OrderedMap.ext (List.Perm.eq_of_pairwise ?_ a.ascending b.ascending ?_)
  · intro x y _ _ hxy hyx
    exact absurd hxy (Std.OrientedCmp.not_lt_of_lt hyx)
  · exact (List.perm_ext_iff_of_nodup (List.Nodup.of_map _ a.nodup_keys)
      (List.Nodup.of_map _ b.nodup_keys)).2 h

/-- **A map is what its look-ups find.** -/
theorem ext_get? {a b : OrderedMap κ ν} (h : ∀ k, a.get? k = b.get? k) : a = b :=
  ext_mem fun e ↦ by rw [← get?_eq_some_iff, ← get?_eq_some_iff, h]

end Lookup

/-! ### Inserting a list of entries -/

section InsertAll

variable [Std.TransOrd κ]

theorem insertAll_append (m : OrderedMap κ ν) (l l' : List (κ × ν)) :
    m.insertAll (l ++ l') = (m.insertAll l).insertAll l' :=
  List.foldl_append

theorem insertAll_cons (m : OrderedMap κ ν) (e : κ × ν) (l : List (κ × ν)) :
    m.insertAll (e :: l) = (m.insert e.1 e.2).insertAll l := rfl

variable [DecidableEq κ] [Std.LawfulEqOrd κ]

/-- A key that is not inserted keeps its value. -/
theorem get?_insertAll_of_not_mem {m : OrderedMap κ ν} {l : List (κ × ν)} {k : κ}
    (h : k ∉ l.map Prod.fst) : (m.insertAll l).get? k = m.get? k := by
  induction l generalizing m with
  | nil => rfl
  | cons e l ih =>
    rw [List.map_cons, List.mem_cons, not_or] at h
    rw [insertAll_cons, ih h.2, get?_insert, if_neg h.1]

/-- A key that is inserted gets one of the values inserted for it. -/
theorem exists_get?_insertAll {m : OrderedMap κ ν} {l : List (κ × ν)} {k : κ}
    (h : k ∈ l.map Prod.fst) : ∃ a, (k, a) ∈ l ∧ (m.insertAll l).get? k = some a := by
  induction l generalizing m with
  | nil => exact absurd h List.not_mem_nil
  | cons e l ih =>
    by_cases hl : k ∈ l.map Prod.fst
    · obtain ⟨a, ha, hget⟩ := ih (m := m.insert e.1 e.2) hl
      exact ⟨a, List.mem_cons_of_mem _ ha, hget⟩
    · have hk : k = e.1 := (List.mem_cons.1 h).resolve_right hl
      refine ⟨e.2, hk ▸ List.mem_cons_self, ?_⟩
      rw [insertAll_cons, get?_insertAll_of_not_mem hl, get?_insert, if_pos hk]

/-- Every entry of the result was there or was inserted. -/
theorem mem_entries_insertAll {m : OrderedMap κ ν} {l : List (κ × ν)} {e : κ × ν}
    (h : e ∈ (m.insertAll l).entries) : e ∈ m.entries ∨ e ∈ l := by
  have hget := get?_eq_some_iff.2 h
  by_cases hl : e.1 ∈ l.map Prod.fst
  · obtain ⟨a, ha, hget'⟩ := exists_get?_insertAll (m := m) hl
    rw [hget'] at hget
    rw [Option.some.inj hget] at ha
    exact .inr ha
  · rw [get?_insertAll_of_not_mem hl] at hget
    exact .inl (get?_eq_some_iff.1 hget)

/-- A list that gives no key two values. -/
def Functional (l : List (κ × ν)) : Prop := ∀ ⦃k a b⦄, (k, a) ∈ l → (k, b) ∈ l → a = b

omit [Ord κ] [Std.TransOrd κ] [DecidableEq κ] [Std.LawfulEqOrd κ] in
theorem functional_of_nodup {l : List (κ × ν)} (h : (l.map Prod.fst).Nodup) : Functional l := by
  intro k a b ha hb
  have := List.inj_on_of_nodup_map h ha hb rfl
  exact congrArg Prod.snd this

omit [Ord κ] [Std.TransOrd κ] [DecidableEq κ] [Std.LawfulEqOrd κ] in
theorem Functional.filter {l : List (κ × ν)} (h : Functional l) (p : κ × ν → Bool) :
    Functional (l.filter p) := fun _ _ _ ha hb ↦
  h (List.mem_filter.1 ha).1 (List.mem_filter.1 hb).1

omit [Ord κ] [Std.TransOrd κ] [DecidableEq κ] [Std.LawfulEqOrd κ] in
theorem Functional.map {l : List (κ × μ)} (h : Functional l) (f : μ → ν) :
    Functional (l.map fun e ↦ (e.1, f e.2)) := by
  intro k a b ha hb
  obtain ⟨⟨k', a'⟩, ha', heq⟩ := List.mem_map.1 ha
  obtain ⟨⟨k'', b'⟩, hb', heq'⟩ := List.mem_map.1 hb
  cases heq
  cases heq'
  rw [h ha' hb']

omit [Std.TransOrd κ] [DecidableEq κ] in
theorem functional_entries (m : OrderedMap κ ν) : Functional m.entries :=
  functional_of_nodup m.nodup_keys

/-- A list builds no entries but its own. -/
theorem mem_of_mem_entries_ofList {l : List (κ × ν)} {e : κ × ν} (h : e ∈ (ofList l).entries) :
    e ∈ l :=
  (mem_entries_insertAll h).resolve_left List.not_mem_nil

/-- The entries of the map that a functional list builds are the members of the list. -/
theorem mem_entries_ofList {l : List (κ × ν)} (hl : Functional l) {e : κ × ν} :
    e ∈ (ofList l).entries ↔ e ∈ l := by
  refine ⟨mem_of_mem_entries_ofList, fun h ↦ ?_⟩
  obtain ⟨a, ha, hget⟩ := exists_get?_insertAll (m := empty) (List.mem_map_of_mem h)
  rw [show e = (e.1, a) from Prod.ext rfl (hl h ha)]
  exact get?_eq_some_iff.1 hget

theorem get?_ofList {l : List (κ × ν)} (hl : Functional l) {k : κ} {a : ν} :
    (ofList l).get? k = some a ↔ (k, a) ∈ l := by
  rw [get?_eq_some_iff, mem_entries_ofList hl]

omit [Ord κ] [Std.TransOrd κ] [DecidableEq κ] [Std.LawfulEqOrd κ] in
/-- A list from which entries are left out, and others are changed under their keys, keeps the order
of its keys. -/
theorem keys_filterMap_sublist {f : μ → Option ν} {key : μ → κ} {key' : ν → κ}
    (hf : ∀ e x, f e = some x → key' x = key e) (l : List μ) :
    ((l.filterMap f).map key').Sublist (l.map key) := by
  induction l with
  | nil => exact .slnil
  | cons e l ih =>
    rw [List.filterMap_cons]
    cases he : f e with
    | none => exact ih.cons (key e)
    | some x =>
      rw [List.map_cons, List.map_cons, hf e x he]
      exact ih.cons_cons (key e)

/-- A list that mentions no key twice builds a map with its keys. -/
theorem keys_ofList_perm {l : List (κ × ν)} (hl : (l.map Prod.fst).Nodup) :
    (ofList l).keys.Perm (l.map Prod.fst) := by
  refine (List.perm_ext_iff_of_nodup (nodup_keys _) hl).2 fun k ↦ ?_
  rw [mem_keys, List.mem_map]
  simp only [get?_ofList (functional_of_nodup hl), Prod.exists, exists_and_right, exists_eq_right]

/-- **Functional lists with the same members build the same map.** -/
theorem ofList_congr {l l' : List (κ × ν)} (hl : Functional l) (h : ∀ e, e ∈ l ↔ e ∈ l') :
    ofList l = ofList l' := by
  have hl' : Functional l' := fun k a b ha hb ↦ hl ((h _).2 ha) ((h _).2 hb)
  exact ext_mem fun e ↦ by rw [mem_entries_ofList hl, mem_entries_ofList hl', h]

/-- A list with the entries of a map as its members builds that map. -/
theorem ofList_eq_of_mem_iff {l : List (κ × ν)} {m : OrderedMap κ ν}
    (h : ∀ e, e ∈ l ↔ e ∈ m.entries) : ofList l = m := by
  have hl : Functional l := fun k a b ha hb ↦
    m.functional_entries ((h _).1 ha) ((h _).1 hb)
  exact ext_mem fun e ↦ by rw [mem_entries_ofList hl, h]

end InsertAll

/-! ### A map over a set of keys -/

section Tabulate

variable [Std.LawfulEqOrd κ] {s : OrderedSet κ} {f g : κ → ν}

/-- The map that gives each key of a set the value of a function. -/
def tabulate (s : OrderedSet κ) (f : κ → ν) : OrderedMap κ ν :=
  ⟨s.toList.map fun k ↦ (k, f k), List.pairwise_map.2 s.ascending⟩

theorem get?_tabulate {k : κ} {a : ν} : (tabulate s f).get? k = some a ↔ k ∈ s ∧ f k = a := by
  rw [get?_eq_some_iff, tabulate, List.mem_map]
  constructor
  · rintro ⟨k', hk', heq⟩
    cases heq
    exact ⟨hk', rfl⟩
  · rintro ⟨hk, rfl⟩
    exact ⟨k, hk, rfl⟩

theorem get?_tabulate_of_mem {k : κ} (hk : k ∈ s) : (tabulate s f).get? k = some (f k) :=
  get?_tabulate.2 ⟨hk, rfl⟩

theorem get?_tabulate_of_not_mem {k : κ} (hk : k ∉ s) : (tabulate s f).get? k = none :=
  Option.eq_none_iff_forall_ne_some.2 fun _ h ↦ hk (get?_tabulate.1 h).1

omit [Std.LawfulEqOrd κ] in
@[simp]
theorem keys_tabulate : (tabulate s f).keys = s.toList := by
  rw [keys, tabulate, List.map_map]
  exact List.map_id _

omit [Std.LawfulEqOrd κ] in
@[simp]
theorem values_tabulate : (tabulate s f).values = s.toList.map f := by
  rw [values, tabulate, List.map_map]
  rfl

/-- A list of keys with their values builds the map over the set of its keys. -/
theorem ofList_map_eq_tabulate [DecidableEq κ] [Std.TransOrd κ] {l : List κ}
    (h : ∀ k, k ∈ l ↔ k ∈ s) : ofList (l.map fun k ↦ (k, f k)) = tabulate s f := by
  refine ofList_eq_of_mem_iff fun e ↦ ?_
  rw [tabulate, List.mem_map, List.mem_map]
  exact exists_congr fun k ↦ and_congr_left fun _ ↦ h k

end Tabulate

end ClassWeave.OrderedMap
