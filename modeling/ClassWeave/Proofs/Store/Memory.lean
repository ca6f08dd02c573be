import ClassWeave.Merge.Basic
import ClassWeave.Proofs.Ordered.Map
import ClassWeave.Proofs.Ordered.Set
import ClassWeave.Store.Memory

/-!
# Stores in memory, read and written

What a store in memory lists is the set of the classes that it holds (`mem_list`), in ascending
order (`ascending_list`). Over several versions these sets add up to `classes`, and what the
versions have of one of them is `treesOf`.

A class that nobody holds can be leased, written and released, and all that remains is the tree
(`release_held_write`). A run leaves the trees of its classes, in whatever order they were written
(`get?_writeAll`).
-/

namespace ClassWeave

theorem Slot.compare_of_version_eq {a b : Slot} (h : a.version = b.version) :
    compare a b = compare a.cls b.cls := by
  have hrank : compare a.rank b.rank = .eq := by
    rw [rank, rank, h]
    exact Std.ReflCmp.compare_self
  show (compare a.rank b.rank).then (compare a.cls b.cls) = compare a.cls b.cls
  rw [hrank]
  rfl

namespace MemoryStore

variable {st : MemoryStore} {v : Version} {vs : List Version} {c : ClassName} {t : ClassTree}

/-! ### Listing -/

theorem mem_list {version : Option Version} :
    c ∈ st.list version ↔ ∃ t, st.trees.get? ⟨version, c⟩ = some t := by
  rw [list, List.mem_map]
  constructor
  · rintro ⟨⟨w, c'⟩, hs, rfl⟩
    obtain ⟨hkey, hversion⟩ := List.mem_filter.1 hs
    obtain rfl : w = version := of_decide_eq_true hversion
    exact OrderedMap.mem_keys.1 hkey
  · rintro ⟨t, ht⟩
    exact ⟨⟨version, c⟩, List.mem_filter.2 ⟨OrderedMap.mem_keys.2 ⟨t, ht⟩, by simp⟩, rfl⟩

/-- A listing ascends. -/
theorem ascending_list (st : MemoryStore) (version : Option Version) :
    (st.list version).Pairwise fun a b ↦ compare a b = .lt := by
  have hkeys : st.trees.keys.Pairwise fun a b ↦ compare a b = .lt :=
    List.pairwise_map.2 st.trees.ascending
  rw [list, List.pairwise_map, List.pairwise_filter]
  refine hkeys.imp fun {a b} hab ha hb ↦ ?_
  rwa [← Slot.compare_of_version_eq ((of_decide_eq_true ha).trans (of_decide_eq_true hb).symm)]

/-- A listing is determined by its members. -/
theorem list_eq_toList {version : Option Version} {s : OrderedSet ClassName}
    (h : ∀ c, c ∈ s ↔ ∃ t, st.trees.get? ⟨version, c⟩ = some t) :
    st.list version = s.toList := by
  have hset : (⟨st.list version, st.ascending_list version⟩ : OrderedSet ClassName) = s :=
    OrderedSet.ext_mem fun c ↦ mem_list.trans (h c).symm
  rw [← hset]

/-! ### What the versions have -/

/-- The tree of a class in a version. -/
def tree? (st : MemoryStore) (v : Version) (c : ClassName) : Option ClassTree :=
  st.trees.get? ⟨some v, c⟩

/-- What holds of every tree of a version can be told from the entries of the store. -/
theorem forall_tree? {P : ClassName → ClassTree → Prop} :
    (∀ c t, st.tree? v c = some t → P c t) ↔
      ∀ e ∈ st.trees.entries, e.1.version = some v → P e.1.cls e.2 := by
  constructor
  · rintro h ⟨⟨w, c⟩, t⟩ he rfl
    exact h c t (OrderedMap.get?_eq_some_iff.2 he)
  · intro h c t ht
    exact h _ (OrderedMap.get?_eq_some_iff.1 ht) rfl

theorem source_read (st : MemoryStore) (c : ClassName) (v : Version) :
    st.source.read c v = match st.tree? v c with
      | some t => .ok t
      | none => .error (.notFound c (some v)) := rfl

/-- The classes that some version has. -/
def classes (st : MemoryStore) (vs : List Version) : OrderedSet ClassName :=
  .ofList (vs.flatMap fun v ↦ st.list (some v))

theorem mem_classes : c ∈ st.classes vs ↔ ∃ v ∈ vs, ∃ t, st.tree? v c = some t := by
  rw [classes, OrderedSet.mem_ofList, List.mem_flatMap]
  exact exists_congr fun v ↦ and_congr_right fun _ ↦ mem_list

/-- The tree of a class in each version that has it. -/
def treesOf (st : MemoryStore) (vs : List Version) (c : ClassName) : Trees :=
  vs.filterMap fun v ↦ (st.tree? v c).map (v, ·)

theorem mem_treesOf : (v, t) ∈ st.treesOf vs c ↔ v ∈ vs ∧ st.tree? v c = some t := by
  simp only [treesOf, List.mem_filterMap, Option.map_eq_some_iff, Prod.mk.injEq]
  constructor
  · rintro ⟨w, hw, u, hu, rfl, rfl⟩
    exact ⟨hw, hu⟩
  · rintro ⟨hv, ht⟩
    exact ⟨v, hv, t, ht, rfl, rfl⟩

theorem treesOf_cons (st : MemoryStore) (v : Version) (vs : List Version) (c : ClassName) :
    st.treesOf (v :: vs) c = ((st.tree? v c).map (v, ·)).toList ++ st.treesOf vs c := by
  rw [treesOf, List.filterMap_cons, ← treesOf]
  cases st.tree? v c <;> rfl

/-! ### Leases -/

/-- The store with a lease on the class. -/
def held (st : MemoryStore) (c : ClassName) : MemoryStore :=
  { st with leases := st.leases.insert c }

theorem lease_eq_held (h : c ∉ st.leases) : lease c st = (.ok (), st.held c) := if_neg h

theorem mem_release {a : ClassName} : a ∈ (release c st).leases ↔ a ∈ st.leases ∧ a ≠ c := by
  show a ∈ st.leases.toList.filter (· ≠ c) ↔ a ∈ st.leases ∧ a ≠ c
  rw [List.mem_filter, decide_eq_true_iff]
  exact Iff.rfl

theorem release_held (h : c ∉ st.leases) : release c (st.held c) = st := by
  refine congrArg (MemoryStore.mk st.trees) (OrderedSet.ext_mem fun a ↦ ?_)
  refine mem_release.trans ⟨fun ⟨ha, hne⟩ ↦ ?_, fun ha ↦ ⟨?_, fun hac ↦ h (hac ▸ ha)⟩⟩
  · exact (OrderedSet.mem_insert.1 ha).resolve_left hne
  · exact OrderedSet.mem_insert.2 (.inr ha)

/-- **A class that is leased, written and released is written.** -/
theorem release_held_write (h : c ∉ st.leases) (t : ClassTree) :
    release c ((st.held c).write c t) = st.write c t := by
  have hleases := congrArg MemoryStore.leases (release_held h)
  exact congrArg (MemoryStore.mk (st.write c t).trees) hleases

/-! ### Writing several classes -/

section Steps

/-! Steps that work on one class each: a step touches no tree but that of its class, and keeps the
leases. -/

variable {step : MemoryStore → ClassName → MemoryStore} {cs : List ClassName}

theorem leases_foldl (hstep : ∀ st c, (step st c).leases = st.leases) :
    (cs.foldl step st).leases = st.leases := by
  induction cs generalizing st with
  | nil => rfl
  | cons c cs ih => exact ih.trans (hstep st c)

/-- **A class has what its own step has written**, and nothing else is touched. -/
theorem get?_foldl (tree : ClassName → Option ClassTree)
    (hstep : ∀ st c slot, (step st c).trees.get? slot =
      if slot = ⟨none, c⟩ then (tree c).or (st.trees.get? slot) else st.trees.get? slot)
    (slot : Slot) : (cs.foldl step st).trees.get? slot =
      if slot.version = none ∧ slot.cls ∈ cs then (tree slot.cls).or (st.trees.get? slot)
      else st.trees.get? slot := by
  induction cs generalizing st with
  | nil => simp
  | cons c cs ih =>
    rw [List.foldl_cons, ih, hstep]
    obtain ⟨version, cls⟩ := slot
    by_cases hversion : version = none
    · subst hversion
      by_cases hcls : cls = c
      · subst hcls
        cases tree cls <;> simp
      · simp [hcls]
    · simp [hversion]

end Steps

/-- The store after the trees of several classes were written one after the other. -/
def writeAll (st : MemoryStore) (tree : ClassName → ClassTree) (cs : List ClassName) :
    MemoryStore :=
  cs.foldl (fun st c ↦ st.write c (tree c)) st

variable {tree : ClassName → ClassTree} {cs : List ClassName}

theorem leases_writeAll : (st.writeAll tree cs).leases = st.leases :=
  leases_foldl fun _ _ ↦ rfl

/-- **A written class has its tree**, and nothing else is touched. -/
theorem get?_writeAll (s : Slot) : (st.writeAll tree cs).trees.get? s =
    if s.version = none ∧ s.cls ∈ cs then some (tree s.cls) else st.trees.get? s :=
  get?_foldl (fun c ↦ some (tree c)) (fun _ _ _ ↦ OrderedMap.get?_insert _ _ _ _) s

end MemoryStore

end ClassWeave
