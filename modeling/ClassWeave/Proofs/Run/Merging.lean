import ClassWeave.Proofs.Merge.Hierarchy
import ClassWeave.Proofs.Run.Pool
import ClassWeave.Proofs.Store.Memory
import ClassWeave.Run.Merging
import Mathlib.Data.List.Induction

/-!
# Merge runs over stores in memory

Loading goes over the versions and adds what it reads to the groups one by one; what it ends with is
the map from each class that some version lists to its trees, in the order of the versions, or to
the first error among them (`exists_loaded`). It fails where a version cannot be listed.

The merger of a run knows the superclasses that the readable groups tell of: of each class, those in
its own trees, if no tree has the name of another class (`superOf?_mergerOf`).

Each job then leaves one tree behind or nothing (`job_memory`), and which of the two, `result` tells
from the input and from the leases that others hold. The jobs do not meet, so a run ends with the
results of all classes, whatever the order of the jobs is (`run_eq`). In particular, a run in which
every group merges writes every class (`run_memory`).
-/

namespace ClassWeave.MergeRun

variable {input : Source} {st out : MemoryStore} {v : Version} {vs : List Version} {c : ClassName}

/-! ### What there is to load -/

/-- The classes that a version lists; none if it cannot be listed. -/
def listed (input : Source) (v : Version) : List ClassName :=
  (input.list (some v)).toOption.getD []

/-- What is read of a class: one reading for each time that a version lists it. -/
def readings (input : Source) (vs : List Version) (c : ClassName) :
    List (Version × Except StoreError ClassTree) :=
  vs.flatMap fun v ↦ ((listed input v).filter (· = c)).map fun _ ↦ (v, input.read c v)

/-- The trees of a class in version order, or the first error among its readings. -/
def inputOf (input : Source) (vs : List Version) (c : ClassName) : ClassInput :=
  (readings input vs c).mapM fun r ↦ r.2.map (r.1, ·)

/-- The classes that some version lists. -/
def listedClasses (input : Source) (vs : List Version) : OrderedSet ClassName :=
  .ofList (vs.flatMap (listed input))

/-- The groups of a source over several versions. -/
def groupsOf (input : Source) (vs : List Version) : OrderedMap ClassName ClassInput :=
  .tabulate (listedClasses input vs) (inputOf input vs)

theorem keys_groupsOf (input : Source) (vs : List Version) :
    (groupsOf input vs).keys = (listedClasses input vs).toList := OrderedMap.keys_tabulate

theorem readings_cons (input : Source) (v : Version) (vs : List Version) (c : ClassName) :
    readings input (v :: vs) c =
      (((listed input v).filter (· = c)).map fun _ ↦ (v, input.read c v)) ++ readings input vs c :=
  List.flatMap_cons

theorem readings_ne_nil : readings input vs c ≠ [] ↔ c ∈ listedClasses input vs := by
  rw [listedClasses, OrderedSet.mem_ofList, List.mem_flatMap, readings, ne_eq,
    List.flatMap_eq_nil_iff]
  simp [List.filter_eq_nil_iff]

theorem getD_groupsOf : ((groupsOf input vs).get? c).getD (.ok []) = inputOf input vs c := by
  by_cases hc : c ∈ listedClasses input vs
  · rw [groupsOf, OrderedMap.get?_tabulate_of_mem hc, Option.getD_some]
  · have hnil : readings input vs c = [] := not_not.1 (mt readings_ne_nil.1 hc)
    rw [groupsOf, OrderedMap.get?_tabulate_of_not_mem hc, Option.getD_none, inputOf, hnil]
    rfl

/-! ### Loading -/

/-- What a group becomes when a further tree of its class is read. -/
def extended (group : Option ClassInput) (r : Version × Except StoreError ClassTree) : ClassInput :=
  match group.getD (.ok []), r.2 with
  | .error e, _ => .error e
  | .ok _, .error e => .error e
  | .ok trees, .ok t => .ok (trees ++ [(r.1, t)])

theorem get?_addTree (groups : OrderedMap ClassName ClassInput) (a c : ClassName) (v : Version)
    (read : Except StoreError ClassTree) : (addTree groups a v read).get? c =
      if c = a then some (extended (groups.get? a) (v, read)) else groups.get? c :=
  OrderedMap.get?_insert _ _ _ _

/-- The group of a class after some readings. -/
def extendedBy (group : Option ClassInput) (rs : List (Version × Except StoreError ClassTree)) :
    Option ClassInput :=
  rs.foldl (fun group r ↦ some (extended group r)) group

theorem extendedBy_append (group : Option ClassInput)
    (rs rs' : List (Version × Except StoreError ClassTree)) :
    extendedBy group (rs ++ rs') = extendedBy (extendedBy group rs) rs' := List.foldl_append

/-- **Step**: a version extends the group of a class each time that it lists the class. -/
theorem get?_addVersion (classes : List ClassName) (groups : OrderedMap ClassName ClassInput) :
    (addVersion input v classes groups).get? c =
      extendedBy (groups.get? c)
        ((classes.filter (· = c)).map fun _ ↦ (v, input.read c v)) := by
  induction classes generalizing groups with
  | nil => rfl
  | cons a classes ih =>
    rw [addVersion, List.foldl_cons, ← addVersion, ih, get?_addTree]
    by_cases hc : c = a
    · subst hc
      rw [if_pos rfl, List.filter_cons_of_pos (by simp)]
      rfl
    · rw [if_neg hc, List.filter_cons_of_neg (by simpa using Ne.symm hc)]

/-- **Run**: loading extends the group of a class by all its readings. -/
theorem exists_loadFrom (hlist : ∀ v ∈ vs, ∃ classes, input.list (some v) = .ok classes)
    (groups : OrderedMap ClassName ClassInput) :
    ∃ loaded, (loadFrom input groups vs).1 = .ok loaded ∧
      ∀ c, loaded.get? c = extendedBy (groups.get? c) (readings input vs c) := by
  induction vs generalizing groups with
  | nil => exact ⟨groups, rfl, fun _ ↦ rfl⟩
  | cons v vs ih =>
    obtain ⟨classes, hclasses⟩ := hlist v List.mem_cons_self
    obtain ⟨loaded, hloaded, hget⟩ := ih (fun w hw ↦ hlist w (List.mem_cons_of_mem _ hw))
      (addVersion input v classes groups)
    refine ⟨loaded, ?_, fun c ↦ ?_⟩
    · rw [loadFrom, hclasses]
      exact hloaded
    · have hlisted : listed input v = classes := by
        rw [listed, hclasses]
        rfl
      rw [hget, get?_addVersion, readings_cons, hlisted, extendedBy_append]

/-- The first error of a list of readings is the error of the group. -/
theorem extendedBy_none {rs : List (Version × Except StoreError ClassTree)} (hrs : rs ≠ []) :
    extendedBy none rs = some (rs.mapM fun r ↦ r.2.map (r.1, ·)) := by
  induction rs using List.reverseRecOn with
  | nil => exact absurd rfl hrs
  | append_singleton rs r ih =>
    have hgroup : (extendedBy none rs).getD (.ok []) = rs.mapM fun r ↦ r.2.map (r.1, ·) := by
      by_cases h : rs = []
      · rw [h]
        rfl
      · rw [ih h, Option.getD_some]
    show extendedBy none (rs ++ [r]) = _
    rw [extendedBy_append, List.mapM_append]
    show some (extended (extendedBy none rs) r) = _
    rw [extended, hgroup]
    cases rs.mapM fun r ↦ r.2.map (r.1, ·) with
    | error e => rfl
    | ok trees =>
      obtain ⟨v, read⟩ := r
      cases read <;> rfl

theorem exists_loaded (hlist : ∀ v ∈ vs, ∃ classes, input.list (some v) = .ok classes) :
    (loadFrom input .empty vs).1 = .ok (groupsOf input vs) := by
  obtain ⟨loaded, hloaded, hget⟩ := exists_loadFrom hlist .empty
  rw [hloaded]
  refine congrArg Except.ok (OrderedMap.ext_get? fun c ↦ ?_)
  rw [hget, OrderedMap.get?_empty, groupsOf]
  by_cases hc : c ∈ listedClasses input vs
  · rw [extendedBy_none (readings_ne_nil.2 hc), OrderedMap.get?_tabulate_of_mem hc, inputOf]
  · rw [not_not.1 (mt readings_ne_nil.1 hc), OrderedMap.get?_tabulate_of_not_mem hc]
    rfl

/-- Loading fails where a version cannot be listed. -/
theorem loadFrom_unlisted {e : StoreError} (hv : v ∈ vs) (he : input.list (some v) = .error e)
    (groups : OrderedMap ClassName ClassInput) :
    ∃ text, (loadFrom input groups vs).1 = .error text := by
  induction vs generalizing groups with
  | nil => exact absurd hv List.not_mem_nil
  | cons w vs ih =>
    rw [loadFrom]
    cases hw : input.list (some w) with
    | error e => exact ⟨_, rfl⟩
    | ok classes =>
      have hv : v ∈ vs := by
        rcases List.mem_cons.1 hv with rfl | hv
        · rw [he] at hw
          cases hw
        · exact hv
      exact ih hv (addVersion input w classes groups)

/-! ### Loading from a store in memory -/

/-- A store in memory can read whatever it lists. -/
theorem inputOf_memory (st : MemoryStore) (vs : List Version) (c : ClassName) :
    inputOf st.source vs c = .ok (st.treesOf vs c) := by
  induction vs with
  | nil => rfl
  | cons v vs ih =>
    have hlisted : listed st.source v = st.list (some v) := rfl
    have hnodup : (st.list (some v)).Nodup :=
      OrderedSet.nodup_toList ⟨st.list (some v), st.ascending_list _⟩
    rw [inputOf, readings_cons, List.mapM_append, ← inputOf, ih, hlisted, MemoryStore.treesOf_cons]
    cases htree : st.tree? v c with
    | some t =>
      have hcount : (st.list (some v)).count c = 1 :=
        List.count_eq_one_of_mem hnodup (MemoryStore.mem_list.2 ⟨t, htree⟩)
      have hread : st.source.read c v = .ok t := by rw [MemoryStore.source_read, htree]
      rw [List.filter_eq, hcount, hread]
      rfl
    | none =>
      have hcount : (st.list (some v)).count c = 0 := List.count_eq_zero_of_not_mem fun hc ↦ by
        obtain ⟨t, ht⟩ := MemoryStore.mem_list.1 hc
        exact absurd (htree.symm.trans ht) (Option.some_ne_none t).symm
      rw [List.filter_eq, hcount]
      rfl

/-! ### Merging and writing -/

/-- The merger of a run. It knows the superclasses that the readable groups tell of. -/
def mergerOf (m : MergeRun) (input : Source) : Merger :=
  ⟨.ofTrees ((listedClasses input m.versions).toList.flatMap fun c ↦
    (inputOf input m.versions c).toOption.getD []), m.pinned⟩

theorem hierarchy_groupsOf (input : Source) (vs : List Version) :
    hierarchy (groupsOf input vs) =
      .ofTrees ((listedClasses input vs).toList.flatMap fun c ↦
        (inputOf input vs c).toOption.getD []) := by
  rw [hierarchy, groupsOf, OrderedMap.values_tabulate, List.flatMap_map]

/-- **A run knows the superclasses of a class from the trees of the class**, if each tree has the
name that it is listed by. The last tree of a version counts. -/
theorem superOf?_mergerOf {m : MergeRun}
    (hnamed : ∀ c trees, inputOf input m.versions c = .ok trees → ∀ t ∈ trees, t.2.name = c)
    (c : ClassName) (v : Version) :
    (m.mergerOf input).hierarchy.superOf? c v =
      (((inputOf input m.versions c).toOption.getD []).reverse.find? (v = ·.1)).map
        (·.2.superclass) := by
  refine Hierarchy.superOf?_ofTrees_flatMap
    (fun c ↦ (inputOf input m.versions c).toOption.getD []) (fun c t ht ↦ ?_) (fun hc ↦ ?_) v
  · cases hinput : inputOf input m.versions c with
    | ok trees =>
      simp only [hinput, Except.toOption, Option.getD_some] at ht
      exact hnamed c trees hinput t ht
    | error e => simp [hinput, Except.toOption] at ht
  · have hreadings : readings input m.versions c = [] := not_not.1 (mt readings_ne_nil.1 hc)
    rw [inputOf, hreadings]
    rfl

/-- What becomes of a class: a tree that cannot be read, a lease that another holds and a merge that
fails each end its job, and the first of them counts. -/
def result (m : MergeRun) (input : Source) (leases : OrderedSet ClassName) (c : ClassName) :
    Except Failure MergedClass :=
  match inputOf input m.versions c with
  | .error e => .error (.unreadable e)
  | .ok trees =>
    if c ∈ leases then .error (.lease (.locked c))
    else ((m.mergerOf input).merge c trees).mapError .merge

section Result

variable {m : MergeRun} {leases : OrderedSet ClassName} {trees : Trees}

theorem result_unreadable {e : StoreError} (hinput : inputOf input m.versions c = .error e) :
    m.result input leases c = .error (.unreadable e) := by
  rw [result, hinput]

theorem result_locked (hinput : inputOf input m.versions c = .ok trees) (hc : c ∈ leases) :
    m.result input leases c = .error (.lease (.locked c)) := by
  rw [result, hinput]
  exact if_pos hc

theorem result_merge (hinput : inputOf input m.versions c = .ok trees) (hc : c ∉ leases) :
    m.result input leases c = ((m.mergerOf input).merge c trees).mapError .merge := by
  rw [result, hinput]
  exact if_neg hc

end Result

/-- The output after the job of a class. -/
def settled (result : ClassName → Except Failure MergedClass) (s : MemoryStore) (c : ClassName) :
    MemoryStore :=
  match result c with
  | .ok merged => s.write c merged.encode
  | .error _ => s

/-- **Every way out of a job gives the lease back.** The job of a class writes the merged tree or
leaves the output as it found it. -/
theorem job_memory (m : MergeRun) (input : Source) {s : MemoryStore}
    (hleases : s.leases = out.leases) (c : ClassName) :
    job MemoryStore.output (m.mergerOf input) (groupsOf input m.versions) c s =
      (m.result input out.leases c, settled (m.result input out.leases) s c) := by
  rw [job, getD_groupsOf, settled]
  cases hinput : inputOf input m.versions c with
  | error e => rw [result_unreadable hinput]
  | ok trees =>
    simp only [writeClass]
    by_cases hc : c ∈ out.leases
    · have hlocked : MemoryStore.output.lease c s = (.error (.locked c), s) :=
        if_pos (hleases ▸ hc)
      rw [hlocked, result_locked hinput hc]
    · have hfree : c ∉ s.leases := hleases ▸ hc
      have hacquire : MemoryStore.output.lease c s = (.ok (), s.held c) :=
        MemoryStore.lease_eq_held hfree
      rw [hacquire, result_merge hinput hc]
      cases (m.mergerOf input).merge c trees with
      | error e => exact Prod.ext rfl (MemoryStore.release_held hfree)
      | ok merged => exact Prod.ext rfl (MemoryStore.release_held_write hfree _)

theorem leases_settled {result : ClassName → Except Failure MergedClass} {s : MemoryStore} :
    (settled result s c).leases = s.leases := by
  rw [settled]
  cases result c <;> rfl

/-- **Step**: a job touches no tree but that of its class. -/
theorem get?_settled {result : ClassName → Except Failure MergedClass} {s : MemoryStore}
    (slot : Slot) : (settled result s c).trees.get? slot =
      if slot = ⟨none, c⟩ then
        ((result c).toOption.map MergedClass.encode).or (s.trees.get? slot)
      else s.trees.get? slot := by
  rw [settled]
  cases result c with
  | ok merged => exact OrderedMap.get?_insert _ _ _ _
  | error e => exact (ite_self _).symm

/-- **Run**: after some jobs the output holds the trees of the classes that they merged, and
whatever it held before. -/
theorem get?_foldl_settled {result : ClassName → Except Failure MergedClass} {cs : List ClassName}
    {s : MemoryStore} (slot : Slot) : (cs.foldl (settled result) s).trees.get? slot =
      if slot.version = none ∧ slot.cls ∈ cs then
        ((result slot.cls).toOption.map MergedClass.encode).or (s.trees.get? slot)
      else s.trees.get? slot :=
  MemoryStore.get?_foldl (fun c ↦ (result c).toOption.map MergedClass.encode)
    (fun _ _ ↦ get?_settled) slot

theorem leases_foldl_settled {result : ClassName → Except Failure MergedClass}
    {cs : List ClassName} {s : MemoryStore} :
    (cs.foldl (settled result) s).leases = s.leases :=
  MemoryStore.leases_foldl fun _ _ ↦ leases_settled

/-- **A run whose versions can be listed ends with the result of every class**, whatever the order
of the jobs. -/
theorem run_eq {m : MergeRun} (out : MemoryStore) (hschedule : ∀ l, (m.schedule l).Perm l)
    (hlist : ∀ v ∈ m.versions, ∃ classes, input.list (some v) = .ok classes) :
    (m.run input MemoryStore.output out).outcome =
        .ok ⟨.merge, m.versions, (listedClasses input m.versions).toList.map fun c ↦
          entry (c, m.result input out.leases c), true⟩ ∧
      (m.run input MemoryStore.output out).state =
        (m.schedule (listedClasses input m.versions).toList).foldl
          (settled (m.result input out.leases)) out := by
  have hload := exists_loaded hlist
  have hrun := Pool.run_eq (settled (m.result input out.leases)) (fun s ↦ s.leases = out.leases)
    (hschedule (listedClasses input m.versions).toList)
    (fun c _ s hs ↦ m.job_memory input hs c) (fun _ _ hs ↦ leases_settled.trans hs) rfl
  have hmerger : (⟨hierarchy (groupsOf input m.versions), m.pinned⟩ : Merger) =
      m.mergerOf input := by
    rw [hierarchy_groupsOf]
    rfl
  have hpair : loadFrom input .empty m.versions =
      (.ok (groupsOf input m.versions), (loadFrom input .empty m.versions).2) := Prod.ext hload rfl
  have hentries : ((listedClasses input m.versions).toList.map fun c ↦
      (c, m.result input out.leases c)).map entry =
      (listedClasses input m.versions).toList.map fun c ↦
        entry (c, m.result input out.leases c) := List.map_map
  rw [run, hpair]
  simp only [hmerger, keys_groupsOf, hrun]
  have hcls : ∀ c, (entry (c, m.result input out.leases c)).cls = c := fun c ↦ by
    rw [entry]
    cases m.result input out.leases c <;> rfl
  exact ⟨congrArg Except.ok (Report.finish_eq hcls (by rw [hentries])), trivial⟩

/-- A run that comes upon a version that cannot be listed does nothing. -/
theorem run_unlisted {m : MergeRun} {e : StoreError} (out : MemoryStore) (hv : v ∈ m.versions)
    (he : input.list (some v) = .error e) :
    (∃ text, (m.run input MemoryStore.output out).outcome = .error text) ∧
      (m.run input MemoryStore.output out).state = out := by
  obtain ⟨text, hload⟩ := loadFrom_unlisted hv he .empty
  have hpair : loadFrom input .empty m.versions =
      (.error text, (loadFrom input .empty m.versions).2) := Prod.ext hload rfl
  rw [run, hpair]
  exact ⟨⟨text, rfl⟩, rfl⟩

/-- The merger of a run over a store. It knows the superclass of every tree. -/
def merger (m : MergeRun) (st : MemoryStore) : Merger :=
  ⟨.ofTrees ((st.classes m.versions).toList.flatMap (st.treesOf m.versions)), m.pinned⟩

theorem mergerOf_memory (m : MergeRun) (st : MemoryStore) : m.mergerOf st.source = m.merger st := by
  rw [mergerOf]
  simp only [inputOf_memory]
  rfl

/-- **A run in which every group merges writes every class.** The report has the classes in their
order; the trees are those of the merged classes. -/
theorem run_memory {m : MergeRun} {merged : ClassName → MergedClass}
    (hschedule : ∀ l, (m.schedule l).Perm l) (hleases : out.leases = .empty)
    (hmerged : ∀ c ∈ st.classes m.versions,
      (m.merger st).merge c (st.treesOf m.versions c) = .ok (merged c)) :
    (m.run st.source MemoryStore.output out).outcome =
        .ok ⟨.merge, m.versions, (st.classes m.versions).toList.map (.written · []), true⟩ ∧
      (m.run st.source MemoryStore.output out).state =
        out.writeAll (fun c ↦ (merged c).encode) (m.schedule (st.classes m.versions).toList) := by
  have hlist : ∀ v ∈ m.versions, ∃ classes, st.source.list (some v) = .ok classes :=
    fun v _ ↦ ⟨st.list (some v), rfl⟩
  have hclasses : listedClasses st.source m.versions = st.classes m.versions := rfl
  have hresult : ∀ c ∈ st.classes m.versions, m.result st.source out.leases c = .ok (merged c) := by
    intro c hc
    have hfree : c ∉ out.leases := by
      rw [hleases]
      exact List.not_mem_nil
    rw [result_merge (inputOf_memory st m.versions c) hfree, mergerOf_memory, hmerged c hc]
    rfl
  obtain ⟨houtcome, hstate⟩ := run_eq out hschedule hlist
  rw [houtcome, hstate, hclasses]
  constructor
  · refine congrArg (fun groups ↦ Except.ok (Report.mk .merge m.versions groups true)) ?_
    refine List.map_congr_left fun c hc ↦ ?_
    rw [hresult c hc]
    rfl
  · refine List.foldl_ext _ _ _ fun s c hc ↦ ?_
    rw [settled, hresult c ((hschedule _).mem_iff.1 hc)]

end ClassWeave.MergeRun
