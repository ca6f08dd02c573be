import ClassWeave.Proofs.Link.Leaks
import ClassWeave.Proofs.Run.Pool
import ClassWeave.Proofs.Split.RoundTrip
import ClassWeave.Proofs.Store.Memory
import ClassWeave.Run.Splitting

/-!
# Split runs over stored merges

`MemoryStore.Holds` describes the store that a merge run leaves: each of its classes is stored in
the form of a merged class, and nothing else is stored without a version. A split run over such a
store finds no directives, so its projections are what the target has of each class, and nothing is
redirected. What is left of the run is linking and checking one tree after the other
(`run_memory`).
-/

namespace ClassWeave

/-- A store whose trees without version are those of the given merged classes. -/
structure MemoryStore.Holds (st : MemoryStore) (keys : OrderedSet ClassName)
    (merged : ClassName → MergedClass) : Prop where
  trees : ∀ c, st.trees.get? ⟨none, c⟩ = if c ∈ keys then some (merged c).encode else none
  name : ∀ c ∈ keys, (merged c).name = c
  wellFormed : ∀ c ∈ keys, (merged c).WellFormed

namespace SplitRun

variable {st dst : MemoryStore} {keys : OrderedSet ClassName} {merged : ClassName → MergedClass}

/-! ### Loading -/

/-- A merge leaves no directives. -/
theorem readDirectives_encode (c : MergedClass) : c.encode.readDirectives = .ok {} := by
  have hnone : c.encode.members.filter (!·.directives.isEmpty) = [] := by
    rw [List.filter_eq_nil_iff]
    intro m hm
    obtain ⟨b, -, rfl⟩ := List.mem_map.1 hm
    simp [MergedMember.encode]
  have hmembers : c.encode.memberDirectives = .ok .empty := by
    rw [ClassTree.memberDirectives, hnone]
    rfl
  rw [ClassTree.readDirectives, hmembers]
  rfl

theorem loadClass_memory (h : st.Holds keys merged) (versions : VersionSet) {c : ClassName}
    (hc : c ∈ keys) : loadClass st.source versions c = .ok (merged c, {}) := by
  have hread : st.source.readMerged c = .ok (merged c).encode := by
    show st.readSlot c none = _
    rw [MemoryStore.readSlot, h.trees, if_pos hc]
  have hmerged : (merged c).encode.asMerged versions = .ok (merged c) :=
    MergedClass.decode_encode (h.wellFormed c hc)
  rw [loadClass, hread]
  simp only [hmerged, readDirectives_encode]

/-- What is loaded from a store that holds merged classes. -/
def loadedOf (keys : OrderedSet ClassName) (merged : ClassName → MergedClass) : Loaded where
  index := ⟨.tabulate keys merged⟩
  directives := .tabulate keys fun _ ↦ {}

theorem foldl_addClass (h : st.Holds keys merged) (versions : VersionSet) {cs : List ClassName}
    (hcs : ∀ c ∈ cs, c ∈ keys) (l : Loaded) :
    cs.foldl (addClass st.source versions) l =
      { l with
        index := ⟨l.index.classes.insertAll (cs.map fun c ↦ (c, merged c))⟩
        directives := l.directives.insertAll (cs.map fun c ↦ (c, {})) } := by
  induction cs generalizing l with
  | nil => rfl
  | cons c cs ih =>
    have hc : c ∈ keys := hcs c List.mem_cons_self
    rw [List.foldl_cons, ih fun c' hc' ↦ hcs c' (List.mem_cons_of_mem _ hc'), addClass,
      loadClass_memory h versions hc]
    simp only [MergedIndex.insert, h.name c hc, List.map_cons, OrderedMap.insertAll_cons]

/-- **Every merged class is loaded**, and nothing else. -/
theorem load_memory (h : st.Holds keys merged) (versions : VersionSet) :
    load st.source versions = .ok (loadedOf keys merged) := by
  have hlist : st.source.list none = .ok keys.toList := by
    refine congrArg Except.ok (MemoryStore.list_eq_toList fun c ↦ ?_)
    rw [h.trees]
    by_cases hc : c ∈ keys
    · simp [hc]
    · simp [hc]
  have hindex : OrderedMap.empty.insertAll (keys.toList.map fun c ↦ (c, merged c)) =
      .tabulate keys merged := OrderedMap.ofList_map_eq_tabulate fun _ ↦ .rfl
  have hdirectives :
      OrderedMap.empty.insertAll (keys.toList.map fun c ↦ (c, ({} : ClassDirectives))) =
        .tabulate keys fun _ ↦ {} := OrderedMap.ofList_map_eq_tabulate fun _ ↦ .rfl
  rw [load, hlist]
  simp only [foldl_addClass h versions fun c hc ↦ hc]
  rw [loadedOf, ← hindex, ← hdirectives]
  rfl

/-! ### Projecting -/

/-- The projection of a merged class without directives. -/
def projectionOf (merged : ClassName → MergedClass) (target : Version) (c : ClassName) :
    Projection :=
  if target ∈ (merged c).versions then .projected ⟨(merged c).viewTree target, [], [], []⟩
  else .removed

theorem projectClass_memory (r : SplitRun) (hooks : HookRegistry) {c : ClassName} (hc : c ∈ keys) :
    r.projectClass hooks (loadedOf keys merged) c = .ok (projectionOf merged r.target c) := by
  have hget : (loadedOf keys merged).index.get? c = some (merged c) :=
    OrderedMap.get?_tabulate_of_mem hc
  have hdirectives : directivesOf (loadedOf keys merged) c = {} := by
    rw [directivesOf, loadedOf, OrderedMap.get?_tabulate_of_mem hc]
    rfl
  rw [projectClass, hget, hdirectives]
  by_cases hv : r.target ∈ (merged c).versions
  · simp only [projectionOf, if_pos hv, Projector.project_undirected _ hv]
  · simp only [projectionOf, if_neg hv, Projector.project_absent _ _ hv]

/-- The classes that the target has. -/
def present (keys : OrderedSet ClassName) (merged : ClassName → MergedClass) (target : Version) :
    OrderedSet ClassName :=
  keys.filter fun c ↦ target ∈ (merged c).versions

/-- The projected classes, and an entry for each of the others. -/
def projectedOf (keys : OrderedSet ClassName) (merged : ClassName → MergedClass)
    (target : Version) : Projected where
  classes := .tabulate (present keys merged target) fun c ↦
    ⟨(merged c).viewTree target, [], [], []⟩
  entries := (keys.toList.filter fun c ↦ !decide (target ∈ (merged c).versions)).map .removed

theorem filterMap_eq_map_filter {α β : Type} {g : α → Option β} {p : α → Bool} {f : α → β}
    (h : ∀ a, g a = if p a then some (f a) else none) (l : List α) :
    l.filterMap g = (l.filter p).map f := by
  rw [← List.filterMap_eq_map, List.filterMap_filter]
  exact List.filterMap_congr fun a _ ↦ h a

theorem collect_memory (target : Version) :
    collect (keys.toList.map fun c ↦ (c, .ok (projectionOf merged target c))) =
      projectedOf keys merged target := by
  have hprojected : ∀ c, target ∈ (merged c).versions →
      projectionOf merged target c = .projected ⟨(merged c).viewTree target, [], [], []⟩ :=
    fun c hv ↦ if_pos hv
  have hremoved : ∀ c, target ∉ (merged c).versions → projectionOf merged target c = .removed :=
    fun c hv ↦ if_neg hv
  have hset : OrderedMap.ofList ((keys.toList.filter fun c ↦ target ∈ (merged c).versions).map
      fun c ↦ (c, (⟨(merged c).viewTree target, [], [], []⟩ : ProjectedClass))) =
      (projectedOf keys merged target).classes := OrderedMap.ofList_map_eq_tabulate fun _ ↦ .rfl
  rw [collect, List.filterMap_map, List.filterMap_map,
    filterMap_eq_map_filter (p := fun c ↦ decide (target ∈ (merged c).versions))
      (f := fun c ↦ (c, ⟨(merged c).viewTree target, [], [], []⟩)),
    filterMap_eq_map_filter (p := fun c ↦ !decide (target ∈ (merged c).versions))
      (f := GroupReport.removed), hset]
  · rfl
  · intro c
    by_cases hv : target ∈ (merged c).versions
    · simp [hprojected c hv, hv]
    · simp [hremoved c hv, hv]
  · intro c
    by_cases hv : target ∈ (merged c).versions
    · simp [hprojected c hv, hv]
    · simp [hremoved c hv, hv]

/-- **Projections without directives redirect nothing.** -/
theorem pool_memory (target : Version) : pool (projectedOf keys merged target) = .empty := by
  rw [pool, projectedOf, OrderedMap.values_tabulate]
  generalize (present keys merged target).toList = cs
  induction cs with
  | nil => rfl
  | cons c cs ih => exact ih

/-! ### Linking, checking and writing -/

/-- The entry of a class that is written or does not exist in the target. -/
def entryOf (merged : ClassName → MergedClass) (target : Version) (c : ClassName) : GroupReport :=
  if target ∈ (merged c).versions then .written c [] else .removed c

/-- The linker of a run without redirects. -/
def linkerOf (keys : OrderedSet ClassName) (merged : ClassName → MergedClass) (target : Version) :
    Linker :=
  ⟨⟨.tabulate keys merged⟩, .empty, target⟩

/-- What a run asks of the trees of its target: that linking leaves them alone and that they have no
leaks. -/
structure Sound (keys : OrderedSet ClassName) (merged : ClassName → MergedClass)
    (target : Version) : Prop where
  plainNamesDeclared : ∀ c ∈ keys, (merged c).PlainNamesDeclared
  plain : ∀ c ∈ keys, target ∈ (merged c).versions →
    ∀ insn ∈ ((merged c).viewTree target).insns, insn.IsPlain
  leaks : ∀ c ∈ keys, target ∈ (merged c).versions →
    MergedIndex.leaks ⟨.tabulate keys merged⟩ target ((merged c).viewTree target) = []

/-- **A sound tree passes linking and checking as it is.** -/
theorem finishTree_memory (r : SplitRun) (h : Sound keys merged r.target) {c : ClassName}
    (hc : c ∈ keys) (hv : r.target ∈ (merged c).versions) :
    r.finishTree (linkerOf keys merged r.target) ⟨(merged c).viewTree r.target, [], [], []⟩ =
      .ok ((merged c).viewTree r.target) := by
  have hindex : (linkerOf keys merged r.target).index.PlainNamesDeclared := by
    intro owner m hm
    obtain ⟨howner, rfl⟩ := OrderedMap.get?_tabulate.1 hm
    exact h.plainNamesDeclared owner howner
  have hlink := Linker.link_eq_self hindex rfl (h.plain c hc hv)
  have hcheck := MergedIndex.check_eq_ok.2 (h.leaks c hc hv)
  rw [finishTree]
  refine Outcome.bind_eq_ok.2 ⟨_, hlink, ?_⟩
  cases r.verify with
  | false => rfl
  | true => exact Outcome.bind_eq_ok.2 ⟨(), hcheck, rfl⟩

/-- **The job of a sound class writes its tree**, and leaves no lease. -/
theorem job_memory (r : SplitRun) (h : Sound keys merged r.target) {c : ClassName}
    (hc : c ∈ present keys merged r.target) (hlease : c ∉ dst.leases) :
    r.job MemoryStore.output (linkerOf keys merged r.target) (projectedOf keys merged r.target) c
      dst = (.ok (), dst.write c ((merged c).viewTree r.target)) := by
  obtain ⟨hkey, hv⟩ := OrderedSet.mem_filter.1 hc
  have hget : (projectedOf keys merged r.target).classes.get? c =
      some ⟨(merged c).viewTree r.target, [], [], []⟩ := OrderedMap.get?_tabulate_of_mem hc
  have hacquire : MemoryStore.output.lease c dst = (.ok (), dst.held c) :=
    MemoryStore.lease_eq_held hlease
  have hwrite : ∀ t, MemoryStore.output.write c t (dst.held c) = (.ok (), (dst.held c).write c t) :=
    fun _ ↦ rfl
  rw [job, hget]
  simp only [finishTree_memory r h hkey (of_decide_eq_true hv), hacquire, hwrite]
  exact Prod.ext rfl (MemoryStore.release_held_write hlease _)

theorem cls_entryOf (target : Version) (c : ClassName) : (entryOf merged target c).cls = c := by
  rw [entryOf]
  split
  · rfl
  · rfl

/-- The removed and the written classes are all classes. -/
theorem entries_perm (target : Version) :
    ((projectedOf keys merged target).entries ++
      ((present keys merged target).toList.map fun c ↦ (c, .ok ())).map
        (entry (projectedOf keys merged target))).Perm
      (keys.toList.map (entryOf merged target)) := by
  have hremoved : (projectedOf keys merged target).entries =
      (keys.toList.filter fun c ↦ !decide (target ∈ (merged c).versions)).map
        (entryOf merged target) := by
    refine List.map_congr_left fun c hc ↦ ?_
    have hv : target ∉ (merged c).versions := by simpa using (List.mem_filter.1 hc).2
    exact (if_neg hv).symm
  have hwritten : ((present keys merged target).toList.map fun c ↦ (c, .ok ())).map
      (entry (projectedOf keys merged target)) =
      (keys.toList.filter fun c ↦ decide (target ∈ (merged c).versions)).map
        (entryOf merged target) := by
    rw [List.map_map]
    refine List.map_congr_left fun c hc ↦ ?_
    have hv : target ∈ (merged c).versions := of_decide_eq_true (List.mem_filter.1 hc).2
    have hget : (projectedOf keys merged target).classes.get? c =
        some ⟨(merged c).viewTree target, [], [], []⟩ := OrderedMap.get?_tabulate_of_mem hc
    rw [Function.comp_apply, entry, hget]
    exact (if_pos hv).symm
  rw [hremoved, hwritten, ← List.map_append]
  exact (List.perm_append_comm.trans (List.filter_append_perm _ _)).map _

/-- **A split run over sound trees writes the classes of the target** and removes the others. -/
theorem run_memory {r : SplitRun} (hooks : HookRegistry) (hheld : st.Holds keys merged)
    (hsound : Sound keys merged r.target) (hschedule : ∀ l, (r.schedule l).Perm l)
    (hleases : dst.leases = .empty) (htarget : r.target ∈ r.versions) :
    (r.run hooks st.source MemoryStore.output dst).outcome =
        .ok ⟨.split r.target, r.versions, keys.toList.map (entryOf merged r.target), true⟩ ∧
      (r.run hooks st.source MemoryStore.output dst).state =
        dst.writeAll (fun c ↦ (merged c).viewTree r.target)
          (r.schedule (present keys merged r.target).toList) := by
  have hknown : r.knowsTarget (loadedOf keys merged) = true := by
    rw [knowsTarget, Bool.or_eq_true]
    exact .inl (List.contains_iff_mem.2 htarget)
  have hkeys : (loadedOf keys merged).index.classes.keys = keys.toList := OrderedMap.keys_tabulate
  have hpresent : (projectedOf keys merged r.target).classes.keys =
      (present keys merged r.target).toList := OrderedMap.keys_tabulate
  have hprojections : Pool.runPure (r.projectClass hooks (loadedOf keys merged))
      (r.schedule keys.toList) =
      keys.toList.map fun c ↦ (c, .ok (projectionOf merged r.target c)) := by
    rw [Pool.runPure_eq _ (hschedule _)]
    exact List.map_congr_left fun c hc ↦ by rw [projectClass_memory r hooks hc]
  -- all that a job asks of the store is that nobody holds its class
  have hjob : ∀ c ∈ present keys merged r.target, ∀ s : MemoryStore, s.leases = dst.leases →
      r.job MemoryStore.output (linkerOf keys merged r.target) (projectedOf keys merged r.target) c
        s = (.ok (), s.write c ((merged c).viewTree r.target)) := by
    intro c hc s hs
    refine job_memory r hsound hc ?_
    rw [hs, hleases]
    exact List.not_mem_nil
  have hrun := Pool.run_eq (fun (s : MemoryStore) c ↦ s.write c ((merged c).viewTree r.target))
    (fun s ↦ s.leases = dst.leases) (hschedule (present keys merged r.target).toList) hjob
    (fun _ _ h ↦ h) rfl
  have hlinker : (⟨(loadedOf keys merged).index, .empty, r.target⟩ : Linker) =
    linkerOf keys merged r.target := rfl
  rw [run, load_memory hheld]
  simp only [hknown, hkeys, hprojections, collect_memory, pool_memory, hpresent, hlinker, hrun]
  exact ⟨congrArg Except.ok (Report.finish_eq (cls_entryOf r.target) (entries_perm r.target)), rfl⟩

end SplitRun

end ClassWeave
