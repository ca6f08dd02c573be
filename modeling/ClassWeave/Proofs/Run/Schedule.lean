import ClassWeave.Proofs.Run.Overlap
import ClassWeave.Proofs.Run.Written
import ClassWeave.Proofs.Store.Memory
import ClassWeave.Run.Merging

/-!
# Runs whose jobs overlap

The jobs of merge and split runs are cut into the operations on their output: the lease of the
class, the writing of its tree, and the release. Over a store in memory each of these works on the
lease and the tree of its own class alone (`MemoryStore.parts`), so jobs do not meet
(`MergeRun.task_local`, `SplitRun.task_local`), and a pool of them ends alike on all courses.

A split run has two pools, one after the other. The first has no state at all, and its results are
sorted before the redirects are put together, so that the first redirect of a call site is that of
the first class in order, not of the first job that was over. The second pool then starts on all
courses from the same table (`runs_overlapped`).
-/

namespace ClassWeave

variable {σ β : Type} {c : ClassName}

/-! ### The parts of a store -/

/-- Writes a tree, and releases the lease of the class. -/
def Output.writing (output : Output σ) (c : ClassName) (t : ClassTree)
    (result : Except StoreError Unit → β) : Task σ β :=
  .call (output.write c t) fun written ↦
    .call (fun s ↦ ((), output.release c s)) fun _ ↦ .done (result written)

namespace MemoryStore

/-- The lease and the tree of each class, and the trees of the versions. -/
def parts :
    Parts MemoryStore (Bool × Option ClassTree) (Version → ClassName → Option ClassTree) where
  part c s := (s.isLeased c, s.trees.get? ⟨none, c⟩)
  rest s := s.tree?
  ext {s s'} hpart hrest := by
    have htrees : s.trees = s'.trees := OrderedMap.ext_get? fun ⟨version, c⟩ ↦ by
      cases version with
      | none => exact (Prod.mk.inj (hpart c)).2
      | some v => exact congrFun₂ hrest v c
    have hleases : s.leases = s'.leases := OrderedSet.ext_mem fun c ↦
      decide_eq_decide.1 (Prod.mk.inj (hpart c)).1
    exact congrArg₂ MemoryStore.mk htrees hleases

theorem isLeased_lease (s : MemoryStore) (a : ClassName) :
    (output.lease c s).2.isLeased a = (s.isLeased a || decide (a = c)) := by
  show (lease c s).2.isLeased a = _
  rw [lease]
  split
  · rename_i hc
    by_cases ha : a = c
    · subst ha
      simpa [isLeased] using hc
    · simp [ha]
  · simp only [isLeased, OrderedSet.mem_insert, Bool.decide_or]
    exact Bool.or_comm _ _

theorem isLeased_release (s : MemoryStore) (a : ClassName) :
    (output.release c s).isLeased a = (s.isLeased a && decide (a ≠ c)) := by
  show decide (a ∈ (release c s).leases) = _
  simp only [mem_release, Bool.decide_and]
  rfl

theorem trees_lease (s : MemoryStore) : (output.lease c s).2.trees = s.trees := by
  show (lease c s).2.trees = s.trees
  rw [lease]
  split <;> rfl

theorem get?_write (s : MemoryStore) (t : ClassTree) (slot : Slot) :
    (output.write c t s).2.trees.get? slot =
      if slot = ⟨none, c⟩ then some t else s.trees.get? slot :=
  OrderedMap.get?_insert _ _ _ _

/-- An operation on the lease of a class. -/
theorem touches_of_trees {α : Type} {op : MemoryStore → α × MemoryStore}
    (answer : Bool → α) (leased : Bool → Bool)
    (hanswer : ∀ s, (op s).1 = answer (s.isLeased c))
    (htrees : ∀ s, (op s).2.trees = s.trees)
    (hself : ∀ s, (op s).2.isLeased c = leased (s.isLeased c))
    (hother : ∀ s a, a ≠ c → (op s).2.isLeased a = s.isLeased a) : parts.Touches c op where
  answer {s s'} h := by rw [hanswer, hanswer, (Prod.mk.inj h).1]
  part_self {s s'} h := by
    obtain ⟨hleased, htree⟩ := Prod.mk.inj h
    refine Prod.ext ?_ ?_
    · exact (hself s).trans ((congrArg leased hleased).trans (hself s').symm)
    · show (op s).2.trees.get? _ = (op s').2.trees.get? _
      rw [htrees, htrees]
      exact htree
  part_of_ne s a ha := Prod.ext (hother s a ha) (by
    show (op s).2.trees.get? _ = s.trees.get? _
    rw [htrees])
  rest s := by
    funext v a
    show (op s).2.trees.get? _ = s.trees.get? _
    rw [htrees]

theorem touches_lease (c : ClassName) : parts.Touches c (output.lease c) := by
  refine touches_of_trees (fun leased ↦ if leased then .error (.locked c) else .ok ())
    (fun _ ↦ true) (fun s ↦ ?_) trees_lease (fun s ↦ ?_) (fun s a ha ↦ ?_)
  · show (lease c s).1 = _
    rw [lease, apply_ite Prod.fst]
    simp only [isLeased, decide_eq_true_eq]
  · rw [isLeased_lease, decide_eq_true rfl, Bool.or_true]
  · rw [isLeased_lease, decide_eq_false ha, Bool.or_false]

theorem touches_release (c : ClassName) :
    parts.Touches c fun s ↦ ((), output.release c s) := by
  refine touches_of_trees (fun _ ↦ ()) (fun _ ↦ false) (fun _ ↦ rfl) (fun _ ↦ rfl) (fun s ↦ ?_)
    (fun s a ha ↦ ?_)
  · rw [isLeased_release, decide_eq_false (not_not.2 rfl), Bool.and_false]
  · rw [isLeased_release, decide_eq_true ha, Bool.and_true]

theorem touches_write (c : ClassName) (t : ClassTree) : parts.Touches c (output.write c t) where
  answer _ := rfl
  part_self {s s'} h := Prod.ext (Prod.mk.inj h).1
    ((get?_write s t _).trans ((if_pos rfl).trans ((get?_write s' t _).trans (if_pos rfl)).symm))
  part_of_ne s a ha := Prod.ext rfl
    ((get?_write s t _).trans (if_neg fun h ↦ ha (congrArg Slot.cls h)))
  rest s := by
    funext v a
    exact (get?_write s t _).trans (if_neg (by simp))

theorem writing_local (c : ClassName) (t : ClassTree) (result : Except StoreError Unit → β) :
    (output.writing c t result).Local parts c :=
  ⟨touches_write c t, fun _ ↦ ⟨touches_release c, fun _ ↦ trivial⟩⟩

end MemoryStore

/-! ### Merge runs -/

namespace MergeRun

/-- The job of one class, cut into operations. -/
def task (output : Output σ) (merger : Merger) (groups : OrderedMap ClassName ClassInput)
    (c : ClassName) : Task σ (Except Failure MergedClass) :=
  match (groups.get? c).getD (.ok []) with
  | .error e => .done (.error (.unreadable e))
  | .ok trees => .call (output.lease c) fun
    | .error e => .done (.error (.lease e))
    | .ok () =>
      match merger.merge c trees with
      | .error e =>
        .call (fun s ↦ ((), output.release c s)) fun _ ↦ .done (.error (.merge e))
      | .ok merged => output.writing c merged.encode fun
        | .error e => .error (.write e)
        | .ok () => .ok merged

theorem run_task (output : Output σ) (merger : Merger) (groups : OrderedMap ClassName ClassInput)
    (c : ClassName) (s : σ) :
    (task output merger groups c).run s = job output merger groups c s := by
  rw [task, job]
  cases (groups.get? c).getD (.ok []) with
  | error e => rfl
  | ok trees =>
    simp only [writeClass, Task.run]
    rcases output.lease c s with ⟨_ | _, s₁⟩
    · rfl
    · cases merger.merge c trees with
      | error e => rfl
      | ok merged =>
        simp only [Output.writing, Task.run]
        rcases output.write c merged.encode s₁ with ⟨_ | _, s₂⟩ <;> rfl

theorem task_local (merger : Merger) (groups : OrderedMap ClassName ClassInput) (c : ClassName) :
    (task MemoryStore.output merger groups c).Local MemoryStore.parts c := by
  rw [task]
  cases (groups.get? c).getD (.ok []) with
  | error e => trivial
  | ok trees =>
    refine ⟨MemoryStore.touches_lease c, fun leased ↦ ?_⟩
    cases leased with
    | error e => trivial
    | ok _ =>
      simp only
      cases merger.merge c trees with
      | error e => exact ⟨MemoryStore.touches_release c, fun _ ↦ trivial⟩
      | ok merged => exact MemoryStore.writing_local c _ _

/-- A run whose jobs follow a course: what it says and what it leaves. -/
def overlapped (m : MergeRun) (input : Source) (output : Output σ) (course : Pool.Course) (s : σ) :
    Option (Except String Report × σ) :=
  match (loadFrom input .empty m.versions).1 with
  | .error e => some (.error e, s)
  | .ok groups =>
    (Pool.overlapped (task output ⟨hierarchy groups, m.pinned⟩ groups) groups.keys course s).map
      fun x ↦ (.ok { Report.start .merge m.versions with groups := x.1.map entry }.finish, x.2)

variable {m : MergeRun} {input : Source} {out : MemoryStore} {course course' : Pool.Course}
  {x x' : Except String Report × MemoryStore}

theorem overlapped_unique (h : m.overlapped input MemoryStore.output course out = some x)
    (h' : m.overlapped input MemoryStore.output course' out = some x') : x = x' := by
  rw [overlapped] at h h'
  cases hload : (loadFrom input .empty m.versions).1 with
  | error e =>
    rw [hload] at h h'
    exact Option.some.inj (h.symm.trans h')
  | ok groups =>
    rw [hload] at h h'
    obtain ⟨y, hy, rfl⟩ := Option.map_eq_some_iff.1 h
    obtain ⟨y', hy', rfl⟩ := Option.map_eq_some_iff.1 h'
    have hends : y = y' := Pool.overlapped_unique groups.keySet
      (task_local ⟨hierarchy groups, m.pinned⟩ groups) hy hy'
    rw [hends]

/-- **However the jobs of a merge run overlap**, it ends as the run that does one after the
other. -/
theorem overlapped_eq_run (hschedule : ∀ cs, (m.schedule cs).Perm cs)
    (h : m.overlapped input MemoryStore.output course out = some x) :
    x = ((m.run input MemoryStore.output out).outcome,
      (m.run input MemoryStore.output out).state) := by
  rw [overlapped] at h
  rw [run]
  rcases hload : loadFrom input .empty m.versions with ⟨e | groups, events⟩
  all_goals rw [hload] at h
  · exact (Option.some.inj h).symm
  · obtain ⟨y, hy, rfl⟩ := Option.map_eq_some_iff.1 h
    have hrun := Pool.overlapped_eq_run groups.keySet
      (task_local ⟨hierarchy groups, m.pinned⟩ groups) (hschedule groups.keys) hy
    rw [hrun, funext₂ (run_task _ _ _)]

end MergeRun

/-! ### Split runs -/

namespace SplitRun

/-- The job of one projected class, cut into operations. -/
def task (r : SplitRun) (output : Output σ) (l : Linker) (p : Projected) (c : ClassName) :
    Task σ (Except Failure Unit) :=
  match p.classes.get? c with
  | none => .done (.ok ())
  | some projected =>
    match r.finishTree l projected with
    | .error e => .done (.error (.split e))
    | .ok tree => .call (output.lease c) fun
      | .error e => .done (.error (.store e))
      | .ok () => output.writing c tree fun
        | .error e => .error (.store e)
        | .ok () => .ok ()

theorem run_task (r : SplitRun) (output : Output σ) (l : Linker) (p : Projected) (c : ClassName)
    (s : σ) : (r.task output l p c).run s = r.job output l p c s := by
  rw [task, job]
  cases p.classes.get? c with
  | none => rfl
  | some projected =>
    simp only
    cases r.finishTree l projected with
    | error e => rfl
    | ok tree =>
      simp only [Task.run]
      rcases output.lease c s with ⟨_ | _, s₁⟩
      · rfl
      · simp only [Output.writing, Task.run]
        rcases output.write c tree s₁ with ⟨_ | _, s₂⟩ <;> rfl

theorem task_local (r : SplitRun) (l : Linker) (p : Projected) (c : ClassName) :
    (r.task MemoryStore.output l p c).Local MemoryStore.parts c := by
  rw [task]
  cases p.classes.get? c with
  | none => trivial
  | some projected =>
    simp only
    cases r.finishTree l projected with
    | error e => trivial
    | ok tree =>
      refine ⟨MemoryStore.touches_lease c, fun leased ↦ ?_⟩
      cases leased with
      | error e => trivial
      | ok _ => exact MemoryStore.writing_local c _ _

/-- The classes of a run that are projected on some course. -/
def overlappedProjections (r : SplitRun) (hooks : HookRegistry) (l : Loaded)
    (course : Pool.Course) : Option Projected :=
  (Pool.overlapped (fun c ↦ Task.done (r.projectClass hooks l c)) l.index.classes.keys course
    ()).map fun x ↦ collect x.1

/-- A run whose jobs follow one course in the first phase and another one in the second: what it
says, with the table of redirects that it has put together in between, and what it leaves. -/
def overlapped (r : SplitRun) (hooks : HookRegistry) (input : Source) (output : Output σ)
    (first second : Pool.Course) (s : σ) :
    Option (Except String (Report × RedirectTable) × σ) :=
  match load input (.ofList r.versions) with
  | .error e => some (.error e, s)
  | .ok l =>
    if !r.knowsTarget l then some (.error ("Unknown target version: " ++ r.target.id), s)
    else
      (r.overlappedProjections hooks l first).bind fun p ↦
        (Pool.overlapped (r.task output ⟨l.index, pool p, r.target⟩ p) p.classes.keys second s).map
          fun x ↦
            (.ok ({ Report.start (.split r.target) r.versions with
              groups := (l.failed.map fun f : ClassName × String ↦ GroupReport.failed f.1 f.2 []) ++
                p.entries ++ x.1.map (entry p) }.finish, pool p), x.2)

variable {r : SplitRun} {hooks : HookRegistry} {input : Source} {out : MemoryStore} {l : Loaded}
  {first first' second second' : Pool.Course}
  {x x' : Except String (Report × RedirectTable) × MemoryStore}

/-- The parts of nothing. -/
def noParts : Parts Unit Unit Unit := ⟨fun _ _ ↦ (), fun _ ↦ (), fun _ _ ↦ rfl⟩

theorem overlappedProjections_unique {p p' : Projected}
    (h : r.overlappedProjections hooks l first = some p)
    (h' : r.overlappedProjections hooks l first' = some p') : p = p' := by
  obtain ⟨y, hy, rfl⟩ := Option.map_eq_some_iff.1 h
  obtain ⟨y', hy', rfl⟩ := Option.map_eq_some_iff.1 h'
  have hends : y = y' := Pool.overlapped_unique (P := noParts) l.index.classes.keySet
    (fun _ ↦ Task.local_done _) hy hy'
  rw [hends]

/-- **The first phase ends alike on every course**, and so does what is put together from it. -/
theorem overlappedProjections_eq (hschedule : ∀ cs, (r.schedule cs).Perm cs) {p : Projected}
    (h : r.overlappedProjections hooks l first = some p) : p = r.projections hooks l := by
  obtain ⟨y, hy, rfl⟩ := Option.map_eq_some_iff.1 h
  have hrun := Pool.overlapped_eq_run (P := noParts) l.index.classes.keySet
    (fun _ ↦ Task.local_done _) (hschedule l.index.classes.keys) hy
  exact congrArg (fun y ↦ collect y.1) hrun

theorem overlapped_unique
    (h : r.overlapped hooks input MemoryStore.output first second out = some x)
    (h' : r.overlapped hooks input MemoryStore.output first' second' out = some x') : x = x' := by
  rw [overlapped] at h h'
  cases hload : load input (.ofList r.versions) with
  | error e =>
    rw [hload] at h h'
    exact Option.some.inj (h.symm.trans h')
  | ok l =>
    rw [hload] at h h'
    simp only at h h'
    split at h
    · rename_i hunknown
      rw [if_pos hunknown] at h'
      exact Option.some.inj (h.symm.trans h')
    · rename_i hknown
      rw [if_neg hknown] at h'
      obtain ⟨p, hp, h⟩ := Option.bind_eq_some_iff.1 h
      obtain ⟨p', hp', h'⟩ := Option.bind_eq_some_iff.1 h'
      obtain rfl := overlappedProjections_unique hp hp'
      obtain ⟨y, hy, rfl⟩ := Option.map_eq_some_iff.1 h
      obtain ⟨y', hy', rfl⟩ := Option.map_eq_some_iff.1 h'
      have hends : y = y' := Pool.overlapped_unique p.classes.keySet
        (task_local r ⟨l.index, pool p, r.target⟩ p) hy hy'
      rw [hends]

/-- **However the jobs of a split run overlap**, it ends as the run that does one after the
other. -/
theorem overlapped_eq_run (hschedule : ∀ cs, (r.schedule cs).Perm cs)
    (h : r.overlapped hooks input MemoryStore.output first second out = some x) :
    x.1.map Prod.fst = (r.run hooks input MemoryStore.output out).outcome ∧
      x.2 = (r.run hooks input MemoryStore.output out).state := by
  rw [overlapped] at h
  cases hload : load input (.ofList r.versions) with
  | error e =>
    rw [hload] at h
    obtain rfl := Option.some.inj h
    rw [run, hload]
    exact ⟨rfl, rfl⟩
  | ok l =>
    rw [hload] at h
    simp only at h
    split at h
    · rename_i hunknown
      obtain rfl := Option.some.inj h
      rw [run, hload]
      simp only [if_pos hunknown]
      exact ⟨rfl, trivial⟩
    · rename_i hknown
      obtain ⟨p, hp, h⟩ := Option.bind_eq_some_iff.1 h
      obtain rfl := overlappedProjections_eq hschedule hp
      obtain ⟨y, hy, rfl⟩ := Option.map_eq_some_iff.1 h
      have hlinked : y = r.linked hooks MemoryStore.output l out := by
        have hrun := Pool.overlapped_eq_run (r.projections hooks l).classes.keySet
          (task_local r (r.linker hooks l) (r.projections hooks l))
          (hschedule (r.projections hooks l).classes.keys) hy
        rwa [funext₂ (run_task _ _ _ _)] at hrun
      have hrun := run_of_load hooks MemoryStore.output out hload (by simpa using hknown)
      rw [hrun.1, hrun.2, hlinked]
      exact ⟨rfl, rfl⟩

/-- Courses that are complete in both phases are complete. -/
theorem exists_overlapped (r : SplitRun) (hooks : HookRegistry) (output : Output σ) (s : σ)
    (first second : Pool.Course) (hschedule : ∀ cs, (r.schedule cs).Perm cs)
    (hl : load input (.ofList r.versions) = .ok l) (hknown : r.knowsTarget l = true)
    (hfirst : (r.overlappedProjections hooks l first).isSome)
    (hsecond : (Pool.overlapped (r.task output (r.linker hooks l) (r.projections hooks l))
      (r.projections hooks l).classes.keys second s).isSome) :
    ∃ x, r.overlapped hooks input output first second s = some x ∧
      x.1.map Prod.snd = .ok (pool (r.projections hooks l)) := by
  obtain ⟨p, hp⟩ := Option.isSome_iff_exists.1 hfirst
  obtain ⟨y, hy⟩ := Option.isSome_iff_exists.1 hsecond
  obtain rfl := overlappedProjections_eq hschedule hp
  rw [linker] at hy
  rw [overlapped, hl]
  simp only [hknown, Bool.not_true, Bool.false_eq_true, if_false, hp, Option.bind_some, hy,
    Option.map_some]
  exact ⟨_, rfl, rfl⟩

end SplitRun

/-- **Runs do not depend on how their jobs overlap.** All complete courses of a run end with the
same report and leave the same store, and the courses of a split run put together the same table of
redirects and stand-ins. That is also how the run ends that does one job after the other, in any
order. The numbers of threads are any, those that a program can be told (`Pool.maxThreads`) among
them. -/
theorem runs_overlapped (input : Source) (out : MemoryStore) :
    (∀ (m : MergeRun) (course course' : Pool.Course) (x x' : Except String Report × MemoryStore),
      m.overlapped input MemoryStore.output course out = some x →
      m.overlapped input MemoryStore.output course' out = some x' →
      x = x' ∧ ((∀ cs, (m.schedule cs).Perm cs) →
        x = ((m.run input MemoryStore.output out).outcome,
          (m.run input MemoryStore.output out).state))) ∧
    ∀ (r : SplitRun) (hooks : HookRegistry) (first second first' second' : Pool.Course)
      (x x' : Except String (Report × RedirectTable) × MemoryStore),
      r.overlapped hooks input MemoryStore.output first second out = some x →
      r.overlapped hooks input MemoryStore.output first' second' out = some x' →
      x = x' ∧ ((∀ cs, (r.schedule cs).Perm cs) →
        x.1.map Prod.fst = (r.run hooks input MemoryStore.output out).outcome ∧
          x.2 = (r.run hooks input MemoryStore.output out).state) :=
  ⟨fun _ _ _ _ _ h h' ↦ ⟨MergeRun.overlapped_unique h h', fun hschedule ↦
      MergeRun.overlapped_eq_run hschedule h⟩,
    fun _ _ _ _ _ _ _ _ h h' ↦ ⟨SplitRun.overlapped_unique h h', fun hschedule ↦
      SplitRun.overlapped_eq_run hschedule h⟩⟩

/-! ### Two courses of the same runs -/

/-- One job after the other, each with some turns, on one thread. -/
def Pool.Course.oneByOne (turns : Nat) (classes : List ClassName) : Pool.Course :=
  ⟨1, classes.flatMap fun c ↦ .start c :: (List.replicate turns (.turn c) ++ [.join c])⟩

/-- All jobs at once and turn by turn, and their results joined from the last class to the first. -/
def Pool.Course.inStep (turns : Nat) (classes : List ClassName) : Pool.Course :=
  ⟨classes.length, classes.map .start ++ (List.replicate turns (classes.map .turn)).flatten ++
    classes.reverse.map .join⟩

/-- A class that stands in for another one, and that has a stub for a method of a third one. -/
def rival (name : String) : ClassTree where
  name := ⟨name⟩
  access := .publicAccess
  members := [
    { name := "f", desc := "()V", kind := .method, isStatic := true, access := .publicAccess
      body := some (.code 0 []), directives := [.stub [⟨"a"⟩] ⟨"x/T", "f", "()V"⟩ false] }]
  directives := [.stub [⟨"a"⟩] ⟨"x/Old", "", ""⟩ false]

/-- Two classes of which each stands in for `x/Old` and has a stub for `x/T.f`. -/
def rivalStore : MemoryStore :=
  MemoryStore.empty |>.insert none (rival "x/P") |>.insert none (rival "x/Q")

def rivalSplit : SplitRun := { versions := [⟨"a"⟩], target := ⟨"a"⟩ }

/-- One class that both versions have, and one that only one has. -/
def pairStore : MemoryStore :=
  MemoryStore.empty
    |>.insert (some ⟨"a"⟩) { name := ⟨"x/P"⟩, access := .publicAccess }
    |>.insert (some ⟨"b"⟩) { name := ⟨"x/P"⟩, access := .publicAccess }
    |>.insert (some ⟨"b"⟩) { name := ⟨"x/Q"⟩, access := .publicAccess }

def pairMerge : MergeRun := { versions := [⟨"a"⟩, ⟨"b"⟩] }

theorem SplitRun.projections_rivalStore :
    rivalSplit.projections .empty (rivalSplit.loadedFrom rivalStore) = collect
      [(⟨"x/P"⟩, rivalSplit.projectClass .empty (rivalSplit.loadedFrom rivalStore) ⟨"x/P"⟩),
        (⟨"x/Q"⟩, rivalSplit.projectClass .empty (rivalSplit.loadedFrom rivalStore) ⟨"x/Q"⟩)] :=
  projections_eq fun _ ↦ .refl _

theorem runs_overlapped_rivals :
    (∃ x, pairMerge.overlapped pairStore.source MemoryStore.output
        (.oneByOne 4 [⟨"x/Q"⟩, ⟨"x/P"⟩]) .empty = some x ∧
      pairMerge.overlapped pairStore.source MemoryStore.output
        (.inStep 4 [⟨"x/P"⟩, ⟨"x/Q"⟩]) .empty = some x) ∧
    ∃ x, rivalSplit.overlapped .empty rivalStore.source MemoryStore.output
        (.oneByOne 1 [⟨"x/P"⟩, ⟨"x/Q"⟩]) (.oneByOne 4 [⟨"x/P"⟩, ⟨"x/Q"⟩]) .empty = some x ∧
      rivalSplit.overlapped .empty rivalStore.source MemoryStore.output
        (.oneByOne 1 [⟨"x/Q"⟩, ⟨"x/P"⟩]) (.inStep 4 [⟨"x/Q"⟩, ⟨"x/P"⟩]) .empty = some x ∧
      ∃ table, x.1.map Prod.snd = .ok table ∧ table.typeFor? ⟨"x/Old"⟩ = some ⟨"x/P"⟩ ∧
        table.get? ⟨⟨"x/T"⟩, "f", "()V", .call⟩ =
          some (.member (.invoke .static) ⟨"x/P"⟩ "f" "()V") := by
  constructor
  · obtain ⟨x, hx⟩ : ∃ x, pairMerge.overlapped pairStore.source MemoryStore.output
      (.oneByOne 4 [⟨"x/Q"⟩, ⟨"x/P"⟩]) .empty = some x :=
      Option.isSome_iff_exists.1 (by decide +kernel)
    obtain ⟨x', hx'⟩ : ∃ x, pairMerge.overlapped pairStore.source MemoryStore.output
      (.inStep 4 [⟨"x/P"⟩, ⟨"x/Q"⟩]) .empty = some x :=
      Option.isSome_iff_exists.1 (by decide +kernel)
    have hends := ((runs_overlapped _ _).1 pairMerge _ _ x x' hx hx').1
    exact ⟨x, hx, hends ▸ hx'⟩
  · have hload := SplitRun.load_source rivalSplit rivalStore
    have hknown : rivalSplit.knowsTarget (rivalSplit.loadedFrom rivalStore) = true := by
      decide +kernel
    obtain ⟨x, hx, htable⟩ := SplitRun.exists_overlapped rivalSplit .empty MemoryStore.output .empty
      (.oneByOne 1 [⟨"x/P"⟩, ⟨"x/Q"⟩]) (.oneByOne 4 [⟨"x/P"⟩, ⟨"x/Q"⟩]) (fun _ ↦ .refl _) hload
      hknown (by decide +kernel)
      (by rw [SplitRun.linker, SplitRun.projections_rivalStore]; decide +kernel)
    obtain ⟨x', hx', -⟩ := SplitRun.exists_overlapped rivalSplit .empty MemoryStore.output .empty
      (.oneByOne 1 [⟨"x/Q"⟩, ⟨"x/P"⟩]) (.inStep 4 [⟨"x/Q"⟩, ⟨"x/P"⟩]) (fun _ ↦ .refl _) hload
      hknown (by decide +kernel)
      (by rw [SplitRun.linker, SplitRun.projections_rivalStore]; decide +kernel)
    have hends := ((runs_overlapped _ _).2 rivalSplit _ _ _ _ _ x x' hx hx').1
    refine ⟨x, hx, hends ▸ hx', _, htable, ?_⟩
    rw [SplitRun.projections_rivalStore]
    decide +kernel

end ClassWeave
