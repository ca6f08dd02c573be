import ClassWeave.Proofs.Ordered.Map
import ClassWeave.Proofs.Outcome
import ClassWeave.Proofs.Run.Pool
import ClassWeave.Run.Splitting
import ClassWeave.Store.Memory

/-!
# The trees that a split run writes

What a run gives to its output shows in the state of the output only, which may be anything. So the
run is watched: `Output.recorded` is the same output with a record of the trees that it has taken,
and to watch a run changes neither its report nor what becomes of the output (`run_recorded`).

`run_cases` takes a run apart into its two phases. A tree gets on the record in the second one only,
as the finished form of what the first one projected (`finished_of_mem_written`), and the entries of
the report that are neither of the first nor of the second phase are those of classes that could not
be loaded. No other module opens a run or a job, but for runs whose every step is known.
-/

namespace ClassWeave

variable {σ : Type}

/-- The output with a record of the trees that it has taken, the last one first. -/
def Output.recorded (o : Output σ) : Output (σ × List (ClassName × ClassTree)) where
  write c t s :=
    match o.write c t s.1 with
    | (.ok (), s') => (.ok (), s', (c, t) :: s.2)
    | (.error e, s') => (.error e, s', s.2)
  lease c s := ((o.lease c s.1).1, (o.lease c s.1).2, s.2)
  release c s := (o.release c s.1, s.2)

namespace SplitRun

variable {r : SplitRun} {hooks : HookRegistry} {input : Source} {output : Output σ} {s : σ}
  {l : Loaded} {c : ClassName} {t : ClassTree}

/-! ### One class -/

/-- Projecting a class is projecting what the index has under its name. -/
theorem projectClass_eq_ok {q : Projection} : r.projectClass hooks l c = .ok q ↔
    ∃ merged, l.index.get? c = some merged ∧
      (projector hooks l).project merged (directivesOf l c) r.target = .ok q := by
  rw [projectClass]
  cases l.index.get? c with
  | none => simp only [reduceCtorEq, false_and, exists_false]
  | some merged =>
    simp only [Option.some.injEq, exists_eq_left']
    cases (projector hooks l).project merged (directivesOf l c) r.target with
    | ok q' => simp only [Except.ok.injEq]
    | error e => simp only [reduceCtorEq]

/-- A finished tree is linked and, if wanted, checked. -/
theorem finishTree_eq_ok {lk : Linker} {projected : ProjectedClass} :
    r.finishTree lk projected = .ok t ↔ (∃ n, lk.link projected.tree = .ok (t, n)) ∧
      (r.verify = true → lk.index.check r.target t = .ok ()) := by
  rw [finishTree, Outcome.bind_eq_ok]
  constructor
  · rintro ⟨⟨tree, n⟩, hlink, h⟩
    cases hverify : r.verify with
    | false =>
      rw [hverify] at h
      cases Outcome.pure_eq_ok.1 h
      exact ⟨⟨n, hlink⟩, fun hfalse ↦ nomatch hfalse⟩
    | true =>
      rw [hverify] at h
      obtain ⟨_, hcheck, h⟩ := Outcome.bind_eq_ok.1 h
      cases Outcome.pure_eq_ok.1 h
      exact ⟨⟨n, hlink⟩, fun _ ↦ hcheck⟩
  · rintro ⟨⟨n, hlink⟩, hcheck⟩
    refine ⟨(t, n), hlink, ?_⟩
    cases hverify : r.verify with
    | false => rfl
    | true => exact Outcome.bind_eq_ok.2 ⟨(), hcheck hverify, rfl⟩

/-! ### The two phases -/

/-- The projections of all classes. -/
def projections (r : SplitRun) (hooks : HookRegistry) (l : Loaded) : Projected :=
  collect (Pool.runPure (r.projectClass hooks l) (r.schedule l.index.classes.keys))

/-- Whatever the schedule, each class is projected by itself. -/
theorem projections_eq (hschedule : ∀ cs, (r.schedule cs).Perm cs) :
    r.projections hooks l =
      collect (l.index.classes.keys.map fun c ↦ (c, r.projectClass hooks l c)) :=
  congrArg collect
    (Pool.runPure_eq (r.projectClass hooks l) (hschedule l.index.classes.keySet.toList))

/-- The linker that the projections set up. -/
def linker (r : SplitRun) (hooks : HookRegistry) (l : Loaded) : Linker :=
  ⟨l.index, pool (r.projections hooks l), r.target⟩

/-- The results of the second phase, and the output after it. -/
def linked (r : SplitRun) (hooks : HookRegistry) (output : Output σ) (l : Loaded) (s : σ) :
    List (ClassName × Except Failure Unit) × σ :=
  Pool.run (r.job output (r.linker hooks l) (r.projections hooks l))
    (r.schedule (r.projections hooks l).classes.keys) s

/-- The report of both phases. -/
def report (r : SplitRun) (hooks : HookRegistry) (output : Output σ) (l : Loaded) (s : σ) :
    Report :=
  { Report.start (.split r.target) r.versions with
    groups :=
      (l.failed.map fun f : ClassName × String ↦ GroupReport.failed f.1 f.2 []) ++
        (r.projections hooks l).entries ++
        (r.linked hooks output l s).1.map (entry (r.projections hooks l)) }.finish

/-- A run that knows its target goes through both phases. -/
theorem run_of_load (hooks : HookRegistry) (output : Output σ) (s : σ)
    (hl : load input (.ofList r.versions) = .ok l) (hknown : r.knowsTarget l = true) :
    (r.run hooks input output s).outcome = .ok (r.report hooks output l s) ∧
      (r.run hooks input output s).state = (r.linked hooks output l s).2 := by
  rw [run, hl]
  simp only [hknown, Bool.not_true, Bool.false_eq_true, if_false]
  exact ⟨rfl, rfl⟩

/-- **A run goes through both phases, or it ends before it has touched its output.** -/
theorem run_cases (r : SplitRun) (hooks : HookRegistry) (input : Source) (output : Output σ)
    (s : σ) :
    (∃ e, (r.run hooks input output s).outcome = .error e ∧
        (r.run hooks input output s).state = s) ∨
      ∃ l, load input (.ofList r.versions) = .ok l ∧
        (r.run hooks input output s).outcome = .ok (r.report hooks output l s) ∧
        (r.run hooks input output s).state = (r.linked hooks output l s).2 := by
  cases hl : load input (.ofList r.versions) with
  | error e =>
    refine .inl ⟨e, ?_⟩
    rw [run, hl]
    exact ⟨rfl, rfl⟩
  | ok l =>
    cases hknown : r.knowsTarget l with
    | false =>
      refine .inl ⟨"Unknown target version: " ++ r.target.id, ?_⟩
      rw [run, hl]
      simp only [hknown, Bool.not_false, if_true, and_self]
    | true => exact .inr ⟨l, rfl, run_of_load hooks output s hl hknown⟩

/-- A run that gives a report has loaded its input and knows its target. -/
theorem loaded_of_outcome_eq_ok {report : Report}
    (h : (r.run hooks input output s).outcome = .ok report) :
    ∃ l, load input (.ofList r.versions) = .ok l ∧ r.knowsTarget l = true ∧
      report = r.report hooks output l s := by
  rcases r.run_cases hooks input output s with ⟨e, herror, -⟩ | ⟨l, hl, hreport, -⟩
  · rw [herror] at h
    cases h
  · refine ⟨l, hl, ?_, Except.ok.inj (h.symm.trans hreport)⟩
    cases hknown : r.knowsTarget l with
    | true => rfl
    | false =>
      rw [run, hl] at h
      simp only [hknown, Bool.not_false, if_true] at h
      cases h

/-- What is loaded from a store in memory. -/
def loadedFrom (r : SplitRun) (st : MemoryStore) : Loaded :=
  (st.list none).foldl (addClass st.source (.ofList r.versions)) {}

theorem load_source (r : SplitRun) (st : MemoryStore) :
    load st.source (.ofList r.versions) = .ok (r.loadedFrom st) := rfl

/-! ### Watching -/

/-- A watched job does what the job does. -/
theorem job_recorded (lk : Linker) (p : Projected) (c : ClassName)
    (s : σ × List (ClassName × ClassTree)) :
    (r.job output.recorded lk p c s).1 = (r.job output lk p c s.1).1 ∧
      (r.job output.recorded lk p c s).2.1 = (r.job output lk p c s.1).2 := by
  simp only [job, Output.recorded]
  split
  · exact ⟨rfl, rfl⟩
  split
  · exact ⟨rfl, rfl⟩
  rename_i t _
  rcases output.lease c s.1 with ⟨e | ⟨⟩, s'⟩
  · exact ⟨rfl, rfl⟩
  rcases hwrite : output.write c t s' with ⟨e | ⟨⟩, s''⟩ <;> simp only [hwrite, and_self]

/-- **To watch a run changes nothing about it.** -/
theorem run_recorded (s : σ × List (ClassName × ClassTree)) :
    (r.run hooks input output.recorded s).outcome = (r.run hooks input output s.1).outcome ∧
      (r.run hooks input output.recorded s).state.1 = (r.run hooks input output s.1).state := by
  have hlinked : ∀ l, (r.linked hooks output.recorded l s).1 = (r.linked hooks output l s.1).1 ∧
      (r.linked hooks output.recorded l s).2.1 = (r.linked hooks output l s.1).2 := fun l ↦
    Pool.run_forget Prod.fst (fun c s ↦ (job_recorded _ _ c s).1)
      (fun c s ↦ (job_recorded _ _ c s).2) _ s
  cases hl : load input (.ofList r.versions) with
  | error e =>
    rw [run, run, hl]
    exact ⟨rfl, rfl⟩
  | ok l =>
    cases hknown : r.knowsTarget l with
    | false =>
      rw [run, run, hl]
      simp only [hknown]
      exact ⟨rfl, rfl⟩
    | true =>
      obtain ⟨houtcome, hstate⟩ := run_of_load hooks output s.1 hl hknown
      obtain ⟨houtcome', hstate'⟩ := run_of_load hooks output.recorded s hl hknown
      rw [houtcome, houtcome', hstate, hstate', report, report, (hlinked l).1]
      exact ⟨rfl, (hlinked l).2⟩

/-- The trees that a run writes. -/
def written (r : SplitRun) (hooks : HookRegistry) (input : Source) (output : Output σ) (s : σ) :
    List (ClassName × ClassTree) :=
  (r.run hooks input output.recorded (s, [])).state.2

/-- What a run writes, it gives to its output in the second phase. -/
theorem written_eq (hooks : HookRegistry) (output : Output σ) (s : σ)
    (hl : load input (.ofList r.versions) = .ok l) (hknown : r.knowsTarget l = true) :
    r.written hooks input output s =
      (Pool.runInOrder (r.job output.recorded (r.linker hooks l) (r.projections hooks l))
        (r.schedule (r.projections hooks l).classes.keys) (s, [])).2.2 :=
  congrArg Prod.snd (run_of_load hooks output.recorded (s, []) hl hknown).2

/-! ### What is written -/

/-- A record of finished projections. -/
def Finished (r : SplitRun) (lk : Linker) (p : Projected)
    (record : List (ClassName × ClassTree)) : Prop :=
  ∀ e ∈ record, ∃ projected, p.classes.get? e.1 = some projected ∧
    r.finishTree lk projected = .ok e.2

/-- A job writes the finished projection of its class, if anything. -/
theorem finished_job {lk : Linker} {p : Projected} {s : σ × List (ClassName × ClassTree)}
    (hs : r.Finished lk p s.2) : r.Finished lk p (r.job output.recorded lk p c s).2.2 := by
  rw [job]
  cases hget : p.classes.get? c with
  | none => exact hs
  | some projected =>
    cases hfinish : r.finishTree lk projected with
    | error e =>
      simp only [hfinish]
      exact hs
    | ok t =>
      simp only [hfinish, Output.recorded]
      rcases output.lease c s.1 with ⟨e | ⟨⟩, s'⟩
      · exact hs
      · simp only
        rcases output.write c t s' with ⟨e | ⟨⟩, s''⟩
        · exact hs
        · exact List.forall_mem_cons.2 ⟨⟨projected, hget, hfinish⟩, hs⟩

/-- **A run writes nothing but finished projections.** -/
theorem finished_of_mem_written (h : (c, t) ∈ r.written hooks input output s) :
    ∃ l, load input (.ofList r.versions) = .ok l ∧
      ∃ projected, (r.projections hooks l).classes.get? c = some projected ∧
        r.finishTree (r.linker hooks l) projected = .ok t := by
  rw [written] at h
  rcases run_cases r hooks input output.recorded (s, []) with ⟨e, -, hstate⟩ | ⟨l, hl, -, hstate⟩
  · rw [hstate] at h
    exact absurd h List.not_mem_nil
  · rw [hstate] at h
    -- the record is empty at first, and each job keeps to it
    have hfinished : r.Finished (r.linker hooks l) (r.projections hooks l)
        (r.linked hooks output.recorded l (s, [])).2.2 :=
      Pool.runInOrder_invariant
        (P := fun s ↦ r.Finished (r.linker hooks l) (r.projections hooks l) (Prod.snd s))
        (fun c s ↦ finished_job) _ fun _ he ↦ absurd he List.not_mem_nil
    exact ⟨l, hl, hfinished (c, t) h⟩

/-! ### What is projected -/

/-- The projected classes of a run are projections. -/
theorem projectClass_of_get?_projections {projected : ProjectedClass}
    (h : (r.projections hooks l).classes.get? c = some projected) :
    r.projectClass hooks l c = .ok (.projected projected) := by
  have hmem := OrderedMap.mem_of_mem_entries_ofList (OrderedMap.get?_eq_some_iff.1 h)
  obtain ⟨⟨c', result⟩, hresult, hsome⟩ := List.mem_filterMap.1 hmem
  obtain ⟨-, _, hjob⟩ := Pool.exists_of_mem_run hresult
  split at hsome
  · rename_i p hp
    obtain ⟨rfl, rfl⟩ := Prod.mk.inj (Option.some.inj hsome)
    exact hjob.trans hp
  · cases hsome

/-- What the first phase reports is in the report. -/
theorem mem_report_of_mem_entries {g : GroupReport} (hg : g ∈ (r.projections hooks l).entries) :
    g ∈ (r.report hooks output l s).groups :=
  List.mem_mergeSort.2 (List.mem_append_left _ (List.mem_append_right _ hg))

/-- **A class is reported as removed only if its projection is.** -/
theorem projectClass_of_removed {g : GroupReport}
    (hg : g ∈ (r.report hooks output l s).groups) (hstatus : g.status = .removed) :
    r.projectClass hooks l g.cls = .ok .removed := by
  have hg := List.mem_mergeSort.1 hg
  simp only [List.mem_append, List.mem_map] at hg
  -- classes that failed to load, the first phase, the second phase
  rcases hg with (⟨f, -, rfl⟩ | hg) | ⟨⟨c, result⟩, -, rfl⟩
  · cases hstatus
  · obtain ⟨⟨c, result⟩, hresult, hentry⟩ := List.mem_filterMap.1 hg
    obtain ⟨-, _, hjob⟩ := Pool.exists_of_mem_run hresult
    split at hentry
    · cases hentry
    · rename_i hremoved
      cases hentry
      exact hjob.trans hremoved
    · cases hentry
      cases hstatus
  · cases result with
    | ok _ => cases hstatus
    | error e => cases hstatus

end SplitRun

end ClassWeave
