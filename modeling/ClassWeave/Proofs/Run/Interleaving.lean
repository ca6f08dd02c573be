import ClassWeave.Proofs.Run.Merging
import Mathlib.Logic.Function.Basic

/-!
# Jobs that overlap

A run does its jobs one after the other. On several threads they overlap: only the single
operations of the output are indivisible, and between two of them other jobs go on. So the job of a
class is cut here into its steps, `Jobs.turn`, and any sequence of turns is followed. Turns in a row
do what the job does (`Jobs.turns_alone`).

Nobody else touches what a job works on: its class is leased, written and released by its own job
only. `Jobs.Tracks` says so of every moment, in terms of how far each job has come. When all jobs
are over, nothing is left to tell one sequence of turns from another, nor from the run
(`Jobs.underWay_eq_run`).
-/

namespace ClassWeave.MergeRun

/-- How far the job of a class has come. -/
inductive Phase where
  | waiting
  /-- It holds the lease, and is going to merge the trees. -/
  | leased (trees : Trees)
  /-- It has its result, and still holds the lease. -/
  | settled (result : Except Failure MergedClass)
  | ended (result : Except Failure MergedClass)

namespace Phase

def HoldsLease : Phase → Prop
  | leased _ | settled _ => True
  | waiting | ended _ => False

def isEnded : Phase → Bool
  | ended _ => true
  | waiting | leased _ | settled _ => false

/-- The class that the job has written. -/
def written? : Phase → Option MergedClass
  | settled result | ended result => result.toOption
  | waiting | leased _ => none

end Phase

/-- The jobs of a run that is under way. -/
structure Jobs (σ : Type) where
  store : σ
  phase : ClassName → Phase

namespace Jobs

variable {σ : Type}

def start (s : σ) : Jobs σ := ⟨s, fun _ ↦ .waiting⟩

/-- The job of a class comes to a further phase. -/
def advance (j : Jobs σ) (c : ClassName) (s : σ) (p : Phase) : Jobs σ :=
  ⟨s, Function.update j.phase c p⟩

/-- The next step of the job of a class. -/
def turn (output : Output σ) (merger : Merger) (groups : OrderedMap ClassName ClassInput)
    (j : Jobs σ) (c : ClassName) : Jobs σ :=
  match j.phase c with
  | .waiting =>
    match (groups.get? c).getD (.ok []) with
    | .error e => j.advance c j.store (.ended (.error (.unreadable e)))
    | .ok trees =>
      match output.lease c j.store with
      | (.error e, s) => j.advance c s (.ended (.error (.lease e)))
      | (.ok (), s) => j.advance c s (.leased trees)
  | .leased trees =>
    match merger.merge c trees with
    | .error e => j.advance c j.store (.settled (.error (.merge e)))
    | .ok merged =>
      match output.write c merged.encode j.store with
      | (.error e, s) => j.advance c s (.settled (.error (.write e)))
      | (.ok (), s) => j.advance c s (.settled (.ok merged))
  | .settled result => j.advance c (output.release c j.store) (.ended result)
  | .ended _ => j

section Alone

variable {output : Output σ} {merger : Merger} {groups : OrderedMap ClassName ClassInput}
  {c : ClassName} {j : Jobs σ} {s s' : σ} {p p' : Phase}

@[simp]
theorem store_advance : (j.advance c s p).store = s := rfl

@[simp]
theorem phase_advance_self : (j.advance c s p).phase c = p := Function.update_self ..

theorem phase_advance_of_ne {a : ClassName} (h : a ≠ c) : (j.advance c s p).phase a = j.phase a :=
  Function.update_of_ne h ..

@[simp]
theorem advance_advance : (j.advance c s p).advance c s' p' = j.advance c s' p' :=
  congrArg (Jobs.mk s') (Function.update_idem ..)

/-- A turn brings its own job further, or finds it over. -/
theorem turn_eq_or (output : Output σ) (merger : Merger) (groups : OrderedMap ClassName ClassInput)
    (j : Jobs σ) (c : ClassName) : turn output merger groups j c = j ∨
      ∃ s p, turn output merger groups j c = j.advance c s p := by
  rw [turn]
  split
  · split
    · exact .inr ⟨_, _, rfl⟩
    · split <;> exact .inr ⟨_, _, rfl⟩
  · split
    · exact .inr ⟨_, _, rfl⟩
    · split <;> exact .inr ⟨_, _, rfl⟩
  · exact .inr ⟨_, _, rfl⟩
  · exact .inl rfl

theorem phase_turn_of_ne {a : ClassName} (h : a ≠ c) :
    (turn output merger groups j c).phase a = j.phase a := by
  rcases turn_eq_or output merger groups j c with hj | ⟨s, p, hj⟩
  · rw [hj]
  · rw [hj, phase_advance_of_ne h]

/-- **Turns in a row do the job.** -/
theorem turns_alone (h : j.phase c = .waiting) :
    [c, c, c].foldl (turn output merger groups) j =
      j.advance c (job output merger groups c j.store).2
        (.ended (job output merger groups c j.store).1) := by
  simp only [List.foldl_cons, List.foldl_nil]
  rw [turn.eq_def output merger groups j, h, job]
  cases (groups.get? c).getD (.ok []) with
  | error e => simp [turn]
  | ok trees =>
    simp only [writeClass]
    rcases output.lease c j.store with ⟨_ | _, s⟩
    · simp [turn]
    · simp only [turn, phase_advance_self, store_advance]
      cases merger.merge c trees with
      | error e => simp
      | ok merged =>
        simp only
        rcases output.write c merged.encode s with ⟨_ | _, s'⟩ <;> simp

end Alone

/-! ### What a moment looks like -/

section Tracks

variable {m : MergeRun} {input : Source} {out : MemoryStore} {j : Jobs MemoryStore} {c : ClassName}

/-- What has to hold for the job of a class to come to a phase. -/
def Reaches (m : MergeRun) (input : Source) (leases : OrderedSet ClassName) (c : ClassName) :
    Phase → Prop
  | .waiting => True
  | .leased trees => c ∉ leases ∧ inputOf input m.versions c = .ok trees
  | .settled result => c ∉ leases ∧ result = m.result input leases c
  | .ended result => result = m.result input leases c

/-- The jobs of a run under way: each has come somewhere on its own way, the leases are those of
the jobs that hold one besides those of others, and the trees are those of the jobs that have
written. -/
structure Tracks (m : MergeRun) (input : Source) (out : MemoryStore) (j : Jobs MemoryStore) :
    Prop where
  reaches : ∀ c, Reaches m input out.leases c (j.phase c)
  mem_leases : ∀ c, c ∈ j.store.leases ↔ c ∈ out.leases ∨ (j.phase c).HoldsLease
  get?_trees : ∀ slot, j.store.trees.get? slot =
    if slot.version = none then
      ((j.phase slot.cls).written?.map MergedClass.encode).or (out.trees.get? slot)
    else out.trees.get? slot

theorem tracks_start (m : MergeRun) (input : Source) (out : MemoryStore) :
    Tracks m input out (start out) where
  reaches _ := trivial
  mem_leases _ := (or_iff_left id).symm
  get?_trees slot := by
    rw [start, Phase.written?, Option.map_none, Option.none_or, ite_self]

theorem Tracks.get?_own (h : Tracks m input out j) (c : ClassName) :
    j.store.trees.get? ⟨none, c⟩ =
      ((j.phase c).written?.map MergedClass.encode).or (out.trees.get? ⟨none, c⟩) := by
  rw [h.get?_trees, if_pos rfl]

/-- A step that touches nothing but the lease and the tree of its own class. -/
theorem Tracks.advance (h : Tracks m input out j) {s : MemoryStore} {p : Phase}
    (hreaches : Reaches m input out.leases c p)
    (hlease : c ∈ s.leases ↔ c ∈ out.leases ∨ p.HoldsLease)
    (hleases : ∀ a, a ≠ c → (a ∈ s.leases ↔ a ∈ j.store.leases))
    (htree : s.trees.get? ⟨none, c⟩ =
      (p.written?.map MergedClass.encode).or (out.trees.get? ⟨none, c⟩))
    (htrees : ∀ slot, slot ≠ ⟨none, c⟩ → s.trees.get? slot = j.store.trees.get? slot) :
    Tracks m input out (j.advance c s p) where
  reaches a := by
    by_cases ha : a = c
    · subst ha
      rwa [phase_advance_self]
    · rw [phase_advance_of_ne ha]
      exact h.reaches a
  mem_leases a := by
    rw [store_advance]
    by_cases ha : a = c
    · subst ha
      rwa [phase_advance_self]
    · rw [phase_advance_of_ne ha, hleases a ha, h.mem_leases]
  get?_trees slot := by
    rw [store_advance]
    obtain ⟨version, cls⟩ := slot
    by_cases hcls : cls = c
    · subst hcls
      rw [phase_advance_self]
      cases version with
      | none => rw [htree, if_pos rfl]
      | some v => rw [htrees _ (by simp), h.get?_trees, if_neg (by simp), if_neg (by simp)]
    · rw [phase_advance_of_ne hcls, htrees _ (by simp [hcls]), h.get?_trees]

/-- A step that does not touch the output. -/
theorem Tracks.advance_store (h : Tracks m input out j) {p : Phase}
    (hreaches : Reaches m input out.leases c p)
    (hholds : p.HoldsLease ↔ (j.phase c).HoldsLease)
    (hwritten : p.written? = (j.phase c).written?) :
    Tracks m input out (j.advance c j.store p) :=
  h.advance hreaches (by rw [h.mem_leases, hholds]) (fun _ _ ↦ Iff.rfl)
    (by rw [h.get?_own, hwritten]) (fun _ _ ↦ rfl)

/-- **Step**: a turn of any job keeps this. -/
theorem Tracks.turn (h : Tracks m input out j) (c : ClassName) :
    Tracks m input out
      (j.turn MemoryStore.output (m.mergerOf input) (groupsOf input m.versions) c) := by
  have hreaches := h.reaches c
  have hlease := h.mem_leases c
  have hown := h.get?_own c
  rw [Jobs.turn, getD_groupsOf]
  cases hphase : j.phase c with
  | ended result => exact h
  | waiting =>
    rw [hphase] at hlease hown
    cases hinput : inputOf input m.versions c with
    | error e =>
      have hended : Reaches m input out.leases c (.ended (.error (.unreadable e))) :=
        (result_unreadable hinput).symm
      exact h.advance_store hended (by rw [hphase]; exact Iff.rfl) (by rw [hphase]; rfl)
    | ok trees =>
      by_cases hc : c ∈ out.leases
      · have hlocked : MemoryStore.output.lease c j.store = (.error (.locked c), j.store) :=
          if_pos (hlease.2 (.inl hc))
        have hended : Reaches m input out.leases c (.ended (.error (.lease (.locked c)))) :=
          (result_locked hinput hc).symm
        simp only [hlocked]
        exact h.advance_store hended (by rw [hphase]; exact Iff.rfl) (by rw [hphase]; rfl)
      · have hfree : c ∉ j.store.leases := fun hmem ↦ (hlease.1 hmem).elim hc id
        have hacquire : MemoryStore.output.lease c j.store = (.ok (), j.store.held c) :=
          MemoryStore.lease_eq_held hfree
        have hleased : Reaches m input out.leases c (.leased trees) := ⟨hc, hinput⟩
        simp only [hacquire]
        exact h.advance hleased (iff_of_true (OrderedSet.mem_insert.2 (.inl rfl)) (.inr trivial))
          (fun a ha ↦ OrderedSet.mem_insert.trans (or_iff_right ha)) hown (fun _ _ ↦ rfl)
  | leased trees =>
    rw [hphase] at hreaches hlease hown
    obtain ⟨hc, hinput⟩ := hreaches
    have hresult := result_merge hinput hc
    cases hmerge : (m.mergerOf input).merge c trees with
    | error e =>
      rw [hmerge] at hresult
      have hsettled : Reaches m input out.leases c (.settled (.error (.merge e))) :=
        ⟨hc, hresult.symm⟩
      simp only [hmerge]
      exact h.advance_store hsettled (by rw [hphase]; exact Iff.rfl) (by rw [hphase]; rfl)
    | ok merged =>
      rw [hmerge] at hresult
      have hsettled : Reaches m input out.leases c (.settled (.ok merged)) := ⟨hc, hresult.symm⟩
      have hwrite : MemoryStore.output.write c merged.encode j.store =
        (.ok (), j.store.write c merged.encode) := rfl
      simp only [hmerge, hwrite]
      exact h.advance hsettled hlease (fun _ _ ↦ Iff.rfl)
        ((OrderedMap.get?_insert ..).trans (if_pos rfl))
        (fun slot hslot ↦ (OrderedMap.get?_insert ..).trans (if_neg hslot))
  | settled result =>
    rw [hphase] at hreaches hlease hown
    obtain ⟨hc, hresult⟩ := hreaches
    have hended : Reaches m input out.leases c (.ended result) := hresult
    refine h.advance hended ?_ (fun a ha ↦ ?_) hown (fun _ _ ↦ rfl)
    · exact iff_of_false (fun hmem ↦ (MemoryStore.mem_release.1 hmem).2 rfl) (not_or.2 ⟨hc, id⟩)
    · exact MemoryStore.mem_release.trans (and_iff_left ha)

/-! ### The end of all jobs -/

/-- The jobs after some turns. -/
def underWay (m : MergeRun) (input : Source) (out : MemoryStore) (turns : List ClassName) :
    Jobs MemoryStore :=
  turns.foldl (Jobs.turn MemoryStore.output (m.mergerOf input) (groupsOf input m.versions))
    (start out)

/-- **Run**: turns of any jobs, in any order, keep this. -/
theorem tracks_underWay (m : MergeRun) (input : Source) (out : MemoryStore)
    (turns : List ClassName) : Tracks m input out (underWay m input out turns) := by
  have hturns : ∀ (turns : List ClassName) (j : Jobs MemoryStore), Tracks m input out j →
      Tracks m input out (turns.foldl
        (Jobs.turn MemoryStore.output (m.mergerOf input) (groupsOf input m.versions)) j) := by
    intro turns
    induction turns with
    | nil => exact fun _ h ↦ h
    | cons c turns ih => exact fun j h ↦ ih _ (h.turn c)
  exact hturns turns _ (tracks_start m input out)

/-- A class that gets no turn waits for ever. -/
theorem phase_underWay {turns : List ClassName} (hc : c ∉ turns) :
    (underWay m input out turns).phase c = .waiting := by
  induction turns using List.reverseRecOn with
  | nil => rfl
  | append_singleton turns a ih =>
    obtain ⟨hc, ha⟩ := not_or.1 (mt List.mem_append.2 hc)
    have hne : c ≠ a := fun h ↦ ha (List.mem_singleton.2 h)
    rw [underWay, List.foldl_append, ← underWay, List.foldl_cons, List.foldl_nil,
      phase_turn_of_ne hne, ih hc]

/-- Turns that bring the jobs of all classes to their ends. -/
def Complete (m : MergeRun) (input : Source) (out : MemoryStore) (turns : List ClassName) : Prop :=
  (∀ c ∈ turns, c ∈ listedClasses input m.versions) ∧
    ∀ c ∈ (listedClasses input m.versions).toList, ((underWay m input out turns).phase c).isEnded

instance (m : MergeRun) (input : Source) (out : MemoryStore) (turns : List ClassName) :
    Decidable (Complete m input out turns) := inferInstanceAs (Decidable (_ ∧ _))

/-- **However the jobs overlap**, in the end each class has the result that it has in the run, and
the output is what the run leaves. -/
theorem underWay_eq_run {turns : List ClassName} (hschedule : ∀ l, (m.schedule l).Perm l)
    (hlist : ∀ v ∈ m.versions, ∃ classes, input.list (some v) = .ok classes)
    (hcomplete : Complete m input out turns) :
    (∀ c ∈ listedClasses input m.versions,
        (underWay m input out turns).phase c = .ended (m.result input out.leases c)) ∧
      (underWay m input out turns).store = (m.run input MemoryStore.output out).state := by
  obtain ⟨hturns, hended⟩ := hcomplete
  have htracks := tracks_underWay m input out turns
  have hphase : ∀ c ∈ listedClasses input m.versions,
      (underWay m input out turns).phase c = .ended (m.result input out.leases c) := by
    intro c hc
    have hend := hended c hc
    have hreaches := htracks.reaches c
    cases hresult : (underWay m input out turns).phase c with
    | ended result =>
      rw [hresult] at hreaches
      exact congrArg Phase.ended hreaches
    | waiting | leased _ | settled _ => simp [hresult, Phase.isEnded] at hend
  refine ⟨hphase, ?_⟩
  have hwaiting : ∀ c, c ∉ listedClasses input m.versions →
      (underWay m input out turns).phase c = .waiting := fun c hc ↦
    phase_underWay (mt (hturns c) hc)
  have htrees : (underWay m input out turns).store.trees =
      (m.run input MemoryStore.output out).state.trees := by
    refine OrderedMap.ext_get? fun slot ↦ ?_
    rw [(run_eq out hschedule hlist).2, get?_foldl_settled, htracks.get?_trees]
    by_cases hc : slot.cls ∈ listedClasses input m.versions
    · have hscheduled : slot.cls ∈ m.schedule (listedClasses input m.versions).toList :=
        (hschedule _).mem_iff.2 hc
      rw [hphase _ hc]
      simp [hscheduled, Phase.written?]
    · have hscheduled : slot.cls ∉ m.schedule (listedClasses input m.versions).toList :=
        mt (hschedule _).mem_iff.1 hc
      rw [hwaiting _ hc]
      simp [hscheduled, Phase.written?]
  have hleases : (underWay m input out turns).store.leases =
      (m.run input MemoryStore.output out).state.leases := by
    refine OrderedSet.ext_mem fun c ↦ ?_
    rw [(run_eq out hschedule hlist).2, leases_foldl_settled, htracks.mem_leases]
    by_cases hc : c ∈ listedClasses input m.versions
    · rw [hphase c hc]
      exact or_iff_left id
    · rw [hwaiting c hc]
      exact or_iff_left id
  exact congrArg₂ MemoryStore.mk htrees hleases

end Tracks

end Jobs

end ClassWeave.MergeRun
