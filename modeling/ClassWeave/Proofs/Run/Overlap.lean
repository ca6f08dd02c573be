import ClassWeave.Proofs.Run.Pool
import Mathlib.Data.List.Count
import Mathlib.Logic.Function.Basic

/-!
# Pools whose jobs overlap

`Pool.run` does one job after the other. On several threads jobs overlap: only the single operations
on the shared state are indivisible, and between two of them other jobs go on. So a job is written
here as a `Task`, cut into its operations, and a pool follows a `Pool.Course`: which job starts,
goes on or is joined next, with no more jobs under way than there are threads.

What a course leaves does not depend on the course if the jobs do not meet, that is, if the state
has a part for each class and the job of a class works on that part alone (`Task.Local`). Then what
is left of a job leads to the same end at every moment (`Pool.Tracks`), whatever the others have
done since. So all complete courses end alike (`Pool.overlapped_unique`); one of them is the run in
which each job is over before the next one starts (`Pool.exists_course`), so that they all end as
`Pool.run` does (`Pool.overlapped_eq_run`).

Nothing is said about whether a course comes to an end: one that stops too early, or that asks for a
move that is not possible, has no result. Nor is there a bound on the number of threads. That of a
program is at most `Pool.maxThreads`: the command line breaks down at a larger one, and no job of
the run leaves a trace.
-/

namespace ClassWeave

variable {σ π ρ β : Type}

/-! ### Jobs in steps -/

/-- A job, cut into the operations on the state that it shares with others. -/
inductive Task (σ β : Type) : Type 1 where
  | done (result : β)
  /-- An operation, and how the job goes on after its answer. -/
  | call {α : Type} (op : σ → α × σ) (next : α → Task σ β)

namespace Task

/-- The job with nothing in between. -/
def run : Task σ β → σ → β × σ
  | done result, s => (result, s)
  | call op next, s => (next (op s).1).run (op s).2

end Task

/-- A view of a state as one part for each class, and the rest. -/
structure Parts (σ π ρ : Type) where
  part : ClassName → σ → π
  rest : σ → ρ
  /-- The state is made of its parts. -/
  ext : ∀ {s s'}, (∀ c, part c s = part c s') → rest s = rest s' → s = s'

variable {P : Parts σ π ρ} {c : ClassName} {s s' : σ}

/-- An operation that works on the part of a class alone: it sees nothing else, and changes nothing
else. -/
structure Parts.Touches {α : Type} (P : Parts σ π ρ) (c : ClassName) (op : σ → α × σ) : Prop where
  answer : ∀ {s s'}, P.part c s = P.part c s' → (op s).1 = (op s').1
  part_self : ∀ {s s'}, P.part c s = P.part c s' → P.part c (op s).2 = P.part c (op s').2
  part_of_ne : ∀ s a, a ≠ c → P.part a (op s).2 = P.part a s
  rest : ∀ s, P.rest (op s).2 = P.rest s

namespace Task

/-- A job whose operations all work on the part of one class alone. -/
def Local (P : Parts σ π ρ) (c : ClassName) : Task σ β → Prop
  | done _ => True
  | call op next => P.Touches c op ∧ ∀ a, (next a).Local P c

theorem local_done (result : β) : (done result : Task σ β).Local P c := trivial

/-- **A local job is told from the part of its class.** -/
theorem Local.run_congr {t : Task σ β} (ht : t.Local P c) (hs : P.part c s = P.part c s') :
    (t.run s).1 = (t.run s').1 ∧ P.part c (t.run s).2 = P.part c (t.run s').2 := by
  induction t generalizing s s' with
  | done result => exact ⟨rfl, hs⟩
  | call op next ih =>
    obtain ⟨hop, hnext⟩ := ht
    rw [run, run, hop.answer hs]
    exact ih _ (hnext _) (hop.part_self hs)

/-- A job that leads to the same end as another one. -/
structure Leads (P : Parts σ π ρ) (c : ClassName) (t : Task σ β) (s : σ) (t' : Task σ β) (s' : σ) :
    Prop where
  isLocal : t'.Local P c
  result : (t'.run s').1 = (t.run s).1
  part : P.part c (t'.run s').2 = P.part c (t.run s).2

/-- A step of another job makes no difference. -/
theorem Leads.of_part {t t' : Task σ β} {s'' : σ} (h : Leads P c t s t' s')
    (hs : P.part c s'' = P.part c s') : Leads P c t s t' s'' where
  isLocal := h.isLocal
  result := (h.isLocal.run_congr hs).1.trans h.result
  part := (h.isLocal.run_congr hs).2.trans h.part

end Task

namespace Pool

/-! ### Courses of a pool -/

/-- How far the job of a class has come. -/
inductive Phase (σ β : Type) : Type 1 where
  | waiting
  /-- It has a thread, and this is left to do. -/
  | running (left : Task σ β)
  /-- It is over, and its thread is free. -/
  | ended (result : β)
  /-- Its result is collected. -/
  | joined (result : β)

namespace Phase

def isRunning : Phase σ β → Bool
  | running _ => true
  | waiting | ended _ | joined _ => false

def isJoined : Phase σ β → Bool
  | joined _ => true
  | waiting | running _ | ended _ => false

end Phase

/-- What happens next in a pool. -/
inductive Move where
  /-- A job takes a free thread. -/
  | start (c : ClassName)
  /-- A job does its next operation, or ends. -/
  | turn (c : ClassName)
  /-- The result of a job that is over is collected. -/
  | join (c : ClassName)

/-- The number of threads that a pool is told, and what happens one after the other. Any number will
do here; a program has no pool of more than `maxThreads`. -/
structure Course where
  threads : Nat
  moves : List Move

/-- A pool under way, with the results collected so far. -/
structure Progress (σ β : Type) : Type 1 where
  store : σ
  phase : ClassName → Phase σ β
  results : List (ClassName × β)

namespace Progress

variable {p : Progress σ β} {ph ph' : Phase σ β}

def start (s : σ) : Progress σ β := ⟨s, fun _ ↦ .waiting, []⟩

/-- The number of threads in use. -/
def busy (p : Progress σ β) (classes : List ClassName) : Nat :=
  classes.countP fun c ↦ (p.phase c).isRunning

/-- The job of a class comes to a further phase. -/
def advance (p : Progress σ β) (c : ClassName) (s : σ) (ph : Phase σ β) : Progress σ β :=
  ⟨s, Function.update p.phase c ph, p.results⟩

/-- The result of a class is collected. -/
def collect (p : Progress σ β) (c : ClassName) (result : β) : Progress σ β :=
  ⟨p.store, Function.update p.phase c (.joined result), p.results ++ [(c, result)]⟩

@[simp]
theorem store_advance : (p.advance c s ph).store = s := rfl

@[simp]
theorem results_advance : (p.advance c s ph).results = p.results := rfl

@[simp]
theorem phase_advance_self : (p.advance c s ph).phase c = ph := Function.update_self ..

theorem phase_advance_of_ne {a : ClassName} (h : a ≠ c) : (p.advance c s ph).phase a = p.phase a :=
  Function.update_of_ne h ..

@[simp]
theorem advance_advance : (p.advance c s ph).advance c s' ph' = p.advance c s' ph' :=
  congrArg (Progress.mk s' · p.results) (Function.update_idem ..)

@[simp]
theorem results_collect {result : β} : (p.collect c result).results = p.results ++ [(c, result)] :=
  rfl

@[simp]
theorem phase_collect_self {result : β} : (p.collect c result).phase c = .joined result :=
  Function.update_self ..

theorem phase_collect_of_ne {result : β} {a : ClassName} (h : a ≠ c) :
    (p.collect c result).phase a = p.phase a := Function.update_of_ne h ..

end Progress

/-- What becomes of a pool by a move, if the move is possible. -/
def play (task : ClassName → Task σ β) (threads : Nat) (classes : List ClassName)
    (p : Progress σ β) : Move → Option (Progress σ β)
  | .start c =>
    match p.phase c with
    | .waiting =>
      if c ∈ classes ∧ p.busy classes < max threads 1 then
        some (p.advance c p.store (.running (task c)))
      else none
    | _ => none
  | .turn c =>
    match p.phase c with
    | .running (.call op next) =>
      some (p.advance c (op p.store).2 (.running (next (op p.store).1)))
    | .running (.done result) => some (p.advance c p.store (.ended result))
    | _ => none
  | .join c =>
    match p.phase c with
    | .ended result => some (p.collect c result)
    | _ => none

/-- The results of a pool that follows a course, and the state after it, if at the end of the course
all results are collected. -/
def overlapped (task : ClassName → Task σ β) (classes : List ClassName) (course : Course) (s : σ) :
    Option (List (ClassName × β) × σ) :=
  (course.moves.foldlM (play task course.threads classes) (.start s)).bind fun p ↦
    if classes.all fun c ↦ (p.phase c).isJoined then
      some (p.results.mergeSort fun a b ↦ (compare a.1 b.1).isLE, p.store)
    else none

variable {task : ClassName → Task σ β} {threads : Nat} {classes : List ClassName}
  {p p' : Progress σ β} {move : Move}

/-- **What a move can do.** -/
theorem play_cases (h : play task threads classes p move = some p') :
    (∃ c, c ∈ classes ∧ p.phase c = .waiting ∧ p' = p.advance c p.store (.running (task c))) ∨
      (∃ (c : ClassName) (α : Type) (op : σ → α × σ) (next : α → Task σ β),
        p.phase c = .running (.call op next) ∧
          p' = p.advance c (op p.store).2 (.running (next (op p.store).1))) ∨
      (∃ c result, p.phase c = .running (.done result) ∧
        p' = p.advance c p.store (.ended result)) ∨
      ∃ c result, p.phase c = .ended result ∧ p' = p.collect c result := by
  cases move with
  | start c =>
    simp only [play] at h
    split at h
    · rename_i hphase
      split at h
      · rename_i hfree
        exact .inl ⟨c, hfree.1, hphase, (Option.some.inj h).symm⟩
      · cases h
    · cases h
  | turn c =>
    simp only [play] at h
    split at h
    · rename_i hphase
      exact .inr (.inl ⟨c, _, _, _, hphase, (Option.some.inj h).symm⟩)
    · rename_i hphase
      exact .inr (.inr (.inl ⟨c, _, hphase, (Option.some.inj h).symm⟩))
    · cases h
  | join c =>
    simp only [play] at h
    split at h
    · rename_i hphase
      exact .inr (.inr (.inr ⟨c, _, hphase, (Option.some.inj h).symm⟩))
    · cases h

/-! ### What holds at every moment -/

/-- What is left to do of a job in a phase. -/
def Phase.left (t : Task σ β) : Phase σ β → Task σ β
  | waiting => t
  | running left => left
  | ended result | joined result => .done result

/-- The jobs of a pool under way: what is left of each leads to its end, and the results collected
are those of the joined jobs. -/
structure Tracks (P : Parts σ π ρ) (task : ClassName → Task σ β) (classes : List ClassName) (s : σ)
    (p : Progress σ β) : Prop where
  leads : ∀ c, (task c).Leads P c s ((p.phase c).left (task c)) p.store
  rest : P.rest p.store = P.rest s
  outside : ∀ c, c ∉ classes → p.phase c = .waiting ∧ P.part c p.store = P.part c s
  mem_results : ∀ c result, (c, result) ∈ p.results ↔ p.phase c = .joined result
  nodup_results : (p.results.map (·.1)).Nodup

theorem tracks_start (htask : ∀ c, (task c).Local P c) (classes : List ClassName) (s : σ) :
    Tracks P task classes s (.start s) where
  leads c := ⟨htask c, rfl, rfl⟩
  rest := rfl
  outside _ _ := ⟨rfl, rfl⟩
  mem_results _ _ := iff_of_false List.not_mem_nil nofun
  nodup_results := List.nodup_nil

theorem Tracks.mem_of_phase_ne (h : Tracks P task classes s p) (hphase : p.phase c ≠ .waiting) :
    c ∈ classes :=
  Decidable.not_not.1 fun hc ↦ hphase (h.outside c hc).1

/-- A job that goes on, in its own part of the state. -/
theorem Tracks.advance (h : Tracks P task classes s p) {ph : Phase σ β} (hc : c ∈ classes)
    (hleads : (task c).Leads P c s (ph.left (task c)) s')
    (hpart : ∀ a, a ≠ c → P.part a s' = P.part a p.store) (hrest : P.rest s' = P.rest p.store)
    (hbefore : ∀ result, p.phase c ≠ .joined result) (hafter : ∀ result, ph ≠ .joined result) :
    Tracks P task classes s (p.advance c s' ph) where
  leads a := by
    by_cases ha : a = c
    · subst ha
      rwa [Progress.phase_advance_self]
    · rw [Progress.phase_advance_of_ne ha]
      exact (h.leads a).of_part (hpart a ha)
  rest := hrest.trans h.rest
  outside a ha := by
    have hne : a ≠ c := (ne_of_mem_of_not_mem hc ha).symm
    rw [Progress.phase_advance_of_ne hne, Progress.store_advance, hpart a hne]
    exact h.outside a ha
  mem_results a result := by
    by_cases ha : a = c
    · subst ha
      rw [Progress.phase_advance_self]
      exact iff_of_false (mt (h.mem_results a result).1 (hbefore result)) (hafter result)
    · rw [Progress.phase_advance_of_ne ha]
      exact h.mem_results a result
  nodup_results := h.nodup_results

/-- A job whose result is collected. -/
theorem Tracks.collect (h : Tracks P task classes s p) {result : β}
    (hphase : p.phase c = .ended result) : Tracks P task classes s (p.collect c result) where
  leads a := by
    by_cases ha : a = c
    · subst ha
      have hleads := h.leads a
      rw [hphase] at hleads
      rwa [Progress.phase_collect_self]
    · rw [Progress.phase_collect_of_ne ha]
      exact h.leads a
  rest := h.rest
  outside a ha := by
    have hc : c ∈ classes := h.mem_of_phase_ne (by rw [hphase]; exact nofun)
    rw [Progress.phase_collect_of_ne (ne_of_mem_of_not_mem hc ha).symm]
    exact h.outside a ha
  mem_results a result' := by
    rw [Progress.results_collect, List.mem_append, List.mem_singleton, h.mem_results]
    by_cases ha : a = c
    · subst ha
      rw [Progress.phase_collect_self, hphase]
      simp [eq_comm]
    · rw [Progress.phase_collect_of_ne ha]
      simp [ha]
  nodup_results := by
    have hnew : c ∉ p.results.map (·.1) := fun hmem ↦ by
      obtain ⟨⟨a, result'⟩, hresult, rfl⟩ := List.mem_map.1 hmem
      have hjoined := (h.mem_results a result').1 hresult
      rw [hphase] at hjoined
      cases hjoined
    rw [Progress.results_collect, List.map_append]
    exact h.nodup_results.append (List.nodup_singleton c) (List.disjoint_singleton.2 hnew)

/-- **Step**: a move keeps this. -/
theorem Tracks.play (h : Tracks P task classes s p)
    (hplay : play task threads classes p move = some p') : Tracks P task classes s p' := by
  rcases play_cases hplay with ⟨c, hc, hphase, rfl⟩ | ⟨c, α, op, next, hphase, rfl⟩ |
    ⟨c, result, hphase, rfl⟩ | ⟨c, result, hphase, rfl⟩
  all_goals have hleads := h.leads c
  all_goals rw [hphase] at hleads
  · exact h.advance hc hleads (fun _ _ ↦ rfl) rfl (by rw [hphase]; exact nofun) nofun
  · obtain ⟨⟨hop, hnext⟩, hresult, hpart⟩ := hleads
    have hc : c ∈ classes := h.mem_of_phase_ne (by rw [hphase]; exact nofun)
    exact h.advance hc ⟨hnext _, hresult, hpart⟩ (hop.part_of_ne p.store) (hop.rest p.store)
      (by rw [hphase]; exact nofun) nofun
  · have hc : c ∈ classes := h.mem_of_phase_ne (by rw [hphase]; exact nofun)
    exact h.advance hc hleads (fun _ _ ↦ rfl) rfl (by rw [hphase]; exact nofun) nofun
  · exact h.collect hphase

/-- **Run**: any moves keep this. -/
theorem Tracks.foldlM (h : Tracks P task classes s p) {moves : List Move}
    (hmoves : moves.foldlM (Pool.play task threads classes) p = some p') :
    Tracks P task classes s p' := by
  induction moves generalizing p with
  | nil =>
    cases hmoves
    exact h
  | cons move moves ih =>
    obtain ⟨p₁, hplay, hmoves⟩ := Option.bind_eq_some_iff.1 hmoves
    exact ih (h.play hplay) hmoves

/-! ### The end of a course -/

variable {keys : OrderedSet ClassName} {course course' : Course}
  {x x' : List (ClassName × β) × σ}

/-- What a pool of local jobs ends with. -/
structure Ends (P : Parts σ π ρ) (task : ClassName → Task σ β) (keys : OrderedSet ClassName) (s : σ)
    (x : List (ClassName × β) × σ) : Prop where
  results : x.1 = keys.toList.map fun c ↦ (c, ((task c).run s).1)
  part : ∀ c, P.part c x.2 = if c ∈ keys then P.part c ((task c).run s).2 else P.part c s
  rest : P.rest x.2 = P.rest s

theorem Ends.unique (h : Ends P task keys s x) (h' : Ends P task keys s x') : x = x' :=
  Prod.ext (h.results.trans h'.results.symm)
    (P.ext (fun c ↦ (h.part c).trans (h'.part c).symm) (h.rest.trans h'.rest.symm))

theorem ends_overlapped (htask : ∀ c, (task c).Local P c)
    (h : overlapped task keys.toList course s = some x) : Ends P task keys s x := by
  obtain ⟨p, hmoves, hx⟩ := Option.bind_eq_some_iff.1 h
  have htracks := (tracks_start htask keys.toList s).foldlM hmoves
  split at hx
  · rename_i hjoined
    obtain rfl := Option.some.inj hx
    have hphase : ∀ c ∈ keys, p.phase c = .joined ((task c).run s).1 := by
      intro c hc
      have hleads := htracks.leads c
      have hend := List.all_eq_true.1 hjoined c hc
      cases hp : p.phase c with
      | joined result =>
        rw [hp] at hleads
        exact congrArg Phase.joined hleads.result
      | waiting | running _ | ended _ => simp [hp, Phase.isJoined] at hend
    refine ⟨?_, fun c ↦ ?_, htracks.rest⟩
    · have hkeys : (keys.toList.map fun c ↦ (c, ((task c).run s).1)).Nodup :=
        keys.nodup_toList.map fun a b hab ↦ (Prod.mk.inj hab).1
      refine OrderedSet.mergeSort_map Prod.fst (fun _ ↦ rfl) ((List.perm_ext_iff_of_nodup
        (List.Nodup.of_map _ htracks.nodup_results) hkeys).2 fun ⟨c, result⟩ ↦ ?_)
      rw [htracks.mem_results, List.mem_map]
      constructor
      · intro hp
        have hc : c ∈ keys := htracks.mem_of_phase_ne (by rw [hp]; exact nofun)
        rw [hphase c hc] at hp
        exact ⟨c, hc, congrArg (Prod.mk c) (Phase.joined.inj hp)⟩
      · rintro ⟨a, ha, hac⟩
        obtain ⟨rfl, rfl⟩ := Prod.mk.inj hac
        exact hphase a ha
    · have hleads := htracks.leads c
      by_cases hc : c ∈ keys
      · rw [hphase c hc] at hleads
        rw [if_pos hc]
        exact hleads.part
      · rw [if_neg hc]
        exact (htracks.outside c hc).2
  · cases hx

/-- **All complete courses end alike**, whatever the numbers of threads. -/
theorem overlapped_unique (keys : OrderedSet ClassName) (htask : ∀ c, (task c).Local P c)
    (h : overlapped task keys.toList course s = some x)
    (h' : overlapped task keys.toList course' s = some x') : x = x' :=
  (ends_overlapped htask h).unique (ends_overlapped htask h')

/-! ### One job after the other -/

/-- A job that has its thread can be brought to its end. -/
theorem exists_moves_task (task : ClassName → Task σ β) (threads : Nat) (classes : List ClassName)
    (t : Task σ β) {p : Progress σ β} (hphase : p.phase c = .running t) :
    ∃ moves : List Move, moves.foldlM (play task threads classes) p =
      some (p.advance c (t.run p.store).2 (.ended (t.run p.store).1)) := by
  induction t generalizing p with
  | done result =>
    refine ⟨[.turn c], ?_⟩
    rw [List.foldlM_cons, play, hphase]
    rfl
  | call op next ih =>
    obtain ⟨moves, hmoves⟩ := ih (op p.store).1
      (p := p.advance c (op p.store).2 (.running (next (op p.store).1)))
      Progress.phase_advance_self
    rw [Progress.advance_advance] at hmoves
    refine ⟨.turn c :: moves, ?_⟩
    rw [List.foldlM_cons, play, hphase]
    exact hmoves

/-- A job that waits can be done, and its result collected, while no other job is under way. -/
theorem exists_moves_job (task : ClassName → Task σ β) (threads : Nat) (hc : c ∈ classes)
    (hphase : p.phase c = .waiting)
    (hidle : ∀ a, (p.phase a).isRunning = false) :
    ∃ moves : List Move, moves.foldlM (play task threads classes) p =
      some ((p.advance c ((task c).run p.store).2 (.ended ((task c).run p.store).1)).collect c
        ((task c).run p.store).1) := by
  have hbusy : p.busy classes < max threads 1 := by
    have hnone : p.busy classes = 0 := List.countP_eq_zero.2 fun a _ ↦ by rw [hidle a]; exact nofun
    omega
  have hstart : play task threads classes p (.start c) =
      some (p.advance c p.store (.running (task c))) := by
    rw [play, hphase]
    exact if_pos ⟨hc, hbusy⟩
  obtain ⟨moves, hmoves⟩ := exists_moves_task task threads classes (task c)
    (p := p.advance c p.store (.running (task c))) Progress.phase_advance_self
  rw [Progress.advance_advance, Progress.store_advance] at hmoves
  refine ⟨.start c :: (moves ++ [.join c]), ?_⟩
  rw [List.foldlM_cons, hstart, Option.bind_eq_bind, Option.bind_some, List.foldlM_append, hmoves,
    Option.bind_eq_bind, Option.bind_some, List.foldlM_cons, play, Progress.phase_advance_self]
  rfl

variable {ε α : Type} {job : ClassName → Task σ (Except ε α)}

theorem exists_moves_runInOrder (job : ClassName → Task σ (Except ε α)) (threads : Nat)
    {cs : List ClassName} (hcs : ∀ c ∈ cs, c ∈ classes)
    (hnodup : cs.Nodup) {p : Progress σ (Except ε α)} (hwaiting : ∀ c ∈ cs, p.phase c = .waiting)
    (hidle : ∀ a, (p.phase a).isRunning = false) :
    ∃ (moves : List Move) (p' : Progress σ (Except ε α)),
      moves.foldlM (play job threads classes) p = some p' ∧
      p'.store = (runInOrder (fun c ↦ (job c).run) cs p.store).2 ∧
      p'.results = p.results ++ (runInOrder (fun c ↦ (job c).run) cs p.store).1 ∧
      ∀ c, c ∈ cs ∨ (p.phase c).isJoined = true → (p'.phase c).isJoined = true := by
  induction cs generalizing p with
  | nil => exact ⟨[], p, rfl, rfl, (List.append_nil _).symm, fun c hc ↦ hc.resolve_left nofun⟩
  | cons c cs ih =>
    obtain ⟨hc, hnodup⟩ := List.nodup_cons.1 hnodup
    obtain ⟨moves, hmoves⟩ := exists_moves_job job threads
      (hcs c List.mem_cons_self) (hwaiting c List.mem_cons_self) hidle
    set s₁ := ((job c).run p.store).2
    set result := ((job c).run p.store).1
    set p₁ := (p.advance c s₁ (.ended result)).collect c result
    have hother : ∀ a, a ≠ c → p₁.phase a = p.phase a := fun a ha ↦
      (Progress.phase_collect_of_ne ha).trans (Progress.phase_advance_of_ne ha)
    have hself : p₁.phase c = .joined result := Progress.phase_collect_self
    obtain ⟨moves', p', hmoves', hstore, hresults, hjoined⟩ := ih (p := p₁)
      (fun a ha ↦ hcs a (List.mem_cons_of_mem _ ha)) hnodup
      (fun a ha ↦ (hother a (ne_of_mem_of_not_mem ha hc)).trans
        (hwaiting a (List.mem_cons_of_mem _ ha)))
      (fun a ↦ by
        by_cases ha : a = c
        · rw [ha, hself]
          rfl
        · rw [hother a ha, hidle a])
    refine ⟨moves ++ moves', p', ?_, hstore, ?_, fun a ha ↦ hjoined a ?_⟩
    · rw [List.foldlM_append, hmoves]
      exact hmoves'
    · rw [hresults]
      exact List.append_assoc _ _ _
    · by_cases hac : a = c
      · rw [hac, hself]
        exact .inr rfl
      · rw [hother a hac]
        exact ha.imp_left fun ha ↦ (List.mem_cons.1 ha).resolve_left hac

/-- **Some course does one job after the other**, in any order and with any number of threads. -/
theorem exists_course (job : ClassName → Task σ (Except ε α)) (threads : Nat) (s : σ)
    {cs : List ClassName} (hcs : cs.Perm keys.toList) :
    ∃ moves, overlapped job keys.toList ⟨threads, moves⟩ s =
      some (Pool.run (fun c ↦ (job c).run) cs s) := by
  obtain ⟨moves, p, hmoves, hstore, hresults, hjoined⟩ := exists_moves_runInOrder job
    threads (p := .start s) (fun c ↦ hcs.mem_iff.1)
    (hcs.nodup_iff.2 keys.nodup_toList) (fun _ _ ↦ rfl) (fun _ ↦ rfl)
  have hall : keys.toList.all (fun c ↦ (p.phase c).isJoined) = true :=
    List.all_eq_true.2 fun c hc ↦ hjoined c (.inl (hcs.mem_iff.2 hc))
  refine ⟨moves, ?_⟩
  rw [overlapped, hmoves, Option.bind_some, if_pos hall, hstore, hresults]
  rfl

/-- **However local jobs overlap, they end as one after the other.** -/
theorem overlapped_eq_run (keys : OrderedSet ClassName) (hjob : ∀ c, (job c).Local P c)
    {cs : List ClassName} (hcs : cs.Perm keys.toList) {x : List (ClassName × Except ε α) × σ}
    (h : overlapped job keys.toList course s = some x) :
    x = Pool.run (fun c ↦ (job c).run) cs s := by
  obtain ⟨moves, hrun⟩ := exists_course job course.threads s hcs
  exact overlapped_unique keys hjob h hrun

end Pool

end ClassWeave
