import ClassWeave.Proofs.Ordered.Set
import ClassWeave.Run.Pool
import ClassWeave.Run.Report

/-!
# Pools and reports, in closed form

Jobs that keep an invariant of the shared state, and whose results do not depend on the rest of it,
give the results that they would give alone (`runInOrder_eq`). Sorting then takes away the last
trace of the order in which they ran: results, and the entries of a report, stand in the order of
the classes (`run_eq`, `Report.finish_eq`). Of jobs about which less is known, a pool still keeps
what each of them keeps (`runInOrder_invariant`), and to look at a part of the state is to run with
that part alone (`run_forget`).
-/

namespace ClassWeave

namespace Pool

variable {σ ε α : Type} {job : ClassName → σ → Except ε α × σ} {result : ClassName → Except ε α}
  {next : σ → ClassName → σ} {P : σ → Prop} {classes : List ClassName} {keys : OrderedSet ClassName}

/-- **Jobs that are told apart from the state by an invariant** run as if each were alone. -/
theorem runInOrder_eq (hjob : ∀ c ∈ classes, ∀ s, P s → job c s = (result c, next s c))
    (hnext : ∀ c s, P s → P (next s c)) {s : σ} (hs : P s) :
    runInOrder job classes s = (classes.map fun c ↦ (c, result c), classes.foldl next s) := by
  induction classes generalizing s with
  | nil => rfl
  | cons c classes ih =>
    have hrest := ih (fun c' hc' ↦ hjob c' (List.mem_cons_of_mem _ hc')) (hnext c s hs)
    rw [runInOrder, hjob c List.mem_cons_self s hs]
    simp only [hrest]
    rfl

/-- The results of a pool stand in the order of the classes. -/
theorem run_eq (next : σ → ClassName → σ) (P : σ → Prop) (hclasses : classes.Perm keys.toList)
    (hjob : ∀ c ∈ keys, ∀ s, P s → job c s = (result c, next s c))
    (hnext : ∀ c s, P s → P (next s c)) {s : σ} (hs : P s) :
    run job classes s = (keys.toList.map fun c ↦ (c, result c), classes.foldl next s) := by
  have hjob' : ∀ c ∈ classes, ∀ s, P s → job c s = (result c, next s c) := fun c hc ↦
    hjob c (hclasses.mem_iff.1 hc)
  rw [run, runInOrder_eq hjob' hnext hs]
  exact Prod.ext (OrderedSet.mergeSort_map Prod.fst (fun _ ↦ rfl) (hclasses.map _)) rfl

theorem runPure_eq (job : ClassName → Except ε α) (hclasses : classes.Perm keys.toList) :
    runPure job classes = keys.toList.map fun c ↦ (c, job c) := by
  rw [runPure, run_eq (fun s _ ↦ s) (fun _ ↦ True) hclasses (fun c _ s _ ↦ rfl) (fun _ _ h ↦ h)
    trivial]

/-! ### What a job keeps, a pool keeps -/

/-- **Step to run**: what every job keeps, a pool of jobs keeps. -/
theorem runInOrder_invariant (hjob : ∀ c s, P s → P (job c s).2) (classes : List ClassName) {s : σ}
    (hs : P s) : P (runInOrder job classes s).2 := by
  induction classes generalizing s with
  | nil => exact hs
  | cons c classes ih => exact ih (hjob c s hs)

/-- A pool has a result for each class. -/
theorem names_runInOrder (job : ClassName → σ → Except ε α × σ) (classes : List ClassName) (s : σ) :
    (runInOrder job classes s).1.map (·.1) = classes := by
  induction classes generalizing s with
  | nil => rfl
  | cons c classes ih => exact congrArg (c :: ·) (ih _)

theorem names_run (job : ClassName → σ → Except ε α × σ) (classes : List ClassName) (s : σ) :
    ((run job classes s).1.map (·.1)).Perm classes := by
  have hsorted : ((run job classes s).1.map (·.1)).Perm ((runInOrder job classes s).1.map (·.1)) :=
    (List.mergeSort_perm _ _).map _
  rwa [names_runInOrder] at hsorted

/-- Each result comes from the job of its class. -/
theorem exists_of_mem_runInOrder {c : ClassName} {result : Except ε α} {s : σ}
    (h : (c, result) ∈ (runInOrder job classes s).1) :
    c ∈ classes ∧ ∃ s', (job c s').1 = result := by
  induction classes generalizing s with
  | nil => exact absurd h List.not_mem_nil
  | cons c' classes ih =>
    rcases List.mem_cons.1 h with h | h
    · obtain ⟨rfl, rfl⟩ := Prod.mk.inj h
      exact ⟨List.mem_cons_self, s, rfl⟩
    · obtain ⟨hc, hjob⟩ := ih h
      exact ⟨List.mem_cons_of_mem _ hc, hjob⟩

theorem exists_of_mem_run {c : ClassName} {result : Except ε α} {s : σ}
    (h : (c, result) ∈ (run job classes s).1) : c ∈ classes ∧ ∃ s', (job c s').1 = result :=
  exists_of_mem_runInOrder (List.mem_mergeSort.1 h)

/-- **Jobs that do the same to a part of their state** give the same results, and leave the same
part. -/
theorem runInOrder_forget {τ : Type} {job' : ClassName → τ → Except ε α × τ} (part : τ → σ)
    (hresult : ∀ c s, (job' c s).1 = (job c (part s)).1)
    (hpart : ∀ c s, part (job' c s).2 = (job c (part s)).2) (classes : List ClassName) (s : τ) :
    (runInOrder job' classes s).1 = (runInOrder job classes (part s)).1 ∧
      part (runInOrder job' classes s).2 = (runInOrder job classes (part s)).2 := by
  induction classes generalizing s with
  | nil => exact ⟨rfl, rfl⟩
  | cons c classes ih =>
    obtain ⟨hresults, hstate⟩ := ih (job' c s).2
    rw [hpart] at hresults hstate
    exact ⟨congrArg₂ List.cons (congrArg (Prod.mk c) (hresult c s)) hresults, hstate⟩

theorem run_forget {τ : Type} {job' : ClassName → τ → Except ε α × τ} (part : τ → σ)
    (hresult : ∀ c s, (job' c s).1 = (job c (part s)).1)
    (hpart : ∀ c s, part (job' c s).2 = (job c (part s)).2) (classes : List ClassName) (s : τ) :
    (run job' classes s).1 = (run job classes (part s)).1 ∧
      part (run job' classes s).2 = (run job classes (part s)).2 := by
  obtain ⟨hresults, hstate⟩ := runInOrder_forget part hresult hpart classes s
  refine ⟨?_, hstate⟩
  show (runInOrder job' classes s).1.mergeSort _ = (runInOrder job classes (part s)).1.mergeSort _
  rw [hresults]

end Pool

namespace Report

/-- **The entries of a finished report stand in the order of the classes.** -/
theorem finish_eq {kind : RunKind} {versions : List Version} {groups : List GroupReport}
    {keys : OrderedSet ClassName} {entry : ClassName → GroupReport}
    (hentry : ∀ c, (entry c).cls = c) (hgroups : groups.Perm (keys.toList.map entry)) :
    (Report.mk kind versions groups false).finish =
      ⟨kind, versions, keys.toList.map entry, true⟩ := by
  rw [finish, OrderedSet.mergeSort_map GroupReport.cls hentry hgroups]

end Report

end ClassWeave
