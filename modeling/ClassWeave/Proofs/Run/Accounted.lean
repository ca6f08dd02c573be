import ClassWeave.Proofs.Run.Written
import ClassWeave.Proofs.Store.Memory

/-!
# Stored classes in the report of a split run

A stored class goes by two names: the one that the store lists it by, and the one that its tree has.
A class that cannot be loaded is reported under the first, all others under the second
(`names_report`), and of several trees of one name the last one alone takes part in the run. So a
store in which each tree is named as it is listed is accounted for class by class, and one in which
some tree is not need not be: `report_misnamedStore` is a run that has no entry for a listed class.

What the output takes is accounted for in any case: one tree for each entry that says so, and no
other (`names_written`).
-/

namespace ClassWeave

namespace SplitRun

variable {σ : Type} {r : SplitRun} {hooks : HookRegistry} {input : Source} {output : Output σ}
  {s : σ} {l : Loaded} {versions : VersionSet} {classes : List ClassName} {report : Report}

/-! ### Loading -/

/-- The listed classes that cannot be loaded. -/
def unreadable (input : Source) (versions : VersionSet) (classes : List ClassName) :
    List ClassName :=
  classes.filter fun c ↦ !(loadClass input versions c).toOption.isSome

/-- The names of the trees that are loaded. -/
def storedNames (input : Source) (versions : VersionSet) (classes : List ClassName) :
    List ClassName :=
  classes.filterMap fun c ↦ (loadClass input versions c).toOption.map (·.1.name)

/-- Each tree that can be loaded has the name that it is listed by. -/
def NamedAsListed (input : Source) (versions : VersionSet) (classes : List ClassName) : Prop :=
  ∀ c ∈ classes, ∀ x ∈ (loadClass input versions c).toOption, x.1.name = c

instance (input : Source) (versions : VersionSet) (classes : List ClassName) :
    Decidable (NamedAsListed input versions classes) :=
  inferInstanceAs (Decidable (∀ _ ∈ classes, _))

theorem failed_foldl_addClass (l : Loaded) :
    (classes.foldl (addClass input versions) l).failed.map (·.1) =
      l.failed.map (·.1) ++ unreadable input versions classes := by
  induction classes generalizing l with
  | nil => exact (List.append_nil _).symm
  | cons c classes ih =>
    rw [List.foldl_cons, ih, addClass, unreadable, unreadable, List.filter_cons]
    cases loadClass input versions c with
    | ok x => rfl
    | error e => simp [Except.toOption]

theorem mem_keys_foldl_addClass (l : Loaded) {c : ClassName} :
    c ∈ (classes.foldl (addClass input versions) l).index.classes.keys ↔
      c ∈ l.index.classes.keys ∨ c ∈ storedNames input versions classes := by
  induction classes generalizing l with
  | nil => exact (or_iff_left List.not_mem_nil).symm
  | cons a classes ih =>
    rw [List.foldl_cons, ih, addClass, storedNames, storedNames, List.filterMap_cons]
    cases loadClass input versions a with
    | error e => rfl
    | ok x =>
      simp only [Except.toOption, Option.map_some, List.mem_cons, MergedIndex.insert,
        OrderedMap.mem_keys, OrderedMap.get?_insert]
      by_cases hc : c = x.1.name
      · simp [hc]
      · simp [hc]

/-- **The index has one entry for each name of a loaded tree.** -/
theorem keys_load (hlist : input.list none = .ok classes) (hl : load input versions = .ok l) :
    l.failed.map (·.1) = unreadable input versions classes ∧
      l.index.classes.keys = (OrderedSet.ofList (storedNames input versions classes)).toList := by
  rw [load, hlist] at hl
  obtain rfl := Except.ok.inj hl
  refine ⟨failed_foldl_addClass {}, ?_⟩
  have hkeys : (classes.foldl (addClass input versions) {}).index.classes.keySet =
      .ofList (storedNames input versions classes) := OrderedSet.ext_mem fun c ↦
    (mem_keys_foldl_addClass {}).trans ((or_iff_right List.not_mem_nil).trans
      OrderedSet.mem_ofList.symm)
  exact congrArg OrderedSet.toList hkeys

/-! ### The entries of both phases -/

/-- The projected class of a result of the first phase, if it goes on to the second one. -/
def goesOn? (r : ClassName × Except String Projection) : Option (ClassName × ProjectedClass) :=
  match r.2 with
  | .ok (.projected p) => some (r.1, p)
  | _ => none

theorem fst_of_goesOn? (r : ClassName × Except String Projection) (x : ClassName × ProjectedClass)
    (h : goesOn? r = some x) : x.1 = r.1 := by
  obtain ⟨c, e | p | _⟩ := r
  · cases h
  · cases h
    rfl
  · cases h

/-- A result of the first phase goes on to the second one, or has its entry already. -/
theorem names_collect (results : List (ClassName × Except String Projection))
    (hnodup : (results.map (·.1)).Nodup) :
    ((collect results).entries.map (·.cls) ++ (collect results).classes.keys).Perm
      (results.map (·.1)) := by
  have hkeys : (collect results).classes.keys.Perm ((results.filterMap goesOn?).map (·.1)) :=
    OrderedMap.keys_ofList_perm
      (hnodup.sublist (OrderedMap.keys_filterMap_sublist fst_of_goesOn? results))
  refine (hkeys.append_left _).trans ?_
  clear hnodup hkeys
  induction results with
  | nil => exact .nil
  | cons r results ih =>
    obtain ⟨c, e | p | _⟩ := r
    · exact ih.cons c
    · exact List.perm_middle.trans (ih.cons c)
    · exact ih.cons c

/-- No entry of the first phase says that a tree is written. -/
theorem status_of_mem_entries {results : List (ClassName × Except String Projection)}
    {g : GroupReport} (hg : g ∈ (collect results).entries) : g.status ≠ .written := by
  obtain ⟨⟨c, e | p | _⟩, -, hentry⟩ := List.mem_filterMap.1 hg
  · cases hentry
    exact nofun
  · cases hentry
  · cases hentry
    exact nofun

theorem cls_entry (p : Projected) (result : ClassName × Except Failure Unit) :
    (entry p result).cls = result.1 := by
  obtain ⟨c, e | _⟩ := result
  · rfl
  · rfl

theorem status_entry (p : Projected) (result : ClassName × Except Failure Unit) :
    (entry p result).status = .written ↔ result.2.toOption.isSome = true := by
  obtain ⟨c, e | _⟩ := result
  · exact iff_of_false nofun nofun
  · exact iff_of_true rfl rfl

/-- **A report has one entry for each class that cannot be loaded, and one for each name of a loaded
tree.** -/
theorem names_report (hschedule : ∀ cs, (r.schedule cs).Perm cs) (hooks : HookRegistry)
    (output : Output σ) (s : σ) (l : Loaded) :
    ((r.report hooks output l s).groups.map (·.cls)).Perm
      (l.failed.map (·.1) ++ l.index.classes.keys) := by
  have hgroups : (r.report hooks output l s).groups.Perm
      ((l.failed.map fun f : ClassName × String ↦ GroupReport.failed f.1 f.2 []) ++
        (r.projections hooks l).entries ++
        (r.linked hooks output l s).1.map (entry (r.projections hooks l))) :=
    List.mergeSort_perm _ _
  have hlinked : ((r.linked hooks output l s).1.map (·.1)).Perm
      (r.projections hooks l).classes.keys := (Pool.names_run _ _ s).trans (hschedule _)
  have hprojected : ((r.projections hooks l).entries.map (·.cls) ++
      (r.projections hooks l).classes.keys).Perm l.index.classes.keys := by
    have hnames : (l.index.classes.keys.map fun c ↦ (c, r.projectClass hooks l c)).map (·.1) =
        l.index.classes.keys := by rw [List.map_map, Function.comp_def, List.map_id']
    have hcollect := names_collect (l.index.classes.keys.map fun c ↦
      (c, r.projectClass hooks l c)) (by rw [hnames]; exact l.index.classes.nodup_keys)
    rwa [hnames, ← projections_eq hschedule] at hcollect
  refine (hgroups.map _).trans ?_
  rw [List.map_append, List.map_append, List.map_map, List.map_map, List.append_assoc]
  refine List.Perm.append_left _ (List.Perm.trans (List.Perm.append_left _ ?_) hprojected)
  rwa [Function.comp_def, funext (cls_entry (r.projections hooks l))]

/-! ### The trees that the output takes -/

/-- A watched job of a projected class puts its tree on the record exactly if it succeeds. -/
theorem names_job_recorded (r : SplitRun) (output : Output σ) (lk : Linker) {p : Projected}
    {c : ClassName}
    (hc : (p.classes.get? c).isSome) (s : σ × List (ClassName × ClassTree)) :
    (r.job output.recorded lk p c s).2.2.map (·.1) =
      ((r.job output.recorded lk p c s).1.toOption.map fun _ ↦ c).toList ++ s.2.map (·.1) := by
  obtain ⟨projected, hget⟩ := Option.isSome_iff_exists.1 hc
  rw [job, hget]
  cases hfinish : r.finishTree lk projected with
  | error e =>
    simp only [hfinish]
    rfl
  | ok t =>
    simp only [hfinish, Output.recorded]
    rcases output.lease c s.1 with ⟨e | ⟨⟩, s'⟩
    · rfl
    · simp only
      rcases output.write c t s' with ⟨e | ⟨⟩, s''⟩
      · rfl
      · rfl

/-- **Step to run**: the record has the classes whose jobs succeed. -/
theorem names_runInOrder_recorded {lk : Linker} {p : Projected} {cs : List ClassName}
    (hcs : ∀ c ∈ cs, (p.classes.get? c).isSome) (s : σ × List (ClassName × ClassTree)) :
    ((Pool.runInOrder (r.job output.recorded lk p) cs s).2.2.map (·.1)).Perm
      (((Pool.runInOrder (r.job output.recorded lk p) cs s).1.filter
        (·.2.toOption.isSome)).map (·.1) ++ s.2.map (·.1)) := by
  induction cs generalizing s with
  | nil => exact .refl _
  | cons c cs ih =>
    have hjob := names_job_recorded r output lk
      (hcs c List.mem_cons_self) s
    have hrest := ih (fun c' hc' ↦ hcs c' (List.mem_cons_of_mem _ hc'))
      (r.job output.recorded lk p c s).2
    rw [hjob] at hrest
    refine hrest.trans ?_
    rw [Pool.runInOrder, List.filter_cons]
    cases (r.job output.recorded lk p c s).1 with
    | error e => exact .refl _
    | ok _ => exact List.perm_middle

/-- **The output takes one tree for each entry that says so.** -/
theorem names_written (hschedule : ∀ cs, (r.schedule cs).Perm cs)
    (hreport : (r.run hooks input output s).outcome = .ok report) :
    ((r.written hooks input output s).map (·.1)).Perm
      ((report.groups.filter (·.status = .written)).map (·.cls)) := by
  -- the run is watched, and its report is that of the watched run
  have hwatched := (run_recorded (s, [])).1.trans hreport
  obtain ⟨l, hl, hknown, rfl⟩ := loaded_of_outcome_eq_ok hwatched
  let p := r.projections hooks l
  let results := (r.linked hooks output.recorded l (s, [])).1
  -- only the second phase has entries of written classes
  have hgroups : ((r.report hooks output.recorded l (s, [])).groups.filter
      (·.status = .written)).Perm ((results.filter (·.2.toOption.isSome)).map (entry p)) := by
    refine ((List.mergeSort_perm _ _).filter _).trans ?_
    have hfailed : (l.failed.map fun f : ClassName × String ↦ GroupReport.failed f.1 f.2 []).filter
        (·.status = .written) = [] := by
      refine List.filter_eq_nil_iff.2 fun g hg ↦ ?_
      obtain ⟨f, -, rfl⟩ := List.mem_map.1 hg
      exact of_decide_eq_false rfl
    have hentries : p.entries.filter (·.status = .written) = [] :=
      List.filter_eq_nil_iff.2 fun g hg ↦ by simpa using status_of_mem_entries hg
    have hlinked : (results.map (entry p)).filter (·.status = .written) =
        (results.filter (·.2.toOption.isSome)).map (entry p) := by
      rw [List.filter_map]
      refine congrArg (List.map _) (List.filter_congr fun result _ ↦ ?_)
      exact Bool.eq_iff_iff.2 (decide_eq_true_iff.trans (status_entry p result))
    rw [List.filter_append, List.filter_append, hfailed, hentries, hlinked, List.nil_append,
      List.nil_append]
  have hprojected : ∀ c ∈ r.schedule p.classes.keys, (p.classes.get? c).isSome := fun c hc ↦
    Option.isSome_iff_exists.2 (OrderedMap.mem_keys.1 ((hschedule _).mem_iff.1 hc))
  rw [written_eq hooks output s hl hknown]
  refine (names_runInOrder_recorded hprojected (s, [])).trans ?_
  rw [List.map_nil, List.append_nil]
  refine List.Perm.trans ?_ (hgroups.map _).symm
  rw [List.map_map, Function.comp_def, funext (cls_entry p)]
  exact ((List.mergeSort_perm _ _).symm.filter _).map _

/-! ### The whole run -/

/-- What a run says about the stored classes, and does with them. -/
structure Accounts (input : Source) (versions : VersionSet) (classes : List ClassName)
    (report : Report) (written : List (ClassName × ClassTree)) : Prop where
  /-- There is one entry for each class that cannot be loaded, under the name that it is listed by,
  and one for each name of a loaded tree. -/
  entries : (report.groups.map (·.cls)).Perm
    (unreadable input versions classes ++
      (OrderedSet.ofList (storedNames input versions classes)).toList)
  /-- The output takes one tree for each entry that says so, and no other. -/
  written : (written.map (·.1)).Perm
    ((report.groups.filter (·.status = .written)).map (·.cls))
  /-- Where each tree has the name that it is listed by, the entries are those of the listed
  classes. -/
  listed : classes.Nodup → NamedAsListed input versions classes →
    (report.groups.map (·.cls)).Perm classes

theorem unreadable_append_storedNames_perm (h : NamedAsListed input versions classes) :
    (unreadable input versions classes ++ storedNames input versions classes).Perm classes := by
  induction classes with
  | nil => exact .nil
  | cons c classes ih =>
    have hrest := ih fun c' hc' ↦ h c' (List.mem_cons_of_mem _ hc')
    rw [unreadable, storedNames, List.filter_cons, List.filterMap_cons, ← unreadable, ← storedNames]
    cases hload : loadClass input versions c with
    | error e => exact hrest.cons c
    | ok x =>
      have hname : x.1.name = c := h c List.mem_cons_self x (by rw [hload]; rfl)
      simp only [Except.toOption, Option.map_some, hname]
      exact List.perm_middle.trans (hrest.cons c)

/-- **A split run accounts for the stored classes by name.** -/
theorem run_accounts (hschedule : ∀ cs, (r.schedule cs).Perm cs)
    (hreport : (r.run hooks input output s).outcome = .ok report) :
    ∃ classes, input.list none = .ok classes ∧
      Accounts input (.ofList r.versions) classes report (r.written hooks input output s) := by
  have hwritten := names_written hschedule hreport
  obtain ⟨l, hl, -, rfl⟩ := loaded_of_outcome_eq_ok hreport
  cases hlist : input.list none with
  | error e =>
    rw [load, hlist] at hl
    cases hl
  | ok classes =>
    obtain ⟨hfailed, hkeys⟩ := keys_load hlist hl
    have hentries := names_report hschedule hooks output s l
    rw [hfailed, hkeys] at hentries
    refine ⟨classes, rfl, hentries, hwritten, ?_⟩
    intro hnodup hnamed
    have hperm := unreadable_append_storedNames_perm hnamed
    have hstored := (List.nodup_append.1 (hperm.nodup_iff.2 hnodup)).2.1
    have hset : (OrderedSet.ofList (storedNames input (.ofList r.versions) classes)).toList.Perm
        (storedNames input (.ofList r.versions) classes) :=
      (List.perm_ext_iff_of_nodup (OrderedSet.nodup_toList _) hstored).2 fun _ ↦
        OrderedSet.mem_toList_ofList
    exact hentries.trans ((hset.append_left _).trans hperm)

/-- A class that cannot be loaded, one that is removed and one that is written. -/
def mixedMerges : MemoryStore :=
  MemoryStore.empty
    |>.insert none
      { name := ⟨"x/Broken"⟩, access := .publicAccess
        merged := some ⟨[⟨"a"⟩], [⟨"hidden", [⟨"a"⟩]⟩], []⟩ }
    |>.insert none
      { name := ⟨"x/Gone"⟩, access := .publicAccess, directives := [.remove [⟨"a"⟩]] }
    |>.insert none { name := ⟨"x/Kept"⟩, access := .publicAccess }

def firstSplit : SplitRun := { versions := [⟨"a"⟩, ⟨"b"⟩], target := ⟨"a"⟩ }

theorem run_accounts_mixedMerges :
    ∃ report, (firstSplit.run .empty mixedMerges.source MemoryStore.output .empty).outcome =
        .ok report ∧
      (report.groups.map (·.cls)).Perm [⟨"x/Broken"⟩, ⟨"x/Gone"⟩, ⟨"x/Kept"⟩] ∧
      ((firstSplit.written .empty mixedMerges.source MemoryStore.output .empty).map (·.1)).Perm
        ((report.groups.filter (·.status = .written)).map (·.cls)) := by
  have houtcome := (run_of_load .empty MemoryStore.output .empty (r := firstSplit)
    (load_source _ mixedMerges) (by decide)).1
  obtain ⟨classes, hlist, haccounts⟩ := run_accounts (fun _ ↦ .refl _) houtcome
  obtain rfl : classes = [⟨"x/Broken"⟩, ⟨"x/Gone"⟩, ⟨"x/Kept"⟩] :=
    (Except.ok.inj hlist).symm.trans (by decide +kernel)
  exact ⟨_, houtcome, haccounts.listed (by decide) (by decide +kernel), haccounts.written⟩

/-! ### A tree that is stored under another name -/

/-- Two classes are listed, but both trees have the name of the first. -/
def misnamedStore : MemoryStore :=
  MemoryStore.empty
    |>.write ⟨"x/A"⟩ { name := ⟨"x/A"⟩, access := .publicAccess }
    |>.write ⟨"x/B"⟩ { name := ⟨"x/A"⟩, access := .publicAccess }

/-- **A listed class has no entry in the report** where its tree has the name of another one. -/
theorem report_misnamedStore : misnamedStore.source.list none = .ok [⟨"x/A"⟩, ⟨"x/B"⟩] ∧
    ∃ report, (firstSplit.run .empty misnamedStore.source MemoryStore.output .empty).outcome =
        .ok report ∧ report.groups.map (·.cls) = [⟨"x/A"⟩] := by
  refine ⟨congrArg Except.ok (by decide +kernel), _, (run_of_load .empty MemoryStore.output .empty
    (r := firstSplit) (load_source _ misnamedStore) (by decide)).1, ?_⟩
  have hnames := names_report (r := firstSplit) (fun _ ↦ .refl _) .empty MemoryStore.output .empty
    (firstSplit.loadedFrom misnamedStore)
  have hloaded : (firstSplit.loadedFrom misnamedStore).failed.map (·.1) ++
      (firstSplit.loadedFrom misnamedStore).index.classes.keys = [⟨"x/A"⟩] := by decide +kernel
  rw [hloaded] at hnames
  exact List.perm_singleton.1 hnames

end SplitRun

end ClassWeave
