import ClassWeave.Proofs.Link.Leaks
import ClassWeave.Proofs.Run.Written
import ClassWeave.Proofs.Split.Directives

/-!
# Written trees and removed classes

A run removes a class that the target lacks, and one that its directives drop
(`project_eq_removed_iff`). The verifier asks the index whether the target has a class, so it
catches each mention of the first kind; of directives the index knows nothing. A verified tree may
therefore mention a class that the same run removes, but only if the target has that class and its
directives drop it (`removed_mention_dropped`); `removed_mention_goneStore` is such a run.
-/

namespace ClassWeave

variable {σ : Type}

namespace SplitRun

variable {r : SplitRun} {hooks : HookRegistry} {input : Source} {output : Output σ} {s : σ}
  {l : Loaded} {c : ClassName} {t : ClassTree} {report : Report}

/-- A run that gives a report has loaded its input and gone through both phases. -/
theorem exists_of_outcome_eq_ok (h : (r.run hooks input output s).outcome = .ok report) :
    ∃ l, load input (.ofList r.versions) = .ok l ∧ report = r.report hooks output l s := by
  obtain ⟨l, hl, -, hreport⟩ := loaded_of_outcome_eq_ok h
  exact ⟨l, hl, hreport⟩

/-- **A removed class that a verified tree mentions is one that its directives drop**, although the
target has it. -/
theorem removed_mention_dropped (hverify : r.verify = true)
    (hreport : (r.run hooks input output s).outcome = .ok report)
    (hwritten : (c, t) ∈ r.written hooks input output s) {g : GroupReport}
    (hg : g ∈ report.groups) (hremoved : g.status = .removed) (hmention : g.cls ∈ t.mentions) :
    ∃ l merged, load input (.ofList r.versions) = .ok l ∧ l.index.get? g.cls = some merged ∧
      r.target ∈ merged.versions ∧ DropClass (directivesOf l g.cls).cls r.target := by
  obtain ⟨l, hl, rfl⟩ := exists_of_outcome_eq_ok hreport
  obtain ⟨l', hl', projected, -, hfinish⟩ := finished_of_mem_written hwritten
  obtain rfl : l = l' := Except.ok.inj (hl.symm.trans hl')
  obtain ⟨merged, hmerged, hproject⟩ := projectClass_eq_ok.1 (projectClass_of_removed hg hremoved)
  have hleaks := MergedIndex.check_eq_ok.1 ((finishTree_eq_ok.1 hfinish).2 hverify)
  -- otherwise the verifier had reported the mention
  have hexists : r.target ∈ merged.versions :=
    MergedIndex.mem_versions_of_mem_mentions hleaks hmention hmerged
  have hdropped := (Projector.project_eq_removed_iff.1 hproject).resolve_left (not_not.2 hexists)
  exact ⟨l, merged, hl, hmerged, hexists, hdropped⟩

/-! ### A removed class that is still constructed -/

/-- A class with a method that constructs `x/Gone`. -/
def goneUser : ClassTree where
  name := ⟨"x/User"⟩
  access := .publicAccess
  members := [
    { name := "make", desc := "()V", kind := .method, access := .publicAccess
      body := some (.code 1 [.type .new ⟨"x/Gone"⟩]) }]

/-- `x/Gone` exists in every version, but a directive removes it from the first one. -/
def goneStore : MemoryStore :=
  MemoryStore.empty
    |>.insert none
      { name := ⟨"x/Gone"⟩, access := .publicAccess, directives := [.remove [⟨"a"⟩]] }
    |>.insert none goneUser

def goneSplit : SplitRun := { versions := [⟨"a"⟩, ⟨"b"⟩], target := ⟨"a"⟩ }

theorem projections_goneStore : goneSplit.projections .empty (goneSplit.loadedFrom goneStore) =
    collect [
      (⟨"x/Gone"⟩, .ok .removed),
      (⟨"x/User"⟩, .ok (.projected ⟨goneUser, [], [], []⟩))] := by
  rw [projections_eq fun _ ↦ .refl _]
  exact congrArg collect (by decide +kernel)

theorem outcome_goneStore : ∃ report, (goneSplit.run .empty goneStore.source MemoryStore.output
    .empty).outcome = .ok report ∧ .removed ⟨"x/Gone"⟩ ∈ report.groups := by
  refine ⟨_, (run_of_load _ _ _ (load_source _ goneStore) (by decide)).1,
    mem_report_of_mem_entries ?_⟩
  rw [projections_goneStore]
  decide

theorem written_goneStore : goneSplit.written .empty goneStore.source MemoryStore.output .empty =
    [(⟨"x/User"⟩, goneUser)] := by
  rw [written_eq _ _ _ (load_source _ goneStore) (by decide), linker, projections_goneStore]
  decide

theorem removed_mention_dropped_goneStore : ∃ l merged,
    load goneStore.source (.ofList goneSplit.versions) = .ok l ∧
      l.index.get? ⟨"x/Gone"⟩ = some merged ∧ goneSplit.target ∈ merged.versions ∧
      DropClass (directivesOf l ⟨"x/Gone"⟩).cls goneSplit.target := by
  obtain ⟨report, hreport, hgroup⟩ := outcome_goneStore
  have hwritten : (⟨"x/User"⟩, goneUser) ∈
      goneSplit.written .empty goneStore.source MemoryStore.output .empty := by
    rw [written_goneStore]
    exact List.mem_singleton_self _
  exact removed_mention_dropped (g := .removed ⟨"x/Gone"⟩) rfl hreport hwritten hgroup rfl
    (by decide)

/-- **A verified run writes a tree that constructs a class which it removes.** -/
theorem removed_mention_goneStore : goneSplit.verify = true ∧
    ∃ report, (goneSplit.run .empty goneStore.source MemoryStore.output .empty).outcome =
        .ok report ∧
      ∃ e ∈ goneSplit.written .empty goneStore.source MemoryStore.output .empty,
        ∃ g ∈ report.groups, g.status = .removed ∧ g.cls ∈ e.2.mentions := by
  obtain ⟨report, hreport, hgroup⟩ := outcome_goneStore
  refine ⟨rfl, report, hreport, (⟨"x/User"⟩, goneUser), ?_, _, hgroup, rfl, by decide⟩
  rw [written_goneStore]
  exact List.mem_singleton_self _

end SplitRun

end ClassWeave
