import ClassWeave.Proofs.Run.Interleaving

/-!
# A merge run is atomic for each class

A run over any source, into an output in memory in which others may hold trees and leases, settles
each class by itself: the class is written as a whole or left alone, and the report says which, with
the reason (`IsAtomic`). That is so at every point where the job of a class can fail: a tree that
cannot be read, a lease that another holds, a merge that fails. A run that does not end in a report
has not touched the output (`run_atomic`).

What a run comes to does not depend on the order of the jobs, nor on whether they overlap.
-/

namespace ClassWeave.MergeRun

open Jobs (Complete underWay)

variable {m : MergeRun} {input : Source} {out : MemoryStore}

/-- The report and the output of a run that settles each class by itself. -/
structure IsAtomic (m : MergeRun) (input : Source) (out : MemoryStore) (report : Report)
    (final : MemoryStore) : Prop where
  /-- Each class that some version lists has one entry, which tells its result. -/
  groups : report.groups = (listedClasses input m.versions).toList.map fun c ↦
    entry (c, m.result input out.leases c)
  /-- A class whose merge succeeds is written as the merge encodes it. -/
  written : ∀ c ∈ listedClasses input m.versions, ∀ merged,
    m.result input out.leases c = .ok merged →
      final.trees.get? ⟨none, c⟩ = some merged.encode
  /-- Every other tree stays as it was, and so does the absence of one. -/
  kept : ∀ slot, (slot.version = none → slot.cls ∈ listedClasses input m.versions →
    ∀ merged, m.result input out.leases slot.cls ≠ .ok merged) →
      final.trees.get? slot = out.trees.get? slot
  leases : final.leases = out.leases

/-- Settling the classes one after the other, in any order, settles each by itself. -/
theorem isAtomic_foldl_settled {classes : List ClassName}
    (hclasses : classes.Perm (listedClasses input m.versions).toList) :
    IsAtomic m input out
      ⟨.merge, m.versions, (listedClasses input m.versions).toList.map fun c ↦
        entry (c, m.result input out.leases c), true⟩
      (classes.foldl (settled (m.result input out.leases)) out) where
  groups := rfl
  written c hc merged hmerged := by
    have hmem : c ∈ classes := hclasses.mem_iff.2 hc
    rw [get?_foldl_settled, if_pos ⟨rfl, hmem⟩, hmerged]
    rfl
  kept slot hslot := by
    rw [get?_foldl_settled]
    split
    · obtain ⟨hversion, hmem⟩ := ‹slot.version = none ∧ slot.cls ∈ classes›
      have hfailed := hslot hversion (hclasses.mem_iff.1 hmem)
      cases hresult : m.result input out.leases slot.cls with
      | ok merged => exact absurd hresult (hfailed merged)
      | error e => rfl
    · rfl
  leases := leases_foldl_settled

/-- **A merge run is atomic for each class.** -/
theorem run_atomic (hschedule : ∀ l, (m.schedule l).Perm l) :
    (∀ report, (m.run input MemoryStore.output out).outcome = .ok report →
      IsAtomic m input out report (m.run input MemoryStore.output out).state ∧
        ∀ turns, Complete m input out turns →
          (∀ c ∈ listedClasses input m.versions,
            (underWay m input out turns).phase c = .ended (m.result input out.leases c)) ∧
          (underWay m input out turns).store = (m.run input MemoryStore.output out).state) ∧
      ∀ e, (m.run input MemoryStore.output out).outcome = .error e →
        (m.run input MemoryStore.output out).state = out := by
  by_cases hlist : ∀ v ∈ m.versions, ∃ classes, input.list (some v) = .ok classes
  · obtain ⟨houtcome, hstate⟩ := run_eq out hschedule hlist
    refine ⟨fun report hreport ↦ ⟨?_, fun turns hturns ↦ ?_⟩, fun e he ↦ ?_⟩
    · have hgroups := Except.ok.inj (houtcome.symm.trans hreport)
      rw [hstate, ← hgroups]
      exact isAtomic_foldl_settled (hschedule _)
    · exact Jobs.underWay_eq_run hschedule hlist hturns
    · rw [houtcome] at he
      cases he
  · simp only [not_forall] at hlist
    obtain ⟨v, hv, hlist⟩ := hlist
    cases hread : input.list (some v) with
    | ok classes => exact absurd ⟨classes, hread⟩ hlist
    | error e =>
      obtain ⟨⟨text, htext⟩, hstate⟩ := run_unlisted out hv hread
      refine ⟨fun report hreport ↦ ?_, fun _ _ ↦ hstate⟩
      rw [htext] at hreport
      cases hreport

/-- Two versions of some classes. Those of `x/Odd` have unrelated superclasses; those of `x/Kid`
have one in common, as the tree of `x/Mid` tells. -/
def mixedStore : MemoryStore :=
  MemoryStore.empty
    |>.insert (some ⟨"a"⟩) { name := ⟨"x/Bad"⟩, access := .publicAccess }
    |>.insert (some ⟨"a"⟩) { name := ⟨"x/Good"⟩, access := .publicAccess }
    |>.insert (some ⟨"a"⟩) { name := ⟨"x/Held"⟩, access := .publicAccess }
    |>.insert (some ⟨"a"⟩)
      { name := ⟨"x/Kid"⟩, access := .publicAccess, superclass := ⟨"x/Mid"⟩ }
    |>.insert (some ⟨"a"⟩)
      { name := ⟨"x/Mid"⟩, access := .publicAccess, superclass := ⟨"x/Base"⟩ }
    |>.insert (some ⟨"a"⟩)
      { name := ⟨"x/Odd"⟩, access := .publicAccess, superclass := ⟨"x/Left"⟩ }
    |>.insert (some ⟨"b"⟩) { name := ⟨"x/Bad"⟩, access := .publicAccess }
    |>.insert (some ⟨"b"⟩) { name := ⟨"x/Good"⟩, access := .packageAccess }
    |>.insert (some ⟨"b"⟩)
      { name := ⟨"x/Kid"⟩, access := .publicAccess, superclass := ⟨"x/Base"⟩ }
    |>.insert (some ⟨"b"⟩)
      { name := ⟨"x/Odd"⟩, access := .publicAccess, superclass := ⟨"x/Right"⟩ }

/-- The store, except that one tree cannot be read. -/
def mixedSource : Source :=
  { mixedStore.source with
    read := fun c v ↦
      if c = ⟨"x/Bad"⟩ ∧ v = ⟨"b"⟩ then .error (.corrupt "b/x/Bad.json" none)
      else mixedStore.source.read c v }

def oldOdd : ClassTree := { name := ⟨"x/Odd"⟩, access := .packageAccess }

/-- An output with an earlier tree, in which somebody holds a lease. -/
def mixedOutput : MemoryStore := (MemoryStore.empty.insert none oldOdd).held ⟨"x/Held"⟩

def mixedRun : MergeRun := { versions := [⟨"a"⟩, ⟨"b"⟩], schedule := List.reverse }

def mixedReport : Report where
  kind := .merge
  versions := [⟨"a"⟩, ⟨"b"⟩]
  groups :=
    [.failed ⟨"x/Bad"⟩ "corrupt class tree b/x/Bad.json: not a class tree" [],
      .written ⟨"x/Good"⟩ [],
      .failed ⟨"x/Held"⟩ "class group x/Held is already leased" [],
      .written ⟨"x/Kid"⟩ [],
      .written ⟨"x/Mid"⟩ [],
      .failed ⟨"x/Odd"⟩ ("cannot pick a physical superclass for x/Odd: versions extend " ++
        "\x7bVersionId(\"a\"): ClassIdentity(\"x/Left\"), " ++
        "VersionId(\"b\"): ClassIdentity(\"x/Right\")\x7d") []]
  finished := true

/-- The jobs of `x/Good`, `x/Kid` and `x/Odd` overlap. -/
def mixedTurns : List ClassName :=
  [⟨"x/Odd"⟩, ⟨"x/Kid"⟩, ⟨"x/Good"⟩, ⟨"x/Bad"⟩, ⟨"x/Good"⟩, ⟨"x/Kid"⟩, ⟨"x/Odd"⟩, ⟨"x/Held"⟩,
    ⟨"x/Mid"⟩, ⟨"x/Odd"⟩, ⟨"x/Good"⟩, ⟨"x/Mid"⟩, ⟨"x/Mid"⟩, ⟨"x/Kid"⟩]

theorem outcome_mixedSource :
    (mixedRun.run mixedSource MemoryStore.output mixedOutput).outcome = .ok mixedReport := by
  have hlist : ∀ v ∈ mixedRun.versions, ∃ classes, mixedSource.list (some v) = .ok classes :=
    fun v _ ↦ ⟨mixedStore.list (some v), rfl⟩
  have hgroups : ((listedClasses mixedSource mixedRun.versions).toList.map fun c ↦
      entry (c, mixedRun.result mixedSource mixedOutput.leases c)) = mixedReport.groups := by
    decide +kernel
  rw [(run_eq _ List.reverse_perm hlist).1, hgroups]
  rfl

/-- `x/Kid` is written with a superclass that one of its versions has only by way of `x/Mid`. A
merger that has not learnt of `x/Mid` would fail. -/
theorem run_atomic_mixedSource :
    (mixedRun.run mixedSource MemoryStore.output mixedOutput).outcome = .ok mixedReport ∧
      IsAtomic mixedRun mixedSource mixedOutput mixedReport
        (mixedRun.run mixedSource MemoryStore.output mixedOutput).state ∧
      (mixedRun.run mixedSource MemoryStore.output mixedOutput).state.trees.get?
        ⟨none, ⟨"x/Odd"⟩⟩ = some oldOdd ∧
      (∃ t, (mixedRun.run mixedSource MemoryStore.output mixedOutput).state.trees.get?
        ⟨none, ⟨"x/Kid"⟩⟩ = some t ∧ t.superclass = ⟨"x/Base"⟩) ∧
      ((⟨.empty, .empty⟩ : Merger).merge ⟨"x/Kid"⟩
        (mixedStore.treesOf mixedRun.versions ⟨"x/Kid"⟩)).toOption = none ∧
      (underWay mixedRun mixedSource mixedOutput mixedTurns).store =
        (mixedRun.run mixedSource MemoryStore.output mixedOutput).state ∧
      (mixedRun.run mixedStore.unlistedSource MemoryStore.output mixedOutput).state =
        mixedOutput := by
  obtain ⟨hatomic, hturns⟩ := (run_atomic List.reverse_perm).1 mixedReport outcome_mixedSource
  have hodd : ∀ merged, mixedRun.result mixedSource mixedOutput.leases ⟨"x/Odd"⟩ ≠ .ok merged := by
    have hfailed : (mixedRun.result mixedSource mixedOutput.leases ⟨"x/Odd"⟩).toOption = none := by
      decide +kernel
    intro merged h
    rw [h] at hfailed
    cases hfailed
  have hkept : mixedOutput.trees.get? ⟨none, ⟨"x/Odd"⟩⟩ = some oldOdd := by decide +kernel
  have hkid : ∃ merged, mixedRun.result mixedSource mixedOutput.leases ⟨"x/Kid"⟩ = .ok merged ∧
      merged.encode.superclass = ⟨"x/Base"⟩ := by
    have hsuper : (mixedRun.result mixedSource mixedOutput.leases ⟨"x/Kid"⟩).toOption.map
        (·.encode.superclass) = some ⟨"x/Base"⟩ := by decide +kernel
    cases hresult : mixedRun.result mixedSource mixedOutput.leases ⟨"x/Kid"⟩ with
    | ok merged =>
      rw [hresult] at hsuper
      exact ⟨merged, rfl, Option.some.inj hsuper⟩
    | error e =>
      rw [hresult] at hsuper
      cases hsuper
  have hunlearnt : ((⟨.empty, .empty⟩ : Merger).merge ⟨"x/Kid"⟩
      (mixedStore.treesOf mixedRun.versions ⟨"x/Kid"⟩)).toOption = none := by decide +kernel
  have hcomplete : Complete mixedRun mixedSource mixedOutput mixedTurns := by decide +kernel
  obtain ⟨merged, hmerged, hbase⟩ := hkid
  have hlisted : ⟨"x/Kid"⟩ ∈ listedClasses mixedSource mixedRun.versions := by decide +kernel
  exact ⟨outcome_mixedSource, hatomic,
    (hatomic.kept ⟨none, ⟨"x/Odd"⟩⟩ fun _ _ ↦ hodd).trans hkept,
    ⟨_, hatomic.written _ hlisted merged hmerged, hbase⟩, hunlearnt, (hturns mixedTurns hcomplete).2,
    (run_atomic List.reverse_perm).2 _ rfl⟩

end ClassWeave.MergeRun
