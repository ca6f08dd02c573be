import ClassWeave.Proofs.Run.Accounted
import ClassWeave.Proofs.Store.Confined
import ClassWeave.Proofs.Stored.Codec

/-!
# Runs that stay below a root

A split run writes each class under the name that its tree has, which need not be the one that the
tree was stored under (`SplitRun.exists_readMerged`). So what the operations on the classes keep
that stored trees are named for, a run keeps (`SplitRun.run_invariant`), and nothing better can be
said: reading a tree does not look at its name.

Into a directory, a run therefore keeps to the root where the stored trees have confined names
(`DirectoryStore.changes_stay_below_root`). The name of a single tree is enough to lead it elsewhere
(`DirectoryStore.stray_name_leaves_root`).
-/

namespace ClassWeave

variable {σ : Type} {r : SplitRun} {hooks : HookRegistry} {input : Source} {output : Output σ}
  {s : σ} {l : SplitRun.Loaded} {c : ClassName} {t : ClassTree} {P : σ → Prop}

/-- The operations on a class keep an invariant. -/
structure Output.Keeps (output : Output σ) (P : σ → Prop) (c : ClassName) : Prop where
  write : ∀ t s, P s → P (output.write c t s).2
  lease : ∀ s, P s → P (output.lease c s).2
  release : ∀ s, P s → P (output.release c s)

/-- A stored tree keeps its name. -/
theorem ClassTree.name_asMerged {versions : VersionSet} {merged : MergedClass}
    (h : t.asMerged versions = .ok merged) : merged.name = t.name := by
  rw [asMerged] at h
  split at h
  · cases h
    rfl
  · obtain ⟨note, -, hname, -⟩ := decode_eq_ok.1 h
    exact hname

namespace SplitRun

/-- A job works on its own class only. -/
theorem job_invariant {lk : Linker} {p : Projected}
    (hkeeps : ∀ projected, p.classes.get? c = some projected → output.Keeps P c) (hs : P s) :
    P (r.job output lk p c s).2 := by
  rw [job]
  split
  · exact hs
  rename_i projected hget
  have hkeep := hkeeps projected hget
  split
  · exact hs
  rename_i tree _
  have hlease := hkeep.lease s hs
  split
  · rename_i h
    rwa [h] at hlease
  rename_i s₁ h
  rw [h] at hlease
  have hwrite := hkeep.write tree s₁ hlease
  split
  · rename_i h'
    rw [h'] at hwrite
    exact hkeep.release _ hwrite
  · rename_i h'
    rw [h'] at hwrite
    exact hkeep.release _ hwrite

/-- A class that was loaded has the name of a tree that was read. -/
theorem exists_readMerged_of_loadClass {versions : VersionSet} {a : ClassName}
    {x : MergedClass × ClassDirectives} (h : loadClass input versions a = .ok x) :
    ∃ t, input.readMerged a = .ok t ∧ t.name = x.1.name := by
  rw [loadClass] at h
  split at h
  · cases h
  rename_i t hread
  refine ⟨t, hread, ?_⟩
  split at h
  · cases h
  rename_i merged hmerged
  split at h
  · cases h
  · cases h
    exact (ClassTree.name_asMerged hmerged).symm

/-- **A projected class has the name of a tree that was read**, wherever that tree was stored. -/
theorem exists_readMerged (hl : load input (.ofList r.versions) = .ok l)
    {projected : ProjectedClass} (hget : (r.projections hooks l).classes.get? c = some projected) :
    ∃ a t, input.readMerged a = .ok t ∧ t.name = c := by
  obtain ⟨merged, hindex, -⟩ := projectClass_eq_ok.1 (projectClass_of_get?_projections hget)
  have hkey : c ∈ l.index.classes.keys := OrderedMap.mem_keys.2 ⟨merged, hindex⟩
  cases hlist : input.list none with
  | error e =>
    rw [load, hlist] at hl
    cases hl
  | ok classes =>
    rw [(keys_load hlist hl).2] at hkey
    obtain ⟨a, -, hname⟩ := List.mem_filterMap.1 (OrderedSet.mem_ofList.1 hkey)
    obtain ⟨x, hx, rfl⟩ := Option.map_eq_some_iff.1 hname
    cases hload : loadClass input (.ofList r.versions) a with
    | error e =>
      rw [hload] at hx
      cases hx
    | ok y =>
      rw [hload] at hx
      cases hx
      obtain ⟨t, hread, ht⟩ := exists_readMerged_of_loadClass hload
      exact ⟨a, t, hread, ht⟩

/-- **Step to run**: what the operations on the classes keep that stored trees are named for, a
split run keeps. -/
theorem run_invariant (hkeeps : ∀ a t, input.readMerged a = .ok t → output.Keeps P t.name)
    (hs : P s) : P (r.run hooks input output s).state := by
  rcases r.run_cases hooks input output s with ⟨e, -, hstate⟩ | ⟨l, hl, -, hstate⟩
  · rwa [hstate]
  · rw [hstate]
    refine Pool.runInOrder_invariant (fun c s hs ↦ job_invariant (fun projected hget ↦ ?_) hs) _ hs
    obtain ⟨a, t, hread, rfl⟩ := exists_readMerged hl hget
    exact hkeeps a t hread

end SplitRun

namespace DirectoryStore

open Disk

variable {st : DirectoryStore} {d d' : Disk} {base : Location}

/-- The operations on a confined class keep to the root, whatever has been done there before. -/
theorem keeps_changesIn (hroot : d.Reaches st.root base) (hc : c.Confined) :
    st.output.Keeps (ChangesIn (Below base) d) c := by
  rw [DirectoryStore.output]
  constructor <;> dsimp only
  · intro t d₁ hd
    have hwrite : ChangesIn (Below base) d₁ (st.write c t d₁).2 :=
      changesIn_write hc (hroot.changesIn hd) t
    exact hd.trans hwrite
  · intro d₁ hd
    have hlease : ChangesIn (Below base) d₁ (st.lease c d₁).2 :=
      changesIn_lease hc (hroot.changesIn hd)
    exact hd.trans hlease
  · intro d₁ hd
    exact hd.trans (changesIn_release hc (hroot.changesIn hd))

/-- **A store stays below its root where the names of the classes do.** Take a store that was
created, and any later disk that has lost no directory since. Writing a class, taking a lease on it
and giving it up change nothing but what is below the root if the name of the class is no absolute
path and no step of it leads out of the root; a relative name without dots is such a name. A split
run writes the classes under the names in their trees, and these are not looked at: the run stays
below the root if they are all confined. Of any other name, a tree that is written is where the
steps of the name lead to, from the root or, behind a slash, from the top. -/
theorem changes_stay_below_root {root : String} {versions : List Version} {d₀ d₁ : Disk}
    (hstart : d₀.lookup d₀.workingDirectory = some .directory)
    (hcreate : create root versions d₀ = (.ok st, d₁)) (hlater : ChangesIn (fun _ ↦ True) d₁ d) :
    (∀ c : ClassName, c.Confined →
      (∀ t, ChangesIn (Below (d.place root)) d (st.write c t d).2) ∧
        ChangesIn (Below (d.place root)) d (st.lease c d).2 ∧
        ChangesIn (Below (d.place root)) d (st.release c d)) ∧
    (∀ c : ClassName, c.DotFree → Path.isAbsolute c.text = false → c.Confined) ∧
    (∀ (r : SplitRun) (hooks : HookRegistry) (input : Source),
      (∀ a t, input.readMerged a = .ok t → t.name.Confined) →
        ChangesIn (Below (d.place root)) d (r.run hooks input st.output d).state) ∧
    ∀ c t d', st.write c t d = (.ok (), d') →
      d'.lookup (c.fileFrom (d.place root)) = some (.file t.toJson.pretty) := by
  obtain ⟨rfl, base, hbase⟩ := exists_reaches_of_create hstart hcreate
  have hroot : d.Reaches st.root (d.place st.root) := by
    have hthere := hbase.changesIn hlater
    rwa [place, hthere.walks.resolve_eq]
  refine ⟨fun c hc ↦ ⟨changesIn_write hc hroot, changesIn_lease hc hroot,
    changesIn_release hc hroot⟩, fun c ↦ ClassName.confined_of_dotFree,
    fun r hooks input hnames ↦ ?_, fun c t d' ↦ lookup_of_write hroot⟩
  exact SplitRun.run_invariant (fun a t hread ↦ keeps_changesIn hroot (hnames a t hread))
    (.refl _ d)

/-- Two directories side by side. -/
def siblingRoots : Disk where
  top := (Node.put .empty ["srv", "other"] (Node.put .empty ["srv", "out"] .empty)).nodes
  workingDirectory := ["srv"]

/-- A tree that has some name, whatever it is stored under. -/
def namedTree (name : String) : ClassTree where
  name := ⟨name⟩
  access := .publicAccess
  merged := some { versions := [⟨"a"⟩] }

/-- A split run into one of the directories, of a store with one class. -/
def namedRun (name : String) : RunResult Disk :=
  (SplitRun.mk [⟨"a"⟩] ⟨"a"⟩ true id).run .empty
    (MemoryStore.write ⟨"x/A"⟩ (namedTree name) .empty).source (DirectoryStore.output ⟨"out", []⟩)
    siblingRoots

/-- One of the directories is the root of a store. -/
theorem create_siblingRoots : create "out" [] siblingRoots = (.ok ⟨"out", []⟩, siblingRoots) := rfl

/-- Steps up and steps in place do no harm where they stay inside. A slash in front does. -/
theorem changes_stay_below_root_sidestep :
    (ClassName.Confined ⟨"x/../y/B"⟩ ∧
      ChangesIn (Below ["srv", "out"]) siblingRoots
        (DirectoryStore.lease ⟨"out", []⟩ ⟨"x/../y/B"⟩ siblingRoots).2) ∧
    ClassName.Confined ⟨"x/A"⟩ ∧
    ChangesIn (Below ["srv", "out"]) siblingRoots (namedRun "./y/A").state ∧
    ∃ d', DirectoryStore.write ⟨"out", []⟩ ⟨"/tmp/B"⟩ (namedTree "x/B") siblingRoots =
        (.ok (), d') ∧
      d'.lookup ["tmp", "B.json"] = some (.file (namedTree "x/B").toJson.pretty) := by
  obtain ⟨hops, hnames, hrun, hwrite⟩ :=
    changes_stay_below_root rfl create_siblingRoots (.refl _ siblingRoots)
  have hroot : siblingRoots.place "out" = ["srv", "out"] := by decide +kernel
  rw [hroot] at hops hrun hwrite
  have hconfined : ClassName.Confined ⟨"x/../y/B"⟩ := by decide
  refine ⟨⟨hconfined, (hops _ hconfined).2.1⟩, hnames _ (by decide) (by decide), ?_, ?_⟩
  · refine hrun _ _ _ fun a t hread ↦ ?_
    change MemoryStore.readSlot _ a none = .ok t at hread
    obtain rfl : namedTree "./y/A" = t := by
      rw [MemoryStore.readSlot, MemoryStore.write, OrderedMap.get?_insert] at hread
      split_ifs at hread
      · exact Except.ok.inj hread
      · cases hread
    decide
  · have hlocation : ClassName.fileFrom ["srv", "out"] ⟨"/tmp/B"⟩ = ["tmp", "B.json"] := by
      decide +kernel
    have hdone : (DirectoryStore.write ⟨"out", []⟩ ⟨"/tmp/B"⟩ (namedTree "x/B")
        siblingRoots).1.toOption.isSome = true := by decide +kernel
    cases hw : DirectoryStore.write ⟨"out", []⟩ ⟨"/tmp/B"⟩ (namedTree "x/B") siblingRoots with
    | mk result d' =>
      rw [hw] at hdone
      obtain ⟨⟨⟩, rfl⟩ := Outcome.exists_eq_ok hdone
      have hfile := hwrite _ _ _ hw
      rw [hlocation] at hfile
      exact ⟨d', rfl, hfile⟩

/-- **A name in a tree leads out of the root**: the run that finds it writes beside the directory
that it was given. -/
theorem stray_name_leaves_root :
    create "out" [] siblingRoots = (.ok ⟨"out", []⟩, siblingRoots) ∧
      siblingRoots.place "out" = ["srv", "out"] ∧
      siblingRoots.lookup ["srv", "other", "x", "A.json"] = none ∧
      ((namedRun "../other/x/A").state.lookup ["srv", "other", "x", "A.json"]).isSome = true ∧
      ¬ChangesIn (Below ["srv", "out"]) siblingRoots (namedRun "../other/x/A").state := by
  have hnone : siblingRoots.lookup ["srv", "other", "x", "A.json"] = none := by decide +kernel
  have hsome : ((namedRun "../other/x/A").state.lookup ["srv", "other", "x", "A.json"]).isSome =
      true := by decide +kernel
  refine ⟨create_siblingRoots, by decide +kernel, hnone, hsome, fun h ↦ ?_⟩
  rw [h.entry _ fun hbelow ↦ absurd hbelow.1 (by decide), hnone] at hsome
  cases hsome

end DirectoryStore

end ClassWeave
