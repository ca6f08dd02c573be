import ClassWeave.Proofs.Merge.Order
import ClassWeave.Proofs.Split.RoundTrip

/-!
# Merging what was split

A class is split into the trees of its versions, and these are merged again. The trees are not those
that the class was made of: their members stand in the order of the groups, and each carries the
flag of its group, not its own. Neither makes a difference to the groups.

* A version that lists its declarations in the order of the groups fills the same slots with them,
  since the order of the groups of one key is that of the version's own declarations of the key
  (`slot_splitOut`).
* The keys of the groups stay where they are (`keys_groups_reordered`).
* A group whose declarations all carry the flag of the group has that flag (`isSynthetic_resplit`).

So the groups come back one by one, each with the declarations that it emitted (`groups_splitOut`).
They get the same names and become the same members; all else in a merged class is made of what the
versions have in its tables.
-/

namespace ClassWeave

/-! ### Groups of emitted declarations -/

namespace MemberGroup

variable {g h : MemberGroup} {gs : List MemberGroup}

/-- The group with each declaration as the group emits it. -/
def resplit (g : MemberGroup) : MemberGroup :=
  ⟨g.key, g.decls.map fun e ↦ (e.1, g.emitted e.2)⟩

theorem groupKey_emitted (g : MemberGroup) (m : Member) : (g.emitted m).groupKey = m.groupKey := rfl

theorem versions_resplit (g : MemberGroup) : g.resplit.versions = g.versions := by
  rw [resplit, versions, versions, List.map_map]
  rfl

theorem versionSet_resplit (g : MemberGroup) : g.resplit.versionSet = g.versionSet := by
  rw [versionSet, versionSet, versions_resplit]

theorem isSynthetic_resplit (g : MemberGroup) : g.resplit.isSynthetic = g.isSynthetic := by
  rw [isSynthetic, resplit, List.all_map]
  cases hdecls : g.decls with
  | nil => rw [isSynthetic, hdecls]; rfl
  | cons e decls =>
    -- one declaration is enough to carry the flag of the group
    rw [Bool.eq_iff_iff, List.all_eq_true]
    exact ⟨fun hall ↦ hall e List.mem_cons_self, fun hflag _ _ ↦ hflag⟩

theorem overrides_resplit (g : MemberGroup) : g.resplit.overrides = [] := by
  refine List.filterMap_eq_nil_iff.2 fun e he ↦ ?_
  obtain ⟨a, -, rfl⟩ := List.mem_map.1 he
  rfl

theorem sourceIdentity_resplit (g : MemberGroup) :
    g.resplit.sourceIdentity = g.sourceIdentity := rfl

theorem clashes_resplit (g h : MemberGroup) : g.resplit.clashes h.resplit = g.clashes h := by
  rw [clashes, clashes, isDisjoint, isDisjoint, isSynthetic_resplit, isSynthetic_resplit,
    sourceIdentity_resplit, sourceIdentity_resplit, versions_resplit, versions_resplit]

/-- **A group needs to be mangled among the groups that come back as it did before.** -/
theorem needsMangling_resplit (gs : List MemberGroup) (g : MemberGroup) :
    needsMangling (gs.map resplit) g.resplit = needsMangling gs g := by
  have hclash : (gs.map resplit).any g.resplit.clashes = gs.any g.clashes := by
    rw [List.any_map]
    exact congrArg gs.any (funext fun h ↦ clashes_resplit g h)
  have hrepeated : isRepeated (gs.map resplit) g.resplit = isRepeated gs g := by
    rw [isRepeated, isRepeated, List.filter_map, List.length_map]
    rfl
  rw [needsMangling, needsMangling, hclash, hrepeated]

/-- **A group that comes back becomes the same member.** -/
theorem toMember_resplit {d d' : Declarations} (hgroups : d'.groups = d.groups.map resplit)
    (hchosen : g.nameOverride? = none) : d'.toMember g.resplit = d.toMember g := by
  have hunchosen : g.resplit.nameOverride? = none := by
    rw [nameOverride?, overrides_resplit]
    rfl
  have hname : ClassWeave.physicalName d'.groups g.resplit =
      ClassWeave.physicalName d.groups g := by
    rw [physicalName_eq hunchosen, physicalName_eq hchosen, hgroups, needsMangling_resplit,
      versionSet_resplit]
    rfl
  have haccess : g.resplit.decls.map (fun e ↦ (e.1, e.2.access)) =
      g.decls.map fun e ↦ (e.1, e.2.access) := List.map_map
  have hbodies : g.resplit.bodies = g.bodies := List.filterMap_map
  rw [Declarations.toMember, Declarations.toMember, NamedGroup.toMember, NamedGroup.toMember]
  simp only [hname, haccess, versionSet_resplit, isSynthetic_resplit]
  exact congrArg (fun bodies ↦ MergedMember.mk _ _ _ _ _ _ _ _ _ (OrderedMap.ofList bodies)) hbodies

end MemberGroup

/-! ### The groups of what was split -/

namespace Declarations

variable {d : Declarations} {v : Version} {k : GroupKey} {n : Nat}

/-- What the groups emit for a version. -/
def emittedIn (d : Declarations) (v : Version) : List Member :=
  d.groups.filterMap fun g ↦ (g.at? v).map g.emitted

/-- The declarations that each version gets back. -/
def splitOut (d : Declarations) : Declarations := d.map fun e ↦ (e.1, d.emittedIn e.1)

theorem versions_splitOut (d : Declarations) : d.splitOut.versions = d.versions := by
  rw [versions, splitOut, List.map_map]
  rfl

/-- The `n`-th declaration of a key that a version gets back is what the `n`-th group of the key
emits of the version's own `n`-th declaration. -/
theorem getElem?_filter_emittedIn (hd : d.versions.Nodup) {ms : List Member} (hv : (v, ms) ∈ d)
    (k : GroupKey) (n : Nat) : ((d.emittedIn v).filter (·.groupKey = k))[n]? =
      ((ms.filter (·.groupKey = k))[n]?).map (MemberGroup.emitted ⟨k, d.slot k n⟩) := by
  rw [emittedIn, filter_filterMap_at?_groups hd hv MemberGroup.groupKey_emitted,
    List.getElem?_mapIdx]

/-- **A slot comes back** with its declarations as its group emits them. -/
theorem slot_splitOut (hd : d.versions.Nodup) (k : GroupKey) (n : Nat) :
    d.splitOut.slot k n = (MemberGroup.resplit ⟨k, d.slot k n⟩).decls := by
  have hmap : ∀ f : Member → Member, (d.slot k n).map (fun e ↦ (e.1, f e.2)) = d.filterMap fun e ↦
      ((e.2.filter (·.groupKey = k))[n]?).map fun m ↦ (e.1, f m) := fun f ↦ by
    rw [slot, List.map_filterMap]
    exact List.filterMap_congr fun e _ ↦ Option.map_map ..
  rw [MemberGroup.resplit, hmap, slot, splitOut, List.filterMap_map]
  refine List.filterMap_congr fun e he ↦ ?_
  rw [Function.comp_apply, getElem?_filter_emittedIn hd he, Option.map_map]
  rfl

/-- **The groups come back**, each in its place. -/
theorem groups_splitOut (hd : d.versions.Nodup) :
    d.splitOut.groups = d.groups.map MemberGroup.resplit := by
  have hd' : d.splitOut.versions.Nodup := by rwa [versions_splitOut]
  refine eq_of_map_key (·.key) ?_ fun k ↦ ?_
  · have hkeys : d.splitOut.groups.map (·.key) = d.groups.map (·.key) := by
      refine keys_groups_reordered hd fun e _ ↦ ?_
      rw [emittedIn, ← map_groupKey_filterMap_at? hd, List.map_filterMap, List.map_filterMap]
      refine List.filterMap_congr fun g _ ↦ ?_
      rw [Option.map_map]
      rfl
    rw [hkeys, List.map_map]
    rfl
  · refine List.ext_getElem? fun n ↦ ?_
    have hfilter : (d.groups.map MemberGroup.resplit).filter (·.key = k) =
        (d.groups.filter (·.key = k)).map MemberGroup.resplit := List.filter_map
    rw [hfilter, List.getElem?_map, groups_filter_key hd', groups_filter_key hd, slot_splitOut hd]
    by_cases hslot : d.slot k n = []
    · rw [hslot]
      rfl
    · rw [MemberGroup.ofSlot?, MemberGroup.ofSlot?, if_neg hslot, if_neg]
      · rfl
      · exact fun hnil ↦ hslot (List.map_eq_nil_iff.1 hnil)

end Declarations

/-! ### Splitting and merging -/

section Merge

variable {m : Merger} {cls : ClassName} {ts : Trees} {c : MergedClass}

namespace Trees

/-- The tree that each version gets back from a merged class. -/
def splitOut (ts : Trees) (c : MergedClass) : Trees := ts.map fun e ↦ (e.1, c.viewTree e.1)

/-- **The trees that come back can be merged again, into the same class.** -/
theorem merge_splitOut (hc : m.merge cls ts = .ok c)
    (hchosen : ∀ a ∈ ts.allMembers, a.nameOverride = none) :
    m.merge cls (ts.splitOut c) = .ok c := by
  obtain ⟨hone, r, hr, hunique, rfl⟩ := Merger.merge_eq_ok.1 hc
  have hd := hone.nodup_declarations
  have hversions : (ts.splitOut (ts.assemble cls r)).map (·.1) = ts.map (·.1) := List.map_map
  have hone' : (ts.splitOut (ts.assemble cls r)).OneClass cls := by
    refine ⟨fun hnil ↦ hone.nonempty (List.map_eq_nil_iff.1 hnil), hversions ▸ hone.nodup, ?_⟩
    intro e he
    obtain ⟨a, -, rfl⟩ := List.mem_map.1 he
    rfl
  have hinheritance : (ts.splitOut (ts.assemble cls r)).inheritance = ts.inheritance := by
    rw [inheritance, inheritance, splitOut, List.map_map]
    refine List.map_congr_left fun e he ↦ ?_
    exact congrArg (Prod.mk e.1) (forVersion_inheritance hone hr he)
  have haccess : (ts.splitOut (ts.assemble cls r)).map (fun e ↦ (e.1, e.2.access)) =
      ts.map fun e ↦ (e.1, e.2.access) := by
    rw [splitOut, List.map_map]
    refine List.map_congr_left fun e he ↦ ?_
    exact congrArg (Prod.mk e.1) (forVersion_access hone he)
  have hdeclarations : (ts.splitOut (ts.assemble cls r)).declarations =
      ts.declarations.splitOut := by
    rw [declarations, splitOut, Declarations.splitOut, List.map_map, declarations, List.map_map]
    refine List.map_congr_left fun e _ ↦ ?_
    exact congrArg (Prod.mk e.1) (members_viewTree_eq hone hr e.1)
  have hmembers : (ts.splitOut (ts.assemble cls r)).members r = ts.members r := by
    have hgroups := Declarations.groups_splitOut hd
    rw [members, members, hdeclarations, hgroups, List.map_map]
    refine congrArg (· ++ r.bridges) (List.map_congr_left fun g hg ↦ ?_)
    exact MemberGroup.toMember_resplit hgroups (nameOverride?_eq_none hd hchosen hg)
  have hreconcile : m.reconcile cls (ts.splitOut (ts.assemble cls r)) = .ok r := by
    rw [Merger.reconcile, hinheritance]
    exact hr
  refine Merger.merge_eq_ok.2 ⟨hone', r, hreconcile, by rwa [hmembers], ?_⟩
  conv_rhs => rw [assemble, versionSet, hversions, haccess, hmembers]
  rfl

end Trees

/-- **Merging the versions that a merged class splits into gives the class again**, where no author
chose a name: every version can be split out, and the merge of what comes back succeeds with the
same class. -/
theorem merge_of_split (hc : m.merge cls ts = .ok c)
    (hchosen : ∀ a ∈ ts.allMembers, a.nameOverride = none) :
    ∃ us : Trees, us.map (·.1) = ts.map (·.1) ∧
      (∀ e ∈ us, ∃ p, c.split e.1 {} = .ok (.projected p) ∧ e.2 = p.tree) ∧
      m.merge cls us = .ok c := by
  refine ⟨ts.splitOut c, List.map_map, fun e he ↦ ?_, Trees.merge_splitOut hc hchosen⟩
  obtain ⟨a, ha, rfl⟩ := List.mem_map.1 he
  have hv : a.1 ∈ c.versions := (mem_versions_of_merge hc).2 ⟨a.2, ha⟩
  exact ⟨_, Projector.project_undirected _ hv, rfl⟩

/-- Two releases of a class that list their members in different orders. A compiler made `sync` in
the first release only; the second one declares `run` twice and another `n`. -/
def reorderedReleases : Trees :=
  [(⟨"a"⟩, { name := ⟨"x/C"⟩, access := .publicAccess, superclass := ⟨"x/Old"⟩
             members := [
               { name := "sync", desc := "()V", kind := .method, isSynthetic := true
                 access := .packageAccess },
               { name := "n", desc := "I", kind := .field, access := .privateAccess },
               { name := "run", desc := "()V", kind := .method, access := .publicAccess
                 body := some (.code 1 [.raw "nop"]) }] }),
   (⟨"b"⟩, { name := ⟨"x/C"⟩, access := .packageAccess, superclass := ⟨"x/New"⟩
             members := [
               { name := "n", desc := "J", kind := .field, access := .publicAccess },
               { name := "run", desc := "()V", kind := .method, access := .publicAccess
                 body := some (.code 1 [.raw "return"]) },
               { name := "run", desc := "()V", kind := .method, access := .privateAccess },
               { name := "sync", desc := "()V", kind := .method, access := .publicAccess }] })]

theorem merge_of_split_reorderedReleases :
    ∃ c us, (⟨.empty, OrderedMap.empty.insert ⟨"x/C"⟩ .object⟩ : Merger).merge ⟨"x/C"⟩
        reorderedReleases = .ok c ∧ us.map (·.1) = [⟨"a"⟩, ⟨"b"⟩] ∧
      (∀ e ∈ us, ∃ p, c.split e.1 {} = .ok (.projected p) ∧ e.2 = p.tree) ∧
      (⟨.empty, OrderedMap.empty.insert ⟨"x/C"⟩ .object⟩ : Merger).merge ⟨"x/C"⟩ us = .ok c := by
  obtain ⟨c, hc⟩ : ∃ c, (⟨.empty, OrderedMap.empty.insert ⟨"x/C"⟩ .object⟩ : Merger).merge ⟨"x/C"⟩
      reorderedReleases = .ok c := Outcome.exists_eq_ok (by decide +kernel)
  obtain ⟨us, hversions, hsplit, hmerge⟩ := merge_of_split hc (by decide +kernel)
  exact ⟨c, us, hc, hversions, hsplit, hmerge⟩

end Merge

end ClassWeave
