import ClassWeave.Proofs.Merge.Invariants
import ClassWeave.Proofs.Stored.Codec
import ClassWeave.Split.Projection

/-!
# Merging, storing and splitting gives back each version

A projection without directives reads the tables of a merged class for one version
(`Projector.project_undirected`). For the class that a merge gave, this undoes the merge: each table
has for the version what the version declared, each group emits the declaration that the version
contributed to it, and nothing of a bridge is left. So the members of the version come back, each
once, though in the order of the groups (`restores_viewTree`).

Between the merge and the split stands the stored form. It loses nothing, provided that no name is
empty and no dot divides the name of a superclass or of an interface
(`wellFormed_of_merge`).
-/

namespace ClassWeave

/-! ### What a merge carries -/

/-- The declaration alone, without what an author or a merge wrote on it. -/
def Member.bare (m : Member) : Member where
  name := m.name
  desc := m.desc
  kind := m.kind
  isStatic := m.isStatic
  isSynthetic := m.isSynthetic
  access := m.access
  body := m.body

/-- One tree restores another: it declares the same class, with the same members in some order. -/
structure ClassTree.Restores (u t : ClassTree) : Prop where
  name : u.name = t.name
  access : u.access = t.access
  superclass : u.superclass = t.superclass
  interfaces : u.interfaces = t.interfaces
  members : u.members.Perm (t.members.map Member.bare)

/-- What the trees of a class need in order to be restored. -/
structure Trees.Restorable (ts : Trees) : Prop where
  memberName : ∀ m ∈ ts.allMembers, m.name ≠ ""
  superclass : ∀ e ∈ ts, e.2.superclass.text ≠ "" ∧ e.2.superclass.DotFree
  interfaces : ∀ e ∈ ts, ∀ c ∈ e.2.interfaces, c.DotFree
  /-- The flag is kept for a member as a whole. -/
  isSynthetic : ∀ m ∈ ts.allMembers, ∀ m' ∈ ts.allMembers, m.groupKey = m'.groupKey →
    m.isSynthetic = m'.isSynthetic

instance (ts : Trees) : Decidable ts.Restorable :=
  decidable_of_iff ((∀ m ∈ ts.allMembers, m.name ≠ "") ∧
    (∀ e ∈ ts, e.2.superclass.text ≠ "" ∧ e.2.superclass.DotFree) ∧
    (∀ e ∈ ts, ∀ c ∈ e.2.interfaces, c.DotFree) ∧
    ∀ m ∈ ts.allMembers, ∀ m' ∈ ts.allMembers, m.groupKey = m'.groupKey →
      m.isSynthetic = m'.isSynthetic)
    ⟨fun ⟨hname, hsuper, hinterfaces, hflag⟩ ↦ ⟨hname, hsuper, hinterfaces, hflag⟩,
      fun h ↦ ⟨h.memberName, h.superclass, h.interfaces, h.isSynthetic⟩⟩

/-! ### Projection without directives -/

/-- What a version has of a merged class. -/
def MergedClass.viewTree (c : MergedClass) (v : Version) : ClassTree where
  name := c.name
  access := c.access.forVersion v
  superclass := (c.inheritance.forVersion v).superclass
  interfaces := (c.inheritance.forVersion v).interfaces
  members := c.members.filterMap fun m ↦ (m.undirected v).decl

theorem applicable_nil (v : Version) : applicable [] v = [] := by
  rw [applicable, List.filter_nil, List.mergeSort_nil]

namespace Projector

variable {p : Projector} {c : MergedClass} {v : Version}

theorem projectMember_nil (p : Projector) (c : MergedClass) (v : Version) (m : MergedMember) :
    p.projectMember c [] v m = m.undirected v := by
  rw [projectMember, applicable_nil, settle]

/-- An undirected member redirects nothing and warns of nothing. -/
theorem undirected_quiet (m : MergedMember) (v : Version) :
    (m.undirected v).redirects = [] ∧ (m.undirected v).warnings = [] := by
  rw [MergedMember.undirected]
  split
  · exact ⟨rfl, rfl⟩
  · exact ⟨rfl, rfl⟩

theorem superSite_nil (cls superclass : ClassName) (v : Version) :
    superSite cls superclass [] v = (none, []) := by
  rw [superSite, applicable_nil]
  rfl

theorem interfaceSites_empty (cls : ClassName) (v : Version) :
    interfaceSites cls .empty v = ([], []) := rfl

theorem draft_undirected (p : Projector) (c : MergedClass) (v : Version) :
    p.draft c {} v [] [] =
      ⟨c.inheritance.forVersion v, none, (c.viewTree v).members, [], [], []⟩ := by
  have houtcomes : c.members.map (fun m ↦ p.projectMember c (ClassDirectives.forMember {} m.key)
      v m) = c.members.map fun m ↦ m.undirected v :=
    List.map_congr_left fun m _ ↦ projectMember_nil p c v m
  have hredirects : (c.members.map fun m ↦ m.undirected v).flatMap (·.redirects) = [] := by
    rw [List.flatMap_eq_nil_iff, List.forall_mem_map]
    exact fun m _ ↦ (undirected_quiet m v).1
  have hwarnings : (c.members.map fun m ↦ m.undirected v).flatMap (·.warnings) = [] := by
    rw [List.flatMap_eq_nil_iff, List.forall_mem_map]
    exact fun m _ ↦ (undirected_quiet m v).2
  have hinterfaces : (c.inheritance.forVersion v).interfaces.filter
      (fun i ↦ !([] : List ClassName).contains i) = (c.inheritance.forVersion v).interfaces :=
    List.filter_eq_self.2 fun _ _ ↦ rfl
  simp only [draft, superSite_nil, interfaceSites_empty, houtcomes, hredirects, hwarnings,
    hinterfaces, List.filterMap_map]
  rfl

/-- **A projection without directives is what the version has**, for every projector. -/
theorem project_undirected (p : Projector) (hv : v ∈ c.versions) :
    p.project c {} v = .ok (.projected ⟨c.viewTree v, [], [], []⟩) := by
  rw [project, if_neg (not_not.2 hv)]
  have hfate : ClassFate.ofDirectives c.name [] v = .kept [] [] := by
    simp [ClassFate.ofDirectives, applicable_nil]
  simp only [hfate, draft_undirected]
  rfl

theorem project_absent (p : Projector) (ds : ClassDirectives) (hv : v ∉ c.versions) :
    p.project c ds v = .ok .removed := by
  rw [project, if_pos hv]

end Projector

/-! ### The tables of a merge, read for one version -/

section Assemble

variable {m : Merger} {cls : ClassName} {ts : Trees} {c : MergedClass} {v : Version} {t : ClassTree}

/-- A declaration of a group as the group emits it. Only the group as a whole knows whether a
compiler made the member. -/
def MemberGroup.emitted (g : MemberGroup) (m : Member) : Member :=
  { m.bare with isSynthetic := g.isSynthetic }

/-- Where the declarations of a group agree on the flag, each is emitted as it is. -/
theorem MemberGroup.emitted_eq_bare {g : MemberGroup} (hsynthetic : ∀ e ∈ g.decls, ∀ e' ∈ g.decls,
    e.2.isSynthetic = e'.2.isSynthetic) {v : Version} {a : Member} (ha : (v, a) ∈ g.decls) :
    g.emitted a = a.bare := by
  have hflag : g.isSynthetic = a.isSynthetic := by
    rw [isSynthetic, Bool.eq_iff_iff, List.all_eq_true]
    exact ⟨fun h ↦ h _ ha, fun h e he ↦ (hsynthetic e he _ ha).trans h⟩
  rw [emitted, hflag]
  rfl

/-- **A group emits the declaration of the version**, and nothing where the version has none. -/
theorem Declarations.decl_undirected {d : Declarations} (hd : d.versions.Nodup) {g : MemberGroup}
    (hg : g ∈ d.groups) (v : Version) :
    ((d.toMember g).undirected v).decl = (g.at? v).map g.emitted := by
  have hnodup := nodup_versions_of_mem_groups hd hg
  have hin : (d.toMember g).inVersion v = true ↔ v ∈ g.versions := by
    rw [MergedMember.inVersion, decide_eq_true_iff]
    exact OrderedSet.mem_ofList
  rw [MergedMember.undirected, isBridge_toMember, Bool.false_or]
  cases hat : g.at? v with
  | none =>
    have habsent : ¬ (d.toMember g).inVersion v = true := by
      rw [hin]
      intro hv
      obtain ⟨⟨w, a⟩, ha, rfl⟩ := List.mem_map.1 hv
      rw [(at?_groups_eq_some hd hg).2 ha] at hat
      cases hat
    rw [if_pos (by simpa using habsent)]
    rfl
  | some a =>
    have ha := (at?_groups_eq_some hd hg).1 hat
    have hpresent : (d.toMember g).inVersion v = true := hin.2 (List.mem_map_of_mem ha)
    have hkey : a.groupKey = g.key := groupKey_of_mem_decls hd hg ha
    have haccess : (d.toMember g).access.forVersion v = a.access := by
      exact forVersion_reconcileAccess ((MemberGroup.functional_decls hnodup).map Member.access)
        (List.mem_map_of_mem ha)
    have hbody : (d.toMember g).bodies.get? v = a.body := by
      refine Option.ext fun b ↦ ?_
      refine (OrderedMap.get?_ofList (MemberGroup.functional_bodies hnodup)).trans ?_
      rw [MemberGroup.mem_bodies]
      constructor
      · rintro ⟨a', ha', hb⟩
        rwa [MemberGroup.functional_decls hnodup ha ha']
      · intro hb
        exact ⟨a, ha, hb⟩
    rw [hpresent, Bool.not_true, if_neg Bool.false_ne_true, Option.map_some, MergedMember.emit,
      haccess, hbody]
    show some { name := g.key.name, desc := g.key.desc, kind := g.key.kind
                isStatic := g.key.isStatic, isSynthetic := g.isSynthetic, access := a.access
                body := a.body : Member } = some (g.emitted a)
    rw [← hkey]
    rfl

/-- **A version has what the groups emit for it**, in their order. A bridge is emitted for no
version. -/
theorem members_viewTree_eq (hone : ts.OneClass cls) {r : Reconciled}
    (hr : m.reconcile cls ts = .ok r) (v : Version) :
    ((ts.assemble cls r).viewTree v).members =
      ts.declarations.groups.filterMap fun g ↦ (g.at? v).map g.emitted := by
  have hbridges : r.bridges.filterMap (fun b ↦ (b.undirected v).decl) = [] := by
    refine List.filterMap_eq_nil_iff.2 fun b hb ↦ ?_
    rw [MergedMember.undirected, isBridge_of_mem_bridges hr hb]
    rfl
  show (ts.members r).filterMap (fun b ↦ (b.undirected v).decl) = _
  rw [Trees.members, List.filterMap_append, hbridges, List.append_nil, List.filterMap_map]
  exact List.filterMap_congr fun g hg ↦
    Declarations.decl_undirected hone.nodup_declarations hg v

/-- **The members come back**, in the order of the groups. -/
theorem members_viewTree_assemble (hone : ts.OneClass cls) {r : Reconciled}
    (hr : m.reconcile cls ts = .ok r) (hts : ts.Restorable) (ht : (v, t) ∈ ts) :
    ((ts.assemble cls r).viewTree v).members.Perm (t.members.map Member.bare) := by
  have hd := hone.nodup_declarations
  have hgroups : ts.declarations.groups.filterMap (fun g ↦ (g.at? v).map g.emitted) =
      (ts.declarations.groups.filterMap (·.at? v)).map Member.bare := by
    rw [List.map_filterMap]
    refine List.filterMap_congr fun g hg ↦ Option.map_congr fun a ha ↦ ?_
    refine MemberGroup.emitted_eq_bare (fun e he e' he' ↦ ?_)
      ((Declarations.at?_groups_eq_some hd hg).1 ha)
    refine hts.isSynthetic _ (Trees.mem_allMembers_of_mem_decls hd hg he) _
      (Trees.mem_allMembers_of_mem_decls hd hg he') ?_
    rw [Declarations.groupKey_of_mem_decls hd hg he, Declarations.groupKey_of_mem_decls hd hg he']
  have hdeclared : (v, t.members) ∈ ts.declarations := List.mem_map_of_mem ht
  rw [members_viewTree_eq hone hr, hgroups]
  exact (Declarations.filterMap_at?_groups hd hdeclared).map _

/-- **Projecting a merged class gives back the tree of the version.** -/
theorem restores_viewTree (hc : m.merge cls ts = .ok c) (hts : ts.Restorable)
    (ht : (v, t) ∈ ts) : (c.viewTree v).Restores t := by
  obtain ⟨hone, r, hr, -, rfl⟩ := Merger.merge_eq_ok.1 hc
  have hinheritance := forVersion_inheritance hone hr ht
  exact {
    name := (hone.name _ ht).symm
    access := forVersion_access hone ht
    superclass := congrArg Inheritance.superclass hinheritance
    interfaces := congrArg Inheritance.interfaces hinheritance
    members := members_viewTree_assemble hone hr hts ht }

/-! ### What a merge gives can be stored -/

/-- A well made member can be stored unless the declared name that it needs is empty. -/
theorem MergedMember.WellMade.wellFormed {versions : VersionSet} {b : MergedMember}
    (h : b.WellMade versions) (hname : b.physicalName ≠ b.declaredName → b.declaredName ≠ "") :
    b.WellFormed versions where
  declaredVersions := h.declaredVersions
  bodies w hw := h.declaredVersions w (h.bodies w hw)
  access w hw := h.declaredVersions w (h.overridden w hw)
  declaredName := hname

theorem Declarations.wellFormed_toMember (hone : ts.OneClass cls) (hts : ts.Restorable)
    {g : MemberGroup} (hg : g ∈ ts.declarations.groups) :
    (ts.declarations.toMember g).WellFormed ts.versionSet := by
  have hd := hone.nodup_declarations
  refine (Trees.wellMade_toMember hone hg).wellFormed fun _ ↦ ?_
  -- the name is that of a declaration, of which a group has one at least
  obtain ⟨e, he⟩ := exists_mem_decls hd hg
  have hname : e.2.name = g.key.name := by
    rw [← groupKey_of_mem_decls hd hg he]
    rfl
  show g.key.name ≠ ""
  rw [← hname]
  exact hts.memberName _ (Trees.mem_allMembers_of_mem_decls hd hg he)

/-- **What a merge gives is well formed.** -/
theorem wellFormed_of_merge (hc : m.merge cls ts = .ok c) (hts : ts.Restorable) :
    c.WellFormed := by
  obtain ⟨hone, r, hr, -, rfl⟩ := Merger.merge_eq_ok.1 hc
  refine ⟨fun w hw ↦ ?_, fun w hw ↦ ?_, fun i hi ↦ ?_, fun b hb ↦ ?_⟩
  · have haccess := covers_reconcileAccess (hone.functional.map ClassTree.access)
    obtain ⟨e, he, rfl⟩ := List.mem_map.1 (haccess.mem_of_mem_keys hw)
    obtain ⟨a, ha, rfl⟩ := List.mem_map.1 he
    exact Trees.mem_versionSet.2 ⟨a.2, ha⟩
  · obtain ⟨u, hu, -⟩ := (mem_keys_overrides_inheritance hone hr).1 hw
    exact Trees.mem_versionSet.2 ⟨u, hu⟩
  · obtain ⟨s, -, rfl⟩ := reconcileInheritance_eq_ok.1 hr
    obtain ⟨e, he, rfl⟩ := List.mem_map.1 hi
    have hmem := OrderedMap.mem_of_mem_entries_ofList he
    obtain ⟨a, ha, rfl⟩ := List.mem_map.1 (List.mem_filter.1 hmem).1
    exact ⟨.inr (hts.superclass a ha), hts.interfaces a ha⟩
  · rcases List.mem_append.1 hb with hb | hb
    · obtain ⟨g, hg, rfl⟩ := List.mem_map.1 hb
      exact Declarations.wellFormed_toMember hone hts hg
    · exact (Merger.wellMade_of_mem_bridges hr hb).wellFormed fun hne ↦ by
        obtain ⟨s, served, rfl, -⟩ := Merger.exists_bridge_of_mem hr hb
        exact absurd rfl hne

/-! ### The round trip -/

/-- **Merging, storing and splitting gives back every version.** The stored class can be read; its
projection onto a version is there, redirects nothing and warns of nothing; and it is the tree of
the version, but for the order of the members. -/
theorem split_restores_version (hc : m.merge cls ts = .ok c) (hts : ts.Restorable)
    (ht : (v, t) ∈ ts) :
    ∃ stored u, c.encode.decode = .ok stored ∧
      stored.split v {} = .ok (.projected ⟨u, [], [], []⟩) ∧ u.Restores t := by
  have hv : v ∈ c.versions := (mem_versions_of_merge hc).2 ⟨t, ht⟩
  exact ⟨c, c.viewTree v, MergedClass.decode_encode (wellFormed_of_merge hc hts),
    Projector.project_undirected _ hv, restores_viewTree hc hts ht⟩

/-- Two releases that share a member, repeat a key, disagree on the superclass and on the type of
`n`, and narrow the class. -/
def twoReleases : Trees :=
  [(⟨"1.0"⟩, { name := ⟨"x/C"⟩, access := .publicAccess, superclass := ⟨"x/Old"⟩
               interfaces := [⟨"x/J"⟩, ⟨"x/I"⟩]
               members := [
                 { name := "n", desc := "()I", kind := .method, access := .publicAccess
                   body := some (.code 1 [.raw "iconst_1"]) },
                 { name := "f", desc := "I", kind := .field, access := .privateAccess }] }),
   (⟨"2.0"⟩, { name := ⟨"x/C"⟩, access := .packageAccess, superclass := ⟨"x/New"⟩
               members := [
                 { name := "f", desc := "I", kind := .field, access := .publicAccess },
                 { name := "f", desc := "I", kind := .field, access := .protectedAccess },
                 { name := "n", desc := "()J", kind := .method, access := .publicAccess
                   body := some (.code 1 [.raw "lconst_1"]) }] })]

theorem split_restores_version_twoReleases :
    ∃ c stored u, (⟨.empty, OrderedMap.empty.insert ⟨"x/C"⟩ .object⟩ : Merger).merge ⟨"x/C"⟩
        twoReleases = .ok c ∧ c.encode.decode = .ok stored ∧
      stored.split ⟨"2.0"⟩ {} = .ok (.projected ⟨u, [], [], []⟩) ∧
      u.Restores (twoReleases[1]).2 := by
  obtain ⟨c, hc⟩ : ∃ c, (⟨.empty, OrderedMap.empty.insert ⟨"x/C"⟩ .object⟩ : Merger).merge ⟨"x/C"⟩
      twoReleases = .ok c := Outcome.exists_eq_ok (by decide +kernel)
  have hts : twoReleases.Restorable := by decide +kernel
  obtain ⟨stored, u, h⟩ := split_restores_version hc hts (v := ⟨"2.0"⟩)
    (List.mem_cons_of_mem _ List.mem_cons_self)
  exact ⟨c, stored, u, hc, h⟩

end Assemble

end ClassWeave
