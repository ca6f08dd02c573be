import ClassWeave.Proofs.Merge.Invariants

/-!
# How far mangling keeps versions apart

Two members of a merged class that never meet in one version should differ at source level: methods
in the name or in the parameters, fields in the name (`MergedMember.SharesSource` says that they do
not). A merge makes them differ by mangling, and it mangles all that need it: of two members that
authors wrote, that are declared alike and that never meet, both are mangled
(`Declarations.needsMangling_of_alike`).

What can still go wrong lies in the names. `sharesSource_iff` says exactly when two such members end
up alike:

* both are mangled, and the first versions of the two have one tag, because the tag of a version is
  its text with everything but letters, digits and underscores replaced;
* one of them is mangled, and an author has declared the other under that mangled name.

Then the merge succeeds all the same, unless the descriptors are equal too, since only the full key
is checked in the end (`sharesSource_pointReleases`).
-/

namespace ClassWeave

/-! ### Source level -/

namespace MergedMember

/-- The source language tells the two apart by their names alone, if at all. -/
def SameSignature (a b : MergedMember) : Prop :=
  a.kind = b.kind ∧
    (a.kind = .method → Descriptor.parameterPart a.desc = Descriptor.parameterPart b.desc)

/-- The two are one member at source level. -/
def SharesSource (a b : MergedMember) : Prop :=
  a.physicalName = b.physicalName ∧ a.SameSignature b

instance (a b : MergedMember) : Decidable (a.SameSignature b) :=
  inferInstanceAs (Decidable (_ ∧ (_ → _)))

instance (a b : MergedMember) : Decidable (a.SharesSource b) := inferInstanceAs (Decidable (_ ∧ _))

/-- No version declares both. -/
def NeverMeets (a b : MergedMember) : Prop := ∀ v ∈ a.declaredVersions, v ∉ b.declaredVersions

instance (a b : MergedMember) : Decidable (a.NeverMeets b) :=
  inferInstanceAs (Decidable (∀ v ∈ a.declaredVersions, v ∉ b.declaredVersions))

/-- Written by an author, and so to be kept apart from other members. -/
def IsAuthored (m : MergedMember) : Prop := m.compilerGenerated = false ∧ m.isBridge = false

instance (m : MergedMember) : Decidable m.IsAuthored := inferInstanceAs (Decidable (_ ∧ _))

/-- The tag by which the member is told apart when it is mangled. -/
def firstTag? (m : MergedMember) : Option String := m.declaredVersions.min?.map Version.tag

/-- The member is mangled, and the other one is declared under the mangled name. -/
def IsForestalledBy (a b : MergedMember) : Prop :=
  a.isMangled = true ∧ b.isMangled = false ∧
    b.declaredName = mangle a.declaredName a.declaredVersions

end MergedMember

/-! ### Which groups are mangled -/

/-- **Groups that are declared alike and never meet are mangled**, if authors wrote them. -/
theorem Declarations.needsMangling_of_alike {d : Declarations} {g h : MemberGroup}
    (hh : h ∈ d.groups) (hgs : g.isSynthetic = false) (hhs : h.isSynthetic = false)
    (hidentity : g.sourceIdentity = h.sourceIdentity) (hdisjoint : g.isDisjoint h = true) :
    needsMangling d.groups g = true := by
  have hclash : g.clashes h = true := by
    rw [MemberGroup.clashes, hgs, hhs, hidentity, hdisjoint]
    simp
  rw [needsMangling, List.any_eq_true.2 ⟨h, hh, hclash⟩, Bool.true_or]

section Merge

variable {m : Merger} {cls : ClassName} {ts : Trees} {c : MergedClass} {a b : MergedMember}

/-! ### The names of members -/

/-- A member that authors declared without choosing a name for it. -/
structure Trees.IsMemberOf (ts : Trees) (g : MemberGroup) (a : MergedMember) : Prop where
  mem : g ∈ ts.declarations.groups
  toMember : ts.declarations.toMember g = a
  exists_version : ∃ v, v ∈ a.declaredVersions
  /-- The name is the declared one or the mangled one, and the member is told to be mangled in the
  second case only. -/
  isMangled : a.isMangled = needsMangling ts.declarations.groups g
  physicalName : a.physicalName =
    if a.isMangled then mangle a.declaredName a.declaredVersions else a.declaredName

theorem Trees.exists_isMemberOf (hc : m.merge cls ts = .ok c)
    (hchosen : ∀ d ∈ ts.allMembers, d.nameOverride = none) (ha : a ∈ c.members)
    (hbridge : a.isBridge = false) : ∃ g, ts.IsMemberOf g a := by
  obtain ⟨g, hg, rfl⟩ := Merger.exists_group_of_mem hc ha hbridge
  obtain ⟨hone, -⟩ := Merger.merge_eq_ok.1 hc
  have hd := hone.nodup_declarations
  obtain ⟨v, hv⟩ := (wellMade_toMember hone hg).exists_version
  have hname : (ts.declarations.toMember g).physicalName =
      if needsMangling ts.declarations.groups g then mangle g.key.name g.versionSet
      else g.key.name := physicalName_eq (nameOverride?_eq_none hd hchosen hg)
  have hmangled : (ts.declarations.toMember g).isMangled =
      needsMangling ts.declarations.groups g := by
    rw [MergedMember.isMangled, hname]
    cases needsMangling ts.declarations.groups g with
    | true => exact decide_eq_true (mangle_ne_self g.key.name hv)
    | false => exact decide_eq_false (not_not.2 rfl)
  refine ⟨g, hg, rfl, ⟨v, hv⟩, hmangled, ?_⟩
  rw [hmangled]
  exact hname

/-- **Members that are declared alike and never meet are both mangled.** -/
theorem Trees.IsMemberOf.mangled_of_alike {g h : MemberGroup} (hg : ts.IsMemberOf g a)
    (hh : ts.IsMemberOf h b) (haa : a.IsAuthored) (hba : b.IsAuthored) (hmeet : a.NeverMeets b)
    (hsignature : a.SameSignature b) (hname : a.declaredName = b.declaredName) :
    a.isMangled = true ∧ b.isMangled = true := by
  rw [hg.isMangled, hh.isMangled]
  obtain ⟨hgmem, rfl, -⟩ := hg
  obtain ⟨hhmem, rfl, -⟩ := hh
  have hidentity : g.sourceIdentity = h.sourceIdentity :=
    MemberGroup.sourceIdentity_eq_iff.2 ⟨hname, hsignature⟩
  have hmeet : ∀ v ∈ g.versions, v ∉ h.versions := fun v hv hvh ↦
    hmeet v (OrderedSet.mem_ofList.2 hv) (OrderedSet.mem_ofList.2 hvh)
  have hmeet' : ∀ v ∈ h.versions, v ∉ g.versions := fun v hv hvg ↦ hmeet v hvg hv
  exact ⟨Declarations.needsMangling_of_alike hhmem haa.1 hba.1 hidentity
      (MemberGroup.isDisjoint_iff.2 hmeet),
    Declarations.needsMangling_of_alike hgmem hba.1 haa.1 hidentity.symm
      (MemberGroup.isDisjoint_iff.2 hmeet')⟩

/-- Mangled names are equal where the declared names and the tags of the first versions are. -/
theorem mangle_eq_mangle_iff (ha : ∃ v, v ∈ a.declaredVersions) (hb : ∃ v, v ∈ b.declaredVersions) :
    mangle a.declaredName a.declaredVersions = mangle b.declaredName b.declaredVersions ↔
      a.declaredName = b.declaredName ∧ a.firstTag? = b.firstTag? := by
  obtain ⟨_, ha⟩ := ha
  obtain ⟨_, hb⟩ := hb
  obtain ⟨v, -, hv⟩ := OrderedSet.exists_min? ha
  obtain ⟨w, -, hw⟩ := OrderedSet.exists_min? hb
  rw [MergedMember.firstTag?, MergedMember.firstTag?, hv, hw, Option.map_some, Option.map_some,
    Option.some.injEq]
  exact mangle_eq_mangle_iff_of_min? hv hw

/-! ### Where mangling fails -/

/-- **When two members of different versions are alike at source level**, both written by authors
who chose no names: either both are mangled with one tag, or an author has taken the mangled name of
the one for the other. -/
theorem sharesSource_iff (hc : m.merge cls ts = .ok c)
    (hchosen : ∀ d ∈ ts.allMembers, d.nameOverride = none) (ha : a ∈ c.members) (hb : b ∈ c.members)
    (haa : a.IsAuthored) (hba : b.IsAuthored) (hmeet : a.NeverMeets b) :
    a.SharesSource b ↔ a.SameSignature b ∧
      (a.declaredName = b.declaredName ∧ a.firstTag? = b.firstTag? ∨
        a.IsForestalledBy b ∨ b.IsForestalledBy a) := by
  obtain ⟨g, hg⟩ := Trees.exists_isMemberOf hc hchosen ha haa.2
  obtain ⟨h, hh⟩ := Trees.exists_isMemberOf hc hchosen hb hba.2
  rw [MergedMember.SharesSource, and_comm]
  refine and_congr_right fun hsignature ↦ ?_
  have halike := hg.mangled_of_alike hh haa hba hmeet hsignature
  have htags := mangle_eq_mangle_iff hg.exists_version hh.exists_version
  rw [hg.physicalName, hh.physicalName, MergedMember.IsForestalledBy, MergedMember.IsForestalledBy]
  cases ham : a.isMangled with
  | true =>
    cases hbm : b.isMangled with
    | true => simp [htags]
    | false =>
      have hne : a.declaredName ≠ b.declaredName := fun hname ↦ by
        rw [(halike hname).2] at hbm
        cases hbm
      simp [hne, eq_comm]
  | false =>
    have hne : a.declaredName ≠ b.declaredName := fun hname ↦ by
      rw [(halike hname).1] at ham
      cases ham
    cases hbm : b.isMangled with
    | true => simp [hne]
    | false => simp [hne]

/-- Two releases whose versions have one tag. A field changes its type between them. -/
def pointReleases : Trees :=
  [(⟨"1.0"⟩, { name := ⟨"x/C"⟩, access := .publicAccess
               members := [{ name := "count", desc := "I", kind := .field
                             access := .publicAccess }] }),
   (⟨"1-0"⟩, { name := ⟨"x/C"⟩, access := .publicAccess
               members := [{ name := "count", desc := "J", kind := .field
                             access := .publicAccess }] })]

/-- The field in one of the releases, after the merge. -/
def pointField (v desc : String) : MergedMember where
  physicalName := "count$mv$1_0"
  declaredName := "count"
  declaredVersions := .ofList [⟨v⟩]
  synthetic := false
  compilerGenerated := false
  kind := .field
  desc := desc
  isStatic := false
  access := .uniform .publicAccess
  bodies := .empty

def pointClass : MergedClass where
  name := ⟨"x/C"⟩
  versions := .ofList [⟨"1.0"⟩, ⟨"1-0"⟩]
  access := .uniform .publicAccess
  inheritance := .uniform ⟨.object, []⟩
  members := [pointField "1.0" "I", pointField "1-0" "J"]

theorem merge_pointReleases :
    (⟨.empty, .empty⟩ : Merger).merge ⟨"x/C"⟩ pointReleases = .ok pointClass := by
  decide +kernel

theorem sharesSource_iff_pointReleases :
    (⟨.empty, .empty⟩ : Merger).merge ⟨"x/C"⟩ pointReleases = .ok pointClass ∧
      (pointField "1.0" "I").firstTag? = (pointField "1-0" "J").firstTag? ∧
      (pointField "1.0" "I").SharesSource (pointField "1-0" "J") := by
  have htags : (pointField "1.0" "I").firstTag? = (pointField "1-0" "J").firstTag? := by
    decide +kernel
  have hiff := sharesSource_iff merge_pointReleases (a := pointField "1.0" "I")
    (b := pointField "1-0" "J") (by decide +kernel) List.mem_cons_self
    (List.mem_cons_of_mem _ List.mem_cons_self) (by decide +kernel) (by decide +kernel)
    (by decide +kernel)
  exact ⟨merge_pointReleases, htags, hiff.2 ⟨by decide +kernel, .inl ⟨rfl, htags⟩⟩⟩

/-- A merge that succeeds with two fields of one name, each of another version. Both were mangled,
with one tag. -/
theorem sharesSource_pointReleases :
    (⟨.empty, .empty⟩ : Merger).merge ⟨"x/C"⟩ pointReleases = .ok pointClass ∧
      (∀ d ∈ pointReleases.allMembers, d.nameOverride = none) ∧
      ∃ a ∈ pointClass.members, ∃ b ∈ pointClass.members, a ≠ b ∧ a.IsAuthored ∧ b.IsAuthored ∧
        a.NeverMeets b ∧ a.SharesSource b :=
  ⟨merge_pointReleases, by decide +kernel⟩

end Merge

end ClassWeave
