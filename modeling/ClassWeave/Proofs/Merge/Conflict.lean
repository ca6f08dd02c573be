import ClassWeave.Proofs.Merge.Result

/-!
# Which legal versions cannot be merged

A version that is legal by itself declares no key of name, descriptor and kind twice. Where every
version is (`Trees.Legal`), and no author wrote a name that a merge makes up, a merge hardly ever
ends in a conflict:

* a version has one declaration of a group's key at most, so there is one group for each key
  (`Declarations.nodup_keys_groups`);
* two mangled members with one physical name have one declared name and one first version, which
  declares it once (`Legal.key_eq_of_mangled`);
* a mangled name is neither a declared one nor that of a bridge.

What is left are two groups that differ in the static flag only and that both keep their name
(`Declarations.Twins`). Authors' declarations of this kind clash and are mangled; but what a
compiler made never clashes, and then the two members do end up with one physical key.
-/

namespace ClassWeave

/-! ### One group for each key -/

/-- The key without the static flag. -/
def GroupKey.memberKey (k : GroupKey) : MemberKey := ⟨k.name, k.desc, k.kind⟩

theorem GroupKey.eq_of_memberKey {k k' : GroupKey} (h : k.memberKey = k'.memberKey)
    (hflag : k.isStatic = k'.isStatic) : k = k' := by
  cases k
  cases k'
  simp_all [memberKey]

theorem Member.memberKey_groupKey (m : Member) : m.groupKey.memberKey = m.key := rfl

/-- Where no key comes twice, no group key does. -/
theorem length_filter_groupKey_le {ms : List Member} (h : (ms.map Member.key).Nodup)
    (k : GroupKey) : (ms.filter (·.groupKey = k)).length ≤ 1 := by
  have hsame : (ms.filter (·.groupKey = k)).map Member.key =
      List.replicate (ms.filter (·.groupKey = k)).length k.memberKey := by
    rw [List.eq_replicate_iff, List.length_map]
    refine ⟨rfl, fun b hb ↦ ?_⟩
    obtain ⟨m, hm, rfl⟩ := List.mem_map.1 hb
    have hkey : m.groupKey = k := by simpa using (List.mem_filter.1 hm).2
    rw [← hkey, Member.memberKey_groupKey]
  have hnodup : ((ms.filter (·.groupKey = k)).map Member.key).Nodup :=
    h.sublist (List.filter_sublist.map _)
  rwa [hsame, List.nodup_replicate] at hnodup

/-- **No two groups have one key**, where no version repeats a key. -/
theorem Declarations.nodup_keys_groups {d : Declarations} (hd : d.versions.Nodup)
    (hkeys : ∀ e ∈ d, (e.2.map Member.key).Nodup) : (d.groups.map (·.key)).Nodup := by
  rw [List.nodup_iff_count_le_one]
  intro k
  have hcount : (d.groups.map (·.key)).count k = (d.groups.filter (·.key = k)).length := by
    rw [List.count, List.countP_map, List.countP_eq_length_filter]
    rfl
  have hslot : d.slot k 1 = [] := by
    refine List.filterMap_eq_nil_iff.2 fun e he ↦ ?_
    rw [List.getElem?_eq_none (length_filter_groupKey_le (hkeys e he) k)]
    rfl
  have hsecond := groups_filter_key hd k 1
  rw [hslot, MemberGroup.ofSlot?, if_pos rfl] at hsecond
  rw [hcount]
  exact List.getElem?_eq_none_iff.1 hsecond

/-! ### Legal versions -/

/-- Trees of a class each of which is legal by itself and free of names that a merge makes up. -/
structure Trees.Legal (cls : ClassName) (ts : Trees) : Prop where
  name : ∀ e ∈ ts, e.2.name = cls
  /-- The versions differ even as parts of a name. -/
  tags : (ts.map (·.1.tag)).Nodup
  keys : ∀ e ∈ ts, (e.2.members.map Member.key).Nodup
  unchosen : ∀ m ∈ ts.allMembers, m.nameOverride = none
  plain : ∀ m ∈ ts.allMembers, PlainName m.name

instance (cls : ClassName) (ts : Trees) : Decidable (ts.Legal cls) :=
  decidable_of_iff ((∀ e ∈ ts, e.2.name = cls) ∧ (ts.map (·.1.tag)).Nodup ∧
    (∀ e ∈ ts, (e.2.members.map Member.key).Nodup) ∧
    (∀ m ∈ ts.allMembers, m.nameOverride = none) ∧ ∀ m ∈ ts.allMembers, PlainName m.name)
    ⟨fun ⟨hname, htags, hkeys, hunchosen, hplain⟩ ↦ ⟨hname, htags, hkeys, hunchosen, hplain⟩,
      fun h ↦ ⟨h.name, h.tags, h.keys, h.unchosen, h.plain⟩⟩

/-- Two groups that differ in the static flag only, and neither of which is mangled. -/
structure Declarations.Twins (d : Declarations) (g h : MemberGroup) : Prop where
  left : g ∈ d.groups
  right : h ∈ d.groups
  memberKey : g.key.memberKey = h.key.memberKey
  static : g.key.isStatic = true
  nonstatic : h.key.isStatic = false
  unmangled_left : needsMangling d.groups g = false
  unmangled_right : needsMangling d.groups h = false

namespace Trees.Legal

variable {m : Merger} {cls : ClassName} {ts : Trees} {g h : MemberGroup}

theorem nodup_versions (hts : ts.Legal cls) : (ts.map (·.1)).Nodup := by
  refine List.Nodup.of_map Version.tag ?_
  rw [List.map_map]
  exact hts.tags

theorem nodup_declarations (hts : ts.Legal cls) : ts.declarations.versions.Nodup := by
  rw [Declarations.versions, declarations, List.map_map]
  exact hts.nodup_versions

theorem nodup_keys_groups (hts : ts.Legal cls) : (ts.declarations.groups.map (·.key)).Nodup := by
  refine Declarations.nodup_keys_groups hts.nodup_declarations fun e he ↦ ?_
  obtain ⟨t, ht, rfl⟩ := List.mem_map.1 he
  exact hts.keys t ht

/-- Groups that meet in a version differ in more than the static flag. -/
theorem key_eq_of_shared (hts : ts.Legal cls) (hg : g ∈ ts.declarations.groups)
    (hh : h ∈ ts.declarations.groups) (hkey : g.key.memberKey = h.key.memberKey) {v : Version}
    (hgv : v ∈ g.versions) (hhv : v ∈ h.versions) : g.key = h.key := by
  have hd := hts.nodup_declarations
  obtain ⟨⟨_, a⟩, ha, rfl⟩ := List.mem_map.1 hgv
  obtain ⟨⟨_, b⟩, hb, rfl⟩ := List.mem_map.1 hhv
  have hag := Declarations.groupKey_of_mem_decls hd hg ha
  have hbh := Declarations.groupKey_of_mem_decls hd hh hb
  obtain ⟨t, ht, hat⟩ := Trees.exists_of_mem_decls hd hg ha
  obtain ⟨u, hu, hbu⟩ := Trees.exists_of_mem_decls hd hh hb
  obtain rfl : t = u := OrderedMap.functional_of_nodup hts.nodup_versions ht hu
  have hab : a = b := by
    refine List.inj_on_of_nodup_map (hts.keys _ ht) hat hbu ?_
    rw [← Member.memberKey_groupKey, ← Member.memberKey_groupKey, hag, hbh, hkey]
  rw [← hag, ← hbh, hab]

/-! ### Names -/

theorem physicalName_eq (hts : ts.Legal cls) (hg : g ∈ ts.declarations.groups) :
    physicalName ts.declarations.groups g =
      if needsMangling ts.declarations.groups g then mangle g.key.name g.versionSet
      else g.key.name :=
  ClassWeave.physicalName_eq (nameOverride?_eq_none hts.nodup_declarations hts.unchosen hg)

theorem plainName (hts : ts.Legal cls) (hg : g ∈ ts.declarations.groups) :
    PlainName g.key.name := by
  have hd := hts.nodup_declarations
  obtain ⟨e, he⟩ := Declarations.exists_mem_decls hd hg
  rw [← Declarations.groupKey_of_mem_decls hd hg he]
  exact hts.plain _ (mem_allMembers_of_mem_decls hd hg he)

/-- A group exists in some version, the first of which is one of the input. -/
theorem exists_first (hts : ts.Legal cls) (hg : g ∈ ts.declarations.groups) :
    ∃ v ∈ g.versions, g.versionSet.min? = some v ∧ v ∈ ts.map (·.1) := by
  have hd := hts.nodup_declarations
  obtain ⟨e, he⟩ := Declarations.exists_mem_decls hd hg
  obtain ⟨v, hv, hmin⟩ := OrderedSet.exists_min? (s := g.versionSet)
    (OrderedSet.mem_ofList.2 (List.mem_map_of_mem he))
  have hv := OrderedSet.mem_ofList.1 hv
  obtain ⟨⟨_, a⟩, ha, rfl⟩ := List.mem_map.1 hv
  obtain ⟨t, ht, -⟩ := Trees.exists_of_mem_decls hd hg ha
  exact ⟨_, hv, hmin, List.mem_map_of_mem ht⟩

/-- **Mangled names tell groups apart.** -/
theorem key_eq_of_mangled (hts : ts.Legal cls) (hg : g ∈ ts.declarations.groups)
    (hh : h ∈ ts.declarations.groups)
    (hname : mangle g.key.name g.versionSet = mangle h.key.name h.versionSet)
    (hdesc : g.key.desc = h.key.desc) (hkind : g.key.kind = h.key.kind) : g.key = h.key := by
  obtain ⟨v, hgv, hv, hvts⟩ := hts.exists_first hg
  obtain ⟨w, hhw, hw, hwts⟩ := hts.exists_first hh
  obtain ⟨hnames, htag⟩ := mangle_inj hv hw hname
  have htags : ((ts.map (·.1)).map Version.tag).Nodup := by
    rw [List.map_map]
    exact hts.tags
  obtain rfl : v = w := List.inj_on_of_nodup_map htags hvts hwts htag
  refine hts.key_eq_of_shared hg hh ?_ hgv hhw
  rw [GroupKey.memberKey, GroupKey.memberKey, hnames, hdesc, hkind]

/-- A mangled name is not a declared one, which has no marker. -/
theorem mangle_ne_declared (hts : ts.Legal cls) (hg : g ∈ ts.declarations.groups)
    (hh : h ∈ ts.declarations.groups) : mangle g.key.name g.versionSet ≠ h.key.name := by
  intro hname
  obtain ⟨v, hv, -, -⟩ := hts.exists_first hg
  have hmarker : HasMarker (mangle g.key.name g.versionSet) :=
    hasMarker_mangle (OrderedSet.mem_ofList.2 hv)
  rw [hname] at hmarker
  exact (hts.plainName hh).1 hmarker

/-! ### Physical keys -/

/-- **Only twins get one physical key.** -/
theorem key_eq_of_key_toMember (hts : ts.Legal cls)
    (htwins : ¬ ∃ g h, ts.declarations.Twins g h) (hg : g ∈ ts.declarations.groups)
    (hh : h ∈ ts.declarations.groups)
    (hkey : (ts.declarations.toMember g).key = (ts.declarations.toMember h).key) :
    g.key = h.key := by
  have hname : physicalName ts.declarations.groups g = physicalName ts.declarations.groups h :=
    congrArg MemberKey.name hkey
  have hdesc : g.key.desc = h.key.desc := congrArg MemberKey.desc hkey
  have hkind : g.key.kind = h.key.kind := congrArg MemberKey.kind hkey
  rw [hts.physicalName_eq hg, hts.physicalName_eq hh] at hname
  cases hgm : needsMangling ts.declarations.groups g with
  | true =>
    rw [if_pos hgm] at hname
    cases hhm : needsMangling ts.declarations.groups h with
    | true =>
      rw [if_pos hhm] at hname
      exact hts.key_eq_of_mangled hg hh hname hdesc hkind
    | false =>
      rw [hhm, if_neg Bool.false_ne_true] at hname
      exact absurd hname (hts.mangle_ne_declared hg hh)
  | false =>
    rw [hgm, if_neg Bool.false_ne_true] at hname
    cases hhm : needsMangling ts.declarations.groups h with
    | true =>
      rw [if_pos hhm] at hname
      exact absurd hname.symm (hts.mangle_ne_declared hh hg)
    | false =>
      rw [hhm, if_neg Bool.false_ne_true] at hname
      have hmember : g.key.memberKey = h.key.memberKey := by
        rw [GroupKey.memberKey, GroupKey.memberKey, hname, hdesc, hkind]
      refine GroupKey.eq_of_memberKey hmember ?_
      -- were the static flags different, the groups would be twins
      cases hgs : g.key.isStatic with
      | true =>
        cases hhs : h.key.isStatic with
        | true => rfl
        | false => exact absurd ⟨g, h, hg, hh, hmember, hgs, hhs, hgm, hhm⟩ htwins
      | false =>
        cases hhs : h.key.isStatic with
        | true => exact absurd ⟨h, g, hh, hg, hmember.symm, hhs, hgs, hhm, hgm⟩ htwins
        | false => rfl

/-- Twins get one physical key. -/
theorem key_toMember_of_twins (hts : ts.Legal cls) (htwins : ts.declarations.Twins g h) :
    (ts.declarations.toMember g).key = (ts.declarations.toMember h).key := by
  have hname : physicalName ts.declarations.groups g = physicalName ts.declarations.groups h := by
    rw [hts.physicalName_eq htwins.left, hts.physicalName_eq htwins.right, htwins.unmangled_left,
      htwins.unmangled_right, if_neg Bool.false_ne_true, if_neg Bool.false_ne_true]
    exact congrArg MemberKey.name htwins.memberKey
  have hdesc : g.key.desc = h.key.desc := congrArg MemberKey.desc htwins.memberKey
  have hkind : g.key.kind = h.key.kind := congrArg MemberKey.kind htwins.memberKey
  show MemberKey.mk (physicalName ts.declarations.groups g) g.key.desc g.key.kind =
    MemberKey.mk (physicalName ts.declarations.groups h) h.key.desc h.key.kind
  rw [hname, hdesc, hkind]

/-- **The physical keys of the groups differ, unless there are twins.** -/
theorem nodup_keys_toMember (hts : ts.Legal cls) :
    ((ts.declarations.groups.map ts.declarations.toMember).map (·.key)).Nodup ↔
      ¬ ∃ g h, ts.declarations.Twins g h := by
  have hkeys := hts.nodup_keys_groups
  rw [List.map_map]
  constructor
  · rintro hnodup ⟨g, h, htwins⟩
    have hgh : g = h := List.inj_on_of_nodup_map hnodup htwins.left htwins.right
      (hts.key_toMember_of_twins htwins)
    have hflag := htwins.static
    rw [hgh, htwins.nonstatic] at hflag
    cases hflag
  · intro htwins
    refine List.Nodup.map_on (fun g hg h hh hkey ↦ ?_) (List.Nodup.of_map _ hkeys)
    exact List.inj_on_of_nodup_map hkeys hg hh (hts.key_eq_of_key_toMember htwins hg hh hkey)

/-- The member of a group is never named like a bridge. -/
theorem key_toMember_ne_bridge (hts : ts.Legal cls) (hg : g ∈ ts.declarations.groups)
    (c : ClassName) (versions : VersionSet) :
    (ts.declarations.toMember g).key ≠ (MergedMember.bridge c versions).key := by
  intro hkey
  have hname : physicalName ts.declarations.groups g = bridgeName c := congrArg MemberKey.name hkey
  rw [hts.physicalName_eq hg] at hname
  obtain ⟨v, hv, -, -⟩ := hts.exists_first hg
  split at hname
  · exact mangle_ne_bridgeName _ (OrderedSet.mem_ofList.2 hv) c hname
  · have hplain := (hts.plainName hg).2
    rw [hname, hasBridgeName_bridgeName] at hplain
    cases hplain

/-- **All physical keys differ, unless there are twins.** -/
theorem nodup_keys_members (hts : ts.Legal cls) {r : Reconciled} (hr : m.reconcile cls ts = .ok r) :
    ((ts.members r).map (·.key)).Nodup ↔ ¬ ∃ g h, ts.declarations.Twins g h := by
  rw [members, List.map_append, List.nodup_append, hts.nodup_keys_toMember]
  refine and_iff_left ⟨nodup_keys_bridges hr, ?_⟩
  intro a ha b hb hab
  obtain ⟨_, hga, rfl⟩ := List.mem_map.1 ha
  obtain ⟨g, hg, rfl⟩ := List.mem_map.1 hga
  obtain ⟨_, hbridge, rfl⟩ := List.mem_map.1 hb
  obtain ⟨c, -, rfl⟩ := reconcileInheritance_eq_ok.1 hr
  obtain ⟨e, -, rfl⟩ := List.mem_map.1 hbridge
  exact hts.key_toMember_ne_bridge hg _ _ hab

/-! ### The conflict -/

/-- **One of two twins was made by a compiler.** Two groups that authors wrote would clash. -/
theorem isSynthetic_of_twins (hts : ts.Legal cls) (htwins : ts.declarations.Twins g h) :
    g.isSynthetic = true ∨ h.isSynthetic = true := by
  by_contra hauthors
  obtain ⟨hgs, hhs⟩ := not_or.1 hauthors
  have hdisjoint : g.isDisjoint h = true := by
    rw [MemberGroup.isDisjoint, List.all_eq_true]
    intro v hgv
    rw [Bool.not_eq_true', ← Bool.not_eq_true, List.contains_iff_mem]
    intro hhv
    have hflag := congrArg GroupKey.isStatic
      (hts.key_eq_of_shared htwins.left htwins.right htwins.memberKey hgv hhv)
    rw [htwins.static, htwins.nonstatic] at hflag
    cases hflag
  have hidentity : g.sourceIdentity = h.sourceIdentity := by
    have hname : g.key.name = h.key.name := congrArg MemberKey.name htwins.memberKey
    have hdesc : g.key.desc = h.key.desc := congrArg MemberKey.desc htwins.memberKey
    have hkind : g.key.kind = h.key.kind := congrArg MemberKey.kind htwins.memberKey
    rw [MemberGroup.sourceIdentity, MemberGroup.sourceIdentity, hname, hdesc, hkind]
  have hclash : g.clashes h = true := by
    rw [MemberGroup.clashes, Bool.eq_false_iff.2 hgs, Bool.eq_false_iff.2 hhs, hidentity,
      hdisjoint]
    simp
  have hmangled : needsMangling ts.declarations.groups g = true := by
    rw [needsMangling, List.any_eq_true.2 ⟨h, htwins.right, hclash⟩, Bool.true_or]
  rw [htwins.unmangled_left] at hmangled
  cases hmangled

end Trees.Legal

section Conflict

variable {cls : ClassName} {ts : Trees}

/-- **Legal versions end in a conflict exactly where there are twins**, and one of two twins was
made by a compiler. -/
theorem conflict_iff_twins (hts : ts.Legal cls) (m : Merger) :
    ((∃ e, m.merge cls ts = .error e ∧ e.IsConflict) ↔
      (∃ r, m.reconcile cls ts = .ok r) ∧ ∃ g h, ts.declarations.Twins g h) ∧
    ∀ g h, ts.declarations.Twins g h → g.isSynthetic = true ∨ h.isSynthetic = true := by
  refine ⟨?_, fun g h ↦ hts.isSynthetic_of_twins⟩
  rw [Merger.merge_conflict_iff]
  constructor
  · rintro ⟨-, r, hr, hrepeated⟩
    exact ⟨⟨r, hr⟩, not_not.1 ((hts.nodup_keys_members hr).not.1 hrepeated)⟩
  · rintro ⟨⟨r, hr⟩, g, h, htwins⟩
    refine ⟨⟨?_, hts.nodup_versions, hts.name⟩, r, hr, ?_⟩
    · rintro rfl
      exact absurd htwins.left List.not_mem_nil
    · rw [hts.nodup_keys_members hr, not_not]
      exact ⟨g, h, htwins⟩

/-- Two releases of a class with a lambda. Its body needs the receiver in the first release only, so
that the compiler makes a static method of it in the second. -/
def lambdaReleases : Trees :=
  [(⟨"a"⟩, { name := ⟨"x/C"⟩, access := .publicAccess
             members := [{ name := "lambda$run$0", desc := "()V", kind := .method
                           isSynthetic := true, access := .privateAccess }] }),
   (⟨"b"⟩, { name := ⟨"x/C"⟩, access := .publicAccess
             members := [{ name := "lambda$run$0", desc := "()V", kind := .method
                           isStatic := true, isSynthetic := true, access := .privateAccess }] })]

theorem conflict_iff_twins_lambdaReleases :
    lambdaReleases.Legal ⟨"x/C"⟩ ∧ ∃ g h, lambdaReleases.declarations.Twins g h ∧
      (g.isSynthetic = true ∨ h.isSynthetic = true) := by
  have hts : lambdaReleases.Legal ⟨"x/C"⟩ := by decide +kernel
  have hmerge : (⟨.empty, .empty⟩ : Merger).merge ⟨"x/C"⟩ lambdaReleases =
      .error (.unresolvedConflict ⟨"x/C"⟩ "lambda$run$0" "()V" [⟨"a"⟩, ⟨"b"⟩]) := by
    decide +kernel
  obtain ⟨hconflict, hcompiler⟩ := conflict_iff_twins hts ⟨.empty, .empty⟩
  obtain ⟨-, g, h, htwins⟩ := hconflict.1 ⟨_, hmerge, trivial⟩
  exact ⟨hts, g, h, htwins, hcompiler g h htwins⟩

/-- Two legal releases that cannot be merged: neither lambda is mangled, though they differ in the
static flag. -/
theorem legal_lambdaReleases_conflict : lambdaReleases.Legal ⟨"x/C"⟩ ∧
    (⟨.empty, .empty⟩ : Merger).merge ⟨"x/C"⟩ lambdaReleases =
      .error (.unresolvedConflict ⟨"x/C"⟩ "lambda$run$0" "()V" [⟨"a"⟩, ⟨"b"⟩]) := by
  decide +kernel

end Conflict

end ClassWeave
