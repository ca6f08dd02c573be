import ClassWeave.Proofs.Link.Unredirected
import ClassWeave.Proofs.Merge.Result

/-!
# Code that linking leaves alone

The linker changes an instruction for one of three reasons: its name is that of a bridge, its name
is a mangled one, or a redirect is on record. Authors are not taken to write names of the first two
kinds (`PlainName`), and where no name was chosen by hand a merge gives no member a plain name but
its declared one (`plainNamesDeclared_of_merge`). So without redirects and type remaps, code that
uses plain names only is linked to itself (`Linker.link_eq_self`).
-/

namespace ClassWeave

/-! ### Plain names -/

/-- An instruction that names a member, if any, by a plain name. -/
def Insn.IsPlain : Insn → Prop
  | .member _ _ name _ => PlainName name
  | .type _ _ | .raw _ => True

instance (insn : Insn) : Decidable insn.IsPlain :=
  match insn with
  | .member _ _ name _ => inferInstanceAs (Decidable (PlainName name))
  | .type _ _ | .raw _ => inferInstanceAs (Decidable True)

/-- A plain name in the class is the declared one, of a member that an author wrote. -/
def MergedClass.PlainNamesDeclared (c : MergedClass) : Prop :=
  ∀ m ∈ c.members, PlainName m.physicalName → m.isBridge = false ∧ m.isMangled = false

/-- **A merge without chosen names marks every name that it makes up.** -/
theorem plainNamesDeclared_of_merge {m : Merger} {cls : ClassName} {ts : Trees} {c : MergedClass}
    (hc : m.merge cls ts = .ok c) (hnames : ∀ d ∈ ts.allMembers, d.nameOverride = none) :
    c.PlainNamesDeclared := by
  obtain ⟨hone, r, hr, -, rfl⟩ := Merger.merge_eq_ok.1 hc
  have hd := hone.nodup_declarations
  intro b hb hplain
  rcases List.mem_append.1 hb with hb | hb
  · obtain ⟨g, hg, rfl⟩ := List.mem_map.1 hb
    refine ⟨Declarations.isBridge_toMember _ _, ?_⟩
    have hphysical : physicalName ts.declarations.groups g = _ :=
      physicalName_eq (Trees.nameOverride?_eq_none hd hnames hg)
    have hname : physicalName ts.declarations.groups g = g.key.name := by
      by_cases hmangled : needsMangling ts.declarations.groups g
      · -- a mangled name is not plain, because some version has the member
        exfalso
        obtain ⟨e, he⟩ := Declarations.exists_mem_decls hd hg
        have hv : e.1 ∈ g.versionSet := OrderedSet.mem_ofList.2 (List.mem_map_of_mem he)
        apply hplain.1
        show HasMarker (physicalName ts.declarations.groups g)
        rw [hphysical, if_pos hmangled]
        exact hasMarker_mangle hv
      · rw [hphysical, if_neg hmangled]
    rw [MergedMember.isMangled, decide_eq_false_iff_not, not_not]
    exact hname
  · have hbridge := isBridge_of_mem_bridges hr hb
    rw [MergedMember.isBridge, Bool.and_eq_true] at hbridge
    rw [hplain.2] at hbridge
    exact absurd hbridge.2 Bool.false_ne_true

/-! ### Linking nothing -/

/-- An index whose classes mark every name that a merge made up. -/
def MergedIndex.PlainNamesDeclared (i : MergedIndex) : Prop :=
  ∀ owner merged, i.get? owner = some merged → merged.PlainNamesDeclared

theorem MergedIndex.PlainNamesDeclared.of_member? {i : MergedIndex} (h : i.PlainNamesDeclared)
    {owner : ClassName} {merged : MergedClass} (howner : i.get? owner = some merged)
    {key : MemberKey} {m : MergedMember} (hm : merged.member? key = some m)
    (hplain : PlainName key.name) : m.isBridge = false ∧ m.isMangled = false := by
  have hname : m.physicalName = key.name :=
    congrArg MemberKey.name (MergedClass.key_of_member?_eq_some hm)
  exact h owner merged howner m (MergedClass.mem_of_member?_eq_some hm) (hname ▸ hplain)

namespace Linker

variable {l : Linker} {insn : Insn}

theorem bridgeCast?_eq_none (hindex : l.index.PlainNamesDeclared) (hinsn : insn.IsPlain) :
    l.bridgeCast? insn = none := by
  cases insn with
  | member use owner name desc =>
    cases use with
    | field access => rfl
    | invoke kind =>
      rw [bridgeCast?]
      cases howner : l.index.get? owner with
      | none => rfl
      | some merged =>
        cases hm : merged.member? ⟨name, desc, .method⟩ with
        | none => simp [hm]
        | some m =>
          obtain ⟨hbridge, -⟩ := hindex.of_member? howner hm hinsn
          simp [hm, hbridge]
  | type use cls => rfl
  | raw text => rfl

theorem demangle?_eq_none (hindex : l.index.PlainNamesDeclared) (hinsn : insn.IsPlain) :
    l.demangle? insn = none := by
  cases insn with
  | member use owner name desc =>
    rw [demangle?]
    cases howner : l.index.get? owner with
    | none => rfl
    | some merged =>
      cases hm : merged.member? ⟨name, desc, use.kind⟩ with
      | none => simp [hm]
      | some m =>
        obtain ⟨-, hmangled⟩ := hindex.of_member? howner hm hinsn
        simp [hm, hmangled]
  | type use cls => rfl
  | raw text => rfl

/-- An instruction with a plain name is not changed. -/
theorem rewrite_eq_self (hindex : l.index.PlainNamesDeclared) (hinsn : insn.IsPlain) :
    l.rewrite insn = insn := by
  rw [rewrite, bridgeCast?_eq_none hindex hinsn, demangle?_eq_none hindex hinsn]
  rfl

theorem changes_eq_zero (hindex : l.index.PlainNamesDeclared) (hinsn : insn.IsPlain) :
    l.changes insn = 0 := by
  rw [changes, bridgeCast?_eq_none hindex hinsn, demangle?_eq_none hindex hinsn]
  rfl

theorem rewriteMember_eq_self {m : Member} (h : ∀ insn ∈ m.insns, l.rewrite insn = insn) :
    l.rewriteMember m = m := by
  obtain ⟨name, desc, kind, isStatic, isSynthetic, access, body⟩ := m
  cases body with
  | none => rfl
  | some b =>
    have hinsns : b.insns.map l.rewrite = b.insns :=
      (List.map_congr_left h).trans (List.map_id _)
    rw [rewriteMember, Option.map_some, hinsns, Body.withInsns_insns]

theorem rewriteTree_eq_self {t : ClassTree} (h : ∀ insn ∈ t.insns, l.rewrite insn = insn) :
    l.rewriteTree t = t := by
  have hmembers : t.members.map l.rewriteMember = t.members := by
    refine (List.map_congr_left fun m hm ↦ ?_).trans (List.map_id _)
    exact rewriteMember_eq_self fun insn hinsn ↦ h insn (List.mem_flatMap.2 ⟨m, hm, hinsn⟩)
  rw [rewriteTree, hmembers]

/-- **A tree with plain names is linked to itself**, where there are no redirects. -/
theorem link_eq_self (hindex : l.index.PlainNamesDeclared) (hredirects : l.redirects = .empty)
    {t : ClassTree} (hinsns : ∀ insn ∈ t.insns, insn.IsPlain) : l.link t = .ok (t, 0) := by
  have hchanges : (t.members.map fun m ↦ l.changesIn m.insns).foldr (· + ·) 0 = 0 := by
    refine List.sum_eq_zero_iff_forall_eq_nat.2 fun n hn ↦ ?_
    obtain ⟨m, hm, rfl⟩ := List.mem_map.1 hn
    refine List.sum_eq_zero_iff_forall_eq_nat.2 fun n hn ↦ ?_
    obtain ⟨insn, hinsn, rfl⟩ := List.mem_map.1 hn
    exact changes_eq_zero hindex (hinsns insn (List.mem_flatMap.2 ⟨m, hm, hinsn⟩))
  rw [link_eq_ok hredirects, hchanges,
    rewriteTree_eq_self fun insn hinsn ↦ rewrite_eq_self hindex (hinsns insn hinsn)]

end Linker

end ClassWeave
