import ClassWeave.Proofs.Descriptor
import ClassWeave.Proofs.Link.Leaks
import ClassWeave.Proofs.Merge.Invariants

/-!
# Names that only a merge knows

Bridges and mangled members have names in a merged class under which no version declares them. Code
that was compiled against merged classes uses these names, and linking is to remove them.

The linker looks a name up in the owner of the reference (`Linker.rewrite_eq_member`), while the
verifier and a class loader follow the superclasses of the owner as well. This module measures the
gap. A name of this kind outlives linking and a clean verification only where the reference reaches
it through a subclass, or where an author has declared a member of that very name
(`leftover_inherited_or_declared`). And a reference to a mangled member, which is renamed whatever
the target, is reported exactly if no member of its declared key exists in the target
(`mangled_reported_iff`): the key does not tell static members from others, nor the declarations of
a repeated key from each other.
-/

namespace ClassWeave

/-! ### Names in an index -/

/-- A member under whose physical name no version declares it. -/
def MergedMember.IsMergeOnly (m : MergedMember) : Prop := m.isBridge = true ∨ m.isMangled = true

instance (m : MergedMember) : Decidable m.IsMergeOnly := inferInstanceAs (Decidable (_ ∨ _))

namespace MergedIndex

variable {i : MergedIndex}

/-- An index of classes that merges gave. -/
def OfMerges (i : MergedIndex) : Prop :=
  ∀ owner c, i.get? owner = some c → ∃ (m : Merger) (cls : ClassName) (ts : Trees),
    m.merge cls ts = .ok c

/-- A class of the index has a bridge or a mangled member of the physical key. -/
def NamesMergeOnly (i : MergedIndex) (c : ClassName) (key : MemberKey) : Prop :=
  ∃ merged, i.get? c = some merged ∧ ∃ m, merged.member? key = some m ∧ m.IsMergeOnly

instance (i : MergedIndex) (c : ClassName) (key : MemberKey) :
    Decidable (i.NamesMergeOnly c key) :=
  decidable_of_iff ((i.get? c).any fun merged ↦ (merged.member? key).any (·.IsMergeOnly)) <| by
    simp only [Option.any_eq_true, decide_eq_true_iff, NamesMergeOnly]

/-- An author declares a member of the key in a class of the index, for some version. -/
def AuthorDeclares (i : MergedIndex) (c : ClassName) (key : MemberKey) : Prop :=
  ∃ merged, i.get? c = some merged ∧ ∃ m ∈ merged.declared key, m.isBridge = false

theorem mem_of_get?_foldl_insert {cs : List MergedClass} {owner : ClassName} {c : MergedClass}
    (h : (cs.foldl insert i).get? owner = some c) : c ∈ cs ∨ i.get? owner = some c := by
  induction cs generalizing i with
  | nil => exact .inr h
  | cons c' cs ih =>
    rcases ih h with h | h
    · exact .inl (List.mem_cons_of_mem _ h)
    · rw [get?, insert, OrderedMap.get?_insert] at h
      split at h
      · exact .inl (Option.some.inj h ▸ List.mem_cons_self)
      · exact .inr h

/-- The index of what merging gives for each of the inputs, where it gives something. -/
def ofInputs (m : Merger) (inputs : List (ClassName × Trees)) : MergedIndex :=
  ofList (inputs.filterMap fun e ↦ (m.merge e.1 e.2).toOption)

theorem ofMerges_ofInputs (m : Merger) (inputs : List (ClassName × Trees)) :
    (ofInputs m inputs).OfMerges := by
  intro owner c hget
  rcases mem_of_get?_foldl_insert hget with hmem | hempty
  · obtain ⟨e, -, he⟩ := List.mem_filterMap.1 hmem
    refine ⟨m, e.1, e.2, ?_⟩
    cases hmerge : m.merge e.1 e.2 with
    | ok c' =>
      rw [hmerge] at he
      exact congrArg Except.ok (Option.some.inj he)
    | error err =>
      rw [hmerge] at he
      cases he
  · cases hempty

end MergedIndex

/-! ### What linking makes of a reference -/

namespace Linker

variable {l : Linker} {insn : Insn} {use : MemberUse} {owner : ClassName} {name desc : String}
  {merged : MergedClass} {b : MergedMember}

theorem demangle?_eq_some_iff : l.demangle? insn = some (.member use owner name desc) ↔
    ∃ physical merged b, insn = .member use owner physical desc ∧
      l.index.get? owner = some merged ∧ merged.member? ⟨physical, desc, use.kind⟩ = some b ∧
      b.isMangled = true ∧ b.declaredName = name := by
  cases insn with
  | member use' owner' physical desc' =>
    simp only [demangle?, Option.bind_eq_bind, Option.bind_eq_some_iff,
      Option.ite_none_right_eq_some, Option.some.injEq, Insn.member.injEq]
    constructor
    · rintro ⟨merged, hmerged, b, hb, hmangled, rfl, rfl, rfl, rfl⟩
      exact ⟨physical, merged, b, ⟨rfl, rfl, rfl, rfl⟩, hmerged, hb, hmangled, rfl⟩
    · rintro ⟨_, merged, b, ⟨rfl, rfl, rfl, rfl⟩, hmerged, hb, hmangled, rfl⟩
      exact ⟨merged, hmerged, b, hb, hmangled, rfl, rfl, rfl, rfl⟩
  | type use cls => simp [demangle?]
  | raw text => simp [demangle?]

/-- **A reference in a linked tree stood there before, or is renamed from one to a mangled member of
its owner.** -/
theorem rewrite_eq_member (h : l.rewrite insn = .member use owner name desc) :
    (insn = .member use owner name desc ∧ l.bridgeCast? insn = none ∧ l.demangle? insn = none) ∨
      l.demangle? insn = some (.member use owner name desc) := by
  rw [rewrite] at h
  cases hcast : l.bridgeCast? insn with
  | some cast =>
    rw [hcast, Option.getD_some] at h
    obtain ⟨_, rfl⟩ := exists_of_bridgeCast? hcast
    cases h
  | none =>
    rw [hcast, Option.getD_none] at h
    cases hdemangle : l.demangle? insn with
    | some declared =>
      rw [hdemangle, Option.getD_some] at h
      exact .inr (congrArg some h)
    | none =>
      rw [hdemangle, Option.getD_none] at h
      exact .inl ⟨h, rfl, rfl⟩

/-- **The call of a bridge in the target becomes a cast.** -/
theorem bridgeCast?_bridge {kind : InvokeKind} {s : ClassName} {served : VersionSet}
    (howner : l.index.get? owner = some merged)
    (hb : merged.member? ⟨name, desc, .method⟩ = some (.bridge s served))
    (hserved : l.target ∈ served) :
    l.bridgeCast? (.member (.invoke kind) owner name desc) =
      some (.type .checkCast (.ofText s.text)) := by
  obtain rfl : "()" ++ s.descriptor = desc :=
    congrArg MemberKey.desc (MergedClass.key_of_member?_eq_some hb)
  have hbridge : (MergedMember.bridge s served).isBridge = true := hasBridgeName_bridgeName s
  have hversion : (MergedMember.bridge s served).inVersion l.target = true :=
    decide_eq_true hserved
  simp [bridgeCast?, howner, hb, hbridge, hversion, Descriptor.returnType_nullary,
    Descriptor.objectType?_descriptor, Except.toOption]

/-- What stands in a tree that was linked without redirects is rewritten from the tree before. -/
theorem exists_of_mem_insns {t t' : ClassTree} {n : Nat} (hredirects : l.redirects = .empty)
    (hlink : l.link t = .ok (t', n)) (hinsn : insn ∈ t'.insns) :
    ∃ before ∈ t.insns, l.rewrite before = insn := by
  rw [link_eq_ok hredirects] at hlink
  obtain ⟨rfl, -⟩ := Prod.mk.inj (Except.ok.inj hlink)
  rwa [insns_rewriteTree, List.mem_map] at hinsn

end Linker

/-! ### What is left -/

section Leftover

variable {i : MergedIndex} {v : Version} {t t' : ClassTree} {n : Nat} {use : MemberUse}
  {owner c : ClassName} {name desc : String} {key : MemberKey} {merged : MergedClass}
  {b : MergedMember}

/-- No reference of a tree that is accepted leaks. -/
theorem MergedIndex.isMemberLeak_eq_false_of_check (hcheck : i.check v t = .ok ())
    (hinsn : .member use owner name desc ∈ t.insns) :
    i.isMemberLeak v owner ⟨name, desc, use.kind⟩ = false := by
  rw [Bool.eq_false_iff]
  intro hleak
  obtain ⟨site, hmem⟩ := absentMember_mem_leaks_iff.2 ⟨use, name, desc, hinsn, rfl, hleak⟩
  rw [check_eq_ok.1 hcheck] at hmem
  exact absurd hmem List.not_mem_nil

/-- A bridge is declared under its physical key. -/
theorem MergedIndex.OfMerges.mem_declared_iff (hi : i.OfMerges) (hget : i.get? c = some merged)
    (hbridge : b.isBridge = true) : b ∈ merged.declared key ↔ merged.member? key = some b := by
  obtain ⟨m, cls, ts, hmerge⟩ := hi _ _ hget
  constructor
  · intro hb
    obtain ⟨hbmem, hbkey⟩ := List.mem_filter.1 hb
    obtain ⟨s, served, rfl⟩ := Merger.eq_bridge_of_mem hmerge hbmem hbridge
    have hkey : (MergedMember.bridge s served).key = key := of_decide_eq_true hbkey
    rw [← hkey]
    exact Merger.member?_key hmerge hbmem
  · intro hb
    have hbmem := MergedClass.mem_of_member?_eq_some hb
    obtain ⟨s, served, rfl⟩ := Merger.eq_bridge_of_mem hmerge hbmem hbridge
    exact List.mem_filter.2 ⟨hbmem, decide_eq_true (MergedClass.key_of_member?_eq_some hb)⟩

/-- **A bridge that is not one of the target, and yet is accepted**, has a member of its key in the
target: a bridge of a class above, or what an author declares. -/
theorem MergedIndex.OfMerges.exists_of_bridge (hi : i.OfMerges)
    (howner : i.get? owner = some merged) (hb : merged.member? key = some b)
    (hbridge : b.isBridge = true) (hout : b.inVersion v = false)
    (hleak : i.isMemberLeak v owner key = false) :
    (∃ d, d ≠ owner ∧ i.Reaches v owner d ∧ i.NamesMergeOnly d key) ∨
      ∃ d, i.Reaches v owner d ∧ i.AuthorDeclares d key := by
  have hdeclared : b ∈ merged.declared key := (hi.mem_declared_iff howner hbridge).2 hb
  obtain ⟨b', ⟨d, hd, merged', hmerged', hb'⟩, hin⟩ := exists_inVersion_of_isMemberLeak_eq_false
    ⟨owner, owner_mem_memberChain, merged, howner, hdeclared⟩ hleak
  have hreach := reaches_of_mem_memberChain hd
  cases hbridge' : b'.isBridge with
  | false => exact .inr ⟨d, hreach, merged', hmerged', b', hb', hbridge'⟩
  | true =>
    have hlookup : merged'.member? key = some b' := (hi.mem_declared_iff hmerged' hbridge').1 hb'
    refine .inl ⟨d, ?_, hreach, merged', hmerged', b', hlookup, .inl hbridge'⟩
    -- the bridge of the owner is not one of the target, this one is
    rintro rfl
    rw [howner] at hmerged'
    cases hmerged'
    rw [hb] at hlookup
    cases hlookup
    rw [hout] at hin
    cases hin

/-- The member found under a physical key has the descriptor and the kind of the key. -/
theorem declaredKey_of_member?_eq_some (hb : merged.member? ⟨name, desc, use.kind⟩ = some b) :
    b.declaredKey = ⟨b.declaredName, desc, use.kind⟩ := by
  have hkey := MergedClass.key_of_member?_eq_some hb
  have hdesc : b.desc = desc := congrArg MemberKey.desc hkey
  have hkind : b.kind = use.kind := congrArg MemberKey.kind hkey
  rw [MergedMember.declaredKey, hdesc, hkind]

/-- A bridge of the owner that the linker passes over is not one of the target. -/
theorem Linker.inVersion_eq_false_of_bridge {l : Linker} (hi : l.index.OfMerges)
    (hmerged : l.index.get? owner = some merged)
    (hb : merged.member? ⟨name, desc, use.kind⟩ = some b) (hbridge : b.isBridge = true)
    (hcast : l.bridgeCast? (.member use owner name desc) = none) :
    b.inVersion l.target = false := by
  obtain ⟨m, cls, ts, hmerge⟩ := hi _ _ hmerged
  obtain ⟨s, served, rfl⟩ :=
    Merger.eq_bridge_of_mem hmerge (MergedClass.mem_of_member?_eq_some hb) hbridge
  have hkind : MemberKind.method = use.kind :=
    congrArg MemberKey.kind (MergedClass.key_of_member?_eq_some hb)
  cases use with
  | field access => cases hkind
  | invoke kind =>
    rw [Bool.eq_false_iff]
    intro hin
    rw [bridgeCast?_bridge hmerged hb (of_decide_eq_true hin)] at hcast
    cases hcast

/-- **What outlives linking and a clean verification.** A reference that still names a bridge or a
mangled member, of its owner or of a class above, stood in the tree before and names one of a class
above; or else an author declares a member of that name. -/
theorem leftover_inherited_or_declared {l : Linker} (hi : l.index.OfMerges)
    (hredirects : l.redirects = .empty) (hlink : l.link t = .ok (t', n))
    (hcheck : l.index.check l.target t' = .ok ()) (hinsn : .member use owner name desc ∈ t'.insns)
    (hc : l.index.Reaches l.target owner c)
    (hname : l.index.NamesMergeOnly c ⟨name, desc, use.kind⟩) :
    .member use owner name desc ∈ t.insns ∧
        (∃ d, d ≠ owner ∧ l.index.Reaches l.target owner d ∧
          l.index.NamesMergeOnly d ⟨name, desc, use.kind⟩) ∨
      ∃ d, l.index.Reaches l.target owner d ∧
        l.index.AuthorDeclares d ⟨name, desc, use.kind⟩ := by
  obtain ⟨before, hbefore, hrewrite⟩ := Linker.exists_of_mem_insns hredirects hlink hinsn
  rcases Linker.rewrite_eq_member hrewrite with ⟨rfl, hcast, hdemangle⟩ | hdemangle
  · by_cases howner : c = owner
    · subst howner
      obtain ⟨merged, hmerged, b, hb, hbridge | hmangled⟩ := hname
      · have hout := Linker.inVersion_eq_false_of_bridge hi hmerged hb hbridge hcast
        have hleak := MergedIndex.isMemberLeak_eq_false_of_check hcheck hinsn
        exact (hi.exists_of_bridge hmerged hb hbridge hout hleak).imp_left fun h ↦ ⟨hbefore, h⟩
      · -- a mangled member of the owner would have been renamed
        have hsome := Linker.demangle?_eq_some_iff.2
          ⟨name, merged, b, rfl, hmerged, hb, hmangled, rfl⟩
        rw [hdemangle] at hsome
        cases hsome
    · exact .inl ⟨hbefore, c, howner, hc, hname⟩
  · obtain ⟨physical, merged, b, -, hmerged, hb, hmangled, rfl⟩ :=
      Linker.demangle?_eq_some_iff.1 hdemangle
    have hbmem := MergedClass.mem_of_member?_eq_some hb
    obtain ⟨m, cls, ts, hmerge⟩ := hi _ _ hmerged
    exact .inr ⟨owner, .refl, merged, hmerged, b,
      List.mem_filter.2 ⟨hbmem, decide_eq_true (declaredKey_of_member?_eq_some hb)⟩,
      Merger.isBridge_eq_false_of_isMangled hmerge hbmem hmangled⟩

/-- A class that calls the given members. -/
def callerOf (calls : List Insn) : ClassTree where
  name := ⟨"x/User"⟩
  access := .publicAccess
  members := [{ name := "use", desc := "()V", kind := .method, access := .publicAccess
                body := some (.code 1 calls) }]

/-- Two releases of a class with one method each. The author has the two methods trade their names
in the merged class. -/
def renamedReleases : Trees :=
  [(⟨"a"⟩, { name := ⟨"x/C"⟩, access := .publicAccess
             members := [{ rawMethod "open" "()V" "nop" with nameOverride := some "close" }] }),
   (⟨"b"⟩, { name := ⟨"x/C"⟩, access := .publicAccess
             members := [{ rawMethod "close" "()V" "nop" with nameOverride := some "open" }] })]

/-- The linker that takes code compiled against this class to the second release. -/
def renamedLinker : Linker :=
  ⟨.ofInputs ⟨.empty, .empty⟩ [(⟨"x/C"⟩, renamedReleases)], .empty, ⟨"b"⟩⟩

theorem leftover_inherited_or_declared_renamedReleases :
    ∃ t', renamedLinker.link (callerOf [.member (.invoke .virtual) ⟨"x/C"⟩ "open" "()V"]) =
        .ok (t', 1) ∧
      renamedLinker.index.check renamedLinker.target t' = .ok () ∧
      .member (.invoke .virtual) ⟨"x/C"⟩ "close" "()V" ∈ t'.insns ∧
      renamedLinker.index.NamesMergeOnly ⟨"x/C"⟩ ⟨"close", "()V", .method⟩ ∧
      ∃ d, renamedLinker.index.Reaches renamedLinker.target ⟨"x/C"⟩ d ∧
        renamedLinker.index.AuthorDeclares d ⟨"close", "()V", .method⟩ := by
  have hlink : renamedLinker.link (callerOf [.member (.invoke .virtual) ⟨"x/C"⟩ "open" "()V"]) =
      .ok (callerOf [.member (.invoke .virtual) ⟨"x/C"⟩ "close" "()V"], 1) := by decide +kernel
  have hcheck : renamedLinker.index.check renamedLinker.target
      (callerOf [.member (.invoke .virtual) ⟨"x/C"⟩ "close" "()V"]) = .ok () := by decide +kernel
  have hname : renamedLinker.index.NamesMergeOnly ⟨"x/C"⟩ ⟨"close", "()V", .method⟩ := by
    decide +kernel
  have hinsn : Insn.member (.invoke .virtual) ⟨"x/C"⟩ "close" "()V" ∈
      (callerOf [.member (.invoke .virtual) ⟨"x/C"⟩ "close" "()V"]).insns := by decide +kernel
  have hindex : renamedLinker.index.OfMerges := MergedIndex.ofMerges_ofInputs _ _
  refine ⟨_, hlink, hcheck, hinsn, hname, ?_⟩
  rcases leftover_inherited_or_declared hindex rfl hlink hcheck hinsn .refl hname with
    ⟨hstood, -⟩ | hdeclared
  · exact absurd hstood (by decide +kernel)
  · exact hdeclared

/-- Two releases of a class whose method has another type in each, and of a class below it. -/
def conflictInputs : List (ClassName × Trees) :=
  [(⟨"x/C"⟩,
    [(⟨"a"⟩, { name := ⟨"x/C"⟩, access := .publicAccess
               members := [rawMethod "conflict" "()J" "lconst_1"] }),
     (⟨"b"⟩, { name := ⟨"x/C"⟩, access := .publicAccess
               members := [rawMethod "conflict" "()I" "iconst_1"] })]),
   (⟨"x/D"⟩,
    [(⟨"a"⟩, { name := ⟨"x/D"⟩, access := .publicAccess, superclass := ⟨"x/C"⟩ }),
     (⟨"b"⟩, { name := ⟨"x/D"⟩, access := .publicAccess, superclass := ⟨"x/C"⟩ })])]

def conflictLinker (target : Version) : Linker :=
  ⟨.ofInputs ⟨.empty, .empty⟩ conflictInputs, .empty, target⟩

/-- A call through the subclass keeps the mangled name, and the verifier accepts it. -/
theorem mangled_name_left_in_subclassCall :
    let call : Insn := .member (.invoke .virtual) ⟨"x/D"⟩ "conflict$mv$a" "()J"
    let l := conflictLinker ⟨"a"⟩
    l.index.OfMerges ∧ l.link (callerOf [call]) = .ok (callerOf [call], 0) ∧
      l.index.check l.target (callerOf [call]) = .ok () ∧ call ∈ (callerOf [call]).insns ∧
      l.index.Reaches l.target ⟨"x/D"⟩ ⟨"x/C"⟩ ∧
      l.index.NamesMergeOnly ⟨"x/C"⟩ ⟨"conflict$mv$a", "()J", .method⟩ := by
  refine ⟨MergedIndex.ofMerges_ofInputs _ _, ?_, ?_, ?_, .single ?_, ?_⟩ <;> decide +kernel

end Leftover

/-! ### What is reported -/

section Reported

variable {m : Merger} {cls : ClassName} {ts : Trees} {c : MergedClass} {l : Linker}
  {t : ClassTree} {b : MergedMember} {use : MemberUse} {key : MemberKey}

/-- Where the superclass is not in the index, the verifier sees the members of the class alone. -/
theorem MergedIndex.declaredOn_memberChain {i : MergedIndex} {v : Version}
    (hc : i.get? c.name = some c) (hsuper : i.get? (c.superclassIn v) = none) :
    i.DeclaredOn (i.memberChain v c.name key) key b ↔ b ∈ c.declared key := by
  constructor
  · rintro ⟨d, hd, merged, hmerged, hb⟩
    have hlast : ∀ merged, i.get? c.name = some merged → i.get? (merged.superclassIn v) = none := by
      intro merged hmerged
      rw [hc] at hmerged
      cases hmerged
      exact hsuper
    rw [eq_of_reaches (reaches_of_mem_memberChain hd) (hmerged ▸ rfl) hlast, hc] at hmerged
    cases hmerged
    exact hb
  · intro hb
    exact ⟨c.name, owner_mem_memberChain, c, hc, hb⟩

/-- A reference to a mangled member is renamed, whatever the target. -/
theorem Linker.rewrite_mangled (hc : m.merge cls ts = .ok c) (hget : l.index.get? c.name = some c)
    (hb : b ∈ c.members) (hmangled : b.isMangled = true) (hkind : use.kind = b.kind) :
    l.rewrite (.member use c.name b.physicalName b.desc) =
      .member use c.name b.declaredName b.desc := by
  have hlookup : c.member? ⟨b.physicalName, b.desc, use.kind⟩ = some b := by
    rw [hkind]
    exact Merger.member?_key hc hb
  have hdemangle := demangle?_eq_some_iff.2 ⟨_, c, b, rfl, hget, hlookup, hmangled, rfl⟩
  have hcast : l.bridgeCast? (.member use c.name b.physicalName b.desc) = none := by
    cases use with
    | field access => rfl
    | invoke kind =>
      have hbridge := Merger.isBridge_eq_false_of_isMangled hc hb hmangled
      have hlookup : c.member? ⟨b.physicalName, b.desc, .method⟩ = some b := hlookup
      simp [bridgeCast?, hget, hlookup, hbridge]
  rw [rewrite, hcast, hdemangle]
  rfl

/-- **When a reference to a mangled member is reported.** Linking renames it, and the verifier
reports it exactly if the target has no member of the declared key, mangled or not. -/
theorem mangled_reported_iff (hc : m.merge cls ts = .ok c) (hredirects : l.redirects = .empty)
    (hget : l.index.get? c.name = some c) (hsuper : l.index.get? (c.superclassIn l.target) = none)
    (hb : b ∈ c.members) (hmangled : b.isMangled = true) (hkind : use.kind = b.kind)
    (hinsn : .member use c.name b.physicalName b.desc ∈ t.insns) :
    ∃ t' n, l.link t = .ok (t', n) ∧
      ((∃ site, .absentMember site c.name b.declaredKey l.target ∈ l.index.leaks l.target t') ↔
        ∀ b' ∈ c.members, b'.declaredKey = b.declaredKey → b'.inVersion l.target = false) := by
  refine ⟨_, _, Linker.link_eq_ok hredirects t, ?_⟩
  have hrenamed : .member use c.name b.declaredName b.desc ∈ (l.rewriteTree t).insns := by
    rw [Linker.insns_rewriteTree, List.mem_map]
    exact ⟨_, hinsn, Linker.rewrite_mangled hc hget hb hmangled hkind⟩
  have hkey : b.declaredKey = ⟨b.declaredName, b.desc, use.kind⟩ := by
    rw [hkind]
    rfl
  have hdeclared : ∀ b', b' ∈ c.declared b.declaredKey ↔
      b' ∈ c.members ∧ b'.declaredKey = b.declaredKey := fun b' ↦ by
    rw [MergedClass.declared, List.mem_filter, decide_eq_true_iff]
  -- the reference is there, so it is reported if its key leaks
  have hreported : (∃ site, .absentMember site c.name b.declaredKey l.target ∈
      l.index.leaks l.target (l.rewriteTree t)) ↔
      l.index.isMemberLeak l.target c.name b.declaredKey = true := by
    rw [MergedIndex.absentMember_mem_leaks_iff]
    constructor
    · rintro ⟨-, -, -, -, -, hleak⟩
      exact hleak
    · intro hleak
      exact ⟨use, b.declaredName, b.desc, hrenamed, hkey, hleak⟩
  rw [hreported, MergedIndex.isMemberLeak_iff]
  simp only [MergedIndex.declaredOn_memberChain hget hsuper, hdeclared]
  constructor
  · rintro ⟨-, hout⟩ b' hb' hkey'
    exact hout b' ⟨hb', hkey'⟩
  · intro hout
    exact ⟨⟨b, hb, rfl⟩, fun b' hb' ↦ hout b' hb'.1 hb'.2⟩

theorem mangled_reported_iff_conflictInputs :
    ∃ t' n, (conflictLinker ⟨"b"⟩).link
        (callerOf [.member (.invoke .virtual) ⟨"x/C"⟩ "conflict$mv$a" "()J"]) = .ok (t', n) ∧
      ∃ site, .absentMember site ⟨"x/C"⟩ ⟨"conflict", "()J", .method⟩ ⟨"b"⟩ ∈
        (conflictLinker ⟨"b"⟩).index.leaks ⟨"b"⟩ t' := by
  have hclass : ((conflictLinker ⟨"b"⟩).index.get? ⟨"x/C"⟩).any (fun c ↦
      c.name = ⟨"x/C"⟩ ∧ (conflictLinker ⟨"b"⟩).index.get? (c.superclassIn ⟨"b"⟩) = none ∧
        ∃ b ∈ c.members, b.key = ⟨"conflict$mv$a", "()J", .method⟩ ∧
          b.declaredKey = ⟨"conflict", "()J", .method⟩ ∧
          ∀ b' ∈ c.members, b'.declaredKey = b.declaredKey → b'.inVersion ⟨"b"⟩ = false) := by
    decide +kernel
  obtain ⟨c, hget, hfacts⟩ := (Option.any_eq_true _ _).1 hclass
  obtain ⟨hname, hsuper, b, hb, hkey, hdeclared, hout⟩ := of_decide_eq_true hfacts
  obtain ⟨m, cls, ts, hc⟩ := MergedIndex.ofMerges_ofInputs _ _ _ _ hget
  have hphysical : b.physicalName = "conflict$mv$a" := congrArg MemberKey.name hkey
  have hdeclaredName : b.declaredName = "conflict" := congrArg MemberKey.name hdeclared
  have hdesc : b.desc = "()J" := congrArg MemberKey.desc hkey
  have hkind : (MemberUse.invoke .virtual).kind = b.kind := (congrArg MemberKey.kind hkey).symm
  have hmangled : b.isMangled = true := by
    rw [MergedMember.isMangled, hphysical, hdeclaredName]
    decide
  have hinsn : .member (.invoke .virtual) c.name b.physicalName b.desc ∈
      (callerOf [.member (.invoke .virtual) ⟨"x/C"⟩ "conflict$mv$a" "()J"]).insns := by
    rw [hname, hphysical, hdesc]
    decide
  obtain ⟨t', n, hlink, hreported⟩ := mangled_reported_iff (l := conflictLinker ⟨"b"⟩) hc rfl
    (hname ▸ hget) hsuper hb hmangled hkind hinsn
  rw [hname, hdeclared] at hreported
  exact ⟨t', n, hlink, hreported.2 (hdeclared ▸ hout)⟩

/-- Two releases of a class whose field is static in the first one only. -/
def countReleases : Trees :=
  [(⟨"a"⟩, { name := ⟨"x/C"⟩, access := .publicAccess
             members := [{ name := "count", desc := "I", kind := .field, isStatic := true
                           access := .publicAccess }] }),
   (⟨"b"⟩, { name := ⟨"x/C"⟩, access := .publicAccess
             members := [{ name := "count", desc := "I", kind := .field
                           access := .publicAccess }] })]

def countLinker : Linker :=
  ⟨.ofInputs ⟨.empty, .empty⟩ [(⟨"x/C"⟩, countReleases)], .empty, ⟨"b"⟩⟩

/-- Code that reads the static field of the first release is linked to the other field of the second
one, and nothing is reported. -/
theorem static_reference_not_reported :
    let read (name : String) : Insn := .member (.field .getStatic) ⟨"x/C"⟩ name "I"
    (countLinker.index.get? ⟨"x/C"⟩).any (fun c ↦ c.members.any fun b ↦
      b.key = ⟨"count$mv$a", "I", .field⟩ ∧ b.isMangled ∧ ¬ b.inVersion ⟨"b"⟩) ∧
      countLinker.link (callerOf [read "count$mv$a"]) = .ok (callerOf [read "count"], 1) ∧
      countLinker.index.leaks ⟨"b"⟩ (callerOf [read "count"]) = [] := by
  decide +kernel

end Reported

end ClassWeave
