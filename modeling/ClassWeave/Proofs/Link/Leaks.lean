import ClassWeave.Link.Leaks
import ClassWeave.Proofs.Chain
import ClassWeave.Proofs.Link.Identity

/-!
# What the verifier reports

A leak of a tree comes from one of its edges, of its signatures or of its instructions
(`mem_leaks_iff`), and everything here is read off that. A tree has no leaks if every class of the
index that it names exists in the target and every member that it uses is declared, for the target,
where the verifier looks (`leaks_eq_nil`). A class that it names and that does not exist there is
reported (`absentClass_mem_leaks_iff`).

For a member the verifier looks along the superclasses that the target gives the owner. Since such a
walk collects the classes that can be reached and no others, a member that some class above the
owner declares is never reported (`isMemberLeak_eq_false`). A member that is declared there for
other versions only always is (`isMemberLeak_iff`, `absentMember_mem_leaks_iff`).
-/

namespace ClassWeave

/-! ### What a tree names -/

/-- The classes that an instruction names. -/
def Insn.classes : Insn → List ClassName
  | .member _ owner _ desc => owner :: Descriptor.referencedClasses desc
  | .type _ cls => [(Descriptor.elementClass? cls.text).getD cls]
  | .raw _ => []

/-- The classes that a tree names. -/
def ClassTree.mentions (t : ClassTree) : List ClassName :=
  t.superclass :: (t.interfaces ++
    t.members.flatMap (fun m ↦ Descriptor.referencedClasses m.desc) ++
    t.insns.flatMap Insn.classes)

theorem ClassTree.mem_mentions {t : ClassTree} {c : ClassName} :
    c ∈ t.mentions ↔ c = t.superclass ∨ c ∈ t.interfaces ∨
      (∃ m ∈ t.members, c ∈ Descriptor.referencedClasses m.desc) ∨
      ∃ insn ∈ t.insns, c ∈ insn.classes := by
  rw [mentions, List.mem_cons, List.mem_append, List.mem_append, List.mem_flatMap,
    List.mem_flatMap, or_assoc]

namespace MergedIndex

variable {i : MergedIndex} {target : Version} {t : ClassTree} {key : MemberKey}
  {owner c : ClassName}

/-! ### Classes -/

theorem classLeaks_eq_nil {site : String} {cs : List ClassName}
    (h : ∀ c ∈ cs, ∀ merged, i.get? c = some merged → target ∈ merged.versions) :
    i.classLeaks target site cs = [] := by
  refine List.filterMap_eq_nil_iff.2 fun c hc ↦ ?_
  cases hget : i.get? c with
  | none => rfl
  | some merged => exact if_pos (h c hc merged hget)

/-- A class of the index that does not exist in the target. -/
def Lacks (i : MergedIndex) (target : Version) (c : ClassName) : Prop :=
  ∃ merged, i.get? c = some merged ∧ target ∉ merged.versions

theorem absentClass_mem_classLeaks {site site' : String} {cs : List ClassName} :
    .absentClass site c target ∈ i.classLeaks target site' cs ↔
      site = site' ∧ c ∈ cs ∧ i.Lacks target c := by
  rw [classLeaks, List.mem_filterMap]
  constructor
  · rintro ⟨c', hc', hleak⟩
    split at hleak
    · rename_i merged hget
      split at hleak
      · cases hleak
      · rename_i habsent
        obtain ⟨rfl, rfl, -⟩ := Leak.absentClass.inj (Option.some.inj hleak)
        exact ⟨rfl, hc', merged, hget, habsent⟩
    · cases hleak
  · rintro ⟨rfl, hc, merged, hget, habsent⟩
    refine ⟨c, hc, ?_⟩
    simp only [hget, if_neg habsent]

/-! ### Where the verifier looks -/

/-- The superclasses that the target gives lead from one class to the other. -/
def Reaches (i : MergedIndex) (target : Version) : ClassName → ClassName → Prop :=
  Relation.ReflTransGen fun a b ↦ i.above? target a = some b

theorem owner_mem_memberChain : owner ∈ i.memberChain target owner key := by
  rw [memberChain]
  split
  · exact List.mem_singleton_self owner
  · exact Chain.mem_walk_self

/-- A class with a superclass is one of the index. -/
theorem isSome_of_above? {d : ClassName} (h : i.above? target c = some d) : (i.get? c).isSome := by
  obtain ⟨merged, hmerged, -⟩ := Option.map_eq_some_iff.1 h
  exact hmerged ▸ rfl

/-- The bound does not end the walk of the verifier. -/
theorem isWalk_above? (i : MergedIndex) (target : Version) (owner : ClassName) :
    Chain.IsWalk (i.above? target) [] owner (Chain.walk (i.above? target) i.size [] owner) := by
  have hkeys : ∀ a b, i.above? target a = some b → a ∈ i.classes.keys := fun a b hab ↦
    OrderedMap.mem_keys.2 (Option.isSome_iff_exists.1 (isSome_of_above? hab))
  exact Chain.isWalk_walk hkeys (List.length_map _).le

/-- The verifier looks wherever the superclasses of the owner lead. -/
theorem mem_memberChain (h : if key.kind = .method ∧ key.name = constructorName then c = owner
      else i.Reaches target owner c) : c ∈ i.memberChain target owner key := by
  rw [memberChain]
  by_cases hinit : key.kind = .method ∧ key.name = constructorName
  · rw [if_pos hinit] at h ⊢
    exact List.mem_singleton.2 h
  · rw [if_neg hinit] at h ⊢
    exact (isWalk_above? i target owner).mem_of_reaches h

/-- It looks nowhere else. -/
theorem reaches_of_mem_memberChain (hc : c ∈ i.memberChain target owner key) :
    i.Reaches target owner c := by
  rw [memberChain] at hc
  split at hc
  · rw [List.mem_singleton.1 hc]
    exact .refl
  · exact Chain.reaches_of_mem_walk hc

/-- A class without a superclass in the index is the last one of the index that is reached. -/
theorem eq_of_reaches (hreach : i.Reaches target owner c) (hc : (i.get? c).isSome)
    (hlast : ∀ merged, i.get? owner = some merged → i.get? (merged.superclassIn target) = none) :
    c = owner := by
  rcases Relation.ReflTransGen.cases_head hreach with rfl | ⟨a, hstep, hrest⟩
  · rfl
  · obtain ⟨merged, hmerged, rfl⟩ := Option.map_eq_some_iff.1 hstep
    have hnone := hlast merged hmerged
    -- the superclass is not in the index, so the way ends there
    rcases Relation.ReflTransGen.cases_head hrest with rfl | ⟨b, hstep, -⟩
    · rw [hnone] at hc
      cases hc
    · rw [above?, hnone] at hstep
      cases hstep

/-! ### Members -/

theorem mem_declared {m : MergedMember} : m ∈ i.declared key c ↔
    ∃ merged, i.get? c = some merged ∧ m ∈ merged.declared key := by
  rw [declared]
  cases i.get? c with
  | none => simp
  | some merged => simp

/-- One of the classes declares the member, for some version. -/
def DeclaredOn (i : MergedIndex) (cs : List ClassName) (key : MemberKey) (m : MergedMember) :
    Prop :=
  ∃ c ∈ cs, ∃ merged, i.get? c = some merged ∧ m ∈ merged.declared key

/-- **A member leaks if it is declared where the verifier looks, but never for the target.** -/
theorem isMemberLeak_iff : i.isMemberLeak target owner key = true ↔
    (∃ m, i.DeclaredOn (i.memberChain target owner key) key m) ∧
      ∀ m, i.DeclaredOn (i.memberChain target owner key) key m → m.inVersion target = false := by
  have hmem : ∀ m, m ∈ (i.memberChain target owner key).flatMap (i.declared key) ↔
      i.DeclaredOn (i.memberChain target owner key) key m := by
    intro m
    rw [List.mem_flatMap]
    exact exists_congr fun c ↦ and_congr_right fun _ ↦ mem_declared
  rw [isMemberLeak, Bool.and_eq_true, Bool.not_eq_true', List.isEmpty_eq_false_iff_exists_mem,
    List.all_eq_true]
  simp only [Bool.not_eq_true']
  exact and_congr (exists_congr hmem) (forall_congr' fun m ↦ imp_congr_left (hmem m))

/-- **A member that the target declares where the verifier looks is not reported.** -/
theorem isMemberLeak_eq_false {merged : MergedClass} {m : MergedMember}
    (hc : c ∈ i.memberChain target owner key) (hmerged : i.get? c = some merged)
    (hm : m ∈ merged.declared key) (hin : m.inVersion target = true) :
    i.isMemberLeak target owner key = false := by
  rw [Bool.eq_false_iff]
  intro hleak
  rw [(isMemberLeak_iff.1 hleak).2 m ⟨c, hc, merged, hmerged, hm⟩] at hin
  cases hin

/-- **A member that is declared where the verifier looks, and is not reported**, is declared there
for the target as well. -/
theorem exists_inVersion_of_isMemberLeak_eq_false {m : MergedMember}
    (hm : i.DeclaredOn (i.memberChain target owner key) key m)
    (hleak : i.isMemberLeak target owner key = false) :
    ∃ m', i.DeclaredOn (i.memberChain target owner key) key m' ∧ m'.inVersion target = true := by
  by_contra hnone
  have hreported : i.isMemberLeak target owner key = true := isMemberLeak_iff.2
    ⟨⟨m, hm⟩, fun m' hm' ↦ Bool.eq_false_iff.2 fun hin ↦ hnone ⟨m', hm', hin⟩⟩
  rw [hleak] at hreported
  cases hreported

/-- A class that is not in the index is not searched at all. -/
theorem isMemberLeak_of_absent (h : i.get? owner = none) :
    i.isMemberLeak target owner key = false := by
  rw [Bool.eq_false_iff]
  intro hleak
  obtain ⟨⟨m, c, hc, merged, hmerged, -⟩, -⟩ := isMemberLeak_iff.1 hleak
  have hlast : ∀ merged, i.get? owner = some merged →
      i.get? (merged.superclassIn target) = none := by
    intro merged hmerged
    rw [h] at hmerged
    cases hmerged
  rw [eq_of_reaches (reaches_of_mem_memberChain hc) (hmerged ▸ rfl) hlast, h] at hmerged
  cases hmerged

/-! ### Trees -/

theorem bodyLeaks_eq (m : Member) :
    i.bodyLeaks target m = m.insns.flatMap (i.insnLeaks target (m.name ++ m.desc)) := by
  rw [bodyLeaks, Member.insns]
  cases m.body with
  | none => rfl
  | some b => rfl

/-- An instruction is reported for the classes that it names and for the member that it uses. -/
theorem mem_insnLeaks_iff {site : String} {insn : Insn} {leak : Leak} :
    leak ∈ i.insnLeaks target site insn ↔
      leak ∈ i.classLeaks target site insn.classes ∨
        ∃ use owner name desc, insn = .member use owner name desc ∧
          i.isMemberLeak target owner ⟨name, desc, use.kind⟩ = true ∧
          leak = .absentMember site owner ⟨name, desc, use.kind⟩ target := by
  cases insn with
  | member use owner name desc =>
    rw [insnLeaks, List.mem_append]
    refine or_congr_right ⟨fun h ↦ ?_, ?_⟩
    · split at h
      · exact ⟨use, owner, name, desc, rfl, ‹_›, List.mem_singleton.1 h⟩
      · exact absurd h List.not_mem_nil
    · rintro ⟨_, _, _, _, heq, hmember, rfl⟩
      cases heq
      rw [if_pos hmember]
      exact List.mem_singleton_self _
  | type use cls => exact (or_iff_left nofun).symm
  | raw text => exact (or_iff_left nofun).symm

/-- **A tree is reported for its edges, its signatures and its instructions**, and for nothing
else. -/
theorem mem_leaks_iff {leak : Leak} : leak ∈ i.leaks target t ↔
    leak ∈ i.classLeaks target "superclass" [t.superclass] ∨
      leak ∈ i.classLeaks target "interface" t.interfaces ∨
      (∃ m ∈ t.members, leak ∈ i.classLeaks target ("signature of " ++ m.name)
        (Descriptor.referencedClasses m.desc)) ∨
      ∃ m ∈ t.members, ∃ insn ∈ m.insns, leak ∈ i.insnLeaks target (m.name ++ m.desc) insn := by
  rw [leaks, List.mem_append, List.mem_append, List.mem_append, List.mem_flatMap,
    List.mem_flatMap, or_assoc, or_assoc]
  simp only [bodyLeaks_eq, List.mem_flatMap]

/-- **A tree without leaks.** -/
theorem leaks_eq_nil
    (hclasses : ∀ c ∈ t.mentions, ∀ merged, i.get? c = some merged → target ∈ merged.versions)
    (hmembers : ∀ use owner name desc, .member use owner name desc ∈ t.insns →
      i.isMemberLeak target owner ⟨name, desc, use.kind⟩ = false) :
    i.leaks target t = [] := by
  have hnone : ∀ {leak site cs}, (∀ c ∈ cs, c ∈ t.mentions) →
      leak ∉ i.classLeaks target site cs := fun hcs hleak ↦ by
    rw [classLeaks_eq_nil fun c hc ↦ hclasses c (hcs c hc)] at hleak
    exact absurd hleak List.not_mem_nil
  refine List.eq_nil_iff_forall_not_mem.2 fun leak hleak ↦ ?_
  rcases mem_leaks_iff.1 hleak with hleak | hleak | ⟨m, hm, hleak⟩ | ⟨m, hm, insn, hinsn, hleak⟩
  · exact hnone (fun c hc ↦ ClassTree.mem_mentions.2 (.inl (List.mem_singleton.1 hc))) hleak
  · exact hnone (fun c hc ↦ ClassTree.mem_mentions.2 (.inr (.inl hc))) hleak
  · exact hnone (fun c hc ↦ ClassTree.mem_mentions.2 (.inr (.inr (.inl ⟨m, hm, hc⟩)))) hleak
  · have hinsn : insn ∈ t.insns := List.mem_flatMap.2 ⟨m, hm, hinsn⟩
    rcases mem_insnLeaks_iff.1 hleak with hleak | ⟨use, owner, name, desc, rfl, hmember, -⟩
    · exact hnone (fun c hc ↦ ClassTree.mem_mentions.2 (.inr (.inr (.inr ⟨insn, hinsn, hc⟩)))) hleak
    · rw [hmembers use owner name desc hinsn] at hmember
      cases hmember

theorem absentClass_mem_insnLeaks {site site' : String} {insn : Insn} :
    .absentClass site c target ∈ i.insnLeaks target site' insn ↔
      site = site' ∧ c ∈ insn.classes ∧ i.Lacks target c := by
  rw [mem_insnLeaks_iff, absentClass_mem_classLeaks]
  exact or_iff_left fun ⟨_, _, _, _, _, _, h⟩ ↦ nomatch h

/-- **A class is reported where a tree names it and the target lacks it.** -/
theorem absentClass_mem_leaks_iff :
    (∃ site, .absentClass site c target ∈ i.leaks target t) ↔
      c ∈ t.mentions ∧ i.Lacks target c := by
  simp only [mem_leaks_iff, absentClass_mem_classLeaks, absentClass_mem_insnLeaks,
    List.mem_singleton, ClassTree.mem_mentions]
  constructor
  · rintro ⟨site, ⟨-, hc, habsent⟩ | ⟨-, hc, habsent⟩ | ⟨m, hm, -, hc, habsent⟩ |
      ⟨m, hm, insn, hinsn, -, hc, habsent⟩⟩
    · exact ⟨.inl hc, habsent⟩
    · exact ⟨.inr (.inl hc), habsent⟩
    · exact ⟨.inr (.inr (.inl ⟨m, hm, hc⟩)), habsent⟩
    · exact ⟨.inr (.inr (.inr ⟨insn, List.mem_flatMap.2 ⟨m, hm, hinsn⟩, hc⟩)), habsent⟩
  · rintro ⟨hc | hc | ⟨m, hm, hc⟩ | ⟨insn, hinsn, hc⟩, habsent⟩
    · exact ⟨_, .inl ⟨rfl, hc, habsent⟩⟩
    · exact ⟨_, .inr (.inl ⟨rfl, hc, habsent⟩)⟩
    · exact ⟨_, .inr (.inr (.inl ⟨m, hm, rfl, hc, habsent⟩))⟩
    · obtain ⟨m, hm, hinsn⟩ := List.mem_flatMap.1 hinsn
      exact ⟨_, .inr (.inr (.inr ⟨m, hm, insn, hinsn, rfl, hc, habsent⟩))⟩

/-- **A tree without leaks names no class of the index that the target lacks.** -/
theorem mem_versions_of_mem_mentions {merged : MergedClass} (h : i.leaks target t = [])
    (hc : c ∈ t.mentions) (hget : i.get? c = some merged) : target ∈ merged.versions := by
  by_contra habsent
  obtain ⟨site, hleak⟩ := absentClass_mem_leaks_iff.2 ⟨hc, merged, hget, habsent⟩
  rw [h] at hleak
  exact absurd hleak List.not_mem_nil

/-- What is said about absent classes says nothing about members. -/
theorem absentMember_not_mem_classLeaks {site site' : String} {cs : List ClassName}
    {version : Version} :
    Leak.absentMember site owner key version ∉ i.classLeaks target site' cs := by
  intro h
  obtain ⟨c, -, hc⟩ := List.mem_filterMap.1 h
  split at hc
  · split at hc
    · cases hc
    · cases hc
  · cases hc

/-- **A member is reported where an instruction uses it and it leaks.** -/
theorem absentMember_mem_leaks_iff :
    (∃ site, .absentMember site owner key target ∈ i.leaks target t) ↔
      ∃ use name desc, .member use owner name desc ∈ t.insns ∧ key = ⟨name, desc, use.kind⟩ ∧
        i.isMemberLeak target owner key = true := by
  simp only [mem_leaks_iff, mem_insnLeaks_iff, absentMember_not_mem_classLeaks, false_or,
    and_false, exists_false]
  constructor
  · rintro ⟨site, m, hm, insn, hinsn, use, owner', name, desc, rfl, hmember, hleak⟩
    obtain ⟨-, rfl, rfl, -⟩ := Leak.absentMember.inj hleak
    exact ⟨use, name, desc, List.mem_flatMap.2 ⟨m, hm, hinsn⟩, rfl, hmember⟩
  · rintro ⟨use, name, desc, hinsn, rfl, hmember⟩
    obtain ⟨m, hm, hinsn⟩ := List.mem_flatMap.1 hinsn
    exact ⟨_, m, hm, _, hinsn, use, owner, name, desc, rfl, hmember, rfl⟩

theorem check_eq_ok : i.check target t = .ok () ↔ i.leaks target t = [] := by
  rw [check]
  cases i.leaks target t with
  | nil => simp
  | cons leak leaks => simp

end MergedIndex

end ClassWeave
