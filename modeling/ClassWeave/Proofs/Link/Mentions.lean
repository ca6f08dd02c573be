import ClassWeave.Proofs.Link.Leaks
import ClassWeave.Proofs.Link.Renaming

/-!
# Which mentions the verifier sees

A class is named by itself, within a descriptor, or as the elements of an array type, which may
stand where a class is named by itself. The verifier reads an array type among the operands of the
instructions, but it looks up superclasses, interfaces and owners as they are written. So an array
type in such a place hides its class, and nothing else does: of the classes that a target lacks,
exactly those are reported that are named in another way as well (`misses_only_bare_arrays`). An
owner can well be an array type, since arrays have a `clone` of their own (`missed_array_owner`).

The bodies that a merged member keeps for its versions are no part of a tree that is verified.
-/

namespace ClassWeave

open Descriptor (FieldType Signature TypeName)

/-! ### What is named -/

/-- The name is the descriptor of an array type, of any depth, whose elements are of the class. -/
def ClassName.IsArrayOf (a c : ClassName) : Prop :=
  ∃ element : FieldType, element.WellFormed ∧ a.text = (TypeName.array element).text ∧
    element.cls? = some c

/-- An array type of a class names that class, any other name itself. -/
inductive ClassName.Names (a : ClassName) : ClassName → Prop
  | self (h : ∀ c, ¬ a.IsArrayOf c) : a.Names a
  | element {c : ClassName} (h : a.IsArrayOf c) : a.Names c

/-- A class of the signature of a descriptor. -/
def Descriptor.Names (desc : String) (c : ClassName) : Prop :=
  ∃ s : Signature, s.WellFormed ∧ desc = s.text ∧ c ∈ s.classes

/-- Where a tree can name a class. -/
inductive ClassTree.Place
  | superclass
  | interface
  | signature
  | operand
  | owner
  /-- The descriptor of a member that an instruction uses. -/
  | descriptor
  /-- An array type in the place of a superclass, an interface or an owner. -/
  | bareArray
  deriving DecidableEq, Repr

/-- The owners of the members that the instructions of a tree use. -/
def ClassTree.owners (t : ClassTree) : List ClassName := t.insns.filterMap Insn.owner?

/-- A tree names a class in a place. -/
inductive ClassTree.NamesAt (t : ClassTree) (c : ClassName) : Place → Prop
  | superclass (h : c = t.superclass) : NamesAt t c .superclass
  | interface (h : c ∈ t.interfaces) : NamesAt t c .interface
  | signature {m : Member} (hm : m ∈ t.members) (h : Descriptor.Names m.desc c) :
      NamesAt t c .signature
  | operand {use : TypeUse} {cls : ClassName} (hinsn : .type use cls ∈ t.insns)
      (h : cls.Names c) : NamesAt t c .operand
  | owner (h : c ∈ t.owners) : NamesAt t c .owner
  | descriptor {use : MemberUse} {owner : ClassName} {name desc : String}
      (hinsn : .member use owner name desc ∈ t.insns) (h : Descriptor.Names desc c) :
      NamesAt t c .descriptor
  | bareArray {a : ClassName} (ha : a ∈ t.superclass :: (t.interfaces ++ t.owners))
      (h : a.IsArrayOf c) : NamesAt t c .bareArray

variable {t : ClassTree} {a c : ClassName} {desc : String}

/-! ### What is read -/

/-- Reading an array type of a class gives that class. -/
theorem ClassName.IsArrayOf.elementClass? (h : a.IsArrayOf c) :
    Descriptor.elementClass? a.text = some c := by
  obtain ⟨element, helement, htext, hcls⟩ := h
  have harray : (FieldType.array element).WellFormed := helement
  rw [htext, TypeName.text, Descriptor.elementClass?_fieldType harray]
  exact hcls

/-- **An operand is read as what it names.** -/
theorem ClassName.IsTypeName.names_iff (h : a.IsTypeName) :
    a.Names c ↔ c = (Descriptor.elementClass? a.text).getD a := by
  cases hread : Descriptor.elementClass? a.text with
  | none =>
    have hself : ∀ d, ¬ a.IsArrayOf d := fun d harray ↦ by
      rw [harray.elementClass?] at hread
      cases hread
    constructor
    · rintro (_ | harray)
      · rfl
      · exact absurd harray (hself c)
    · rintro rfl
      exact .self hself
  | some d =>
    have harray : a.IsArrayOf d := by
      obtain ⟨n, hn, htext⟩ := h
      rw [htext] at hread
      cases n with
      | cls b =>
        rw [TypeName.text, Descriptor.elementClass?_text hn.1] at hread
        cases hread
      | array element =>
        have harray : (FieldType.array element).WellFormed := hn
        rw [TypeName.text, Descriptor.elementClass?_fieldType harray] at hread
        exact ⟨element, hn, htext, hread⟩
    constructor
    · rintro (hself | hother)
      · exact absurd harray (hself d)
      · rw [hother.elementClass?] at hread
        exact Option.some.inj hread
    · rintro rfl
      exact .element harray

/-- **A descriptor is read as what it names.** -/
theorem Descriptor.IsWellFormed.names_iff (h : Descriptor.IsWellFormed desc) :
    Descriptor.Names desc c ↔ c ∈ Descriptor.referencedClasses desc := by
  constructor
  · rintro ⟨s, hs, rfl, hc⟩
    rwa [Descriptor.referencedClasses_text hs]
  · intro hc
    obtain ⟨s, hs, rfl⟩ := h
    rw [Descriptor.referencedClasses_text hs] at hc
    exact ⟨s, hs, rfl, hc⟩

theorem ClassTree.mem_owners : c ∈ t.owners ↔
    ∃ use name desc, .member use c name desc ∈ t.insns := by
  rw [owners, List.mem_filterMap]
  constructor
  · rintro ⟨insn, hinsn, howner⟩
    cases insn with
    | member use owner name desc =>
      obtain rfl : owner = c := Option.some.inj howner
      exact ⟨use, name, desc, hinsn⟩
    | type use cls => cases howner
    | raw text => cases howner
  · rintro ⟨use, name, desc, hinsn⟩
    exact ⟨_, hinsn, rfl⟩

/-- **The classes that are looked up are the ones named anywhere but in a bare array.** -/
theorem ClassTree.mem_mentions_iff (ht : t.DescriptorsWellFormed) :
    c ∈ t.mentions ↔ ∃ p, p ≠ .bareArray ∧ t.NamesAt c p := by
  rw [mem_mentions]
  constructor
  · rintro (hc | hc | ⟨m, hm, hc⟩ | ⟨insn, hinsn, hc⟩)
    · exact ⟨.superclass, by decide, .superclass hc⟩
    · exact ⟨.interface, by decide, .interface hc⟩
    · exact ⟨.signature, by decide, .signature hm ((ht.signatures m hm).names_iff.2 hc)⟩
    · have hwell := ht.insns insn hinsn
      cases insn with
      | member use owner name desc =>
        rcases List.mem_cons.1 hc with rfl | hc
        · exact ⟨.owner, by decide, .owner (mem_owners.2 ⟨use, name, desc, hinsn⟩)⟩
        · have hwell : Descriptor.IsWellFormed desc := hwell
          exact ⟨.descriptor, by decide, .descriptor hinsn (hwell.names_iff.2 hc)⟩
      | type use cls =>
        have hwell : cls.IsTypeName := hwell
        exact ⟨.operand, by decide, .operand hinsn (hwell.names_iff.2 (List.mem_singleton.1 hc))⟩
      | raw text => exact absurd hc List.not_mem_nil
  · rintro ⟨p, hp, hnames⟩
    cases hnames with
    | superclass hc => exact .inl hc
    | interface hc => exact .inr (.inl hc)
    | signature hm hc => exact .inr (.inr (.inl ⟨_, hm, (ht.signatures _ hm).names_iff.1 hc⟩))
    | operand hinsn hc =>
      have hwell : ClassName.IsTypeName _ := ht.insns _ hinsn
      exact .inr (.inr (.inr ⟨_, hinsn, List.mem_singleton.2 (hwell.names_iff.1 hc)⟩))
    | owner hc =>
      obtain ⟨use, name, desc, hinsn⟩ := mem_owners.1 hc
      exact .inr (.inr (.inr ⟨_, hinsn, List.mem_cons_self⟩))
    | descriptor hinsn hc =>
      have hwell : Descriptor.IsWellFormed _ := ht.insns _ hinsn
      exact .inr (.inr (.inr ⟨_, hinsn, List.mem_cons_of_mem _ (hwell.names_iff.1 hc)⟩))
    | bareArray ha hc => exact absurd rfl hp

namespace MergedIndex

variable {i : MergedIndex} {target : Version}

/-- **The verifier misses only bare arrays.** A class that the target lacks is reported exactly if
the tree names it in another way as well. -/
theorem misses_only_bare_arrays (ht : t.DescriptorsWellFormed) (hc : i.Lacks target c) :
    ((∃ site, .absentClass site c target ∈ i.leaks target t) ↔
      ∃ p, p ≠ .bareArray ∧ t.NamesAt c p) ∧
    (i.leaks target t = [] → ∀ p, t.NamesAt c p → p = .bareArray) := by
  have hreported : (∃ site, .absentClass site c target ∈ i.leaks target t) ↔
      ∃ p, p ≠ .bareArray ∧ t.NamesAt c p := by
    rw [absentClass_mem_leaks_iff, and_iff_left hc, ClassTree.mem_mentions_iff ht]
  refine ⟨hreported, fun hnone p hp ↦ ?_⟩
  by_contra hother
  obtain ⟨site, hleak⟩ := hreported.2 ⟨p, hother, hp⟩
  rw [hnone] at hleak
  exact absurd hleak List.not_mem_nil

/-- An index with a class of version `b`. -/
def goneIndex : MergedIndex :=
  .ofList [.universal { name := ⟨"x/Gone"⟩, access := .publicAccess } (.ofList [⟨"b"⟩])]

/-- A method that clones an array of `x/Gone` and goes on with what it has cloned. -/
def cloneTree (insns : List Insn) : ClassTree where
  name := ⟨"x/User"⟩
  access := .publicAccess
  members := [{ name := "copy", desc := "()V", kind := .method, access := .publicAccess
                body := some (.code 1
                  (.member (.invoke .virtual) ⟨"[Lx/Gone;"⟩ "clone" "()Ljava/lang/Object;" ::
                    insns)) }]

theorem descriptorsWellFormed_cloneTree {insns : List Insn}
    (h : ∀ insn ∈ insns, insn.DescriptorWellFormed) :
    (cloneTree insns).DescriptorsWellFormed where
  signatures := List.forall_mem_singleton.2 ⟨.method [] none, by decide, rfl⟩
  insns := by
    rintro insn hinsn
    rcases List.mem_cons.1 (List.mem_append.1 hinsn |>.resolve_right List.not_mem_nil) with
      rfl | hinsn
    · exact ⟨.method [] (some (.object .object)), by decide, by decide⟩
    · exact h insn hinsn

theorem lacks_goneIndex : goneIndex.Lacks ⟨"a"⟩ ⟨"x/Gone"⟩ :=
  ⟨.universal { name := ⟨"x/Gone"⟩, access := .publicAccess } (.ofList [⟨"b"⟩]), rfl, by decide⟩

/-- A cast to arrays of the class is reported, although the owner before it is not. -/
theorem misses_only_bare_arrays_castClone :
    (cloneTree [.type .checkCast ⟨"[[Lx/Gone;"⟩]).DescriptorsWellFormed ∧
      goneIndex.Lacks ⟨"a"⟩ ⟨"x/Gone"⟩ ∧
      (cloneTree [.type .checkCast ⟨"[[Lx/Gone;"⟩]).NamesAt ⟨"x/Gone"⟩ .operand ∧
      ∃ site, .absentClass site ⟨"x/Gone"⟩ ⟨"a"⟩ ∈
        goneIndex.leaks ⟨"a"⟩ (cloneTree [.type .checkCast ⟨"[[Lx/Gone;"⟩]) := by
  have hwell : (cloneTree [.type .checkCast ⟨"[[Lx/Gone;"⟩]).DescriptorsWellFormed :=
    descriptorsWellFormed_cloneTree <| List.forall_mem_singleton.2
      ⟨.array (.array (.object ⟨"x/Gone"⟩)), by decide, by decide⟩
  have hnamed : (cloneTree [.type .checkCast ⟨"[[Lx/Gone;"⟩]).NamesAt ⟨"x/Gone"⟩ .operand :=
    .operand (List.mem_cons_of_mem _ List.mem_cons_self)
      (.element ⟨.array (.object ⟨"x/Gone"⟩), by decide, by decide, rfl⟩)
  exact ⟨hwell, lacks_goneIndex, hnamed,
    (misses_only_bare_arrays hwell lacks_goneIndex).1.2 ⟨.operand, by decide, hnamed⟩⟩

/-- An array type as an owner is not reported. -/
theorem missed_array_owner :
    (cloneTree []).DescriptorsWellFormed ∧ goneIndex.Lacks ⟨"a"⟩ ⟨"x/Gone"⟩ ∧
      goneIndex.leaks ⟨"a"⟩ (cloneTree []) = [] ∧
      (⟨"[Lx/Gone;"⟩ ∈ (cloneTree []).owners ∧ ClassName.Names ⟨"[Lx/Gone;"⟩ ⟨"x/Gone"⟩) ∧
      (cloneTree []).NamesAt ⟨"x/Gone"⟩ .bareArray := by
  have harray : ClassName.IsArrayOf ⟨"[Lx/Gone;"⟩ ⟨"x/Gone"⟩ :=
    ⟨.object ⟨"x/Gone"⟩, by decide, by decide, rfl⟩
  have howner : ⟨"[Lx/Gone;"⟩ ∈ (cloneTree []).owners := List.mem_cons_self
  exact ⟨descriptorsWellFormed_cloneTree (List.forall_mem_nil _), lacks_goneIndex,
    by decide +kernel, ⟨howner, .element harray⟩,
    .bareArray (List.mem_cons_of_mem _ (List.mem_append_right _ howner)) harray⟩

end MergedIndex

end ClassWeave
