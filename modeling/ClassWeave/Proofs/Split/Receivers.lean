import ClassWeave.Directive.Reading
import ClassWeave.Link.Index
import ClassWeave.Proofs.Parameters
import ClassWeave.Proofs.Split.Precedence

/-!
# Pointers that take their owner from the receiver

An author who writes no owner on a pointer means the class of the member's first parameter: a static
method stands for a method of that class, and the first parameter for the receiver. The descriptor
that goes with it is the member's without that parameter (`RefNote.resolved?_of_receiver`). So an
instance call of the pointed-to method takes from the operand stack just what a call of the static
one takes, the receiver for the first parameter, and leaves there the same.

A replacement is chosen by the pointer alone, and the method that it binds may be static. The call
of such a method takes no receiver, and the one that the call site has put on the stack stays there.
All else is as it should be: what is recorded leaves the stack as the call site expects it exactly
if the bound method is an instance method of a class whose name has no dot
(`Projector.projectMember_of_receiver`).
-/

namespace ClassWeave

/-! ### The operand stack -/

/-- What a call takes from the operand stack, the deepest operand first, and what it leaves. -/
structure StackEffect where
  pops : List String
  pushes : Option String
  deriving DecidableEq, Repr

/-- What a method with a return type leaves on the stack. -/
def StackEffect.pushed (ret : String) : Option String := if ret = "V" then none else some ret

/-- The effect of a call. It takes the receiver, if there is one, and then the arguments. -/
def Insn.callEffect? : Insn → Option StackEffect
  | .member (.invoke kind) owner _ desc => do
    let params ← (Descriptor.parameterTypes desc).toOption
    let ret ← (Descriptor.returnType desc).toOption
    return ⟨if kind = .static then params else owner.descriptor :: params, StackEffect.pushed ret⟩
  | _ => none

theorem Insn.callEffect?_invoke (kind : InvokeKind) (owner : ClassName) (name : String)
    {desc ret : String} {params : List String}
    (hparams : Descriptor.parameterTypes desc = .ok params)
    (hret : Descriptor.returnType desc = .ok ret) :
    (member (.invoke kind) owner name desc).callEffect? = some
      ⟨if kind = .static then params else owner.descriptor :: params, StackEffect.pushed ret⟩ := by
  rw [callEffect?, hparams, hret]
  rfl

/-! ### Reading a pointer without an owner -/

/-- An object type is the descriptor of a class. Dots in it are read as slashes. -/
theorem Descriptor.exists_of_objectType? {type : String} {c : ClassName}
    (h : objectType? type = some c) :
    ∃ named : ClassName, type = named.descriptor ∧ c = .ofText named.text := by
  obtain ⟨cs, hcs, rfl⟩ := Option.map_eq_some_iff.1 h
  rw [objectName?.eq_def] at hcs
  split at hcs
  · rename_i r hr
    split at hcs
    · rename_i hlast
      cases hcs
      obtain ⟨front, rfl⟩ := List.getLast?_eq_some_iff.1 hlast
      refine ⟨⟨.ofList (front ++ [';']).dropLast⟩, ?_, rfl⟩
      rw [← String.toList_inj, hr, toList_descriptor, String.toList_ofList, List.dropLast_concat]
    · cases hcs
  · cases hcs

/-- The dots of a class name are what keeps its type from being that of the class as it is read. -/
theorem ClassName.descriptor_ofText_eq_iff {c : ClassName} :
    (ofText c.text).descriptor = c.descriptor ↔ c.DotFree := by
  constructor
  · intro h
    rw [← String.toList_inj, Descriptor.toList_descriptor, Descriptor.toList_descriptor,
      List.cons.injEq, List.append_cancel_right_eq, String.toList_inj] at h
    have hdots := dotFree_ofText c.text
    rwa [DotFree, h.2] at hdots
  · intro h
    rw [ofText_text h]

namespace RefNote

open Descriptor (parameterTypes returnType methodDesc objectType?)

variable {cls owner : ClassName} {m : Member} {r : RefNote} {ownClass : Bool} {first : String}
  {params : List String} {ret : String}

theorem parameters_eq (hkind : m.kind = .method) (hparams : parameterTypes m.desc = .ok params) :
    parameters m = params := by
  rw [parameters, if_pos hkind, hparams]
  rfl

/-- **A pointer without an owner points into the class of the first parameter**, to a method of the
other parameters with the same return type. -/
theorem resolved?_of_receiver (hkind : m.kind = .method) (hvalue : r.value = "")
    (hdesc : r.desc = "") (hparams : parameterTypes m.desc = .ok (first :: params))
    (hret : returnType m.desc = .ok ret) (hfirst : objectType? first = some owner) :
    r.resolved? cls m false ownClass = some
      (⟨owner, if r.member.isEmpty then m.name else r.member, methodDesc params ret, false⟩,
        true) := by
  have howner : r.owner? cls m ownClass = some (owner, true) := by
    rw [owner?, if_pos (String.isEmpty_iff.2 hvalue), parameters_eq hkind hparams, List.head?_cons,
      Option.bind_some, hfirst]
  have hwithout : r.descFor m false true = methodDesc params ret := by
    rw [descFor, hdesc, Descriptor.withoutFirstParameter_eq_ok hparams hret, hkind]
    rfl
  have hfield : isFieldDesc r.desc = false := by
    rw [hdesc]
    rfl
  rw [resolved?, howner, Option.map_some, hfield, Bool.or_false]
  dsimp only
  rw [hwithout]

/-- A pointer that takes its owner from the receiver is one on a method whose first parameter is an
object. -/
theorem exists_of_receiver {ref : Ref} (h : r.resolved? cls m false ownClass = some (ref, true)) :
    ∃ first params owner, m.kind = .method ∧ parameterTypes m.desc = .ok (first :: params) ∧
      objectType? first = some owner := by
  obtain ⟨⟨c, receiver⟩, howner, heq⟩ := Option.map_eq_some_iff.1 h
  obtain ⟨-, rfl⟩ := Prod.mk.inj heq
  rw [owner?] at howner
  split at howner
  · split at howner
    · rename_i c' hfirst
      obtain ⟨first, hhead, hfirst⟩ := Option.bind_eq_some_iff.1 hfirst
      rw [parameters] at hhead
      split at hhead
      · rename_i hkind
        cases hparams : parameterTypes m.desc with
        | error e =>
          rw [hparams] at hhead
          cases hhead
        | ok types =>
          rw [hparams] at hhead
          obtain ⟨params, rfl⟩ := List.head?_eq_some_iff.1 hhead
          exact ⟨first, params, c', hkind, rfl, hfirst⟩
      · cases hhead
    · split at howner
      · cases howner
      · cases howner
  · cases howner

end RefNote

/-- The pointer of a replacement that takes its owner from the receiver, and neither writes a
descriptor. -/
theorem DirectiveNote.target_of_receiver {cls : ClassName} {m : Member} {ref : RefNote}
    {versions : List Version} {d : Directive}
    (hread : DirectiveNote.read cls (some m) (.replace versions ref false) = .ok d)
    (hvalue : ref.value = "") (hdesc : ref.desc = "") (hreceiver : d.receiver = true) :
    ∃ (first : ClassName) (params : List String) (ret : String), m.kind = .method ∧
      Descriptor.parameterTypes m.desc = .ok (first.descriptor :: params) ∧
      Descriptor.returnType m.desc = .ok ret ∧
      d.target = some ⟨.ofText first.text, if ref.member.isEmpty then m.name else ref.member,
        Descriptor.methodDesc params ret, false⟩ := by
  cases hread
  obtain ⟨⟨r, receiver⟩, hresolved, rfl⟩ := (Option.any_eq_true _ _).1 hreceiver
  obtain ⟨type, params, owner, hkind, hparams, htype⟩ := RefNote.exists_of_receiver hresolved
  obtain ⟨first, rfl, rfl⟩ := Descriptor.exists_of_objectType? htype
  obtain ⟨ret, hret, -⟩ := Descriptor.exists_methodDesc hparams
  refine ⟨first, params, ret, hkind, hparams, hret, ?_⟩
  show (ref.resolved? cls m false true).map (·.1) = _
  rw [RefNote.resolved?_of_receiver hkind hvalue hdesc hparams hret htype, Option.map_some]

/-! ### What a replacement binds -/

/-- A look-up that gives each class under its own name. -/
def ClassLookup.Faithful (lookup : ClassLookup) : Prop :=
  ∀ ⦃c v view⦄, lookup c v = some view → view.name = c

namespace MergedIndex

/-- An index that holds each class under its own name. -/
def Named (i : MergedIndex) : Prop := ∀ ⦃owner c⦄, i.get? owner = some c → c.name = owner

theorem named_insert {i : MergedIndex} (hi : i.Named) (c : MergedClass) : (i.insert c).Named := by
  intro owner c' h
  rw [get?, insert, OrderedMap.get?_insert] at h
  split at h
  · rename_i howner
    cases h
    exact howner.symm
  · exact hi h

theorem named_ofList (cs : List MergedClass) : (ofList cs).Named :=
  List.foldlRecOn cs insert (fun _ _ h ↦ nomatch h) fun _ hi c _ ↦ named_insert hi c

theorem Named.faithful {i : MergedIndex} (hi : i.Named) : i.view?.Faithful := by
  intro owner v view h
  obtain ⟨c, hget, hview⟩ := Option.bind_eq_some_iff.1 h
  rw [MergedClass.view?] at hview
  split at hview
  · cases hview
    exact hi hget
  · cases hview

end MergedIndex

/-- What a pointer binds answers to it. -/
theorem Ref.exists_of_resolve {r : Ref} {v : Version} {lookup : ClassLookup} {b : Binding}
    (h : r.resolve v lookup = .ok b) : ∃ view, lookup r.owner v = some view ∧ b.owner = view.name ∧
      b.kind = r.kind ∧ (r.desc ≠ "" → b.desc = r.desc) := by
  rw [resolve] at h
  split at h
  · cases h
  · rename_i view hview
    split at h
    · cases h
    · rename_i m hm
      cases h
      have hanswers : r.isAnsweredBy m = true :=
        (List.mem_filter.1 (hm ▸ List.mem_singleton_self m)).2
      simp only [isAnsweredBy, Bool.and_eq_true, Bool.or_eq_true, decide_eq_true_iff,
        String.isEmpty_iff] at hanswers
      exact ⟨view, hview, rfl, hanswers.1.2, fun hne ↦ hanswers.2.resolve_left hne⟩
    · cases h

theorem Binding.invokeKind_eq_static_iff {isStatic : Bool} {name : String} :
    invokeKind isStatic name = .static ↔ isStatic = true := by
  rw [invokeKind]
  cases isStatic with
  | true => simp
  | false =>
    rw [if_neg Bool.false_ne_true]
    split <;> simp

/-- A method that is replaced by a method is replaced by a call. -/
theorem MergedMember.replacements_of_method {m : MergedMember} {b : Binding}
    (hkind : m.kind = .method) (hbound : b.kind = .method) (cls : ClassName) :
    m.replacements cls b = [⟨⟨cls, m.declaredName, m.desc, .call⟩,
      .member (.invoke (Binding.invokeKind b.isStatic b.name)) b.owner b.name b.desc⟩] := by
  rw [replacements_eq, accesses, hkind, List.map_singleton, Binding.accessInsn, hbound]
  rfl

namespace Projector

open Descriptor (parameterTypes returnType)

variable {p : Projector} {c : MergedClass} {b : MergedMember} {m : Member} {ref : RefNote}
  {versions : List Version} {ds earlier later : List Directive} {d : Directive} {bound : Binding}
  {ws : List SplitWarning} {target : Version}

/-- **A replacement by the receiver's method leaves the stack as its call sites expect it exactly if
the method that it binds is an instance method**, and the name of its class has no dot. What is
recorded pops the parameters of the replaced member but for the first one, with the receiver below
them unless the bound method is static, and pushes what the member returns. -/
theorem projectMember_of_receiver (hlookup : p.lookup.Faithful) (hkey : b.key = m.key)
    (hread : DirectiveNote.read c.name (some m) (.replace versions ref false) = .ok d)
    (hvalue : ref.value = "") (hdesc : ref.desc = "") (hreceiver : d.receiver = true)
    (hremove : applicableOfKind ds target .remove = [])
    (hreplace : applicableOfKind ds target .replace = earlier ++ d :: later)
    (hearlier : List.Forall₂ (p.Fails c b target) earlier ws) (hd : p.BindsTo target d bound) :
    ∃ (first : ClassName) (params : List String) (ret : String) (replacement : Insn),
      parameterTypes m.desc = .ok (first.descriptor :: params) ∧ returnType m.desc = .ok ret ∧
      p.projectMember c ds target b =
        ⟨none, [⟨⟨c.name, b.declaredName, m.desc, .call⟩, replacement⟩], ws⟩ ∧
      replacement.callEffect? = some
        ⟨if bound.isStatic then params else (ClassName.ofText first.text).descriptor :: params,
          StackEffect.pushed ret⟩ ∧
      (replacement.callEffect? = some ⟨first.descriptor :: params, StackEffect.pushed ret⟩ ↔
        bound.isStatic = false ∧ first.DotFree) := by
  obtain ⟨-, hdesc', hkind'⟩ := MemberKey.mk.inj hkey
  obtain ⟨first, params, ret, hkind, hparams, hret, htarget⟩ :=
    DirectiveNote.target_of_receiver hread hvalue hdesc hreceiver
  have hproject := (Decides.replaced hremove hreplace hearlier hd).projectMember_eq
  -- the method that is bound has the descriptor of the pointer, on the class of the receiver
  obtain ⟨r, hr, hresolve⟩ := hd
  obtain rfl := Option.some.inj (htarget.symm.trans hr)
  obtain ⟨view, hview, howner, hboundKind, hboundDesc⟩ := Ref.exists_of_resolve hresolve
  have howner : bound.owner = .ofText first.text := howner.trans (hlookup hview)
  have hboundDesc := hboundDesc (Descriptor.methodDesc_ne_empty params ret)
  have hboundKind : bound.kind = .method := hboundKind
  obtain ⟨hparams', hret'⟩ := Descriptor.parameterTypes_methodDesc hparams
    (List.sublist_cons_self first.descriptor params) ret
  have hreplacements := MergedMember.replacements_of_method (hkind'.trans hkind) hboundKind c.name
  rw [howner, hboundDesc, hdesc'] at hreplacements
  have heffect := Insn.callEffect?_invoke (Binding.invokeKind bound.isStatic bound.name)
    (.ofText first.text) bound.name hparams' hret'
  simp only [Binding.invokeKind_eq_static_iff] at heffect
  refine ⟨first, params, ret, _, hparams, hret, hreplacements ▸ hproject, heffect, ?_⟩
  rw [heffect, Option.some_inj, StackEffect.mk.injEq, eq_self, and_true]
  cases bound.isStatic with
  | true => simp
  | false => simp [ClassName.descriptor_ofText_eq_iff]

/-- A method that stands for `size` of its parameter's class. -/
def sizeOf : Member where
  name := "size"
  desc := "(Lx/A;)I"
  kind := .method
  isStatic := true
  access := .publicAccess
  directives := [.replace [⟨"a"⟩] {} false]

def sizeReplacement : Directive :=
  ⟨.replace, .ofList [⟨"a"⟩], some ⟨⟨"x/A"⟩, "size", "()I", false⟩, true⟩

def sizeCompat : ClassTree where
  name := ⟨"x/Compat"⟩
  access := .publicAccess
  members := [sizeOf]

/-- The projector of a target in which `x/A` has a method `size`, static or not. -/
def sizeProjector (isStatic : Bool) : Projector where
  hooks := .empty
  lookup := (MergedIndex.ofList [.universal
    { name := ⟨"x/A"⟩, access := .publicAccess
      members := [{ name := "size", desc := "()I", kind := .method, isStatic
                    access := .publicAccess }] } (.ofList [⟨"a"⟩])]).view?

/-- The call that takes the place of one of `sizeOf`. -/
def sizeCall (kind : InvokeKind) : Insn := .member (.invoke kind) ⟨"x/A"⟩ "size" "()I"

theorem projectMember_of_receiver_sized :
    ∃ replacement, (sizeProjector false).projectMember (.universal sizeCompat (.ofList [⟨"a"⟩]))
        [sizeReplacement] ⟨"a"⟩ (.universal (.ofList [⟨"a"⟩]) sizeOf) =
          ⟨none, [⟨⟨⟨"x/Compat"⟩, "size", "(Lx/A;)I", .call⟩, replacement⟩], []⟩ ∧
      replacement.callEffect? = some ⟨["Lx/A;"], some "I"⟩ := by
  have hread : DirectiveNote.read ⟨"x/Compat"⟩ (some sizeOf) (.replace [⟨"a"⟩] {} false) =
      .ok sizeReplacement := by decide +kernel
  have hremove : applicableOfKind [sizeReplacement] ⟨"a"⟩ .remove = [] := rfl
  have hreplace : applicableOfKind [sizeReplacement] ⟨"a"⟩ .replace = [] ++ [sizeReplacement] := rfl
  have hbinds : (sizeProjector false).BindsTo ⟨"a"⟩ sizeReplacement
      ⟨⟨"x/A"⟩, "size", "size", "()I", .method, false⟩ := ⟨_, rfl, by decide +kernel⟩
  obtain ⟨first, params, ret, replacement, hparams, hret, hproject, -, heffect⟩ :=
    projectMember_of_receiver (c := .universal sizeCompat (.ofList [⟨"a"⟩]))
      (b := .universal (.ofList [⟨"a"⟩]) sizeOf) (MergedIndex.named_ofList _).faithful rfl hread rfl
      rfl rfl hremove hreplace .nil hbinds
  have htypes : parameterTypes sizeOf.desc = .ok ["Lx/A;"] := by decide +kernel
  have hint : returnType sizeOf.desc = .ok "I" := by decide +kernel
  obtain ⟨hfirst, rfl⟩ := List.cons.inj (Except.ok.inj (hparams.symm.trans htypes))
  obtain rfl := Except.ok.inj (hret.symm.trans hint)
  have hdots : first.DotFree := fun hdot ↦ by
    have hmem : '.' ∈ first.descriptor.toList := by
      rw [Descriptor.toList_descriptor]
      exact List.mem_cons_of_mem _ (List.mem_append_left _ hdot)
    rw [hfirst] at hmem
    exact absurd hmem (by decide)
  refine ⟨replacement, hproject, ?_⟩
  rw [heffect.2 ⟨rfl, hdots⟩, hfirst]
  rfl

/-- **A static method takes no receiver**, and the one that the call site has put on the stack stays
there. -/
theorem receiver_left_sized :
    sizeCompat.readDirectives = .ok { members := .ofList [(sizeOf.key, [sizeReplacement])] } ∧
      (sizeProjector true).project (.universal sizeCompat (.ofList [⟨"a"⟩]))
        { members := .ofList [(sizeOf.key, [sizeReplacement])] } ⟨"a"⟩ = .ok (.projected
          { tree := { sizeCompat with members := [] }
            redirects := [⟨⟨⟨"x/Compat"⟩, "size", "(Lx/A;)I", .call⟩, sizeCall .static⟩]
            typeRemaps := [], warnings := [] }) ∧
      (sizeCall .static).callEffect? = some ⟨[], some "I"⟩ ∧
      (Insn.member (.invoke .static) ⟨"x/Compat"⟩ "size" "(Lx/A;)I").callEffect? =
        some ⟨["Lx/A;"], some "I"⟩ := by
  decide +kernel

end Projector

end ClassWeave
