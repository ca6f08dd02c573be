import ClassWeave.Directive.Basic
import ClassWeave.Stored.Error

/-!
# From directive notes to directives

Authors may leave parts of a pointer empty. On a member, an empty owner is the type of the member's
first parameter, which then stands for the receiver; where there is none, a replacement points into
its own class and a stub has no target. An empty name is the member's own. An empty descriptor is
derived from the member's. On a class or on an edge only a written owner counts.
-/

namespace ClassWeave

/-- Whether a written descriptor can only be that of a field. -/
def isFieldDesc (desc : String) : Bool := !desc.isEmpty && !Descriptor.isMethod desc

namespace RefNote

/-- The pointer exactly as it is written. -/
def asWritten (r : RefNote) (field : Bool) : Ref :=
  ⟨.ofText r.value, r.member, r.desc, field || isFieldDesc r.desc⟩

/-- The parameter types of a member, where it has any. -/
def parameters (m : Member) : List String :=
  if m.kind = .method then (Descriptor.parameterTypes m.desc).toOption.getD [] else []

/-- The owner of the pointer, and whether it is the receiver's class. -/
def owner? (cls : ClassName) (m : Member) (ownClass : Bool) (r : RefNote) :
    Option (ClassName × Bool) :=
  if r.value.isEmpty then
    match (parameters m).head?.bind Descriptor.objectType? with
    | some c => some (c, true)
    | none => if ownClass then some (cls, false) else none
  else some (.ofText r.value, false)

/-- The descriptor of the field that a getter or setter stands for: a getter returns its type, a
setter takes it last. -/
def accessedType (m : Member) : String :=
  match Descriptor.returnType m.desc with
  | .ok "V" => (parameters m).getLast?.getD ""
  | .ok ret => ret
  | .error _ => ""

/-- The descriptor of the pointer. -/
def descFor (m : Member) (isField receiver : Bool) (r : RefNote) : String :=
  if !r.desc.isEmpty then r.desc
  else if m.kind = .field then m.desc
  else if isField then accessedType m
  else if receiver then (Descriptor.withoutFirstParameter m.desc).toOption.getD ""
  else m.desc

/-- The pointer with its empty parts filled in, and whether its owner is the receiver's class. -/
def resolved? (cls : ClassName) (m : Member) (field ownClass : Bool) (r : RefNote) :
    Option (Ref × Bool) :=
  (r.owner? cls m ownClass).map fun (owner, receiver) ↦
    let isField := field || isFieldDesc r.desc
    let name := if r.member.isEmpty then m.name else r.member
    (⟨owner, name, r.descFor m isField receiver, isField⟩, receiver)

/-- The pointer of a directive on a member, or on a class or edge where `m` is `none`. -/
def target? (cls : ClassName) (m : Option Member) (field ownClass : Bool) (r : RefNote) :
    Option (Ref × Bool) :=
  match m with
  | some m => r.resolved? cls m field ownClass
  | none => if r.value.isEmpty then none else some (r.asWritten field, false)

end RefNote

namespace DirectiveNote

/-- A directive with a target that may be missing. -/
def aimed (kind : DirectiveKind) (versions : List Version) (target : Option (Ref × Bool)) :
    Directive :=
  ⟨kind, .ofList versions, target.map (·.1), target.any (·.2)⟩

/-- The directive that a note stands for, on a member or, where `m` is `none`, on a class or an
edge. -/
def read (cls : ClassName) (m : Option Member) : DirectiveNote → Except SchemaError Directive
  | remove versions => .ok (.remove versions)
  | replace versions target field =>
    .ok (aimed .replace versions (target.target? cls m field true))
  | stub versions target field => .ok (aimed .stub versions (target.target? cls m field false))
  | modify versions target field =>
    if target.value.isEmpty || target.member.isEmpty then
      .error (.missingRef cls ((m.map (·.name)).getD ""))
    else .ok (aimed .modify versions (some (target.asWritten field, false)))

end DirectiveNote

namespace ClassTree

/-- The directives on the members that have any. Of two members with the same key the later one
counts. -/
def memberDirectives (t : ClassTree) :
    Except SchemaError (OrderedMap MemberKey (List Directive)) := do
  let annotated := t.members.filter (!·.directives.isEmpty)
  let entries ← annotated.mapM fun m ↦ do
    return (m.key, ← m.directives.mapM (DirectiveNote.read t.name (some m)))
  return .ofList entries

/-- The directives that a tree carries. -/
def readDirectives (t : ClassTree) : Except SchemaError ClassDirectives := do
  let site := fun (notes : List DirectiveNote) ↦ notes.mapM (DirectiveNote.read t.name none)
  let cls ← site t.directives
  let superclass ← site t.superDirectives
  let interfaces ← t.interfaceDirectives.entries.mapM fun e ↦ do return (e.1, ← site e.2)
  let members ← t.memberDirectives
  return ⟨cls, superclass, .ofList interfaces, members⟩

end ClassTree

end ClassWeave
