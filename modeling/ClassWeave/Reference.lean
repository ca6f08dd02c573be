import ClassWeave.Directive.Basic
import ClassWeave.Merged.Basic

/-!
# What a pointer points to

A pointer is resolved in one version, against the class as that version declares it and under the
names that the author knows. Exactly one member must answer to it.
-/

namespace ClassWeave

/-- A class as a version declares it, where the class exists there. -/
abbrev ClassLookup := ClassName → Version → Option ClassView

inductive ResolveError where
  | unresolvedReference (reference : Ref) (version : Version)
  | ambiguousReference (reference : Ref) (version : Version) (candidates : List String)
  deriving DecidableEq, Repr

def ResolveError.message : ResolveError → String
  | unresolvedReference reference version =>
    reference.text ++ " does not exist in version " ++ version.id
  | ambiguousReference reference version candidates =>
    reference.text ++ " is ambiguous in version " ++ version.id ++ ": " ++
      Text.bracketed (candidates.map Text.quoted)

/-- The member that a pointer names in one version. -/
structure Binding where
  owner : ClassName
  name : String
  physicalName : String
  desc : String
  kind : MemberKind
  isStatic : Bool
  deriving DecidableEq, Repr

namespace Binding

/-- How a method is called: without a receiver, as a constructor, or on its receiver. -/
def invokeKind (isStatic : Bool) (name : String) : InvokeKind :=
  if isStatic then .static else if name = constructorName then .special else .virtual

/-- The instruction that reads or writes the bound field, or calls the bound method. -/
def accessInsn (b : Binding) (get : Bool) : Insn :=
  match b.kind with
  | .field => .member (.field (.ofParts get b.isStatic)) b.owner b.name b.desc
  | .method => .member (.invoke (invokeKind b.isStatic b.name)) b.owner b.name b.desc

end Binding

/-- Whether a member answers to a pointer. -/
def Ref.isAnsweredBy (r : Ref) (m : ViewMember) : Bool :=
  m.name = r.member && m.kind = r.kind && (r.desc.isEmpty || m.desc = r.desc)

/-- The one member that answers to a pointer in a version. -/
def Ref.resolve (r : Ref) (v : Version) (lookup : ClassLookup) : Except ResolveError Binding :=
  match lookup r.owner v with
  | none => .error (.unresolvedReference r v)
  | some view =>
    match view.members.filter r.isAnsweredBy with
    | [] => .error (.unresolvedReference r v)
    | [m] => .ok ⟨view.name, m.name, m.physicalName, m.desc, m.kind, m.isStatic⟩
    | ms => .error (.ambiguousReference r v (ms.map fun m ↦ m.name ++ " " ++ m.desc))

end ClassWeave
