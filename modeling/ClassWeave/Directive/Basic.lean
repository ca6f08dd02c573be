import ClassWeave.Tree.Basic

/-!
# Directives

A directive says what a split has to do at one site for some versions. Directives of one site are
tried in the order of their kinds; `applicable` puts those of a version into that order.
-/

namespace ClassWeave

/-- A pointer to a member; an empty descriptor stands for any. -/
structure Ref where
  owner : ClassName
  member : String
  desc : String
  isField : Bool
  deriving DecidableEq, Repr

namespace Ref

def kind (r : Ref) : MemberKind := if r.isField then .field else .method

def text (r : Ref) : String :=
  r.owner.text ++ "." ++ r.member ++
    (if r.desc.isEmpty then "" else (if r.isField then ":" else "") ++ r.desc)

end Ref

structure Directive where
  kind : DirectiveKind
  versions : VersionSet
  target : Option Ref
  /-- The owner of the target is the first parameter of the member, which therefore stands for the
  receiver of a call. -/
  receiver : Bool
  deriving DecidableEq

namespace Directive

def remove (versions : List Version) : Directive := ⟨.remove, .ofList versions, none, false⟩

def appliesTo (d : Directive) (v : Version) : Bool := v ∈ d.versions

end Directive

/-- The directives of a version, in the order of their kinds and within a kind as they stand. -/
def applicable (ds : List Directive) (v : Version) : List Directive :=
  (ds.filter (·.appliesTo v)).mergeSort fun a b ↦ a.kind.rank ≤ b.kind.rank

/-- The directives of a class, by the site that they stand on. -/
structure ClassDirectives where
  cls : List Directive := []
  superclass : List Directive := []
  interfaces : OrderedMap ClassName (List Directive) := .empty
  members : OrderedMap MemberKey (List Directive) := .empty
  deriving DecidableEq

namespace ClassDirectives

def forMember (ds : ClassDirectives) (k : MemberKey) : List Directive := (ds.members.get? k).getD []

def isEmpty (ds : ClassDirectives) : Bool :=
  ds.cls.isEmpty && ds.superclass.isEmpty && ds.interfaces.isEmpty && ds.members.isEmpty

end ClassDirectives

end ClassWeave
