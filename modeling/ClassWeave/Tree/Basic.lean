import ClassWeave.Tree.Note
import ClassWeave.Visibility

/-!
# Class trees

A class tree is one class as one version declares it, or the stored form of a merged class. A
member is addressed by its key; a look-up takes the first member of the key.
-/

namespace ClassWeave

structure Member where
  name : String
  desc : String
  kind : MemberKind
  isStatic : Bool := false
  /-- Made by a compiler, such as the bridge that a covariant override leaves behind. -/
  isSynthetic : Bool := false
  access : Visibility
  body : Option Body := none
  /-- The bodies of a merged member. -/
  versionBodies : OrderedMap Version Body := .empty
  /-- A physical name that the author chose. -/
  nameOverride : Option String := none
  merged : Option MemberNote := none
  directives : List DirectiveNote := []
  deriving DecidableEq

namespace Member

def key (m : Member) : MemberKey := ⟨m.name, m.desc, m.kind⟩

def isField (m : Member) : Bool := m.kind = .field

end Member

structure ClassTree where
  name : ClassName
  access : Visibility
  superclass : ClassName := .object
  interfaces : List ClassName := []
  members : List Member := []
  merged : Option ClassNote := none
  /-- Directives on the class itself. -/
  directives : List DirectiveNote := []
  /-- Directives on the edge to the superclass. -/
  superDirectives : List DirectiveNote := []
  /-- Directives on the edges to single interfaces. -/
  interfaceDirectives : OrderedMap ClassName (List DirectiveNote) := .empty
  deriving DecidableEq

namespace ClassTree

/-- The first member of a key. -/
def member? (t : ClassTree) (k : MemberKey) : Option Member := t.members.find? (·.key = k)

/-- The tree with its members in the order of their keys. -/
def normalized (t : ClassTree) : ClassTree :=
  { t with members := t.members.mergeSort fun a b ↦ (compare a.key b.key).isLE }

end ClassTree

end ClassWeave
