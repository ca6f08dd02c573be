import ClassWeave.Merged.Name
import ClassWeave.Tree.Basic

/-!
# Merged classes

A merged class is one physical class that carries the members of every version. What differs
between versions stands in tables: a physical value together with the versions that have another
one. `MergedClass.view?` reads off what one version declared, under the declared names.
-/

namespace ClassWeave

/-- A physical value and the values of the versions that differ from it. -/
structure Versioned (α : Type) where
  physical : α
  overrides : OrderedMap Version α
  deriving DecidableEq

namespace Versioned

variable {α : Type}

/-- The table in which every version has the physical value. -/
def uniform (a : α) : Versioned α := ⟨a, .empty⟩

def forVersion (t : Versioned α) (v : Version) : α := (t.overrides.get? v).getD t.physical

end Versioned

structure Inheritance where
  superclass : ClassName
  interfaces : List ClassName
  deriving DecidableEq, Repr

def ClassTree.inheritance (t : ClassTree) : Inheritance := ⟨t.superclass, t.interfaces⟩

structure MergedMember where
  /-- The name in the merged class. -/
  physicalName : String
  /-- The name in the versions that declare the member. -/
  declaredName : String
  declaredVersions : VersionSet
  /-- Added by the merge. -/
  synthetic : Bool
  /-- Made by a compiler in every version that declares the member. -/
  compilerGenerated : Bool
  kind : MemberKind
  desc : String
  isStatic : Bool
  access : Versioned Visibility
  bodies : OrderedMap Version Body
  deriving DecidableEq

namespace MergedMember

def isField (m : MergedMember) : Bool := m.kind = .field

/-- The key inside the merged class. -/
def key (m : MergedMember) : MemberKey := ⟨m.physicalName, m.desc, m.kind⟩

/-- The key in the versions that declare the member. -/
def declaredKey (m : MergedMember) : MemberKey := ⟨m.declaredName, m.desc, m.kind⟩

def isMangled (m : MergedMember) : Bool := m.physicalName ≠ m.declaredName

def inVersion (m : MergedMember) (v : Version) : Bool := v ∈ m.declaredVersions

def isBridge (m : MergedMember) : Bool := m.synthetic && hasBridgeName m.physicalName

/-- A member that is declared, unchanged, in every one of the given versions. -/
def universal (versions : VersionSet) (m : Member) : MergedMember where
  physicalName := m.name
  declaredName := m.name
  declaredVersions := versions
  synthetic := false
  compilerGenerated := m.isSynthetic
  kind := m.kind
  desc := m.desc
  isStatic := m.isStatic
  access := .uniform m.access
  bodies := match m.body with
    | some body => .ofList (versions.toList.map (·, body))
    | none => .empty

end MergedMember

structure MergedClass where
  name : ClassName
  versions : VersionSet
  access : Versioned Visibility
  inheritance : Versioned Inheritance
  members : List MergedMember
  deriving DecidableEq

/-- A member as one version declares it. -/
structure ViewMember where
  name : String
  physicalName : String
  desc : String
  kind : MemberKind
  isStatic : Bool
  access : Visibility
  deriving DecidableEq, Repr

/-- A class as one version declares it. -/
structure ClassView where
  name : ClassName
  version : Version
  access : Visibility
  superclass : ClassName
  interfaces : List ClassName
  members : List ViewMember
  deriving DecidableEq, Repr

namespace MergedClass

/-- A plain tree, taken as present and unchanged in every one of the given versions. -/
def universal (t : ClassTree) (versions : VersionSet) : MergedClass where
  name := t.name
  versions := versions
  access := .uniform t.access
  inheritance := .uniform t.inheritance
  members := t.members.map (MergedMember.universal versions)

/-- The first member of a physical key. -/
def member? (c : MergedClass) (k : MemberKey) : Option MergedMember := c.members.find? (·.key = k)

/-- The members of a declared key, over all versions. -/
def declared (c : MergedClass) (k : MemberKey) : List MergedMember :=
  c.members.filter (·.declaredKey = k)

def bridges (c : MergedClass) : List MergedMember := c.members.filter (·.isBridge)

/-- The superclass that a version gives the class. -/
def superclassIn (c : MergedClass) (v : Version) : ClassName :=
  (c.inheritance.forVersion v).superclass

/-- What a version declared; `none` where the class does not exist. -/
def view? (c : MergedClass) (v : Version) : Option ClassView :=
  if v ∈ c.versions then
    some
      { name := c.name
        version := v
        access := c.access.forVersion v
        superclass := (c.inheritance.forVersion v).superclass
        interfaces := (c.inheritance.forVersion v).interfaces
        members := (c.members.filter (·.inVersion v)).map fun m ↦
          ⟨m.declaredName, m.physicalName, m.desc, m.kind, m.isStatic, m.access.forVersion v⟩ }
  else none

end MergedClass

end ClassWeave
