import ClassWeave.Log
import ClassWeave.Merged.Basic
import ClassWeave.Merge.Error

/-!
# Which declarations become one member

Declarations of several versions with the same name, descriptor, kind and static flag become one
member; one version contributes one declaration to it at most, so that a key which a version
declares twice has two members. Two members that the source language would not allow side by side,
but that never meet in one version, are mangled, as are the members of a repeated key. A name that
an author chose wins over both.
-/

namespace ClassWeave

/-- What the declarations of one member have in common. -/
structure GroupKey where
  name : String
  desc : String
  kind : MemberKind
  isStatic : Bool
  deriving DecidableEq, Repr

def Member.groupKey (m : Member) : GroupKey := ⟨m.name, m.desc, m.kind, m.isStatic⟩

/-- The declarations of one member, in the order of the input. -/
structure MemberGroup where
  key : GroupKey
  decls : List (Version × Member)

namespace MemberGroup

def versions (g : MemberGroup) : List Version := g.decls.map (·.1)

def versionSet (g : MemberGroup) : VersionSet := .ofList g.versions

/-- Made by a compiler in every version. -/
def isSynthetic (g : MemberGroup) : Bool := g.decls.all (·.2.isSynthetic)

/-- The names that authors chose for the member, with their versions. -/
def overrides (g : MemberGroup) : List (Version × String) :=
  g.decls.filterMap fun d ↦ d.2.nameOverride.map (d.1, ·)

def nameOverride? (g : MemberGroup) : Option String := g.overrides.head?.map (·.2)

/-- What two members of one class may not share at source level. -/
def sourceIdentity (g : MemberGroup) : String × String × MemberKind :=
  match g.key.kind with
  | .method => (g.key.name, Descriptor.parameterPart g.key.desc, .method)
  | .field => (g.key.name, "", .field)

def isDisjoint (g h : MemberGroup) : Bool := g.versions.all fun v ↦ !h.versions.contains v

/-- Whether two groups clash: both written by an author, of one source identity, in no common
version. -/
def clashes (g h : MemberGroup) : Bool :=
  !g.isSynthetic && !h.isSynthetic && g.sourceIdentity = h.sourceIdentity && g.isDisjoint h

/-- Adds a declaration to the first group of its key that has none of its version, or as a new
group. -/
def place (v : Version) (m : Member) : List MemberGroup → List MemberGroup
  | [] => [⟨m.groupKey, [(v, m)]⟩]
  | g :: rest =>
    if g.key = m.groupKey ∧ v ∉ g.versions then { g with decls := g.decls ++ [(v, m)] } :: rest
    else g :: place v m rest

end MemberGroup

/-- A group together with the name of its member. -/
structure NamedGroup extends MemberGroup where
  physicalName : String

/-- The members of each version, in the order of the input. -/
abbrev Declarations := List (Version × List Member)

namespace Declarations

/-- The groups in the order in which their first declarations stand. -/
def groups (inputs : Declarations) : List MemberGroup :=
  inputs.foldl (fun gs input ↦ input.2.foldl (fun gs m ↦ MemberGroup.place input.1 m gs) gs) []

end Declarations

/-- Whether some version declares the key of a group more than once. -/
def isRepeated (groups : List MemberGroup) (g : MemberGroup) : Bool :=
  1 < (groups.filter (·.key = g.key)).length

/-- Whether a group has to be told apart from another one. -/
def needsMangling (groups : List MemberGroup) (g : MemberGroup) : Bool :=
  groups.any g.clashes || isRepeated groups g

def physicalName (groups : List MemberGroup) (g : MemberGroup) : String :=
  match g.nameOverride? with
  | some name => name
  | none => if needsMangling groups g then mangle g.key.name g.versionSet else g.key.name

/-- Groups the declarations of all versions and names the groups. -/
def groupMembers (inputs : Declarations) : List NamedGroup :=
  let groups := inputs.groups
  groups.map fun g ↦ ⟨g, physicalName groups g⟩

/-- What there is to say about the name of a group. -/
def MemberGroup.events (cls : ClassName) (groups : List MemberGroup) (g : MemberGroup) :
    List Event :=
  match g.overrides with
  | [] =>
    if needsMangling groups g then
      [.mangledMember cls g.key.name g.key.desc (physicalName groups g)]
    else []
  | (_, kept) :: more =>
    (more.filter (·.2 ≠ kept)).map fun o ↦ .conflictingOverrides cls g.key.name o.1 kept o.2

def groupingEvents (cls : ClassName) (inputs : Declarations) : List Event :=
  let groups := inputs.groups
  groups.flatMap (·.events cls groups)

/-! ### Physical keys -/

/-- Looks for a member whose physical key an earlier one has. -/
def ensureUniqueAfter (cls : ClassName) (before : List MergedMember) :
    List MergedMember → Except MergeError Unit
  | [] => .ok ()
  | m :: rest =>
    match before.find? (·.key = m.key) with
    | some first => .error <| .unresolvedConflict cls m.declaredName m.desc
      (first.declaredVersions ∪ m.declaredVersions).toList
    | none => ensureUniqueAfter cls (before ++ [m]) rest

/-- No two members of a merged class may share a physical key. -/
def ensureUnique (cls : ClassName) (members : List MergedMember) : Except MergeError Unit :=
  ensureUniqueAfter cls [] members

end ClassWeave
