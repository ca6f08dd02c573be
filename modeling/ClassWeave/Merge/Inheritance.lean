import ClassWeave.Log
import ClassWeave.Merge.Error
import ClassWeave.Merge.Hierarchy
import ClassWeave.Merged.Basic

/-!
# One superclass for all versions

Versions that disagree on the superclass get the deepest class that all their chains pass. A
truncated chain leaves that class in doubt, unless it is the direct superclass of some version.
Each true superclass other than the physical one and the root gets a bridge, a cast accessor for
code that was compiled against the merged class.
-/

namespace ClassWeave

/-- The inheritance of each version, in the order of the input. -/
abbrev Declared := List (Version × Inheritance)

namespace Declared

def supers (d : Declared) : OrderedMap Version ClassName :=
  .ofList (d.map fun e ↦ (e.1, e.2.superclass))

/-- The distinct superclasses. -/
def distinctSupers (d : Declared) : OrderedSet ClassName := .ofList d.supers.values

/-- The first class of the first chain that lies on all chains. -/
def deepestCommon (chains : List (List ClassName)) : ClassName :=
  match chains with
  | [] => .object
  | first :: _ => (first.find? fun c ↦ chains.all (·.contains c)).getD .object

def commonAncestor (h : Hierarchy) (cls : ClassName) (d : Declared) : Except MergeError ClassName :=
  let chains := d.map fun e ↦ h.chain e.1 e.2.superclass
  let deepest := deepestCommon chains
  if chains.all (fun c ↦ !Hierarchy.isTruncated c) || d.supers.values.contains deepest then
    .ok deepest
  else .error (.ambiguousInheritance cls d.supers)

def physicalSuper (h : Hierarchy) (cls : ClassName) (pinned : Option ClassName) (d : Declared) :
    Except MergeError ClassName :=
  match d.distinctSupers.toList, pinned with
  | [], _ => .ok .object
  | [c], _ => .ok c
  | _, some c => .ok c
  | _, none => d.commonAncestor h cls

/-- The interfaces that all versions list alike, else all interfaces in ascending order. -/
def physicalInterfaces (d : Declared) : List ClassName :=
  match d with
  | [] => []
  | first :: _ =>
    if d.all (·.2.interfaces = first.2.interfaces) then first.2.interfaces
    else (OrderedSet.ofList (d.flatMap (·.2.interfaces))).toList

/-- The true superclasses that need a bridge, each with its versions, in the order in which they
first occur. -/
def bridged (physical : ClassName) (d : Declared) : List (ClassName × VersionSet) :=
  let needed := d.filter fun e ↦ e.2.superclass ≠ physical && !e.2.superclass.isObject
  (needed.map (·.2.superclass)).eraseDups.map fun c ↦
    (c, .ofList ((needed.filter (·.2.superclass = c)).map (·.1)))

end Declared

/-- The cast accessor to a superclass. -/
def MergedMember.bridge (superclass : ClassName) (versions : VersionSet) : MergedMember where
  physicalName := bridgeName superclass
  declaredName := bridgeName superclass
  declaredVersions := versions
  synthetic := true
  compilerGenerated := false
  kind := .method
  desc := "()" ++ superclass.descriptor
  isStatic := false
  access := .uniform .publicAccess
  bodies := .empty

structure Reconciled where
  table : Versioned Inheritance
  bridges : List MergedMember
  deriving DecidableEq

/-- The inheritance of a merged class and the bridges that it needs. -/
def reconcileInheritance (h : Hierarchy) (cls : ClassName) (pinned : Option ClassName)
    (d : Declared) : Except MergeError Reconciled := do
  let superclass ← d.physicalSuper h cls pinned
  let physical : Inheritance := ⟨superclass, d.physicalInterfaces⟩
  .ok {
    table := ⟨physical, .ofList (d.filter (·.2 ≠ physical))⟩
    bridges := (d.bridged superclass).map fun b ↦ .bridge b.1 b.2 }

/-- A disagreement is worth an event where it led to bridges. -/
def Reconciled.events (cls : ClassName) (r : Reconciled) : List Event :=
  if r.bridges.isEmpty then []
  else [.superclassesDisagree cls r.table.physical.superclass r.bridges.length]

end ClassWeave
