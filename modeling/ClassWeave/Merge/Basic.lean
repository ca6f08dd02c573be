import ClassWeave.Merge.Access
import ClassWeave.Merge.Grouping
import ClassWeave.Merge.Inheritance

/-!
# Merging the trees of one class

The trees of one class, one for each version and in the order of the input, become one merged class
or nothing at all.
-/

namespace ClassWeave

/-- What a merge knows beside its input: the superclasses of other classes, and the superclass that
a class is to have when its versions disagree. -/
structure Merger where
  hierarchy : Hierarchy
  pinned : OrderedMap ClassName ClassName := .empty

/-- The tree of each version. -/
abbrev Trees := List (Version × ClassTree)

namespace Trees

def inheritance (ts : Trees) : Declared := ts.map fun t ↦ (t.1, t.2.inheritance)

def declarations (ts : Trees) : Declarations := ts.map fun t ↦ (t.1, t.2.members)

def versionSet (ts : Trees) : VersionSet := .ofList (ts.map (·.1))

/-- Each version must come once and give a tree of the class. -/
def checkAfter (cls : ClassName) (seen : List Version) : Trees → Except MergeError Unit
  | [] => .ok ()
  | (v, t) :: rest =>
    if v ∈ seen then .error (.duplicateVersion cls v)
    else if t.name ≠ cls then .error (.identityMismatch cls t.name v)
    else checkAfter cls (v :: seen) rest

def check (cls : ClassName) (ts : Trees) : Except MergeError Unit :=
  if ts.isEmpty then .error (.noVersions cls) else checkAfter cls [] ts

end Trees

/-- The member that a group becomes. -/
def NamedGroup.toMember (g : NamedGroup) : MergedMember where
  physicalName := g.physicalName
  declaredName := g.key.name
  declaredVersions := g.versionSet
  synthetic := false
  compilerGenerated := g.isSynthetic
  kind := g.key.kind
  desc := g.key.desc
  isStatic := g.key.isStatic
  access := reconcileAccess (g.decls.map fun d ↦ (d.1, d.2.access))
  bodies := .ofList (g.decls.filterMap fun d ↦ d.2.body.map (d.1, ·))

namespace Merger

def reconcile (m : Merger) (cls : ClassName) (ts : Trees) : Except MergeError Reconciled :=
  reconcileInheritance m.hierarchy cls (m.pinned.get? cls) ts.inheritance

/-- Merges the trees of a class. -/
def merge (m : Merger) (cls : ClassName) (ts : Trees) : Except MergeError MergedClass := do
  ts.check cls
  let inheritance ← m.reconcile cls ts
  let members := (groupMembers ts.declarations).map NamedGroup.toMember ++ inheritance.bridges
  ensureUnique cls members
  .ok {
    name := cls
    versions := ts.versionSet
    access := reconcileAccess (ts.map fun t ↦ (t.1, t.2.access))
    inheritance := inheritance.table
    members := members }

/-- The events of a merge, up to the point where it fails. -/
def events (m : Merger) (cls : ClassName) (ts : Trees) : List Event :=
  match ts.check cls, m.reconcile cls ts with
  | .ok (), .ok inheritance =>
    let last := match m.merge cls ts with
      | .ok merged => [.mergedClass cls merged.versions.size merged.members.length]
      | .error _ => []
    inheritance.events cls ++ groupingEvents cls ts.declarations ++ last
  | _, _ => []

end Merger

end ClassWeave
