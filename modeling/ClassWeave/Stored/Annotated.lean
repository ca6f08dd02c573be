import ClassWeave.Merged.Basic
import ClassWeave.Stored.Error

/-!
# The stored form of a merged class

A merged class is stored as a class tree whose notes hold the tables: `MergedClass.encode` writes
the notes, `ClassTree.decode` reads them. Versions with the same override share a note. A method of
the stored tree has a placeholder as its body; the true bodies stand beside it, by version.

A tree may have been edited since. A member without a note was added by hand and counts as present
in every version; a note that names a version which the class does not have is refused.
-/

namespace ClassWeave

/-! ### Writing -/

/-- One note for each overriding visibility, the widest first. -/
def accessNotes (t : Versioned Visibility) : List AccessNote :=
  Visibility.all.reverse.filterMap fun level ↦
    match t.overrides.entries.filter (·.2 = level) with
    | [] => none
    | es => some ⟨level.word, es.map (·.1)⟩

/-- One note for each overriding inheritance, in the order of the first version of each. -/
def inheritanceNotes (t : Versioned Inheritance) : List InheritanceNote :=
  t.overrides.values.eraseDups.map fun i ↦
    { versions := (t.overrides.entries.filter (·.2 = i)).map (·.1)
      superclass := if i.superclass = t.physical.superclass then "" else i.superclass.text
      interfaces := i.interfaces.map (·.text) }

namespace MergedMember

/-- The body in the stored tree. Fields have none, nor have methods without a body in any version;
the others fail when they are reached. -/
def placeholder? (cls : ClassName) (m : MergedMember) : Option Body :=
  if m.isField || (m.bodies.isEmpty && !m.synthetic) then none
  else some (.fails (.crossVersionMisuse cls m.declaredName m.declaredVersions.toList))

def encode (cls : ClassName) (m : MergedMember) : Member where
  name := m.physicalName
  desc := m.desc
  kind := m.kind
  isStatic := m.isStatic
  isSynthetic := m.compilerGenerated
  access := m.access.physical
  body := m.placeholder? cls
  versionBodies := m.bodies
  merged := some
    { name := if m.isMangled then m.declaredName else ""
      versions := m.declaredVersions.toList
      synthetic := m.synthetic
      access := accessNotes m.access }

end MergedMember

/-- The annotated tree of a merged class. -/
def MergedClass.encode (c : MergedClass) : ClassTree where
  name := c.name
  access := c.access.physical
  superclass := c.inheritance.physical.superclass
  interfaces := c.inheritance.physical.interfaces
  members := c.members.map (MergedMember.encode c.name)
  merged := some
    { versions := c.versions.toList
      access := accessNotes c.access
      inheritance := inheritanceNotes c.inheritance }

/-! ### Reading -/

/-- What the readers of notes know about the class: its name and its versions. -/
structure NoteScope where
  cls : ClassName
  versions : VersionSet

namespace NoteScope

/-- The versions that a note names must be versions of the class. -/
def checkVersions (s : NoteScope) (site : String) : List Version → Except SchemaError Unit
  | [] => .ok ()
  | v :: vs =>
    if v ∈ s.versions then s.checkVersions site vs else .error (.unknownVersion s.cls site v)

/-- Gives the value of a note to its versions. -/
def override {α : Type} (s : NoteScope) (site : String) (versions : List Version) (a : α)
    (t : Versioned α) : Except SchemaError (Versioned α) := do
  s.checkVersions site versions
  return { t with overrides := t.overrides.insertAll (versions.map (·, a)) }

def decodeAccess (s : NoteScope) (site : String) (notes : List AccessNote)
    (t : Versioned Visibility) : Except SchemaError (Versioned Visibility) :=
  notes.foldlM (fun t n ↦
    match Visibility.parse n.value with
    | .error _ => .error (.badAccess s.cls n.value)
    | .ok level => s.override site n.versions level t) t

/-- The inheritance that a note describes; an empty superclass is the physical one. -/
def noted (physical : Inheritance) (n : InheritanceNote) : Inheritance where
  superclass := if n.superclass.isEmpty then physical.superclass else .ofText n.superclass
  interfaces := n.interfaces.map .ofText

def decodeInheritance (s : NoteScope) (notes : List InheritanceNote) (t : Versioned Inheritance) :
    Except SchemaError (Versioned Inheritance) :=
  notes.foldlM (fun t n ↦ s.override "inheritance" n.versions (noted t.physical n) t) t

def decodeMember (s : NoteScope) (m : Member) : Except SchemaError MergedMember :=
  match m.merged with
  | none => .ok (.universal s.versions m)
  | some note => do
    let site := "member " ++ m.key.text
    let declaredVersions : VersionSet := .ofList note.versions
    s.checkVersions site (declaredVersions.toList ++ m.versionBodies.keys)
    let access ← s.decodeAccess site note.access (.uniform m.access)
    return {
      physicalName := m.name
      declaredName := if note.name.isEmpty then m.name else note.name
      declaredVersions := declaredVersions
      synthetic := note.synthetic
      compilerGenerated := m.isSynthetic
      kind := m.kind
      desc := m.desc
      isStatic := m.isStatic
      access := access
      bodies := m.versionBodies }

end NoteScope

/-- The merged class that an annotated tree stores. -/
def ClassTree.decode (t : ClassTree) : Except SchemaError MergedClass :=
  match t.merged with
  | none => .error (.notMerged t.name)
  | some note => do
    let scope : NoteScope := ⟨t.name, .ofList note.versions⟩
    let access ← scope.decodeAccess "class access" note.access (.uniform t.access)
    let inheritance ← scope.decodeInheritance note.inheritance (.uniform t.inheritance)
    let members ← t.members.mapM scope.decodeMember
    return {
      name := t.name
      versions := scope.versions
      access := access
      inheritance := inheritance
      members := members }

/-- A stored tree as a merged class: one without a note counts as unchanged in all of the given
versions. -/
def ClassTree.asMerged (t : ClassTree) (versions : VersionSet) : Except SchemaError MergedClass :=
  match t.merged with
  | none => .ok (.universal t versions)
  | some _ => t.decode

end ClassWeave
