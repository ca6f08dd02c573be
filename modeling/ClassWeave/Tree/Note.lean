import ClassWeave.Tree.Code

/-!
# Notes on class trees

A note is what a stored tree says about itself in writing. The notes of a merge tell from which
versions a class and its members come; directive notes are the instructions that authors leave for
a split. Notes are kept as they were written, with repeated versions and unknown words.
-/

namespace ClassWeave

/-- A visibility for some versions; `value` is the word for it. -/
structure AccessNote where
  value : String
  versions : List Version
  deriving DecidableEq, Repr, Inhabited

/-- The inheritance of some versions. An empty superclass stands for the physical one, the
interfaces are complete. -/
structure InheritanceNote where
  versions : List Version
  superclass : String := ""
  interfaces : List String := []
  deriving DecidableEq, Repr, Inhabited

/-- The note of a merge on a class. -/
structure ClassNote where
  versions : List Version
  access : List AccessNote := []
  inheritance : List InheritanceNote := []
  deriving DecidableEq, Repr, Inhabited

/-- The note of a merge on a member. The name is the declared one, where it differs from the name
in the tree, and is empty otherwise. -/
structure MemberNote where
  name : String := ""
  versions : List Version
  synthetic : Bool := false
  access : List AccessNote := []
  deriving DecidableEq, Repr, Inhabited

/-- A pointer to a member as an author wrote it; each part may be left empty. -/
structure RefNote where
  value : String := ""
  member : String := ""
  desc : String := ""
  deriving DecidableEq, Repr, Inhabited

def RefNote.isEmpty (r : RefNote) : Bool := r.value.isEmpty && r.member.isEmpty && r.desc.isEmpty

/-- What a directive asks for. -/
inductive DirectiveKind where
  | remove
  | replace
  | stub
  | modify
  deriving DecidableEq, Repr, Inhabited

namespace DirectiveKind

/-- The order in which directives on one site are tried. -/
def rank : DirectiveKind → Nat
  | remove => 0
  | replace => 1
  | stub => 2
  | modify => 3

def word : DirectiveKind → String
  | remove => "remove"
  | replace => "replace"
  | stub => "stub"
  | modify => "modify"

end DirectiveKind

/-- A directive as an author wrote it. -/
inductive DirectiveNote where
  | remove (versions : List Version)
  | replace (versions : List Version) (target : RefNote) (field : Bool)
  | stub (versions : List Version) (target : RefNote) (field : Bool)
  | modify (versions : List Version) (target : RefNote) (field : Bool)
  deriving DecidableEq, Repr, Inhabited

namespace DirectiveNote

def versions : DirectiveNote → List Version
  | remove vs => vs
  | replace vs _ _ => vs
  | stub vs _ _ => vs
  | modify vs _ _ => vs

def kind : DirectiveNote → DirectiveKind
  | remove _ => .remove
  | replace .. => .replace
  | stub .. => .stub
  | modify .. => .modify

end DirectiveNote

end ClassWeave
