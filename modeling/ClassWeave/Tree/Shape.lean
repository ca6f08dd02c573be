import ClassWeave.Json.Shape
import ClassWeave.Tree.Wire

/-!
# The shapes of class trees

Each type that is read from JSON has a shape, so that a refused text can be told what is wrong with
it. The fields stand in the order in which they are written.
-/

namespace ClassWeave

open Json (Shape)
open Json.Shape (list map nullable record tagged text flag)
open Json.Shape.Slot (needed optional)

/-- One of the words of a type. -/
def Json.Shape.oneOf {α : Type} (words : List (String × α)) : Shape := .word (words.map (·.1))

def versionsShape : Shape := list text

/-! ### Code -/

def memberSlots : List Json.Shape.Slot :=
  [needed "owner" text, needed "name" text, needed "desc" text]

def Insn.shape : Shape := tagged
  { title := "internally tagged enum Insn"
    key := "op"
    alternatives :=
      [("field", ⟨"struct variant Insn::Field",
        needed "access" (.oneOf FieldAccess.words) :: memberSlots⟩),
      ("invoke", ⟨"struct variant Insn::Invoke",
        needed "kind" (.oneOf InvokeKind.words) :: memberSlots⟩),
      ("type", ⟨"struct variant Insn::Type",
        [needed "kind" (.oneOf TypeUse.words), needed "class" text]⟩),
      ("raw", ⟨"struct variant Insn::Raw", [needed "text" text]⟩)] }

def Fault.shape : Shape := tagged
  { title := "internally tagged enum RuntimeFault"
    key := "fault"
    alternatives :=
      [("unimplemented", ⟨"struct variant RuntimeFault::Unimplemented",
        [needed "owner" text, needed "member" text, needed "version" text]⟩),
      ("crossVersionMisuse", ⟨"struct variant RuntimeFault::CrossVersionMisuse",
        [needed "owner" text, needed "member" text, needed "allowed" versionsShape]⟩)] }

def Body.shape : Shape := tagged
  { title := "internally tagged enum Body"
    key := "type"
    alternatives :=
      [("code", ⟨"struct variant Body::Code",
        [needed "maxLocals" (.natural UInt16.size "u16"), needed "insns" (list Insn.shape)]⟩),
      ("fails", ⟨"struct variant Body::Fails", [needed "fault" Fault.shape]⟩)] }

/-! ### Notes -/

def AccessNote.shape : Shape := record
  ⟨"struct AccessAnnotation", [needed "value" text, needed "versions" versionsShape]⟩

def InheritanceNote.shape : Shape := record
  ⟨"struct InheritanceAnnotation", [needed "versions" versionsShape, optional "superClass" text,
    optional "interfaces" (list text)]⟩

def ClassNote.shape : Shape := record
  ⟨"struct MergedClassAnnotation", [needed "versions" versionsShape,
    optional "access" (list AccessNote.shape),
    optional "inheritance" (list InheritanceNote.shape)]⟩

def MemberNote.shape : Shape := record
  ⟨"struct MergedMemberAnnotation", [optional "name" text, needed "versions" versionsShape,
    optional "synthetic" flag, optional "access" (list AccessNote.shape)]⟩

def RefNote.shape : Shape := record
  ⟨"struct RefAnnotation", [optional "value" text, optional "member" text, optional "desc" text]⟩

def DirectiveNote.shape : Shape :=
  let versions := needed "versions" versionsShape
  let field := optional "field" flag
  tagged
    { title := "internally tagged enum DirectiveAnnotation"
      key := "kind"
      alternatives :=
        [("remove", ⟨"struct variant DirectiveAnnotation::Remove", [versions]⟩),
        ("replace", ⟨"struct variant DirectiveAnnotation::Replace",
          [versions, optional "ref" RefNote.shape, field]⟩),
        ("stub", ⟨"struct variant DirectiveAnnotation::Stub",
          [versions, optional "ref" RefNote.shape, field]⟩),
        ("modify", ⟨"struct variant DirectiveAnnotation::Modify",
          [versions, needed "ref" RefNote.shape, field]⟩)] }

/-! ### Members and trees -/

def Member.shape : Shape := record
  ⟨"struct MemberDecl", [needed "name" text, needed "descriptor" text,
    needed "kind" (.oneOf MemberKind.words), optional "isStatic" flag, optional "isSynthetic" flag,
    needed "access" (.oneOf Visibility.words), optional "body" (nullable Body.shape),
    optional "versionBodies" (map Body.shape), optional "nameOverride" (nullable text),
    optional "merged" (nullable MemberNote.shape),
    optional "directives" (list DirectiveNote.shape)]⟩

namespace ClassTree

def shape : Shape := record
  ⟨"struct ClassTree", [needed "name" text, needed "access" (.oneOf Visibility.words),
    optional "superClass" text, optional "interfaces" (list text),
    optional "members" (list Member.shape), optional "merged" (nullable ClassNote.shape),
    optional "directives" (list DirectiveNote.shape),
    optional "superDirectives" (list DirectiveNote.shape),
    optional "interfaceDirectives" (map (list DirectiveNote.shape))]⟩

/-- Reads a class tree from a text, or finds out what is wrong with the text. -/
def read (s : String) : Except (Option Json.Located) ClassTree :=
  match Json.read? s >>= ofJson? with
  | some t => .ok t
  | none => .error (shape.fault? s)

end ClassTree

end ClassWeave
