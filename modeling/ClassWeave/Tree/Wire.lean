import ClassWeave.Json.Record
import ClassWeave.Tree.Basic

/-!
# The JSON form of class trees

Each type has a writer `toJson` and a reader `ofJson?`. A writer gives the fields in a fixed order
and leaves out those that have their default value; a reader supplies them again. What a reader
does with unknown and repeated fields is settled by the readers of records.

An alternative of a tagged type is told by the tag `op`, `type`, `fault` or `kind`. Instructions and
faults stand inside a body, which is itself a tagged value: `numbered` says whether they do.
-/

namespace ClassWeave

open Json (Fields)

/-- A field that is written only when it is not `false`. -/
def Json.flag (b : Bool) : Option Json := if b then some (.bool true) else none

/-- A field that is written only when it is not empty. -/
def Json.filled {α : Type} (f : α → Json) (l : List α) : Option Json :=
  if l.isEmpty then none else some (.ofList f l)

/-- A field that is written only when it is not the empty text. -/
def Json.text (s : String) : Option Json := if s.isEmpty then none else some (.str s)

/-! ### Names and words -/

def Version.toJson (v : Version) : Json := .str v.id

def Version.ofJson? (j : Json) : Option Version := j.string?.map .mk

def ClassName.toJson (c : ClassName) : Json := .str c.text

/-- Class names inside JSON are taken as they are written. -/
def ClassName.ofJson? (j : Json) : Option ClassName := j.string?.map .mk

def Json.versions (vs : List Version) : Json := .ofList Version.toJson vs

def Json.versions? (j : Json) : Option (List Version) := j.list? Version.ofJson?

def Visibility.words : List (String × Visibility) := Visibility.all.map fun v ↦ (v.word, v)

def Visibility.toJson (v : Visibility) : Json := .str v.word

def Visibility.ofJson? : Json → Option Visibility := Json.word? Visibility.words false

def MemberKind.word : MemberKind → String
  | field => "field"
  | method => "method"

def MemberKind.words : List (String × MemberKind) := [field, method].map fun k ↦ (k.word, k)

def MemberKind.toJson (k : MemberKind) : Json := .str k.word

def MemberKind.ofJson? : Json → Option MemberKind := Json.word? MemberKind.words false

def FieldAccess.word : FieldAccess → String
  | get => "get"
  | put => "put"
  | getStatic => "getstatic"
  | putStatic => "putstatic"

def FieldAccess.words : List (String × FieldAccess) :=
  [get, put, getStatic, putStatic].map fun a ↦ (a.word, a)

def FieldAccess.toJson (a : FieldAccess) : Json := .str a.word

def FieldAccess.ofJson? : Json → Option FieldAccess := Json.word? FieldAccess.words true

def InvokeKind.word : InvokeKind → String
  | virtual => "virtual"
  | static => "static"
  | special => "special"
  | interface => "interface"

def InvokeKind.words : List (String × InvokeKind) :=
  [virtual, static, special, interface].map fun k ↦ (k.word, k)

def InvokeKind.toJson (k : InvokeKind) : Json := .str k.word

def InvokeKind.ofJson? : Json → Option InvokeKind := Json.word? InvokeKind.words true

def TypeUse.word : TypeUse → String
  | new => "new"
  | checkCast => "checkcast"
  | instanceOf => "instanceof"

def TypeUse.words : List (String × TypeUse) := [new, checkCast, instanceOf].map fun u ↦ (u.word, u)

def TypeUse.toJson (u : TypeUse) : Json := .str u.word

def TypeUse.ofJson? : Json → Option TypeUse := Json.word? TypeUse.words true

/-! ### Code -/

def MemberKey.toJson (k : MemberKey) : Json :=
  .record [("name", some (.str k.name)), ("descriptor", some (.str k.desc)),
    ("kind", some k.kind.toJson)]

def MemberKey.ofJson? (j : Json) : Option MemberKey := do
  let fs ← j.record? ["name", "descriptor", "kind"]
  some ⟨← fs.required "name" Json.string?, ← fs.required "descriptor" Json.string?,
    ← fs.required "kind" MemberKind.ofJson?⟩

namespace Insn

def toJson : Insn → Json
  | member (.field access) owner name desc => .record
    [("op", some (.str "field")), ("access", some access.toJson), ("owner", some owner.toJson),
      ("name", some (.str name)), ("desc", some (.str desc))]
  | member (.invoke kind) owner name desc => .record
    [("op", some (.str "invoke")), ("kind", some kind.toJson), ("owner", some owner.toJson),
      ("name", some (.str name)), ("desc", some (.str desc))]
  | type use cls => .record
    [("op", some (.str "type")), ("kind", some use.toJson), ("class", some cls.toJson)]
  | raw text => .record [("op", some (.str "raw")), ("text", some (.str text))]

def memberOfFields? (fs : Fields) (use : MemberUse) : Option Insn := do
  some (.member use (← fs.required "owner" ClassName.ofJson?) (← fs.required "name" Json.string?)
    (← fs.required "desc" Json.string?))

def ofJson? (numbered : Bool) (j : Json) : Option Insn := do
  match ← j.tagged? "op" ["field", "invoke", "type", "raw"] numbered with
  | ("field", j) =>
    let fs ← j.record? ["access", "owner", "name", "desc"]
    memberOfFields? fs (.field (← fs.required "access" FieldAccess.ofJson?))
  | ("invoke", j) =>
    let fs ← j.record? ["kind", "owner", "name", "desc"]
    memberOfFields? fs (.invoke (← fs.required "kind" InvokeKind.ofJson?))
  | ("type", j) =>
    let fs ← j.record? ["kind", "class"]
    some (.type (← fs.required "kind" TypeUse.ofJson?) (← fs.required "class" ClassName.ofJson?))
  | (_, j) =>
    let fs ← j.record? ["text"]
    some (.raw (← fs.required "text" Json.string?))

end Insn

namespace Fault

def toJson : Fault → Json
  | unimplemented owner member version => .record
    [("fault", some (.str "unimplemented")), ("owner", some owner.toJson),
      ("member", some (.str member)), ("version", some version.toJson)]
  | crossVersionMisuse owner member allowed => .record
    [("fault", some (.str "crossVersionMisuse")), ("owner", some owner.toJson),
      ("member", some (.str member)), ("allowed", some (.versions allowed))]

def ofJson? (numbered : Bool) (j : Json) : Option Fault := do
  match ← j.tagged? "fault" ["unimplemented", "crossVersionMisuse"] numbered with
  | ("unimplemented", j) =>
    let fs ← j.record? ["owner", "member", "version"]
    some (.unimplemented (← fs.required "owner" ClassName.ofJson?)
      (← fs.required "member" Json.string?) (← fs.required "version" Version.ofJson?))
  | (_, j) =>
    let fs ← j.record? ["owner", "member", "allowed"]
    some (.crossVersionMisuse (← fs.required "owner" ClassName.ofJson?)
      (← fs.required "member" Json.string?) (← fs.required "allowed" Json.versions?))

end Fault

namespace Body

def toJson : Body → Json
  | code maxLocals insns => .record
    [("type", some (.str "code")), ("maxLocals", some (.nat maxLocals.toNat)),
      ("insns", some (.ofList Insn.toJson insns))]
  | fails fault => .record [("type", some (.str "fails")), ("fault", some fault.toJson)]

def maxLocals? (j : Json) : Option UInt16 := do
  let n ← j.nat?
  if n < UInt16.size then some (.ofNat n) else none

def ofJson? (j : Json) : Option Body := do
  match ← j.tagged? "type" ["code", "fails"] false with
  | ("code", j) =>
    let fs ← j.record? ["maxLocals", "insns"]
    some (.code (← fs.required "maxLocals" maxLocals?)
      (← fs.required "insns" (Json.list? (Insn.ofJson? true))))
  | (_, j) =>
    let fs ← j.record? ["fault"]
    some (.fails (← fs.required "fault" (Fault.ofJson? true)))

end Body

/-! ### Notes -/

namespace AccessNote

def toJson (n : AccessNote) : Json :=
  .record [("value", some (.str n.value)), ("versions", some (.versions n.versions))]

def ofJson? (j : Json) : Option AccessNote := do
  let fs ← j.record? ["value", "versions"]
  some ⟨← fs.required "value" Json.string?, ← fs.required "versions" Json.versions?⟩

end AccessNote

namespace InheritanceNote

def toJson (n : InheritanceNote) : Json :=
  .record [("versions", some (.versions n.versions)), ("superClass", some (.str n.superclass)),
    ("interfaces", some (.ofList Json.str n.interfaces))]

def ofJson? (j : Json) : Option InheritanceNote := do
  let fs ← j.record? ["versions", "superClass", "interfaces"]
  some
    { versions := ← fs.required "versions" Json.versions?
      superclass := ← fs.defaulted "superClass" Json.string? ""
      interfaces := ← fs.defaulted "interfaces" (Json.list? Json.string?) [] }

end InheritanceNote

namespace ClassNote

def toJson (n : ClassNote) : Json :=
  .record [("versions", some (.versions n.versions)),
    ("access", Json.filled AccessNote.toJson n.access),
    ("inheritance", Json.filled InheritanceNote.toJson n.inheritance)]

def ofJson? (j : Json) : Option ClassNote := do
  let fs ← j.record? ["versions", "access", "inheritance"]
  some
    { versions := ← fs.required "versions" Json.versions?
      access := ← fs.defaulted "access" (Json.list? AccessNote.ofJson?) []
      inheritance := ← fs.defaulted "inheritance" (Json.list? InheritanceNote.ofJson?) [] }

end ClassNote

namespace MemberNote

def toJson (n : MemberNote) : Json :=
  .record [("name", Json.text n.name), ("versions", some (.versions n.versions)),
    ("synthetic", Json.flag n.synthetic), ("access", Json.filled AccessNote.toJson n.access)]

def ofJson? (j : Json) : Option MemberNote := do
  let fs ← j.record? ["name", "versions", "synthetic", "access"]
  some
    { name := ← fs.defaulted "name" Json.string? ""
      versions := ← fs.required "versions" Json.versions?
      synthetic := ← fs.defaulted "synthetic" Json.bool? false
      access := ← fs.defaulted "access" (Json.list? AccessNote.ofJson?) [] }

end MemberNote

namespace RefNote

def toJson (r : RefNote) : Json :=
  .record [("value", some (.str r.value)), ("member", Json.text r.member),
    ("desc", Json.text r.desc)]

def ofJson? (j : Json) : Option RefNote := do
  let fs ← j.record? ["value", "member", "desc"]
  some
    { value := ← fs.defaulted "value" Json.string? ""
      member := ← fs.defaulted "member" Json.string? ""
      desc := ← fs.defaulted "desc" Json.string? "" }

end RefNote

namespace DirectiveNote

def refField (target : RefNote) : Option Json :=
  if target.isEmpty then none else some target.toJson

def toJson : DirectiveNote → Json
  | remove versions => .record
    [("kind", some (.str "remove")), ("versions", some (.versions versions))]
  | replace versions target field => .record
    [("kind", some (.str "replace")), ("versions", some (.versions versions)),
      ("ref", refField target), ("field", Json.flag field)]
  | stub versions target field => .record
    [("kind", some (.str "stub")), ("versions", some (.versions versions)),
      ("ref", refField target), ("field", Json.flag field)]
  | modify versions target field => .record
    [("kind", some (.str "modify")), ("versions", some (.versions versions)),
      ("ref", some target.toJson), ("field", Json.flag field)]

def ofJson? (j : Json) : Option DirectiveNote := do
  match ← j.tagged? "kind" ["remove", "replace", "stub", "modify"] false with
  | ("remove", j) =>
    let fs ← j.record? ["versions"]
    some (.remove (← fs.required "versions" Json.versions?))
  | (kind, j) =>
    let fs ← j.record? ["versions", "ref", "field"]
    let versions ← fs.required "versions" Json.versions?
    let field ← fs.defaulted "field" Json.bool? false
    if kind = "modify" then
      some (.modify versions (← fs.required "ref" RefNote.ofJson?) field)
    else
      let target ← fs.defaulted "ref" RefNote.ofJson? {}
      some (if kind = "replace" then .replace versions target field
        else .stub versions target field)

end DirectiveNote

/-! ### Members and trees -/

namespace Member

def toJson (m : Member) : Json :=
  .record [("name", some (.str m.name)), ("descriptor", some (.str m.desc)),
    ("kind", some m.kind.toJson), ("isStatic", Json.flag m.isStatic),
    ("isSynthetic", Json.flag m.isSynthetic), ("access", some m.access.toJson),
    ("body", m.body.map Body.toJson),
    ("versionBodies", if m.versionBodies.isEmpty then none
      else some (.ofMap Version.id Body.toJson m.versionBodies)),
    ("nameOverride", m.nameOverride.map Json.str), ("merged", m.merged.map MemberNote.toJson),
    ("directives", Json.filled DirectiveNote.toJson m.directives)]

def ofJson? (j : Json) : Option Member := do
  let fs ← j.record? ["name", "descriptor", "kind", "isStatic", "isSynthetic", "access", "body",
    "versionBodies", "nameOverride", "merged", "directives"]
  some
    { name := ← fs.required "name" Json.string?
      desc := ← fs.required "descriptor" Json.string?
      kind := ← fs.required "kind" MemberKind.ofJson?
      isStatic := ← fs.defaulted "isStatic" Json.bool? false
      isSynthetic := ← fs.defaulted "isSynthetic" Json.bool? false
      access := ← fs.required "access" Visibility.ofJson?
      body := ← fs.defaulted "body" (Json.nullable? Body.ofJson?) none
      versionBodies := ← fs.defaulted "versionBodies" (Json.map? Version.mk Body.ofJson?) .empty
      nameOverride := ← fs.defaulted "nameOverride" (Json.nullable? Json.string?) none
      merged := ← fs.defaulted "merged" (Json.nullable? MemberNote.ofJson?) none
      directives := ← fs.defaulted "directives" (Json.list? DirectiveNote.ofJson?) [] }

end Member

namespace ClassTree

def toJson (t : ClassTree) : Json :=
  .record [("name", some t.name.toJson), ("access", some t.access.toJson),
    ("superClass", some t.superclass.toJson),
    ("interfaces", some (.ofList ClassName.toJson t.interfaces)),
    ("members", some (.ofList Member.toJson t.members)), ("merged", t.merged.map ClassNote.toJson),
    ("directives", Json.filled DirectiveNote.toJson t.directives),
    ("superDirectives", Json.filled DirectiveNote.toJson t.superDirectives),
    ("interfaceDirectives", if t.interfaceDirectives.isEmpty then none
      else some (.ofMap ClassName.text (.ofList DirectiveNote.toJson) t.interfaceDirectives))]

def ofJson? (j : Json) : Option ClassTree := do
  let fs ← j.record? ["name", "access", "superClass", "interfaces", "members", "merged",
    "directives", "superDirectives", "interfaceDirectives"]
  some
    { name := ← fs.required "name" ClassName.ofJson?
      access := ← fs.required "access" Visibility.ofJson?
      superclass := ← fs.defaulted "superClass" ClassName.ofJson? .object
      interfaces := ← fs.defaulted "interfaces" (Json.list? ClassName.ofJson?) []
      members := ← fs.defaulted "members" (Json.list? Member.ofJson?) []
      merged := ← fs.defaulted "merged" (Json.nullable? ClassNote.ofJson?) none
      directives := ← fs.defaulted "directives" (Json.list? DirectiveNote.ofJson?) []
      superDirectives := ← fs.defaulted "superDirectives" (Json.list? DirectiveNote.ofJson?) []
      interfaceDirectives := ← fs.defaulted "interfaceDirectives"
        (Json.map? ClassName.mk (Json.list? DirectiveNote.ofJson?)) .empty }

end ClassTree

end ClassWeave
