import ClassWeave.CallSite
import ClassWeave.Log
import ClassWeave.Reference
import ClassWeave.Split.Hook
import ClassWeave.Split.Problem

/-!
# Projecting a merged class onto one version

The projection of a merged class is the tree that the target version would have compiled to, as its
directives want it. The directives of a member are tried in the order of their kinds until one
decides:

* `remove` drops the member;
* `replace` drops it and redirects its call sites to what its pointer names;
* `stub` keeps it, as a failing placeholder if need be, and redirects the call sites of what its
  pointer names;
* `modify` passes its body through a patch hook.

A member that no directive decides is kept where the target declares it. On the class, `remove`
drops all of it and a `stub` lets it stand in for another type; a class with stubs exists only in
the versions that they name.
-/

namespace ClassWeave

/-! ### One member -/

/-- What becomes of a member. -/
structure MemberOutcome where
  decl : Option Member
  redirects : List Redirect := []
  warnings : List SplitWarning := []

/-- The outcome with a warning before the others. -/
def MemberOutcome.after (o : MemberOutcome) (w : SplitWarning) : MemberOutcome :=
  { o with warnings := w :: o.warnings }

namespace MergedMember

/-- The member as the target declares it, with the given body. -/
def emit (m : MergedMember) (target : Version) (body : Option Body) : Member where
  name := m.declaredName
  desc := m.desc
  kind := m.kind
  isStatic := m.isStatic
  isSynthetic := m.compilerGenerated
  access := m.access.forVersion target
  body := body

/-- What becomes of a member that no directive decides. Bridges serve only code that was compiled
against the merged class. -/
def undirected (m : MergedMember) (target : Version) : MemberOutcome :=
  if m.isBridge || !m.inVersion target then ⟨none, [], []⟩
  else ⟨some (m.emit target (m.bodies.get? target)), [], []⟩

/-- The redirects from the call sites of a member to what it is replaced by. -/
def replacements (cls : ClassName) (m : MergedMember) (b : Binding) : List Redirect :=
  let site (usage : SiteUse) : CallSite := ⟨cls, m.declaredName, m.desc, usage⟩
  match m.kind with
  | .method => [⟨site .call, b.accessInsn (!Descriptor.returnsVoid m.desc)⟩]
  | .field => [⟨site .get, b.accessInsn true⟩, ⟨site .put, b.accessInsn false⟩]

/-- The redirects from the call sites of what a stub stands for to the stub. -/
def stubRedirects (cls : ClassName) (m : MergedMember) (r : Ref) : Except String (List Redirect) :=
  if r.desc.isEmpty then .error ("cannot derive a descriptor for " ++ r.text)
  else
    let site (usage : SiteUse) : CallSite := ⟨r.owner, r.member, r.desc, usage⟩
    let access (get : Bool) : Insn :=
      .member (.field (.ofParts get m.isStatic)) cls m.declaredName m.desc
    let call : Insn :=
      .member (.invoke (Binding.invokeKind m.isStatic m.declaredName)) cls m.declaredName m.desc
    .ok <|
      match m.kind, r.isField with
      | .field, _ => [⟨site .get, access true⟩, ⟨site .put, access false⟩]
      | .method, true => [⟨site (if Descriptor.returnsVoid m.desc then .put else .get), call⟩]
      | .method, false => [⟨site .call, call⟩]

/-- The body of a stub: that of the target, or a placeholder for a method that has none. -/
def stubBody (m : MergedMember) (target : Version) (cls : ClassName) :
    Option Body × List SplitWarning :=
  match m.kind, m.bodies.get? target with
  | .field, _ => (none, [])
  | .method, some body => (some body, [])
  | .method, none =>
    (some (.fails (.unimplemented cls m.declaredName target)),
      [.missingStubBody cls m.declaredName target])

/-- What becomes of a member that a stub directive decides. -/
def stubbed (cls : ClassName) (m : MergedMember) (d : Directive) (target : Version) :
    MemberOutcome :=
  let (body, warnings) := m.stubBody target cls
  let (redirects, more) : List Redirect × List SplitWarning :=
    match d.target.map (m.stubRedirects cls) with
    | none => ([], [])
    | some (.ok rs) => (rs, [])
    | some (.error reason) => ([], [.directiveFailed cls m.declaredName d.kind reason])
  ⟨some (m.emit target body), redirects, warnings ++ more⟩

end MergedMember

/-! ### One class -/

/-- What a projection draws on: the patch hooks and the classes that pointers may name. -/
structure Projector where
  hooks : HookRegistry
  lookup : ClassLookup

structure ProjectedClass where
  tree : ClassTree
  redirects : List Redirect
  typeRemaps : List TypeRemap
  warnings : List SplitWarning
  deriving DecidableEq

inductive Projection where
  | projected (p : ProjectedClass)
  /-- The class does not exist in the target version. -/
  | removed
  deriving DecidableEq

def Projection.projected? : Projection → Option ProjectedClass
  | projected p => some p
  | removed => none

/-- What the directives on a class say about it. -/
inductive ClassFate where
  | removed
  /-- The class has stubs, none of them for the target. -/
  | unused (warnings : List SplitWarning)
  | kept (typeRemaps : List TypeRemap) (warnings : List SplitWarning)

/-- A projection before the constructors are detached from a removed superclass. -/
structure Draft where
  inheritance : Inheritance
  removedSuper : Option ClassName
  members : List Member
  redirects : List Redirect
  typeRemaps : List TypeRemap
  warnings : List SplitWarning

def ClassFate.ofDirectives (cls : ClassName) (ds : List Directive) (target : Version) : ClassFate :=
  let chosen := applicable ds target
  if chosen.any (·.kind = .remove) then .removed
  else
    let stubs := chosen.filter (·.kind = .stub)
    let warnings := (chosen.filter fun d ↦ d.kind ≠ .stub || d.target.isNone).map fun d ↦
      SplitWarning.ignoredDirective cls "class" d.kind
    if stubs.isEmpty && ds.any (·.kind = .stub) then .unused warnings
    else .kept (stubs.filterMap fun d ↦ d.target.map fun r ↦ ⟨r.owner, cls⟩) warnings

namespace Projector

/-- Resolves the pointer of a replacement. -/
def bindReplacement (p : Projector) (d : Directive) (target : Version) : Except String Binding :=
  match d.target with
  | none => .error "no ref to replace with"
  | some r =>
    match r.resolve target p.lookup with
    | .ok b => .ok b
    | .error e => .error e.message

/-- Runs the hook of a modification over the body of a member. -/
def modify (p : Projector) (c : MergedClass) (m : MergedMember) (d : Directive)
    (target : Version) : Except String Body :=
  match d.target with
  | none => .error "no ref naming a patch hook"
  | some r =>
    match p.hooks.get? r.owner r.member, m.bodies.get? target with
    | none, _ => .error ("no patch hook registered for " ++ r.owner.text ++ "." ++ r.member)
    | some _, none => .error ("no body to patch for version " ++ target.id)
    | some hook, some body =>
      match hook body body.maxLocals m.physicalName c with
      | .ok body => .ok body
      | .error e => .error e.message

/-- Tries directives in turn until one decides what becomes of a member. -/
def settle (p : Projector) (c : MergedClass) (m : MergedMember) (target : Version) :
    List Directive → MemberOutcome
  | [] => m.undirected target
  | d :: rest =>
    let failed (reason : String) : MemberOutcome :=
      (p.settle c m target rest).after (.directiveFailed c.name m.declaredName d.kind reason)
    match d.kind with
    | .remove => ⟨none, [], []⟩
    | .replace =>
      match p.bindReplacement d target with
      | .ok b => ⟨none, m.replacements c.name b, []⟩
      | .error reason => failed reason
    | .stub => m.stubbed c.name d target
    | .modify =>
      match p.modify c m d target with
      | .ok body => ⟨some (m.emit target (some body)), [], []⟩
      | .error reason => failed reason

/-- What becomes of a member under its directives. -/
def projectMember (p : Projector) (c : MergedClass) (ds : List Directive) (target : Version)
    (m : MergedMember) : MemberOutcome :=
  p.settle c m target (applicable ds target)

/-- The superclass after the directives on its edge: the one removed, if any, and the warnings. -/
def superSite (cls : ClassName) (superclass : ClassName) (ds : List Directive) (target : Version) :
    Option ClassName × List SplitWarning :=
  let chosen := applicable ds target
  (if chosen.any (·.kind = .remove) && !superclass.isObject then some superclass else none,
    (chosen.filter (·.kind ≠ .remove)).map fun d ↦ .ignoredDirective cls "superclass" d.kind)

/-- The interfaces whose edges are removed, and the warnings. -/
def interfaceSites (cls : ClassName) (sites : OrderedMap ClassName (List Directive))
    (target : Version) : List ClassName × List SplitWarning :=
  ((sites.entries.filter fun e ↦ (applicable e.2 target).any (·.kind = .remove)).map (·.1),
    sites.entries.flatMap fun e ↦
      ((applicable e.2 target).filter (·.kind ≠ .remove)).map fun d ↦
        .ignoredDirective cls ("interface " ++ e.1.text) d.kind)

/-- Everything about a kept class but its detached constructors. -/
def draft (p : Projector) (c : MergedClass) (ds : ClassDirectives) (target : Version)
    (typeRemaps : List TypeRemap) (warnings : List SplitWarning) : Draft :=
  let declared := c.inheritance.forVersion target
  let (removedSuper, superWarnings) := superSite c.name declared.superclass ds.superclass target
  let (removedInterfaces, interfaceWarnings) := interfaceSites c.name ds.interfaces target
  let outcomes := c.members.map fun m ↦ p.projectMember c (ds.forMember m.key) target m
  { inheritance :=
      { superclass := if removedSuper.isSome then .object else declared.superclass
        interfaces := declared.interfaces.filter (!removedInterfaces.contains ·) }
    removedSuper := removedSuper
    members := outcomes.filterMap (·.decl)
    redirects := outcomes.flatMap (·.redirects)
    typeRemaps := typeRemaps
    warnings := warnings ++ superWarnings ++ interfaceWarnings ++ outcomes.flatMap (·.warnings) }

/-- Lets the first constructor call of a removed superclass call the root's constructor. -/
def detachInsns (cls superclass : ClassName) : List Insn → Except SplitError (List Insn)
  | [] => .ok []
  | insn :: rest =>
    match insn with
    | .member (.invoke .special) owner name desc =>
      if owner = superclass ∧ name = constructorName then
        if desc = "()V" then .ok (.member (.invoke .special) .object name desc :: rest)
        else .error (.superConstructorArguments cls superclass desc)
      else (insn :: ·) <$> detachInsns cls superclass rest
    | _ => (insn :: ·) <$> detachInsns cls superclass rest

/-- Detaches a member from a removed superclass, if it is a constructor. -/
def detachMember (cls superclass : ClassName) (m : Member) : Except SplitError Member :=
  match m.kind = .method && m.name = constructorName, m.body with
  | true, some body => do
    let insns ← detachInsns cls superclass body.insns
    return { m with body := some (body.withInsns insns) }
  | _, _ => .ok m

def detach (cls : ClassName) (removedSuper : Option ClassName) (ms : List Member) :
    Except SplitError (List Member) :=
  match removedSuper with
  | none => .ok ms
  | some superclass => ms.mapM (detachMember cls superclass)

/-- Projects a merged class onto a version. -/
def project (p : Projector) (c : MergedClass) (ds : ClassDirectives) (target : Version) :
    Except SplitError Projection :=
  if target ∉ c.versions then .ok .removed
  else
    match ClassFate.ofDirectives c.name ds.cls target with
    | .removed | .unused _ => .ok .removed
    | .kept typeRemaps warnings => do
      let draft := p.draft c ds target typeRemaps warnings
      let members ← detach c.name draft.removedSuper draft.members
      return .projected {
        tree :=
          { name := c.name
            access := c.access.forVersion target
            superclass := draft.inheritance.superclass
            interfaces := draft.inheritance.interfaces
            members := members }
        redirects := draft.redirects
        typeRemaps := draft.typeRemaps
        warnings := draft.warnings }

/-- The events of a projection, up to the point where it fails. -/
def events (p : Projector) (c : MergedClass) (ds : ClassDirectives) (target : Version) :
    List Event :=
  let warned (ws : List SplitWarning) : List Event := ws.map fun w ↦ .splitWarning w.message
  if target ∉ c.versions then [.absentInTarget c.name target]
  else
    match ClassFate.ofDirectives c.name ds.cls target with
    | .removed => [.removedByDirective c.name target]
    | .unused warnings => warned warnings ++ [.unusedStub c.name target]
    | .kept typeRemaps warnings =>
      let draft := p.draft c ds target typeRemaps warnings
      let last : List Event :=
        match detach c.name draft.removedSuper draft.members with
        | .ok members => [.projectedClass c.name target members.length draft.redirects.length
          draft.typeRemaps.length]
        | .error _ => []
      warned draft.warnings ++ last

/-- The projector of a class that refers to no other class and to no hook. -/
def alone (c : MergedClass) : Projector where
  hooks := .empty
  lookup cls v := if cls = c.name then c.view? v else none

end Projector

/-- Projects a merged class whose directives point only into itself. -/
def MergedClass.split (c : MergedClass) (target : Version) (ds : ClassDirectives) :
    Except SplitError Projection :=
  (Projector.alone c).project c ds target

end ClassWeave
