import ClassWeave.Link.Construction
import ClassWeave.Link.Index
import ClassWeave.Link.Redirects

/-!
# Linking projected classes

Code that was compiled against merged classes uses physical names and bridges. The linker passes
over each body once, from front to back, and for each instruction

1. turns the call of a bridge that exists in the target into a cast to the bridge's type;
2. gives a merged member its declared name;
3. applies a redirect, looked up on the owner and then on each superclass that the target gives it,
   up to the class that declares the member;
4. adds a cast where the replacement leaves another type than the call site promised.

At the end `renameTypes` puts the stand-ins in the place of other classes, everywhere in the tree.
-/

namespace ClassWeave

structure Linker where
  index : MergedIndex
  redirects : RedirectTable
  target : Version

namespace Linker

/-! ### One instruction -/

/-- The cast that takes the place of a bridge call. -/
def bridgeCast? (l : Linker) : Insn → Option Insn
  | .member (.invoke _) owner name desc => do
    let merged ← l.index.get? owner
    let m ← merged.member? ⟨name, desc, .method⟩
    if m.isBridge && m.inVersion l.target then
      let ret ← (Descriptor.returnType desc).toOption
      let cls ← Descriptor.objectType? ret
      some (.type .checkCast cls)
    else none
  | _ => none

/-- The instruction with the declared name of a mangled member. -/
def demangle? (l : Linker) : Insn → Option Insn
  | .member use owner name desc => do
    let merged ← l.index.get? owner
    let m ← merged.member? ⟨name, desc, use.kind⟩
    if m.isMangled then some (.member use owner m.declaredName desc) else none
  | _ => none

/-- The superclass that the target gives a class. -/
def above? (l : Linker) (c : ClassName) : Option ClassName :=
  (l.index.view? c l.target).map (·.superclass)

/-- The owner of a member and its superclasses in the target. -/
def ownerChain (l : Linker) (c : ClassName) : List ClassName :=
  Chain.walk l.above? l.index.size [] c

/-- Whether a class declares, in the target, the member that a call site names. -/
def declares (l : Linker) (s : CallSite) (c : ClassName) : Bool :=
  (l.index.view? c l.target).any fun view ↦
    view.members.any fun m ↦ m.name = s.name && m.desc = s.desc && m.kind = s.usage.kind

/-- Looks for a redirect of a call site on each class of a list in turn, up to one that declares the
member. -/
def redirectOn? (l : Linker) (s : CallSite) : List ClassName → Option (CallSite × Insn)
  | [] => none
  | c :: rest =>
    let site := { s with owner := c }
    match l.redirects.get? site with
    | some replacement => some (site, replacement)
    | none => if l.declares s c then none else l.redirectOn? s rest

/-- The redirect of an instruction. Constructors are not inherited. -/
def redirectFor? (l : Linker) (insn : Insn) : Option (CallSite × Insn) := do
  let s ← insn.site?
  l.redirectOn? s (if s.name = constructorName then [s.owner] else l.ownerChain s.owner)

/-- The type that a call site leaves on the stack. -/
def expectedType? (s : CallSite) : Option String :=
  match s.usage with
  | .call => (Descriptor.returnType s.desc).toOption
  | .get => some s.desc
  | .put => none

/-- The type that an instruction leaves on the stack. -/
def producedType? : Insn → Option String
  | .member (.invoke _) _ _ desc => (Descriptor.returnType desc).toOption
  | .member (.field access) _ _ desc => if access.isGet then some desc else none
  | _ => none

/-- The class or array type that a cast to a type names. -/
def castClass? (desc : String) : Option ClassName :=
  if desc.toList.head? = some '[' then some (.ofText desc) else Descriptor.objectType? desc

/-- The cast from the type of a replacement to the one that its call site promised. -/
def returnCast? (s : CallSite) (replacement : Insn) : Option Insn := do
  let expected ← expectedType? s
  let produced ← producedType? replacement
  if expected = produced then none else some (.type .checkCast (← castClass? expected))

/-! ### One body -/

/-- What stands at the end of the instructions done when a redirect was applied, and the number of
casts added. -/
def applyRedirect (done : List Insn) (s : CallSite) (replacement : Insn) (next : Option Insn) :
    Option (List Insn × Nat) :=
  if s.isConstruction then (Construction.adapt done replacement s.owner).map (·, 0)
  else
    match returnCast? s replacement with
    | some cast =>
      if next.any (·.isRaw "POP") then some (done ++ [replacement], 0)
      else some (done ++ [replacement, cast], 1)
    | none => some (done ++ [replacement], 0)

/-- Links the instructions after those that are done. Gives all instructions and the number of
changes. -/
def linkFrom (l : Linker) (cls : ClassName) (member : String) (done : List Insn) :
    List Insn → Except SplitError (List Insn × Nat)
  | [] => .ok (done, 0)
  | insn :: rest =>
    match l.bridgeCast? insn with
    | some cast => (fun r ↦ (r.1, r.2 + 1)) <$> l.linkFrom cls member (done ++ [cast]) rest
    | none =>
      let declared := (l.demangle? insn).getD insn
      match l.redirectFor? declared with
      | none =>
        let changes := if (l.demangle? insn).isSome then 1 else 0
        (fun r ↦ (r.1, r.2 + changes)) <$> l.linkFrom cls member (done ++ [declared]) rest
      | some (site, replacement) =>
        match applyRedirect done site replacement rest.head? with
        | none => .error (.unmatchedConstructor cls member site.text)
        | some (done, casts) =>
          (fun r ↦ (r.1, r.2 + casts + 1)) <$> l.linkFrom cls member done rest

def linkBody (l : Linker) (cls : ClassName) (member : String) (insns : List Insn) :
    Except SplitError (List Insn × Nat) :=
  l.linkFrom cls member [] insns

/-- Links the body of a member. -/
def linkMember (l : Linker) (cls : ClassName) (m : Member) : Except SplitError (Member × Nat) :=
  match m.body with
  | none => .ok (m, 0)
  | some body => do
    let (insns, changes) ← l.linkBody cls m.name body.insns
    return ({ m with body := some (body.withInsns insns) }, changes)

end Linker

/-! ### Stand-ins -/

namespace RedirectTable

/-- A descriptor with the stand-ins in it; `none` where nothing changes. -/
def renameDesc? (t : RedirectTable) (desc : String) : Option String :=
  Descriptor.mapClasses t.typeFor? desc

/-- The stand-in of a class, or of the elements of an array type. -/
def renameClass? (t : RedirectTable) (c : ClassName) : Option ClassName :=
  if c.text.toList.head? = some '[' then (t.renameDesc? c.text).map .ofText else t.typeFor? c

def renameInsn? (t : RedirectTable) : Insn → Option Insn
  | .member use owner name desc =>
    match t.renameClass? owner, t.renameDesc? desc with
    | none, none => none
    | owner', desc' => some (.member use (owner'.getD owner) name (desc'.getD desc))
  | .type use cls => (t.renameClass? cls).map (.type use)
  | .raw _ => none

/-- A renaming applied, and the number of changes, which is one or none. -/
def counted {α : Type} (f : α → Option α) (a : α) : α × Nat :=
  match f a with
  | some b => (b, 1)
  | none => (a, 0)

/-- A renaming applied to each item of a list, and the number of changes. -/
def countedAll {α : Type} (f : α → α × Nat) (l : List α) : List α × Nat :=
  (l.map fun a ↦ (f a).1, (l.map fun a ↦ (f a).2).foldr (· + ·) 0)

def renameMember (t : RedirectTable) (m : Member) : Member × Nat :=
  let (desc, n) := counted t.renameDesc? m.desc
  match m.body with
  | none => ({ m with desc := desc }, n)
  | some body =>
    let (insns, k) := countedAll (counted t.renameInsn?) body.insns
    ({ m with desc := desc, body := some (body.withInsns insns) }, n + k)

/-- The tree with the stand-ins in the place of the classes, and the number of changes. -/
def renameTypes (t : RedirectTable) (tree : ClassTree) : ClassTree × Nat :=
  let (superclass, n) := counted t.renameClass? tree.superclass
  let (interfaces, k) := countedAll (counted t.renameClass?) tree.interfaces
  let (members, j) := countedAll t.renameMember tree.members
  ({ tree with superclass := superclass, interfaces := interfaces, members := members }, n + k + j)

end RedirectTable

namespace Linker

/-! ### One class -/

/-- Links every body of a tree and then renames its types. Gives the tree and the number of
changes. -/
def link (l : Linker) (tree : ClassTree) : Except SplitError (ClassTree × Nat) := do
  let members ← tree.members.mapM (l.linkMember tree.name)
  let (renamed, n) := l.redirects.renameTypes { tree with members := members.map (·.1) }
  return (renamed, (members.map (·.2)).foldr (· + ·) 0 + n)

def events (l : Linker) (tree : ClassTree) : List Event :=
  match l.link tree with
  | .ok (linked, changed) =>
    if 0 < changed then [.linkedClass linked.name l.target changed] else []
  | .error _ => []

end Linker

end ClassWeave
