import ClassWeave.Link.Index
import ClassWeave.Split.Problem

/-!
# Mentions of what the target does not have

`leaks` goes through a projected tree and lists each mention of a merged class that does not exist
in the target, and each use of a member that the target's superclass chain declares for other
versions only. A class that is not in the index belongs to the platform and is never listed.
-/

namespace ClassWeave

namespace MergedIndex

/-- A leak for each class of the index that does not exist in the target. -/
def classLeaks (i : MergedIndex) (target : Version) (site : String) (cs : List ClassName) :
    List Leak :=
  cs.filterMap fun c ↦
    match i.get? c with
    | some merged => if target ∈ merged.versions then none else some (.absentClass site c target)
    | none => none

/-- The superclass that the target gives a class of the index. Unlike a view, the table also has an
answer for a class that does not exist in the target. -/
def above? (i : MergedIndex) (target : Version) (c : ClassName) : Option ClassName :=
  (i.get? c).map (·.superclassIn target)

/-- The classes on which a member of `owner` may be declared. Constructors are not inherited. -/
def memberChain (i : MergedIndex) (target : Version) (owner : ClassName) (key : MemberKey) :
    List ClassName :=
  if key.kind = .method ∧ key.name = constructorName then [owner]
  else Chain.walk (i.above? target) i.size [] owner

/-- What a class of the index declares under a key, for any versions. -/
def declared (i : MergedIndex) (key : MemberKey) (c : ClassName) : List MergedMember :=
  match i.get? c with
  | some merged => merged.declared key
  | none => []

/-- Whether classes of a chain declare a member, but none of them for the target. -/
def isMemberLeak (i : MergedIndex) (target : Version) (owner : ClassName) (key : MemberKey) :
    Bool :=
  let declared := (i.memberChain target owner key).flatMap (i.declared key)
  !declared.isEmpty && declared.all fun m ↦ !m.inVersion target

/-- The leaks of one instruction of a body. -/
def insnLeaks (i : MergedIndex) (target : Version) (site : String) : Insn → List Leak
  | .type _ cls => i.classLeaks target site [(Descriptor.elementClass? cls.text).getD cls]
  | .member use owner name desc =>
    let key : MemberKey := ⟨name, desc, use.kind⟩
    i.classLeaks target site (owner :: Descriptor.referencedClasses desc) ++
      if i.isMemberLeak target owner key then [.absentMember site owner key target] else []
  | .raw _ => []

def bodyLeaks (i : MergedIndex) (target : Version) (m : Member) : List Leak :=
  match m.body with
  | some body => body.insns.flatMap (i.insnLeaks target (m.name ++ m.desc))
  | none => []

/-- Every leak of a tree: of its edges, of the signatures, of the bodies. -/
def leaks (i : MergedIndex) (target : Version) (t : ClassTree) : List Leak :=
  i.classLeaks target "superclass" [t.superclass] ++
    i.classLeaks target "interface" t.interfaces ++
    t.members.flatMap (fun m ↦
      i.classLeaks target ("signature of " ++ m.name) (Descriptor.referencedClasses m.desc)) ++
    t.members.flatMap (i.bodyLeaks target)

/-- Refuses a tree with leaks. -/
def check (i : MergedIndex) (target : Version) (t : ClassTree) : Except SplitError Unit :=
  match i.leaks target t with
  | [] => .ok ()
  | leaks => .error (.versionLeak t.name target leaks)

end MergedIndex

end ClassWeave
