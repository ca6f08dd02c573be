import ClassWeave.Descriptor
import ClassWeave.Text.Blank

/-!
# Members, instructions and bodies

A body keeps the instructions that name a class or a member; everything else in it is raw text. A
body may also be a placeholder that fails as soon as it is entered.
-/

namespace ClassWeave

inductive MemberKind where
  | field
  | method
  deriving DecidableEq, Repr, Inhabited

namespace MemberKind

/-- Fields stand before methods. -/
def rank : MemberKind → Nat
  | field => 0
  | method => 1

end MemberKind

/-- How a member is addressed inside one class. -/
structure MemberKey where
  name : String
  desc : String
  kind : MemberKind
  deriving DecidableEq, Repr, Inhabited

namespace MemberKey

/-- By name, then by descriptor, then by kind. -/
instance : Ord MemberKey :=
  ⟨compareLex (compareOn name) (compareLex (compareOn desc) (compareOn fun k ↦ k.kind.rank))⟩

instance : Std.TransOrd MemberKey :=
  inferInstanceAs (Std.TransCmp
    (compareLex (compareOn name) (compareLex (compareOn desc) (compareOn fun k ↦ k.kind.rank))))

instance : Std.LawfulEqOrd MemberKey where
  eq_of_compare {a b} h := by
    have h : compareLex (compareOn name) (compareLex (compareOn desc)
      (compareOn fun k ↦ k.kind.rank)) a b = .eq := h
    simp only [compareLex_eq_eq, compareOn] at h
    obtain ⟨hn, hd, hk⟩ := h
    cases a with | mk an ad ak =>
    cases b with | mk bn bd bk =>
    cases ak <;> cases bk <;> simp_all [MemberKind.rank]

def text (k : MemberKey) : String := k.name ++ " " ++ k.desc

end MemberKey

/-! ### Instructions -/

inductive FieldAccess where
  | get
  | put
  | getStatic
  | putStatic
  deriving DecidableEq, Repr, Inhabited

namespace FieldAccess

def isGet : FieldAccess → Bool
  | get | getStatic => true
  | put | putStatic => false

def isStatic : FieldAccess → Bool
  | getStatic | putStatic => true
  | get | put => false

def ofParts : (isGet isStatic : Bool) → FieldAccess
  | true, false => get
  | true, true => getStatic
  | false, false => put
  | false, true => putStatic

end FieldAccess

inductive InvokeKind where
  | virtual
  | static
  | special
  | interface
  deriving DecidableEq, Repr, Inhabited

inductive TypeUse where
  | new
  | checkCast
  | instanceOf
  deriving DecidableEq, Repr, Inhabited

/-- What an instruction does with the member that it names. -/
inductive MemberUse where
  | field (access : FieldAccess)
  | invoke (kind : InvokeKind)
  deriving DecidableEq, Repr, Inhabited

/-- The kind of member that can be used in this way. -/
def MemberUse.kind : MemberUse → MemberKind
  | field _ => .field
  | invoke _ => .method

inductive Insn where
  | member (use : MemberUse) (owner : ClassName) (name desc : String)
  | type (use : TypeUse) (cls : ClassName)
  | raw (text : String)
  deriving DecidableEq, Repr, Inhabited

namespace Insn

/-- Whether this is a raw instruction with the given upper-case word as its text, blanks around it
and the case of its letters aside. -/
def isRaw (word : String) : Insn → Bool
  | raw text => (Text.trim text).toUpper = word
  | _ => false

end Insn

/-- The name of every constructor. -/
def constructorName : String := "<init>"

/-! ### Bodies -/

/-- What a placeholder raises when it is entered. -/
inductive Fault where
  | unimplemented (owner : ClassName) (member : String) (version : Version)
  | crossVersionMisuse (owner : ClassName) (member : String) (allowed : List Version)
  deriving DecidableEq, Repr, Inhabited

def Fault.message : Fault → String
  | unimplemented owner member version =>
    owner.text ++ "." ++ member ++ " has no implementation for version " ++ version.id
  | crossVersionMisuse owner member allowed =>
    owner.text ++ "." ++ member ++ " is only valid for versions " ++ Version.quotedList allowed

inductive Body where
  | code (maxLocals : UInt16) (insns : List Insn)
  | fails (fault : Fault)
  deriving DecidableEq, Repr, Inhabited

namespace Body

def maxLocals : Body → UInt16
  | code n _ => n
  | fails _ => 0

def isPlaceholder : Body → Bool
  | code .. => false
  | fails _ => true

/-- The instructions of the body, or what a placeholder raises. -/
def enter : Body → Except Fault (List Insn)
  | code _ insns => .ok insns
  | fails fault => .error fault

/-- The instructions of the body; a placeholder has none. -/
def insns : Body → List Insn
  | code _ insns => insns
  | fails _ => []

/-- Replaces the instructions; a placeholder stays as it is. -/
def withInsns (insns : List Insn) : Body → Body
  | code n _ => code n insns
  | fails fault => fails fault

end Body

end ClassWeave
