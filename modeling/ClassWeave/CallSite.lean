import ClassWeave.Tree.Code

/-!
# Call sites

A call site is a member together with the way in which an instruction uses it. A redirect sends a
call site to another instruction, a type remap lets one class stand in for another.
-/

namespace ClassWeave

inductive SiteUse where
  | call
  | get
  | put
  deriving DecidableEq, Repr, Inhabited

namespace SiteUse

def rank : SiteUse → Nat
  | call => 0
  | get => 1
  | put => 2

def word : SiteUse → String
  | call => "call"
  | get => "get"
  | put => "put"

/-- The kind of member that is used in this way. -/
def kind : SiteUse → MemberKind
  | call => .method
  | get | put => .field

end SiteUse

structure CallSite where
  owner : ClassName
  name : String
  desc : String
  usage : SiteUse
  deriving DecidableEq, Repr, Inhabited

namespace CallSite

instance : Ord CallSite :=
  ⟨compareLex (compareOn owner) (compareLex (compareOn name) (compareLex (compareOn desc)
    (compareOn fun s ↦ s.usage.rank)))⟩

instance : Std.TransOrd CallSite :=
  inferInstanceAs (Std.TransCmp (compareLex (compareOn owner) (compareLex (compareOn name)
    (compareLex (compareOn desc) (compareOn fun s ↦ s.usage.rank)))))

instance : Std.LawfulEqOrd CallSite where
  eq_of_compare {a b} h := by
    have h : compareLex (compareOn owner) (compareLex (compareOn name) (compareLex (compareOn desc)
      (compareOn fun s ↦ s.usage.rank))) a b = .eq := h
    simp only [compareLex_eq_eq, compareOn] at h
    obtain ⟨ho, hn, hd, hu⟩ := h
    cases a with | mk ao an ad au =>
    cases b with | mk bo bn bd bu =>
    cases au <;> cases bu <;> simp_all [SiteUse.rank]

def text (s : CallSite) : String :=
  s.usage.word ++ " " ++ s.owner.text ++ "." ++ s.name ++ " " ++ s.desc

/-- A constructor call. -/
def isConstruction (s : CallSite) : Bool := s.name = constructorName && s.usage = .call

end CallSite

def MemberUse.siteUse : MemberUse → SiteUse
  | field access => if access.isGet then .get else .put
  | invoke _ => .call

/-- The call site of an instruction that names a member. -/
def Insn.site? : Insn → Option CallSite
  | member use owner name desc => some ⟨owner, name, desc, use.siteUse⟩
  | _ => none

/-- The instruction that takes the place of a call site. -/
structure Redirect where
  site : CallSite
  replacement : Insn
  deriving DecidableEq, Repr

/-- The class that takes the place of another one. -/
structure TypeRemap where
  cls : ClassName
  standIn : ClassName
  deriving DecidableEq, Repr

end ClassWeave
