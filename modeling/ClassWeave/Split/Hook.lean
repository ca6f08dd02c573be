import ClassWeave.Merged.Basic

/-!
# Patch hooks

A modifying directive names a hook by its owner and member. A hook changes the body of a member,
given the number of its locals, its physical name and the merged class; it may fail with a text. A
hook with a state of its own, and one that does not return, are not described.
-/

namespace ClassWeave

structure HookError where
  message : String
  deriving DecidableEq, Repr

/-- Changes a body, or says why it cannot. A hook is taken to be a pure total function: it always
comes to an end, what it answers depends on what it is given alone, and it leaves nothing behind. -/
abbrev Hook := (body : Body) → (maxLocals : UInt16) → (physicalName : String) →
  (owner : MergedClass) → Except HookError Body

/-- The name of a hook. -/
structure HookName where
  owner : ClassName
  member : String
  deriving DecidableEq, Repr

namespace HookName

instance : Ord HookName := ⟨compareLex (compareOn owner) (compareOn member)⟩

instance : Std.TransOrd HookName :=
  inferInstanceAs (Std.TransCmp (compareLex (compareOn owner) (compareOn member)))

instance : Std.LawfulEqOrd HookName where
  eq_of_compare {a b} h := by
    have h : compareLex (compareOn owner) (compareOn member) a b = .eq := h
    simp only [compareLex_eq_eq, compareOn] at h
    obtain ⟨ho, hm⟩ := h
    cases a; cases b
    simp_all

end HookName

structure HookRegistry where
  hooks : OrderedMap HookName Hook

namespace HookRegistry

def empty : HookRegistry := ⟨.empty⟩

instance : Inhabited HookRegistry := ⟨empty⟩

/-- Registers a hook, in place of an earlier one of the same name. -/
def register (r : HookRegistry) (owner : ClassName) (member : String) (hook : Hook) :
    HookRegistry :=
  ⟨r.hooks.insert ⟨owner, member⟩ hook⟩

def get? (r : HookRegistry) (owner : ClassName) (member : String) : Option Hook :=
  r.hooks.get? ⟨owner, member⟩

def size (r : HookRegistry) : Nat := r.hooks.size

def isEmpty (r : HookRegistry) : Bool := r.hooks.isEmpty

/-- The names of the hooks, as a text. -/
def describe (r : HookRegistry) : String :=
  "HookRegistry \x7b hooks: " ++
    Text.bracketed (r.hooks.keys.map fun k ↦
      "(" ++ k.owner.quoted ++ ", " ++ Text.quoted k.member ++ ")") ++ " \x7d"

end HookRegistry

end ClassWeave
