import ClassWeave.ClassName

/-!
# Chains of classes

Walking from a class to its superclass and on ends at a class without superclass, or before a class
that was passed already. The walk takes its bound from the number of classes that have a superclass
at all, which it cannot exceed without passing one of them twice.
-/

namespace ClassWeave.Chain

/-- The classes from `c` on, after those in `passed`, in at most `fuel` steps. -/
def walk (next : ClassName → Option ClassName) :
    Nat → List ClassName → ClassName → List ClassName
  | 0, _, c => [c]
  | fuel + 1, passed, c =>
    match next c with
    | none => [c]
    | some d => if d = c ∨ d ∈ passed then [c] else c :: walk next fuel (c :: passed) d

end ClassWeave.Chain
