import ClassWeave.Chain
import ClassWeave.Tree.Basic

/-!
# The known superclasses

A hierarchy gives classes a superclass, in each version separately. `Hierarchy.chain` walks it up to
the root; a chain that ends elsewhere, at an unknown class or in a cycle, is truncated.
-/

namespace ClassWeave

/-- A class as one version declares it. -/
structure Occurrence where
  version : Version
  cls : ClassName
  deriving DecidableEq, Repr

namespace Occurrence

instance : Ord Occurrence := ⟨compareLex (compareOn version) (compareOn cls)⟩

instance : Std.TransOrd Occurrence :=
  inferInstanceAs (Std.TransCmp (compareLex (compareOn version) (compareOn cls)))

instance : Std.LawfulEqOrd Occurrence where
  eq_of_compare {a b} h := by
    have h : compareLex (compareOn version) (compareOn cls) a b = .eq := h
    simp only [compareLex_eq_eq, compareOn] at h
    obtain ⟨hv, hc⟩ := h
    cases a; cases b
    simp_all

end Occurrence

structure Hierarchy where
  supers : OrderedMap Occurrence ClassName

namespace Hierarchy

/-- The hierarchy that knows nothing. -/
def empty : Hierarchy := ⟨.empty⟩

def insert (h : Hierarchy) (v : Version) (cls superclass : ClassName) : Hierarchy :=
  ⟨h.supers.insert ⟨v, cls⟩ superclass⟩

/-- The hierarchy of the given trees, where a later tree counts before an earlier one. -/
def ofTrees (trees : List (Version × ClassTree)) : Hierarchy :=
  trees.foldl (fun h t ↦ h.insert t.1 t.2.name t.2.superclass) empty

def size (h : Hierarchy) : Nat := h.supers.size

def isEmpty (h : Hierarchy) : Bool := h.supers.isEmpty

/-- The superclass of a class in a version, where it is known. -/
def superOf? (h : Hierarchy) (cls : ClassName) (v : Version) : Option ClassName :=
  h.supers.get? ⟨v, cls⟩

/-- The class above; the root has none. -/
def above? (h : Hierarchy) (v : Version) (cls : ClassName) : Option ClassName :=
  if cls.isObject then none else h.superOf? cls v

/-- The superclass chain from a class on. -/
def chain (h : Hierarchy) (v : Version) (start : ClassName) : List ClassName :=
  Chain.walk (h.above? v) h.size [] start

/-- Whether a chain ends before it reaches the root. -/
def isTruncated (chain : List ClassName) : Bool := chain.getLast? ≠ some .object

end Hierarchy

end ClassWeave
