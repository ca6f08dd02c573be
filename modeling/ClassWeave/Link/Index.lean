import ClassWeave.Chain
import ClassWeave.Reference

/-!
# The merged classes of a split

An index holds merged classes by name. What a version makes of them is read through `view?`, and
`chain` follows the superclasses that a version gives them.
-/

namespace ClassWeave

structure MergedIndex where
  classes : OrderedMap ClassName MergedClass
  deriving DecidableEq

namespace MergedIndex

def empty : MergedIndex := ⟨.empty⟩

instance : Inhabited MergedIndex := ⟨empty⟩

/-- Adds a class, in place of an earlier one of the same name. -/
def insert (i : MergedIndex) (c : MergedClass) : MergedIndex := ⟨i.classes.insert c.name c⟩

def ofList (cs : List MergedClass) : MergedIndex := cs.foldl insert empty

def get? (i : MergedIndex) (c : ClassName) : Option MergedClass := i.classes.get? c

def contains (i : MergedIndex) (c : ClassName) : Bool := i.classes.contains c

def size (i : MergedIndex) : Nat := i.classes.size

def isEmpty (i : MergedIndex) : Bool := i.classes.isEmpty

/-- The class as a version declares it. -/
def view? (i : MergedIndex) : ClassLookup := fun c v ↦ i.get? c >>= fun m ↦ m.view? v

end MergedIndex

end ClassWeave
