import ClassWeave.Store.Basic

/-!
# Stores in memory
-/

namespace ClassWeave

/-- The place of a tree: a class, of one version or of none. -/
structure Slot where
  version : Option Version
  cls : ClassName
  deriving DecidableEq, Repr

namespace Slot

/-- The version as a text, those without version before all others. -/
def rank (s : Slot) : Option String := s.version.map (·.id)

instance : Ord Slot := ⟨compareLex (compareOn rank) (compareOn cls)⟩

instance : Std.TransOrd Slot :=
  inferInstanceAs (Std.TransCmp (compareLex (compareOn rank) (compareOn cls)))

instance : Std.LawfulEqOrd Slot where
  eq_of_compare {a b} h := by
    have h : compareLex (compareOn rank) (compareOn cls) a b = .eq := h
    simp only [compareLex_eq_eq, compareOn] at h
    have hv : a.rank = b.rank := Std.LawfulEqOrd.eq_of_compare h.1
    have hc : a.cls = b.cls := Std.LawfulEqOrd.eq_of_compare h.2
    clear h
    obtain ⟨av, ac⟩ := a
    obtain ⟨bv, bc⟩ := b
    cases av <;> cases bv <;> simp_all [rank, Version.ext_iff]

end Slot

structure MemoryStore where
  trees : OrderedMap Slot ClassTree
  leases : OrderedSet ClassName

namespace MemoryStore

def empty : MemoryStore := ⟨.empty, .empty⟩

instance : Inhabited MemoryStore := ⟨empty⟩

/-- Adds a tree under its own name. -/
def insert (m : MemoryStore) (version : Option Version) (t : ClassTree) : MemoryStore :=
  { m with trees := m.trees.insert ⟨version, t.name⟩ t }

def isLeased (m : MemoryStore) (c : ClassName) : Bool := c ∈ m.leases

def readSlot (m : MemoryStore) (c : ClassName) (version : Option Version) :
    Except StoreError ClassTree :=
  match m.trees.get? ⟨version, c⟩ with
  | some t => .ok t
  | none => .error (.notFound c version)

def list (m : MemoryStore) (version : Option Version) : List ClassName :=
  (m.trees.keys.filter (·.version = version)).map (·.cls)

def source (m : MemoryStore) : Source where
  read c v := m.readSlot c (some v)
  readMerged c := m.readSlot c none
  list version := .ok (m.list version)

/-- The source of a store that cannot be listed. -/
def unlistedSource (m : MemoryStore) : Source :=
  { m.source with list := fun version ↦ .error (.notFound ⟨"no/Listing"⟩ version) }

def write (c : ClassName) (t : ClassTree) (m : MemoryStore) : MemoryStore :=
  { m with trees := m.trees.insert ⟨none, c⟩ t }

def lease (c : ClassName) (m : MemoryStore) : Except StoreError Unit × MemoryStore :=
  if c ∈ m.leases then (.error (.locked c), m)
  else (.ok (), { m with leases := m.leases.insert c })

def release (c : ClassName) (m : MemoryStore) : MemoryStore :=
  { m with leases := ⟨m.leases.toList.filter (· ≠ c), m.leases.ascending.filter _⟩ }

def output : Output MemoryStore where
  write c t m := (.ok (), m.write c t)
  lease := lease
  release := release

end MemoryStore

end ClassWeave
