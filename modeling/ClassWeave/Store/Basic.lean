import ClassWeave.Store.Error
import ClassWeave.Tree.Basic

/-!
# What a run needs of a store

A run reads all its input before it writes anything, so its input is a snapshot: a `Source`. Its
output changes with every class written; `Output σ` has the operations on a state `σ` that a run
uses. A lease is the exclusive hold on the output of one class.
-/

namespace ClassWeave

/-- The class trees that a store holds at one moment. -/
structure Source where
  read : ClassName → Version → Except StoreError ClassTree
  readMerged : ClassName → Except StoreError ClassTree
  /-- The classes of a version, or those without version, in ascending order. -/
  list : Option Version → Except StoreError (List ClassName)

/-- The operations of a store that is written to. A failure may leave traces in the state. -/
structure Output (σ : Type) where
  write : ClassName → ClassTree → σ → Except StoreError Unit × σ
  lease : ClassName → σ → Except StoreError Unit × σ
  release : ClassName → σ → σ

end ClassWeave
