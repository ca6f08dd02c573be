import ClassWeave.Merged.Basic

/-!
# One visibility for all versions

The physical visibility is the widest that some version declares; a version that declares a
narrower one keeps it in the table.
-/

namespace ClassWeave

/-- The widest of the levels; the widest of none is public. -/
def Visibility.widest : List Visibility → Visibility
  | [] => .publicAccess
  | v :: vs => vs.foldl wider v

/-- The table of the declared visibilities. -/
def reconcileAccess (declared : List (Version × Visibility)) : Versioned Visibility :=
  let physical := Visibility.widest (declared.map (·.2))
  ⟨physical, .ofList (declared.filter (·.2 ≠ physical))⟩

end ClassWeave
