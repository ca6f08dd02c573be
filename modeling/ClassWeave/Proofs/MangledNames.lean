import ClassWeave.Proofs.Names
import Mathlib.Data.String.Basic

/-!
# When two mangled names are one

A declared name, the marker and a tag in a row can be divided in several ways, since the declared
name may itself have markers in it. The tag cannot: it has no dollar sign, whatever the text of the
version was. So the last marker is the one that the mangling has put in, and two mangled names are
equal exactly if the declared names are and the tags of the first versions are
(`mangle_injective_upToTag`).

The first version of a set is said here without the set's representation, as the one whose text
comes before the texts of all others (`Version.IsFirstOf`). First versions with one tag are not told
apart: under them a declared name has one mangled name, however the versions differ.
-/

namespace ClassWeave

variable {s t : VersionSet} {v w : Version}

/-! ### The first version of a set -/

namespace Version

/-- Versions are ordered as their texts are, character by character. -/
theorem isLE_compare_iff : (compare v w).isLE = true ↔ v.id ≤ w.id := by
  have htexts : compare v w = compare v.id w.id := rfl
  rw [htexts, Ordering.isLE_iff_ne_gt]
  exact compare_le_iff_le

/-- The text of the version comes first among the texts of the set. -/
def IsFirstOf (v : Version) (s : VersionSet) : Prop := v ∈ s ∧ ∀ w ∈ s, v.id ≤ w.id

/-- The first version is the one by which the members of the set are told apart. -/
theorem isFirstOf_iff : v.IsFirstOf s ↔ s.min? = some v := by
  rw [IsFirstOf, OrderedSet.min?_eq_some_iff]
  simp only [isLE_compare_iff]

/-- A set that has a version has a first one. -/
theorem exists_isFirstOf (hs : ∃ v, v ∈ s) : ∃ v : Version, v.IsFirstOf s := by
  obtain ⟨_, hs⟩ := hs
  obtain ⟨v, -, hv⟩ := OrderedSet.exists_min? hs
  exact ⟨v, isFirstOf_iff.2 hv⟩

end Version

/-! ### Mangled names -/

/-- **Mangling is injective up to the tag**, for declared names with any markers in them: two
mangled names are equal exactly if the declared names are and the first versions have one tag. -/
theorem mangle_injective_upToTag (name name' : String) (hs : ∃ v, v ∈ s) (ht : ∃ v, v ∈ t) :
    mangle name s = mangle name' t ↔
      name = name' ∧ ∃ v w : Version, v.IsFirstOf s ∧ w.IsFirstOf t ∧ v.tag = w.tag := by
  obtain ⟨v, hv⟩ := Version.exists_isFirstOf hs
  obtain ⟨w, hw⟩ := Version.exists_isFirstOf ht
  have hvmin := Version.isFirstOf_iff.1 hv
  have hwmin := Version.isFirstOf_iff.1 hw
  rw [mangle_eq_mangle_iff_of_min? hvmin hwmin]
  refine and_congr_right fun _ ↦ ⟨fun htag ↦ ⟨v, w, hv, hw, htag⟩, ?_⟩
  rintro ⟨v', w', hv', hw', htag⟩
  -- a set has one first version only
  obtain rfl : v = v' := Option.some.inj (hvmin.symm.trans (Version.isFirstOf_iff.1 hv'))
  obtain rfl : w = w' := Option.some.inj (hwmin.symm.trans (Version.isFirstOf_iff.1 hw'))
  exact htag

/-- A name with a marker in it, mangled for two sets whose first versions have one tag. The names
`x$mv$a` of `b` and `x` of `a$mv$b` would meet if a tag were the text of the version as it is. -/
theorem mangle_injective_upToTag_markerInName :
    (∃ v, v ∈ (.ofList [⟨"2.0"⟩, ⟨"1.20"⟩] : VersionSet)) ∧
      (∃ v, v ∈ (.ofList [⟨"1-20"⟩] : VersionSet)) ∧
      mangle "x$mv$a" (.ofList [⟨"2.0"⟩, ⟨"1.20"⟩]) = mangle "x$mv$a" (.ofList [⟨"1-20"⟩]) ∧
      mangle "x$mv$a" (.ofList [⟨"b"⟩]) ≠ mangle "x" (.ofList [⟨"a$mv$b"⟩]) := by
  have htwo : ∃ v, v ∈ (.ofList [⟨"2.0"⟩, ⟨"1.20"⟩] : VersionSet) := ⟨⟨"2.0"⟩, by decide⟩
  have hone : ∃ v, v ∈ (.ofList [⟨"1-20"⟩] : VersionSet) := ⟨⟨"1-20"⟩, by decide⟩
  refine ⟨htwo, hone, ?_, fun h ↦ ?_⟩
  · refine (mangle_injective_upToTag _ _ htwo hone).2 ⟨rfl, ⟨"1.20"⟩, ⟨"1-20"⟩, ?_⟩
    simp only [Version.isFirstOf_iff]
    decide
  · have hname := ((mangle_injective_upToTag "x$mv$a" "x" ⟨⟨"b"⟩, by decide⟩
      ⟨⟨"a$mv$b"⟩, by decide⟩).1 h).1
    exact absurd hname (by decide)

end ClassWeave
