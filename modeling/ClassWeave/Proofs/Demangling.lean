import ClassWeave.Proofs.Names
import Mathlib.Data.List.Infix

/-!
# Taking mangled names apart

A mangled name is cut at its *first* marker. That the cut is at a marker and that no marker begins
before it is all there is to say about it (`splitAtMarker?_eq_some_iff`).

The marker that a mangling inserts is the *last* one, since a tag has no dollar sign. So a mangled
name gives back what it was made of exactly if the two are the same, that is if the declared name
and the start of the inserted marker have no marker in them (`demangle?_mangle`). Any other declared
name comes back shortened, up to its own first marker.
-/

namespace ClassWeave

variable {marker cs front back : List Char}

/-! ### Cutting at the first marker -/

/-- A marker that begins a text cannot begin further to the left in what precedes its last
character. -/
theorem not_infix_dropLast (hmarker : marker ≠ []) : ¬ marker <:+: marker.dropLast := by
  intro h
  have hle := h.length_le
  have hpos := List.length_pos_of_ne_nil hmarker
  rw [List.length_dropLast] at hle
  omega

/-- **A text is cut at its first marker**: none begins before the cut. Such a marker would end
before the last character of the one at which the text is cut. -/
theorem splitAtMarker?_eq_some_iff (hmarker : marker ≠ []) :
    splitAtMarker? marker cs = some (front, back) ↔
      cs = front ++ marker ++ back ∧ ¬ marker <:+: front ++ marker.dropLast := by
  induction cs generalizing front with
  | nil =>
    have hempty : marker.isEmpty = false := by simpa using hmarker
    rw [splitAtMarker?, if_neg (by simp [hempty])]
    simp [hmarker]
  | cons c cs ih =>
    rw [splitAtMarker?]
    by_cases hstart : marker <+: c :: cs
    · rw [if_pos (List.isPrefixOf_iff_prefix.2 hstart)]
      obtain ⟨rest, hrest⟩ := hstart
      rw [← hrest, List.drop_left]
      constructor
      · intro h
        cases h
        exact ⟨rfl, not_infix_dropLast hmarker⟩
      · rintro ⟨heq, hfirst⟩
        cases front with
        | nil => rw [List.append_cancel_left heq]
        | cons a front =>
          -- the marker at the start ends before the one at the cut does
          refine absurd (List.IsPrefix.isInfix ?_) hfirst
          have hlong : marker.length ≤ (a :: front ++ marker.dropLast).length := by
            rw [List.length_append, List.length_cons, List.length_dropLast]
            omega
          refine List.prefix_of_prefix_length_le ⟨rest, heq⟩ ?_ hlong
          rw [List.append_assoc, List.prefix_append_right_inj]
          exact (List.dropLast_prefix marker).trans (List.prefix_append marker back)
    · rw [if_neg (fun h ↦ hstart (List.isPrefixOf_iff_prefix.1 h)), Option.map_eq_some_iff]
      constructor
      · rintro ⟨⟨front', back'⟩, hcut, heq⟩
        obtain ⟨rfl, rfl⟩ : c :: front' = front ∧ back' = back := Prod.mk.inj heq
        obtain ⟨rfl, hfirst⟩ := ih.1 hcut
        refine ⟨rfl, fun hinfix ↦ ?_⟩
        rw [List.cons_append, List.infix_cons_iff] at hinfix
        rcases hinfix with hbegins | hinfix
        · refine hstart (hbegins.trans (List.cons_prefix_cons.2 ⟨rfl, ?_⟩))
          rw [List.append_assoc, List.prefix_append_right_inj]
          exact (List.dropLast_prefix marker).trans (List.prefix_append marker back')
        · exact hfirst hinfix
      · rintro ⟨heq, hfirst⟩
        cases front with
        | nil => exact absurd ⟨back, heq.symm⟩ hstart
        | cons a front =>
          obtain ⟨rfl, rfl⟩ := List.cons.inj heq
          exact ⟨(front, back), ih.2 ⟨rfl, fun h ↦ hfirst (List.infix_cons h)⟩, rfl⟩

/-- Every text with a marker is cut. -/
theorem exists_splitAtMarker? (hmarker : marker ≠ []) (h : marker <:+: cs) :
    ∃ front back, splitAtMarker? marker cs = some (front, back) := by
  induction cs with
  | nil => exact absurd (List.infix_nil.1 h) hmarker
  | cons c cs ih =>
    rw [splitAtMarker?]
    by_cases hstart : marker.isPrefixOf (c :: cs) = true
    · rw [if_pos hstart]
      exact ⟨_, _, rfl⟩
    · rw [if_neg hstart]
      rcases List.infix_cons_iff.1 h with hbegins | hinfix
      · exact absurd (List.isPrefixOf_iff_prefix.2 hbegins) hstart
      · obtain ⟨front, back, hcut⟩ := ih hinfix
        rw [hcut]
        exact ⟨_, _, rfl⟩

/-! ### Demangling -/

/-- A physical name is taken apart at its first marker. -/
theorem demangle?_eq_some_iff {physical declared tag : String} :
    demangle? physical = some (declared, tag) ↔
      physical = declared ++ mangleMarker ++ tag ∧ ¬ HasMarker (declared ++ "$mv") := by
  have hmarker : mangleMarker.toList ≠ [] := by decide
  have hcut : demangle? physical = some (declared, tag) ↔
      splitAtMarker? mangleMarker.toList physical.toList = some (declared.toList, tag.toList) := by
    rw [demangle?, Option.map_eq_some_iff]
    constructor
    · rintro ⟨⟨front, back⟩, h, heq⟩
      cases heq
      rw [h, String.toList_ofList, String.toList_ofList]
    · intro h
      exact ⟨_, h, by rw [String.ofList_toList, String.ofList_toList]⟩
  rw [hcut, splitAtMarker?_eq_some_iff hmarker, HasMarker, String.toList_append,
    ← String.toList_inj, String.toList_append, String.toList_append]
  rfl

/-- **Demangling undoes mangling exactly for the names that end before their first marker.** Where a
marker begins in the declared name, be it a part of the name or completed by the inserted one, the
name comes back up to there, and the rest of it becomes a part of the tag. -/
theorem demangle?_mangle {versions : VersionSet} {v : Version} (name : String)
    (hv : versions.min? = some v) :
    (demangle? (mangle name versions) = some (name, v.tag) ↔ ¬ HasMarker (name ++ "$mv")) ∧
      (HasMarker (name ++ "$mv") → ∃ declared rest,
        name ++ "$mv" = declared ++ mangleMarker ++ rest ∧ ¬ HasMarker (declared ++ "$mv") ∧
        demangle? (mangle name versions) = some (declared, rest ++ "$" ++ v.tag)) := by
  rw [mangle_eq name hv]
  constructor
  · rw [demangle?_eq_some_iff]
    exact and_iff_right rfl
  · intro hmarked
    obtain ⟨front, back, hcut⟩ := exists_splitAtMarker? (by decide) hmarked
    obtain ⟨hname, hfirst⟩ := (splitAtMarker?_eq_some_iff (by decide)).1 hcut
    have hname : name ++ "$mv" = .ofList front ++ mangleMarker ++ .ofList back := by
      rw [← String.toList_inj, hname, String.toList_append, String.toList_append,
        String.toList_ofList, String.toList_ofList]
    have hfirst : ¬ HasMarker (.ofList front ++ "$mv") := by
      rw [HasMarker, String.toList_append, String.toList_ofList]
      exact hfirst
    refine ⟨.ofList front, .ofList back, hname, hfirst, demangle?_eq_some_iff.2 ⟨?_, hfirst⟩⟩
    calc name ++ mangleMarker ++ v.tag
        = name ++ ("$mv" ++ "$") ++ v.tag := rfl
      _ = name ++ "$mv" ++ "$" ++ v.tag := by rw [← String.append_assoc]
      _ = .ofList front ++ mangleMarker ++ (.ofList back ++ "$" ++ v.tag) := by
          rw [hname]
          simp only [String.append_assoc]

/-- A name that begins and ends in dollar signs, and holds the start of a marker, comes back. -/
theorem demangle?_mangle_startsOfMarker :
    demangle? (mangle "$m$" (.ofList [⟨"2.0"⟩, ⟨"1.20.4"⟩])) = some ("$m$", "1_20_4") :=
  (demangle?_mangle "$m$" (v := ⟨"1.20.4"⟩) (by decide)).1.2 (by decide)

/-- A name that ends in the start of a marker comes back without it: the inserted marker's first
dollar sign completes one. -/
theorem demangle?_mangle_endInMarker :
    demangle? (mangle "x$mv" (.ofList [⟨"a"⟩])) = some ("x", "mv$a") ∧
      (⟨"a"⟩ : Version).tag = "a" := by
  decide

end ClassWeave
