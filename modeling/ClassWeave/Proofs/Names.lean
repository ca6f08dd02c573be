import ClassWeave.Merged.Name
import ClassWeave.Proofs.Ordered.Set
import Mathlib.Data.List.Infix

/-!
# Names of classes, of mangled members and of bridges

Facts about the texts that a merge builds or reads:

* reading a class name back from text changes it only by its dots, so a name without dots is read
  back as it is (`ofText_text`), and a name that was read has no dots (`dotFree_ofText`);
* a mangled name contains the marker (`hasMarker_mangle`), and the name of a bridge has the form by
  which bridges are told (`hasBridgeName_bridgeName`), so neither is plain;
* a mangled name and the name of a bridge each end in a text without a dollar sign. The last dollar
  sign therefore tells where that text begins, so a mangled name gives back what it was made of
  (`mangle_inj`) and is never the name of a bridge (`mangle_ne_bridgeName`).
-/

namespace ClassWeave

namespace ClassName

/-- No part of the name is divided by a dot. -/
def DotFree (c : ClassName) : Prop := '.' ∉ c.text.toList

instance (c : ClassName) : Decidable c.DotFree := inferInstanceAs (Decidable (_ ∉ _))

/-- A class name without dots is read back as it is written. -/
theorem ofText_text {c : ClassName} (h : c.DotFree) : ofText c.text = c := by
  have hmap : slashed c.text.toList = c.text.toList := by
    refine (List.map_congr_left fun x hx ↦ ?_).trans (List.map_id _)
    rw [if_neg (fun hdot : x = '.' ↦ h (hdot ▸ hx))]
    rfl
  rw [ofText, hmap, String.ofList_toList]

/-- No class name that was read from a text has a dot. -/
theorem dotFree_ofText (s : String) : (ofText s).DotFree := by
  intro h
  rw [ofText, String.toList_ofList] at h
  obtain ⟨x, -, hx⟩ := List.mem_map.1 h
  split at hx
  · exact absurd hx (by decide)
  · exact absurd hx ‹_›

/-- Only the empty text is read as the empty name. -/
theorem ofText_ne_empty {s : String} (h : s ≠ "") : (ofText s).text ≠ "" := by
  intro hempty
  apply h
  have hlist : slashed s.toList = [] := by
    rw [ofText, ← String.toList_inj, String.toList_ofList] at hempty
    exact hempty
  exact String.toList_inj.1 (List.map_eq_nil_iff.1 hlist)

end ClassName

/-! ### Mangled names -/

/-- A name with the marker in it, which no author is taken to write. -/
def HasMarker (name : String) : Prop := mangleMarker.toList <:+: name.toList

instance (name : String) : Decidable (HasMarker name) :=
  inferInstanceAs (Decidable (_ <:+: _))

/-- The mangled name of a member is told apart by the first version of the member. -/
theorem mangle_eq {versions : VersionSet} {v : Version} (name : String)
    (hv : versions.min? = some v) : mangle name versions = name ++ mangleMarker ++ v.tag := by
  rw [mangle, hv]

/-- The mangled name of a member that exists in some version contains the marker. -/
theorem hasMarker_mangle {name : String} {versions : VersionSet} {v : Version}
    (hv : v ∈ versions) : HasMarker (mangle name versions) := by
  obtain ⟨w, -, hw⟩ := OrderedSet.exists_min? hv
  rw [mangle_eq name hw]
  exact ⟨name.toList, w.tag.toList, by simp⟩

/-! ### Bridges -/

theorem hasBridgeName_bridgeName (c : ClassName) : hasBridgeName (bridgeName c) = true := by
  rw [hasBridgeName, bridgeName, String.toList_append]
  exact List.isPrefixOf_iff_prefix.2 (List.prefix_append _ _)

/-- The descriptor of a class names the class. -/
theorem ClassName.descriptor_inj {c c' : ClassName} (h : c.descriptor = c'.descriptor) :
    c = c' := by
  have hlist := congrArg String.toList h
  simp only [descriptor, String.toList_append] at hlist
  have htext := List.append_cancel_left (List.append_cancel_right hlist)
  exact congrArg ClassName.mk (String.toList_inj.1 htext)

/-! ### Plain names -/

/-- A name without the marks that a merge leaves: neither mangled nor that of a bridge. -/
def PlainName (name : String) : Prop := ¬ HasMarker name ∧ hasBridgeName name = false

instance (name : String) : Decidable (PlainName name) := inferInstanceAs (Decidable (_ ∧ _))

/-! ### The last dollar sign -/

/-- An identifier has no dollar sign. -/
theorem dollar_not_mem_identifier (s : String) : '$' ∉ (Text.identifier s).toList := by
  intro h
  rw [Text.identifier, String.toList_ofList] at h
  obtain ⟨c, -, hc⟩ := List.mem_map.1 h
  split at hc
  · rename_i hchar
    rw [hc] at hchar
    exact absurd hchar (by decide)
  · exact absurd hc (by decide)

/-- A list is cut in one way at the last occurrence of an element. -/
theorem eq_of_append_cons_eq {α : Type} {a : α} {l l' s s' : List α} (hs : a ∉ s) (hs' : a ∉ s')
    (h : l ++ a :: s = l' ++ a :: s') : l = l' ∧ s = s' := by
  -- were one of the two cuts later, the part behind the other one would contain the element
  rcases List.append_eq_append_iff.1 h with ⟨m, rfl, hm⟩ | ⟨m, rfl, hm⟩
  · cases m with
    | nil => simpa using hm
    | cons b m =>
      obtain ⟨-, rfl⟩ := List.cons.inj hm
      exact absurd (List.mem_append_right m List.mem_cons_self) hs
  · cases m with
    | nil => simpa [eq_comm] using hm
    | cons b m =>
      obtain ⟨-, rfl⟩ := List.cons.inj hm
      exact absurd (List.mem_append_right m List.mem_cons_self) hs'

theorem toList_mangle {versions : VersionSet} {v : Version} (name : String)
    (hv : versions.min? = some v) :
    (mangle name versions).toList = (name.toList ++ "$mv".toList) ++ '$' :: v.tag.toList := by
  rw [mangle_eq name hv, String.toList_append, String.toList_append, List.append_assoc,
    List.append_assoc]
  rfl

/-- A mangled name is longer than the declared one. -/
theorem mangle_ne_self {versions : VersionSet} {v : Version} (name : String) (hv : v ∈ versions) :
    mangle name versions ≠ name := by
  obtain ⟨w, -, hw⟩ := OrderedSet.exists_min? hv
  intro h
  have hlength := congrArg (·.toList.length) h
  simp only [toList_mangle name hw, List.length_append, List.length_cons] at hlength
  omega

/-- **A mangled name gives back the declared name and the tag.** -/
theorem mangle_inj {name name' : String} {versions versions' : VersionSet} {v v' : Version}
    (hv : versions.min? = some v) (hv' : versions'.min? = some v')
    (h : mangle name versions = mangle name' versions') : name = name' ∧ v.tag = v'.tag := by
  have hlist := congrArg String.toList h
  rw [toList_mangle name hv, toList_mangle name' hv'] at hlist
  obtain ⟨hname, htag⟩ := eq_of_append_cons_eq (dollar_not_mem_identifier v.id)
    (dollar_not_mem_identifier v'.id) hlist
  exact ⟨String.toList_inj.1 (List.append_cancel_right hname), String.toList_inj.1 htag⟩

/-- Mangled names are equal where the declared names are and the tags are. -/
theorem mangle_eq_mangle_iff_of_min? {name name' : String} {versions versions' : VersionSet}
    {v v' : Version} (hv : versions.min? = some v) (hv' : versions'.min? = some v') :
    mangle name versions = mangle name' versions' ↔ name = name' ∧ v.tag = v'.tag := by
  constructor
  · exact mangle_inj hv hv'
  · rintro ⟨rfl, htag⟩
    rw [mangle_eq name hv, mangle_eq name hv', htag]

/-- **A mangled name is not the name of a bridge**: the last dollar sign of the one stands after a
`v`, that of the other after an `o`. -/
theorem mangle_ne_bridgeName {versions : VersionSet} {v : Version} (name : String)
    (hv : v ∈ versions) (c : ClassName) : mangle name versions ≠ bridgeName c := by
  intro h
  obtain ⟨w, -, hw⟩ := OrderedSet.exists_min? hv
  have hlist := congrArg String.toList h
  have hbridge : (bridgeName c).toList = "mv$castTo".toList ++ '$' :: c.flattened.toList := by
    rw [bridgeName, String.toList_append]
    rfl
  rw [toList_mangle name hw, hbridge] at hlist
  obtain ⟨hstart, -⟩ := eq_of_append_cons_eq (dollar_not_mem_identifier w.id)
    (dollar_not_mem_identifier c.text) hlist
  have hlast := congrArg List.getLast? hstart
  rw [List.getLast?_append_of_ne_nil _ (by decide)] at hlast
  exact absurd hlast (by decide)

end ClassWeave
