import ClassWeave.Stored.Annotated
import ClassWeave.Proofs.Names
import ClassWeave.Proofs.Ordered.Map
import ClassWeave.Proofs.Ordered.Set
import ClassWeave.Proofs.Outcome

/-!
# The stored form of a merged class loses nothing

Writing regroups the overrides of a table by value and drops what a reader can supply: the physical
superclass, and a declared name that is the physical one. Reading expands the groups again. That the
two fit together is a matter of *sets of entries*: a list of notes stands for the entries
`(version, value)` that it spells out, and the notes written for a table stand for exactly the
entries of the table (`mem_accessNotes_entries`, `mem_inheritanceNotes_entries`). The order of the
notes and of the versions in them plays no part, because no version occurs with two values.

`MergedClass.WellFormed` is what the conventions of the stored form ask of a class. It holds of
whatever is read from a tree, edited or not (`ClassTree.wellFormed_of_decode`), so reading has a
fixed point after one step. What a tree is read as is said part by part in `ClassTree.decode_eq_ok`.
-/

namespace ClassWeave

/-! ### Well-formed classes -/

/-- A table whose overrides belong to the given versions. -/
def Versioned.Within {α : Type} (t : Versioned α) (versions : VersionSet) : Prop :=
  ∀ v ∈ t.overrides.keys, v ∈ versions

/-- An inheritance that a note can describe beside the physical one: an empty text stands for the
physical superclass, and dots are not kept. -/
structure Inheritance.Writable (physical i : Inheritance) : Prop where
  superclass : i.superclass = physical.superclass ∨
    i.superclass.text ≠ "" ∧ i.superclass.DotFree
  interfaces : ∀ c ∈ i.interfaces, c.DotFree

structure MergedMember.WellFormed (versions : VersionSet) (m : MergedMember) : Prop where
  declaredVersions : ∀ v ∈ m.declaredVersions, v ∈ versions
  bodies : ∀ v ∈ m.bodies.keys, v ∈ versions
  access : m.access.Within versions
  /-- An empty text stands for the physical name. -/
  declaredName : m.physicalName ≠ m.declaredName → m.declaredName ≠ ""

structure MergedClass.WellFormed (c : MergedClass) : Prop where
  access : c.access.Within c.versions
  inheritance : c.inheritance.Within c.versions
  writable : ∀ i ∈ c.inheritance.overrides.values, c.inheritance.physical.Writable i
  members : ∀ m ∈ c.members, m.WellFormed c.versions

/-- A member all of whose versions are among the given ones. -/
structure MergedMember.Within (versions : VersionSet) (m : MergedMember) : Prop where
  declaredVersions : ∀ v ∈ m.declaredVersions, v ∈ versions
  bodies : ∀ v ∈ m.bodies.keys, v ∈ versions
  access : m.access.Within versions

/-- What a member is read back as: an empty declared name gives way to the physical one. -/
def MergedMember.stored (m : MergedMember) : MergedMember :=
  { m with declaredName := if m.declaredName.isEmpty then m.physicalName else m.declaredName }

theorem MergedMember.WellFormed.stored_eq {versions : VersionSet} {m : MergedMember}
    (h : m.WellFormed versions) : m.stored = m := by
  have hname : (if m.declaredName.isEmpty then m.physicalName else m.declaredName) =
      m.declaredName := by
    by_cases hm : m.physicalName = m.declaredName
    · rw [hm, ite_self]
    · rw [if_neg (by rw [String.isEmpty_iff]; exact h.declaredName hm)]
  rw [stored, hname]

/-! ### One note -/

namespace Versioned

variable {α : Type}

/-- The table with further overrides. -/
def overrideAll (t : Versioned α) (l : List (Version × α)) : Versioned α :=
  { t with overrides := t.overrides.insertAll l }

theorem within_uniform (a : α) (versions : VersionSet) : (uniform a).Within versions := by
  intro v hv
  exact absurd hv List.not_mem_nil

theorem Within.overrideAll {t : Versioned α} {versions : VersionSet} (h : t.Within versions)
    {l : List (Version × α)} (hl : ∀ e ∈ l, e.1 ∈ versions) :
    (t.overrideAll l).Within versions := by
  intro v hv
  obtain ⟨e, he, rfl⟩ := List.mem_map.1 hv
  rcases OrderedMap.mem_entries_insertAll he with he | he
  · exact h _ (List.mem_map_of_mem he)
  · exact hl e he

/-- Notes that are read one after the other add the entries of all of them. -/
theorem foldl_overrideAll {ν : Type} (entries : ν → List (Version × α)) (notes : List ν)
    (t : Versioned α) :
    notes.foldl (fun t n ↦ t.overrideAll (entries n)) t =
      t.overrideAll (notes.flatMap entries) := by
  induction notes generalizing t with
  | nil => rfl
  | cons n notes ih =>
    rw [List.foldl_cons, ih, List.flatMap_cons]
    exact congrArg (Versioned.mk t.physical) (OrderedMap.insertAll_append _ _ _).symm

/-- A list with the overrides of a table as its members restores the table. -/
theorem uniform_overrideAll {t : Versioned α} {l : List (Version × α)}
    (h : ∀ e, e ∈ l ↔ e ∈ t.overrides.entries) : (uniform t.physical).overrideAll l = t :=
  congrArg (Versioned.mk t.physical) (OrderedMap.ofList_eq_of_mem_iff h)

end Versioned

namespace NoteScope

variable {s : NoteScope} {site : String} {α : Type}

theorem checkVersions_eq_ok {vs : List Version} :
    s.checkVersions site vs = .ok () ↔ ∀ v ∈ vs, v ∈ s.versions := by
  induction vs with
  | nil => exact ⟨fun _ _ h ↦ absurd h List.not_mem_nil, fun _ ↦ rfl⟩
  | cons v vs ih =>
    rw [checkVersions, List.forall_mem_cons]
    by_cases hv : v ∈ s.versions
    · rw [if_pos hv, ih]
      exact ⟨fun h ↦ ⟨hv, h⟩, And.right⟩
    · rw [if_neg hv]
      constructor
      · intro h
        cases h
      · intro h
        exact absurd h.1 hv

/-- A note gives its value to its versions, all of which the class must have. -/
theorem override_eq_ok {vs : List Version} {a : α} {t t' : Versioned α} :
    s.override site vs a t = .ok t' ↔
      (∀ v ∈ vs, v ∈ s.versions) ∧ t' = t.overrideAll (vs.map (·, a)) := by
  rw [override, Outcome.bind_eq_ok]
  constructor
  · rintro ⟨⟨⟩, hcheck, h⟩
    exact ⟨checkVersions_eq_ok.1 hcheck, (Outcome.pure_eq_ok.1 h).symm⟩
  · rintro ⟨hvs, rfl⟩
    exact ⟨(), checkVersions_eq_ok.2 hvs, rfl⟩

end NoteScope

/-- The versions that have a value, each with the value again, are the entries with the value. -/
theorem mem_map_filter_iff {α β : Type} [DecidableEq β] {entries : List (α × β)} {b : β}
    {e : α × β} :
    e ∈ ((entries.filter (·.2 = b)).map (·.1)).map (·, b) ↔ e ∈ entries ∧ e.2 = b := by
  simp only [List.mem_map, List.mem_filter, decide_eq_true_iff]
  constructor
  · rintro ⟨_, ⟨e, ⟨he, rfl⟩, rfl⟩, rfl⟩
    exact ⟨he, rfl⟩
  · rintro ⟨he, rfl⟩
    exact ⟨e.1, ⟨e, ⟨he, rfl⟩, rfl⟩, rfl⟩

/-! ### Visibilities -/

theorem Visibility.parse_word (v : Visibility) : Visibility.parse v.word = .ok v := by
  cases v <;> decide +kernel

/-- The entries that a note about visibility spells out. -/
def AccessNote.entries (n : AccessNote) : List (Version × Visibility) :=
  match Visibility.parse n.value with
  | .ok level => n.versions.map (·, level)
  | .error _ => []

theorem mem_accessNotes {t : Versioned Visibility} {n : AccessNote} :
    n ∈ accessNotes t ↔ ∃ level, t.overrides.entries.filter (·.2 = level) ≠ [] ∧
      n = ⟨level.word, (t.overrides.entries.filter (·.2 = level)).map (·.1)⟩ := by
  rw [accessNotes, List.mem_filterMap]
  constructor
  · rintro ⟨level, -, h⟩
    refine ⟨level, ?_⟩
    split at h
    · cases h
    · exact ⟨‹_›, (Option.some.inj h).symm⟩
  · rintro ⟨level, hne, rfl⟩
    refine ⟨level, by cases level <;> decide, ?_⟩
    split
    · exact absurd ‹_› hne
    · rfl

/-- **The notes of a table spell out its overrides.** -/
theorem mem_accessNotes_entries {t : Versioned Visibility} {e : Version × Visibility} :
    e ∈ (accessNotes t).flatMap AccessNote.entries ↔ e ∈ t.overrides.entries := by
  rw [List.mem_flatMap]
  constructor
  · rintro ⟨n, hn, he⟩
    obtain ⟨level, -, rfl⟩ := mem_accessNotes.1 hn
    rw [AccessNote.entries, Visibility.parse_word] at he
    exact (mem_map_filter_iff.1 he).1
  · intro he
    have hmem : e ∈ t.overrides.entries.filter (·.2 = e.2) := List.mem_filter.2 ⟨he, by simp⟩
    refine ⟨_, mem_accessNotes.2 ⟨e.2, List.ne_nil_of_mem hmem, rfl⟩, ?_⟩
    rw [AccessNote.entries, Visibility.parse_word]
    exact mem_map_filter_iff.2 ⟨he, rfl⟩

/-- **Reading the notes of a table restores it.** -/
theorem NoteScope.decodeAccess_accessNotes {s : NoteScope} {t : Versioned Visibility}
    (h : t.Within s.versions) (site : String) :
    s.decodeAccess site (accessNotes t) (.uniform t.physical) = .ok t := by
  rw [decodeAccess, Outcome.foldlM_eq_ok_of_steps
    fun (t : Versioned Visibility) n ↦ t.overrideAll n.entries]
  · rw [Versioned.foldl_overrideAll,
      Versioned.uniform_overrideAll fun _ ↦ mem_accessNotes_entries]
  · intro n hn t'
    obtain ⟨level, -, rfl⟩ := mem_accessNotes.1 hn
    simp only [AccessNote.entries, Visibility.parse_word]
    refine override_eq_ok.2 ⟨fun v hv ↦ h v ?_, rfl⟩
    obtain ⟨e, he, rfl⟩ := List.mem_map.1 hv
    exact List.mem_map_of_mem (List.mem_filter.1 he).1

/-- What is read from notes about visibility belongs to the versions of the class. -/
theorem NoteScope.within_of_decodeAccess {s : NoteScope} {site : String} {notes : List AccessNote}
    {t t' : Versioned Visibility} (h : s.decodeAccess site notes t = .ok t')
    (ht : t.Within s.versions) : t'.Within s.versions := by
  refine Outcome.foldlM_invariant (P := fun t ↦ t.Within s.versions) ?_ h ht
  intro t n t' hstep ht
  split at hstep
  · cases hstep
  · obtain ⟨hvs, rfl⟩ := override_eq_ok.1 hstep
    refine ht.overrideAll fun e he ↦ ?_
    obtain ⟨v, hv, rfl⟩ := List.mem_map.1 he
    exact hvs v hv

/-! ### Inheritances -/

/-- The entries that a note about inheritance spells out, beside the physical inheritance. -/
def InheritanceNote.entries (physical : Inheritance) (n : InheritanceNote) :
    List (Version × Inheritance) :=
  n.versions.map (·, NoteScope.noted physical n)

/-- The note that is written for an overriding inheritance. -/
def Versioned.inheritanceNote (t : Versioned Inheritance) (i : Inheritance) : InheritanceNote where
  versions := (t.overrides.entries.filter (·.2 = i)).map (·.1)
  superclass := if i.superclass = t.physical.superclass then "" else i.superclass.text
  interfaces := i.interfaces.map (·.text)

theorem mem_inheritanceNotes {t : Versioned Inheritance} {n : InheritanceNote} :
    n ∈ inheritanceNotes t ↔ ∃ i ∈ t.overrides.values, n = t.inheritanceNote i := by
  rw [inheritanceNotes, List.mem_map]
  constructor
  · rintro ⟨i, hi, rfl⟩
    exact ⟨i, List.mem_eraseDups.1 hi, rfl⟩
  · rintro ⟨i, hi, rfl⟩
    exact ⟨i, List.mem_eraseDups.2 hi, rfl⟩

theorem NoteScope.noted_superclass_of_empty {physical : Inheritance} {n : InheritanceNote}
    (h : n.superclass = "") : (noted physical n).superclass = physical.superclass :=
  if_pos (String.isEmpty_iff.2 h)

theorem NoteScope.noted_superclass_of_ne {physical : Inheritance} {n : InheritanceNote}
    (h : n.superclass ≠ "") : (noted physical n).superclass = .ofText n.superclass :=
  if_neg fun hempty ↦ h (String.isEmpty_iff.1 hempty)

/-- A writable inheritance is read back from its note. -/
theorem NoteScope.noted_inheritanceNote {t : Versioned Inheritance} {i : Inheritance}
    (h : t.physical.Writable i) : noted t.physical (t.inheritanceNote i) = i := by
  have hsuper : (noted t.physical (t.inheritanceNote i)).superclass = i.superclass := by
    by_cases heq : i.superclass = t.physical.superclass
    · rw [noted_superclass_of_empty (if_pos heq), heq]
    · obtain ⟨hne, hdots⟩ := h.superclass.resolve_left heq
      have hwritten : (t.inheritanceNote i).superclass = i.superclass.text := if_neg heq
      rw [noted_superclass_of_ne (hwritten ▸ hne), hwritten, ClassName.ofText_text hdots]
  have hinterfaces : (noted t.physical (t.inheritanceNote i)).interfaces = i.interfaces := by
    simp only [noted, Versioned.inheritanceNote, List.map_map]
    exact (List.map_congr_left fun c hc ↦ ClassName.ofText_text (h.interfaces c hc)).trans
      (List.map_id _)
  calc noted t.physical (t.inheritanceNote i)
      = ⟨(noted t.physical (t.inheritanceNote i)).superclass,
          (noted t.physical (t.inheritanceNote i)).interfaces⟩ := rfl
    _ = ⟨i.superclass, i.interfaces⟩ := by rw [hsuper, hinterfaces]

/-- **The notes of a table spell out its overrides**, where these are writable. -/
theorem mem_inheritanceNotes_entries {t : Versioned Inheritance}
    (h : ∀ i ∈ t.overrides.values, t.physical.Writable i) {e : Version × Inheritance} :
    e ∈ (inheritanceNotes t).flatMap (InheritanceNote.entries t.physical) ↔
      e ∈ t.overrides.entries := by
  rw [List.mem_flatMap]
  constructor
  · rintro ⟨n, hn, he⟩
    obtain ⟨i, hi, rfl⟩ := mem_inheritanceNotes.1 hn
    rw [InheritanceNote.entries, NoteScope.noted_inheritanceNote (h i hi)] at he
    exact (mem_map_filter_iff.1 he).1
  · intro he
    have hi : e.2 ∈ t.overrides.values := List.mem_map_of_mem he
    refine ⟨_, mem_inheritanceNotes.2 ⟨e.2, hi, rfl⟩, ?_⟩
    rw [InheritanceNote.entries, NoteScope.noted_inheritanceNote (h _ hi)]
    exact mem_map_filter_iff.2 ⟨he, rfl⟩

/-- The notes of a table name no versions but those that it belongs to. -/
theorem mem_versions_of_mem_inheritanceNotes {t : Versioned Inheritance} {versions : VersionSet}
    (ht : t.Within versions) : ∀ n ∈ inheritanceNotes t, ∀ v ∈ n.versions, v ∈ versions := by
  intro n hn v hv
  obtain ⟨i, -, rfl⟩ := mem_inheritanceNotes.1 hn
  obtain ⟨e, he, rfl⟩ := List.mem_map.1 hv
  exact ht _ (List.mem_map_of_mem (List.mem_filter.1 he).1)

namespace NoteScope

/-- Notes about inheritance add the entries that they spell out: each is read against the physical
inheritance, which no note changes. -/
theorem decodeInheritance_eq_ok {s : NoteScope} {notes : List InheritanceNote}
    (h : ∀ n ∈ notes, ∀ v ∈ n.versions, v ∈ s.versions) (t : Versioned Inheritance) :
    s.decodeInheritance notes t =
      .ok (t.overrideAll (notes.flatMap (InheritanceNote.entries t.physical))) := by
  induction notes generalizing t with
  | nil => rfl
  | cons n notes ih =>
    rw [decodeInheritance, List.foldlM_cons, Outcome.bind_eq_ok]
    refine ⟨t.overrideAll (n.entries t.physical),
      override_eq_ok.2 ⟨h n List.mem_cons_self, rfl⟩, ?_⟩
    rw [← decodeInheritance, ih fun n' hn' ↦ h n' (List.mem_cons_of_mem _ hn'), List.flatMap_cons]
    exact congrArg (Except.ok ∘ Versioned.mk t.physical) (OrderedMap.insertAll_append _ _ _).symm

/-- **Reading the notes of a table restores it**, where its overrides are writable. -/
theorem decodeInheritance_inheritanceNotes {s : NoteScope} {t : Versioned Inheritance}
    (ht : t.Within s.versions) (h : ∀ i ∈ t.overrides.values, t.physical.Writable i) :
    s.decodeInheritance (inheritanceNotes t) (.uniform t.physical) = .ok t := by
  rw [decodeInheritance_eq_ok (mem_versions_of_mem_inheritanceNotes ht)]
  exact congrArg Except.ok (Versioned.uniform_overrideAll fun _ ↦ mem_inheritanceNotes_entries h)

/-- What a note describes can be written beside the physical inheritance again. -/
theorem writable_noted (physical : Inheritance) (n : InheritanceNote) :
    physical.Writable (noted physical n) where
  superclass := by
    by_cases h : n.superclass = ""
    · exact .inl (noted_superclass_of_empty h)
    · rw [noted_superclass_of_ne h]
      exact .inr ⟨ClassName.ofText_ne_empty h, ClassName.dotFree_ofText _⟩
  interfaces c hc := by
    obtain ⟨s, -, rfl⟩ := List.mem_map.1 hc
    exact ClassName.dotFree_ofText s

/-- What is read from notes about inheritance belongs to the versions of the class and is
writable. -/
theorem of_decodeInheritance {s : NoteScope} {physical : Inheritance}
    {notes : List InheritanceNote} {t : Versioned Inheritance}
    (h : s.decodeInheritance notes (.uniform physical) = .ok t) :
    t.physical = physical ∧ t.Within s.versions ∧
      ∀ i ∈ t.overrides.values, physical.Writable i := by
  refine Outcome.foldlM_invariant (P := fun t : Versioned Inheritance ↦ t.physical = physical ∧
    t.Within s.versions ∧ ∀ i ∈ t.overrides.values, physical.Writable i) ?_ h
    ⟨rfl, Versioned.within_uniform _ _, fun i hi ↦ absurd hi List.not_mem_nil⟩
  rintro t n t' hstep ⟨hphysical, hwithin, hwritable⟩
  obtain ⟨hvs, rfl⟩ := override_eq_ok.1 hstep
  refine ⟨hphysical, hwithin.overrideAll fun e he ↦ ?_, fun i hi ↦ ?_⟩
  · obtain ⟨v, hv, rfl⟩ := List.mem_map.1 he
    exact hvs v hv
  · obtain ⟨e, he, rfl⟩ := List.mem_map.1 hi
    rcases OrderedMap.mem_entries_insertAll he with he | he
    · exact hwritable _ (List.mem_map_of_mem he)
    · obtain ⟨v, -, rfl⟩ := List.mem_map.1 he
      exact hphysical ▸ writable_noted t.physical n

/-! ### Members -/

/-- Reading a stored member restores it, but for an empty declared name. -/
theorem decodeMember_encode_of_within {s : NoteScope} {m : MergedMember}
    (h : m.Within s.versions) : s.decodeMember (m.encode s.cls) = .ok m.stored := by
  have hname : (if (if m.isMangled then m.declaredName else "").isEmpty then m.physicalName
      else if m.isMangled then m.declaredName else "") =
      if m.declaredName.isEmpty then m.physicalName else m.declaredName := by
    by_cases hm : m.physicalName = m.declaredName
    · have hmangled : m.isMangled = false := by simp [MergedMember.isMangled, hm]
      rw [hmangled, hm, ite_self]
      rfl
    · have hmangled : m.isMangled = true := by simp [MergedMember.isMangled, hm]
      rw [hmangled]
      rfl
  have hversions : OrderedSet.ofList m.declaredVersions.toList = m.declaredVersions :=
    OrderedSet.ofList_toList _
  simp only [decodeMember, MergedMember.encode, hname, hversions]
  refine Outcome.bind_eq_ok.2 ⟨(), checkVersions_eq_ok.2 fun v hv ↦ ?_,
    Outcome.bind_eq_ok.2 ⟨m.access, decodeAccess_accessNotes h.access _, rfl⟩⟩
  rcases List.mem_append.1 hv with hv | hv
  · exact h.declaredVersions v hv
  · exact h.bodies v hv

/-- **Reading a stored member restores it.** -/
theorem decodeMember_encode {s : NoteScope} {m : MergedMember} (h : m.WellFormed s.versions) :
    s.decodeMember (m.encode s.cls) = .ok m := by
  rw [decodeMember_encode_of_within ⟨h.declaredVersions, h.bodies, h.access⟩, h.stored_eq]

/-- A member that was added by hand is present in all versions of the class. -/
theorem wellFormed_universal (versions : VersionSet) (m : Member) :
    (MergedMember.universal versions m).WellFormed versions where
  declaredVersions v hv := hv
  bodies v hv := by
    obtain ⟨e, he, rfl⟩ := List.mem_map.1 hv
    simp only [MergedMember.universal] at he
    split at he
    · have hmem := OrderedMap.mem_of_mem_entries_ofList he
      obtain ⟨w, hw, rfl⟩ := List.mem_map.1 hmem
      exact hw
    · exact absurd he List.not_mem_nil
  access := Versioned.within_uniform _ _
  declaredName h := absurd rfl h

/-- **Whatever is read from a stored member is well formed.** -/
theorem wellFormed_of_decodeMember {s : NoteScope} {m : Member} {c : MergedMember}
    (h : s.decodeMember m = .ok c) : c.WellFormed s.versions := by
  rw [decodeMember] at h
  split at h
  · cases h
    exact wellFormed_universal _ _
  · obtain ⟨⟨⟩, hcheck, h⟩ := Outcome.bind_eq_ok.1 h
    obtain ⟨access, haccess, h⟩ := Outcome.bind_eq_ok.1 h
    cases h
    have hvs := checkVersions_eq_ok.1 hcheck
    exact {
      declaredVersions := fun v hv ↦ hvs v (List.mem_append_left _ hv)
      bodies := fun v hv ↦ hvs v (List.mem_append_right _ hv)
      access := within_of_decodeAccess haccess (Versioned.within_uniform _ _)
      declaredName := fun hne ↦ by
        simp only at hne ⊢
        split at hne
        · exact absurd rfl hne
        · rename_i hempty
          rwa [if_neg hempty, Ne, ← String.isEmpty_iff] }

end NoteScope

/-! ### Classes -/

/-- **What a tree is read as**, part by part. -/
theorem ClassTree.decode_eq_ok {t : ClassTree} {c : MergedClass} :
    t.decode = .ok c ↔ ∃ note, t.merged = some note ∧
      c.name = t.name ∧ c.versions = .ofList note.versions ∧
      (NoteScope.mk c.name c.versions).decodeAccess "class access" note.access
        (.uniform t.access) = .ok c.access ∧
      (NoteScope.mk c.name c.versions).decodeInheritance note.inheritance
        (.uniform t.inheritance) = .ok c.inheritance ∧
      t.members.mapM (NoteScope.decodeMember ⟨c.name, c.versions⟩) = .ok c.members := by
  rw [decode]
  cases t.merged with
  | none => exact iff_of_false nofun nofun
  | some note =>
    constructor
    · intro h
      obtain ⟨access, haccess, h⟩ := Outcome.bind_eq_ok.1 h
      obtain ⟨inheritance, hinheritance, h⟩ := Outcome.bind_eq_ok.1 h
      obtain ⟨members, hmembers, h⟩ := Outcome.bind_eq_ok.1 h
      cases h
      exact ⟨note, rfl, rfl, rfl, haccess, hinheritance, hmembers⟩
    · rintro ⟨note', hnote, hname, hversions, haccess, hinheritance, hmembers⟩
      cases hnote
      obtain ⟨name, versions, access, inheritance, members⟩ := c
      subst hname hversions
      refine Outcome.bind_eq_ok.2 ⟨access, haccess, ?_⟩
      refine Outcome.bind_eq_ok.2 ⟨inheritance, hinheritance, ?_⟩
      exact Outcome.bind_eq_ok.2 ⟨members, hmembers, rfl⟩

/-- A stored class is read back with the inheritance and the members that its notes say. -/
theorem MergedClass.decode_encode_eq_ok {c : MergedClass} (haccess : c.access.Within c.versions)
    {inheritance : Versioned Inheritance} {members : List MergedMember}
    (hinheritance : (NoteScope.mk c.name c.versions).decodeInheritance
      (inheritanceNotes c.inheritance) (.uniform c.inheritance.physical) = .ok inheritance)
    (hmembers : (c.members.map (MergedMember.encode c.name)).mapM
      (NoteScope.decodeMember ⟨c.name, c.versions⟩) = .ok members) :
    c.encode.decode = .ok { c with inheritance := inheritance, members := members } := by
  have hversions : c.versions = .ofList c.versions.toList := (OrderedSet.ofList_toList _).symm
  exact ClassTree.decode_eq_ok.2 ⟨_, rfl, rfl, hversions,
    NoteScope.decodeAccess_accessNotes haccess _, hinheritance, hmembers⟩

/-- **Reading a stored class restores it.** -/
theorem MergedClass.decode_encode {c : MergedClass} (h : c.WellFormed) :
    c.encode.decode = .ok c := by
  refine decode_encode_eq_ok h.access
    (NoteScope.decodeInheritance_inheritanceNotes h.inheritance h.writable) ?_
  rw [Outcome.mapM_eq_ok, List.forall₂_map_left_iff, List.forall₂_same]
  exact fun m hm ↦ NoteScope.decodeMember_encode (h.members m hm)

/-- A class whose notes name its versions only can be read back. Of its superclasses and interfaces
this says nothing: what the conventions of the stored form cannot hold comes back changed. -/
theorem MergedClass.decode_encode_of_within {c : MergedClass} (haccess : c.access.Within c.versions)
    (hinheritance : c.inheritance.Within c.versions)
    (hmembers : ∀ m ∈ c.members, m.Within c.versions) :
    ∃ inheritance, c.encode.decode = .ok
      { c with inheritance, members := c.members.map MergedMember.stored } := by
  have hnotes := mem_versions_of_mem_inheritanceNotes hinheritance
  have hdecoded : (c.members.map (MergedMember.encode c.name)).mapM
      (NoteScope.decodeMember ⟨c.name, c.versions⟩) = .ok (c.members.map MergedMember.stored) := by
    rw [Outcome.mapM_eq_ok, List.forall₂_map_left_iff, List.forall₂_map_right_iff,
      List.forall₂_same]
    exact fun m hm ↦ NoteScope.decodeMember_encode_of_within (hmembers m hm)
  exact ⟨_, decode_encode_eq_ok haccess (NoteScope.decodeInheritance_eq_ok hnotes _) hdecoded⟩

/-- **Whatever is read from a tree is well formed**, however the tree came about. -/
theorem ClassTree.wellFormed_of_decode {t : ClassTree} {c : MergedClass} (h : t.decode = .ok c) :
    c.WellFormed := by
  obtain ⟨note, -, -, -, haccess, hinheritance, hmembers⟩ := decode_eq_ok.1 h
  obtain ⟨hphysical, hwithin, hwritable⟩ := NoteScope.of_decodeInheritance hinheritance
  exact {
    access := NoteScope.within_of_decodeAccess haccess (Versioned.within_uniform _ _)
    inheritance := hwithin
    writable := hphysical ▸ hwritable
    members := fun m hm ↦ by
      obtain ⟨d, -, hd⟩ := Outcome.exists_of_mapM_eq_ok hmembers hm
      exact NoteScope.wellFormed_of_decodeMember hd }

/-- **The stored form loses nothing.** A well-formed class is read back as it was; and what any tree
is read as is well formed, so that storing it once more changes nothing. -/
theorem stored_form_lossless :
    (∀ c : MergedClass, c.WellFormed → c.encode.decode = .ok c) ∧
      ∀ (t : ClassTree) (c : MergedClass), t.decode = .ok c →
        c.WellFormed ∧ c.encode.decode = .ok c := by
  refine ⟨fun c ↦ MergedClass.decode_encode, fun t c h ↦ ?_⟩
  have hwf := ClassTree.wellFormed_of_decode h
  exact ⟨hwf, MergedClass.decode_encode hwf⟩

/-- A tree as an author may leave it: with a member of their own, repeated and unsorted versions,
blanks around a visibility, two notes for one version, and an empty superclass. -/
def editedTree : ClassTree where
  name := ⟨"x/C"⟩
  access := .publicAccess
  superclass := ⟨"x/Base"⟩
  members := [
    { name := "added", desc := "I", kind := .field, access := .privateAccess },
    { name := "run$mv$a", desc := "()V", kind := .method, access := .publicAccess
      merged := some
        { name := "run", versions := [⟨"b"⟩, ⟨"a"⟩, ⟨"b"⟩], access := [⟨" private ", [⟨"b"⟩]⟩] } }]
  merged := some
    { versions := [⟨"b"⟩, ⟨"a"⟩, ⟨"b"⟩]
      inheritance := [⟨[⟨"a"⟩, ⟨"b"⟩], "", ["x.I"]⟩, ⟨[⟨"b"⟩], "x.Other", []⟩] }

theorem stored_form_lossless_editedTree :
    ∃ c, editedTree.decode = .ok c ∧ c.WellFormed ∧ c.encode.decode = .ok c := by
  obtain ⟨c, hc⟩ : ∃ c, editedTree.decode = .ok c := Outcome.exists_eq_ok (by decide)
  have hwf := (stored_form_lossless.2 editedTree c hc).1
  exact ⟨c, hc, hwf, stored_form_lossless.1 c hwf⟩

end ClassWeave
