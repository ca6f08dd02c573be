import ClassWeave.Proofs.Merge.Result
import ClassWeave.Proofs.Stored.Codec

/-!
# What reading a stored class checks

A stored tree is read exactly if each of its notes fits: it names versions of the class only, and a
visibility that there is (`ClassTree.exists_decode_eq_ok`). Every place where a note can name a
version is asked, so the versions of a class that was read belong together.

Of the keys of the members nothing is asked. They are taken over one by one
(`ClassTree.map_key_decode`), so it is the tree that decides whether a look-up is unambiguous: the
check of a merge passes on the class that was read exactly if the keys of the tree are distinct
(`ClassTree.decode_checks_versions`), and where an edited tree has one key twice, the second member
is never found (`ClassTree.decoded_twins`).
-/

namespace ClassWeave

/-! ### Notes that fit -/

/-- The note names versions of the class, and a visibility. -/
structure AccessNote.Fits (versions : VersionSet) (n : AccessNote) : Prop where
  value : ∃ level, Visibility.parse n.value = .ok level
  versions : ∀ v ∈ n.versions, v ∈ versions

/-- The note on a member fits, if there is one, and the member has no body for another version. -/
structure Member.Fits (versions : VersionSet) (m : Member) : Prop where
  declared : ∀ n, m.merged = some n → ∀ v ∈ n.versions, v ∈ versions
  bodies : ∀ n, m.merged = some n → ∀ v ∈ m.versionBodies.keys, v ∈ versions
  access : ∀ n, m.merged = some n → ∀ a ∈ n.access, a.Fits versions

/-- All notes of the tree fit the versions in the note on the class. -/
structure ClassTree.Fits (t : ClassTree) (note : ClassNote) : Prop where
  access : ∀ a ∈ note.access, a.Fits (.ofList note.versions)
  inheritance : ∀ n ∈ note.inheritance, ∀ v ∈ n.versions, v ∈ OrderedSet.ofList note.versions
  members : ∀ m ∈ t.members, m.Fits (.ofList note.versions)

namespace NoteScope

variable {s : NoteScope} {site : String}

theorem exists_decodeAccess_eq_ok {notes : List AccessNote} {t : Versioned Visibility} :
    (∃ t', s.decodeAccess site notes t = .ok t') ↔ ∀ n ∈ notes, n.Fits s.versions := by
  refine Outcome.exists_foldlM_eq_ok fun n t ↦ ?_
  cases hparse : Visibility.parse n.value with
  | error e =>
    constructor
    · rintro ⟨t', h⟩
      cases h
    · intro h
      obtain ⟨level, hlevel⟩ := h.value
      rw [hparse] at hlevel
      cases hlevel
  | ok level =>
    simp only [override_eq_ok]
    exact ⟨fun ⟨_, hvs, _⟩ ↦ ⟨⟨level, hparse⟩, hvs⟩, fun h ↦ ⟨_, h.versions, rfl⟩⟩

theorem exists_decodeInheritance_eq_ok {notes : List InheritanceNote} {t : Versioned Inheritance} :
    (∃ t', s.decodeInheritance notes t = .ok t') ↔
      ∀ n ∈ notes, ∀ v ∈ n.versions, v ∈ s.versions := by
  refine Outcome.exists_foldlM_eq_ok fun n t ↦ ?_
  simp only [override_eq_ok]
  exact ⟨fun ⟨_, hvs, _⟩ ↦ hvs, fun hvs ↦ ⟨_, hvs, rfl⟩⟩

/-- **A member is read exactly if its note fits.** -/
theorem exists_decodeMember_eq_ok {m : Member} :
    (∃ c, s.decodeMember m = .ok c) ↔ m.Fits s.versions := by
  rw [decodeMember]
  cases hnote : m.merged with
  | none => exact iff_of_true ⟨_, rfl⟩ ⟨by simp [hnote], by simp [hnote], by simp [hnote]⟩
  | some note =>
    have hversions : (∀ v ∈ (OrderedSet.ofList note.versions).toList ++ m.versionBodies.keys,
        v ∈ s.versions) ↔
          (∀ v ∈ note.versions, v ∈ s.versions) ∧ ∀ v ∈ m.versionBodies.keys, v ∈ s.versions := by
      rw [List.forall_mem_append]
      exact and_congr_left' (forall_congr' fun v ↦ imp_congr_left OrderedSet.mem_ofList)
    constructor
    · rintro ⟨c, hc⟩
      obtain ⟨⟨⟩, hcheck, hc⟩ := Outcome.bind_eq_ok.1 hc
      obtain ⟨access, haccess, -⟩ := Outcome.bind_eq_ok.1 hc
      obtain ⟨hdeclared, hbodies⟩ := hversions.1 (checkVersions_eq_ok.1 hcheck)
      have hnotes := exists_decodeAccess_eq_ok.1 ⟨access, haccess⟩
      exact ⟨fun n hn ↦ Option.some.inj (hnote.symm.trans hn) ▸ hdeclared, fun _ _ ↦ hbodies,
        fun n hn ↦ Option.some.inj (hnote.symm.trans hn) ▸ hnotes⟩
    · intro hfits
      have hcheck := hversions.2 ⟨hfits.declared note hnote, hfits.bodies note hnote⟩
      obtain ⟨access, haccess⟩ := exists_decodeAccess_eq_ok.2 (hfits.access note hnote)
      exact ⟨_, Outcome.bind_eq_ok.2 ⟨(), checkVersions_eq_ok.2 hcheck,
        Outcome.bind_eq_ok.2 ⟨access, haccess, rfl⟩⟩⟩

/-- A member keeps its key. -/
theorem key_decodeMember {m : Member} {c : MergedMember} (h : s.decodeMember m = .ok c) :
    c.key = m.key := by
  rw [decodeMember] at h
  split at h
  · cases h
    rfl
  · obtain ⟨⟨⟩, -, h⟩ := Outcome.bind_eq_ok.1 h
    obtain ⟨access, -, h⟩ := Outcome.bind_eq_ok.1 h
    cases h
    rfl

end NoteScope

theorem MergedMember.WellFormed.within {versions : VersionSet} {m : MergedMember}
    (h : m.WellFormed versions) : m.Within versions := ⟨h.declaredVersions, h.bodies, h.access⟩

namespace ClassTree

variable {t : ClassTree} {c : MergedClass}

/-- **A tree is read exactly if it has a note on the class and all its notes fit.** -/
theorem exists_decode_eq_ok :
    (∃ c, t.decode = .ok c) ↔ ∃ note, t.merged = some note ∧ t.Fits note := by
  constructor
  · rintro ⟨c, hc⟩
    obtain ⟨note, hnote, -, hversions, haccess, hinheritance, hmembers⟩ := decode_eq_ok.1 hc
    have hfits := Outcome.exists_mapM_eq_ok.1 ⟨_, hmembers⟩
    refine ⟨note, hnote, ?_⟩
    exact {
      access := hversions ▸ NoteScope.exists_decodeAccess_eq_ok.1 ⟨_, haccess⟩
      inheritance := hversions ▸ NoteScope.exists_decodeInheritance_eq_ok.1 ⟨_, hinheritance⟩
      members := hversions ▸ fun m hm ↦ NoteScope.exists_decodeMember_eq_ok.1 (hfits m hm) }
  · rintro ⟨note, hnote, hfits⟩
    let s : NoteScope := ⟨t.name, .ofList note.versions⟩
    obtain ⟨access, haccess⟩ :=
      (NoteScope.exists_decodeAccess_eq_ok (s := s)).2 hfits.access
    obtain ⟨inheritance, hinheritance⟩ :=
      (NoteScope.exists_decodeInheritance_eq_ok (s := s)).2 hfits.inheritance
    obtain ⟨members, hmembers⟩ := Outcome.exists_mapM_eq_ok.2 fun m hm ↦
      (NoteScope.exists_decodeMember_eq_ok (s := s)).2 (hfits.members m hm)
    exact ⟨⟨t.name, .ofList note.versions, access, inheritance, members⟩,
      decode_eq_ok.2 ⟨note, hnote, rfl, rfl, haccess, hinheritance, hmembers⟩⟩

/-- **The keys of a stored tree are taken over**, one member after the other. -/
theorem map_key_decode (h : t.decode = .ok c) :
    c.members.map (·.key) = t.members.map (·.key) := by
  obtain ⟨note, -, -, -, -, -, hmembers⟩ := decode_eq_ok.1 h
  rw [← List.forall₂_eq_eq_eq, List.forall₂_map_left_iff, List.forall₂_map_right_iff]
  exact (Outcome.mapM_eq_ok.1 hmembers).flip.imp fun _ _ ↦ NoteScope.key_decodeMember

/-- **Reading checks the versions and leaves the keys alone.** A tree is read exactly if its notes
fit, and then every version in the tables of the class and of its members is a version of the class.
The keys of the members are those of the tree: the check of a merge passes on them exactly if they
are distinct there, and then a look-up by key finds each member. -/
theorem decode_checks_versions (t : ClassTree) :
    ((∃ c, t.decode = .ok c) ↔ ∃ note, t.merged = some note ∧ t.Fits note) ∧
    ∀ c, t.decode = .ok c →
      (c.access.Within c.versions ∧ c.inheritance.Within c.versions ∧
        ∀ m ∈ c.members, m.Within c.versions) ∧
      c.members.map (·.key) = t.members.map (·.key) ∧
      (ensureUnique c.name c.members = .ok () ↔ (t.members.map (·.key)).Nodup) ∧
      ((t.members.map (·.key)).Nodup → ∀ m ∈ c.members, c.member? m.key = some m) := by
  refine ⟨exists_decode_eq_ok, fun c h ↦ ?_⟩
  have hwf := wellFormed_of_decode h
  have hkeys := map_key_decode h
  refine ⟨⟨hwf.access, hwf.inheritance, fun m hm ↦ (hwf.members m hm).within⟩, hkeys, ?_, ?_⟩
  · rw [ensureUnique_eq_ok, hkeys]
  · intro hnodup m hm
    exact MergedClass.member?_of_nodup (hkeys ▸ hnodup) hm

/-- A tree in which an author gave two members of one type the same name. They are declared under
different names, in different versions. -/
def twinTree : ClassTree where
  name := ⟨"x/C"⟩
  access := .publicAccess
  members := [
    { name := "go", desc := "()V", kind := .method, access := .publicAccess
      merged := some { name := "start", versions := [⟨"a"⟩], access := [⟨"private", [⟨"a"⟩]⟩] } },
    { name := "go", desc := "()V", kind := .method, access := .publicAccess
      merged := some { name := "stop", versions := [⟨"b"⟩] } }]
  merged := some { versions := [⟨"a"⟩, ⟨"b"⟩] }

theorem decode_checks_versions_twinTree :
    ∃ c, twinTree.decode = .ok c ∧ (∀ m ∈ c.members, m.Within c.versions) ∧
      ensureUnique c.name c.members ≠ .ok () := by
  obtain ⟨hread, hchecked⟩ := decode_checks_versions twinTree
  obtain ⟨c, hc⟩ : ∃ c, twinTree.decode = .ok c := Outcome.exists_eq_ok (by decide +kernel)
  obtain ⟨⟨-, -, hmembers⟩, -, hunique, -⟩ := hchecked c hc
  exact ⟨c, hc, hmembers, fun h ↦ absurd (hunique.1 h) (by decide +kernel)⟩

/-- **A stored tree with one key twice is read**, and the second member of the key is never found:
the key leads to a member that only the other version has. -/
theorem decoded_twins : ∃ c, twinTree.decode = .ok c ∧ ¬ (c.members.map (·.key)).Nodup ∧
    (c.member? ⟨"go", "()V", .method⟩).map (·.declaredName) = some "start" ∧
    ∃ m ∈ c.members, m.key = ⟨"go", "()V", .method⟩ ∧ m.declaredName = "stop" := by
  refine ⟨_, rfl, ?_, ?_, ?_⟩ <;> decide +kernel

end ClassTree

end ClassWeave
