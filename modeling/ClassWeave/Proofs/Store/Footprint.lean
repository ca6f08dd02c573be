import ClassWeave.Proofs.Store.Directory

/-!
# What operations on paths change

The place of a path is where its steps lead when they are taken as they are written, whether there
is anything or not (`Disk.place`). A way that a disk follows ends there (`Disk.follow_eq_ok`), with
every step but the last at a directory, so an operation on a path changes the entry at its place
and no other (`Disk.writeFile_eq_ok` and so on). Making directories may begin far above the one that
is asked for: each of them is at the place of some of the first steps
(`Disk.changesIn_createDirectories`), and those that are there already stay as they are.

This holds of disks with and without limits. What a disk refuses, it does not change.
-/

namespace ClassWeave

namespace Disk

variable {d d' d'' : Disk} {base l : Location} {names : List String} {name p q text : String}
  {t : Trail} {P Q : Location → Prop}

/-! ### Places -/

/-- Where steps lead to from a location. -/
def resolve (l : Location) (names : List String) : Location := names.foldl stepFrom l

/-- Where a path leads to, whether there is anything or not. -/
def place (d : Disk) (p : String) : Location := resolve (d.start p) (Path.steps p)

theorem resolve_append (l : Location) (names names' : List String) :
    resolve l (names ++ names') = resolve (resolve l names) names' := List.foldl_append

theorem Walks.resolve_eq {see : Location → Option Entry} (h : Walks see l names base) :
    resolve l names = base := by
  induction h with
  | nil l => rfl
  | cons hdir hon ih => exact ih

/-- Every place on a way that was walked to a directory is one. -/
theorem Walks.directory_of_prefix {see : Location → Option Entry} (h : Walks see l names base)
    (hbase : see base = some .directory) {front : List String} (hfront : front <+: names) :
    see (resolve l front) = some .directory := by
  obtain ⟨back, rfl⟩ := hfront
  obtain ⟨m, hm, hback⟩ := walks_append.1 h
  rw [hm.resolve_eq]
  cases hback with
  | nil => exact hbase
  | cons hdir hon => exact hdir

theorem start_congr (hstart : d'.workingDirectory = d.workingDirectory) (p : String) :
    d'.start p = d.start p := by
  rw [start, start, hstart]

theorem place_congr (hstart : d'.workingDirectory = d.workingDirectory) (p : String) :
    d'.place p = d.place p := by
  rw [place, place, start_congr hstart]

/-! ### Following a path on any disk -/

theorem step_eq_ok (h : d.step (d.trailTo l) name = .ok t) :
    d.lookup l = some .directory ∧ t = d.trailTo (stepFrom l name) := by
  rw [step, here_trailTo] at h
  cases hl : d.root.at? l with
  | none =>
    rw [hl] at h
    cases h
  | some n =>
    rw [hl] at h
    cases n with
    | file text => cases h
    | directory nodes =>
      refine ⟨by rw [lookup, hl]; rfl, ?_⟩
      dsimp only at h
      split_ifs at h with hdot hdots hlimit
      · cases h
        rw [stepFrom, if_pos hdot]
      · cases h
        rw [stepFrom, if_neg hdot, if_pos hdots, tail_trailTo]
      · cases h
        rw [stepFrom, if_neg hdot, if_neg hdots, trailTo_append, here_trailTo, hl]
        rfl

theorem walks_of_foldlM_step (h : names.foldlM d.step (d.trailTo l) = .ok t) :
    Walks d.lookup l names (resolve l names) ∧ t = d.trailTo (resolve l names) := by
  induction names generalizing l with
  | nil => exact ⟨.nil l, (Outcome.pure_eq_ok.1 h).symm⟩
  | cons name names ih =>
    rw [List.foldlM_cons] at h
    obtain ⟨t', hstep, h⟩ := Outcome.bind_eq_ok.1 h
    obtain ⟨hdir, rfl⟩ := step_eq_ok hstep
    obtain ⟨hwalks, ht⟩ := ih h
    exact ⟨.cons hdir hwalks, ht⟩

/-- **A way that a disk follows ends at the place of the path.** -/
theorem follow_eq_ok (h : d.follow p = .ok t) :
    p ≠ "" ∧ Walks d.lookup (d.start p) (Path.steps p) (d.place p) ∧ t = d.trailTo (d.place p) := by
  rw [Disk.follow, trailTo_start] at h
  split_ifs at h with _ hempty
  exact ⟨fun hp ↦ hempty (String.isEmpty_iff.2 hp), walks_of_foldlM_step h⟩

theorem walks_of_visit {e : Option Entry} (h : d.visit p = .ok (l, e)) :
    l = d.place p ∧ e = d.lookup (d.place p) ∧ p ≠ "" ∧
      Walks d.lookup (d.start p) (Path.steps p) (d.place p) := by
  obtain ⟨t, hfollow, ht⟩ := Outcome.map_eq_ok.1 h
  obtain ⟨hp, hwalks, rfl⟩ := follow_eq_ok hfollow
  rw [location_trailTo, here_trailTo] at ht
  cases ht
  exact ⟨rfl, rfl, hp, hwalks⟩

/-- Above a directory there are directories, up to the top. -/
theorem lookup_dropLast (h : d.lookup l = some .directory) :
    d.lookup l.dropLast = some .directory := by
  rcases List.eq_nil_or_concat' l with rfl | ⟨front, name, rfl⟩
  · exact h
  · rw [List.dropLast_concat]
    exact lookup_of_append h

/-- What a way leads to is a directory, or it is in one. -/
theorem Walks.exists_directory (hp : p ≠ "") (h : Walks d.lookup (d.start p) (Path.steps p) l)
    (hl : d.lookup l ≠ some .directory) :
    ∃ dir name, l = dir ++ [name] ∧ d.lookup dir = some .directory := by
  rcases List.eq_nil_or_concat' (Path.steps p) with hsteps | ⟨front, name, hsteps⟩
  · -- a path without steps is that of the top
    have habsolute : Path.isAbsolute p = true := by
      by_contra hrelative
      exact Path.steps_ne_nil hp (Bool.eq_false_iff.2 hrelative) hsteps
    rw [hsteps, walks_nil, start, if_pos habsolute] at h
    exact absurd (h ▸ rfl) hl
  · rw [hsteps] at h
    obtain ⟨m, -, hlast⟩ := walks_append.1 h
    obtain ⟨hdir, hnil⟩ := walks_cons.1 hlast
    obtain rfl := walks_nil.1 hnil
    rw [stepFrom] at hl ⊢
    split_ifs at hl ⊢ with hdot hdots
    · exact absurd hdir hl
    · exact absurd (lookup_dropLast hdir) hl
    · exact ⟨m, name, rfl, hdir⟩

/-! ### Single operations -/

theorem createDirectory_eq_ok (h : d.createDirectory p = .ok d') :
    d.lookup (d.place p) = none ∧
      Alters [] (Function.update d.lookup (d.place p) (some .directory)) d d' := by
  obtain ⟨⟨l, e⟩, hvisit, h⟩ := Outcome.bind_eq_ok.1 h
  obtain ⟨rfl, rfl, hp, hwalks⟩ := walks_of_visit hvisit
  cases he : d.lookup (d.place p) with
  | some e =>
    rw [he] at h
    cases h
  | none =>
    rw [he] at h
    cases h
    obtain ⟨dir, name, hplace, hdir⟩ := hwalks.exists_directory hp (he ▸ nofun)
    rw [hplace] at he ⊢
    exact ⟨rfl, alters_put (n := .empty) rfl hdir (he ▸ nofun)⟩

theorem writeFile_eq_ok (h : d.writeFile p text = .ok d') :
    d.lookup (d.place p) ≠ some .directory ∧
      Alters [] (Function.update d.lookup (d.place p) (some (.file text))) d d' := by
  obtain ⟨⟨l, e⟩, hvisit, h⟩ := Outcome.bind_eq_ok.1 h
  obtain ⟨rfl, rfl, hp, hwalks⟩ := walks_of_visit hvisit
  dsimp only at h
  split at h
  · cases h
  · rename_i hcond
    cases h
    have hne : d.lookup (d.place p) ≠ some .directory := fun heq ↦ hcond (by simp [heq])
    obtain ⟨dir, name, hplace, hdir⟩ := hwalks.exists_directory hp hne
    rw [hplace] at hne ⊢
    exact ⟨hne, alters_put (n := .file text) rfl hdir hne⟩

theorem createFile_eq_ok (h : d.createFile p = .ok d') :
    d.lookup (d.place p) ≠ some .directory ∧
      Alters [] (Function.update d.lookup (d.place p) (some (.file ""))) d d' := by
  obtain ⟨⟨l, e⟩, hvisit, h⟩ := Outcome.bind_eq_ok.1 h
  cases e with
  | some e => cases h
  | none => exact writeFile_eq_ok h

theorem stat_eq_file (h : d.stat p = .ok (.file text)) :
    p ≠ "" ∧ Walks d.lookup (d.start p) (Path.steps p) (d.place p) ∧
      d.lookup (d.place p) = some (.file text) := by
  obtain ⟨⟨l, e⟩, hvisit, h⟩ := Outcome.bind_eq_ok.1 h
  obtain ⟨rfl, rfl, hp, hwalks⟩ := walks_of_visit hvisit
  refine ⟨hp, hwalks, ?_⟩
  cases he : d.lookup (d.place p) with
  | none =>
    rw [he] at h
    cases h
  | some e =>
    rw [he] at h
    cases e with
    | directory => cases h
    | file text' =>
      dsimp only at h
      split at h
      · cases h
      · cases h
        rfl

theorem readFile_eq_ok (h : d.readFile p = .ok text) :
    d.lookup (d.place p) = some (.file text) := by
  obtain ⟨e, hstat, h⟩ := Outcome.bind_eq_ok.1 h
  cases e with
  | directory => cases h
  | file text' =>
    cases h
    exact (stat_eq_file hstat).2.2

theorem removeFile_eq_ok (h : d.removeFile p = .ok d') :
    d.lookup (d.place p) ≠ some .directory ∧
      Alters [] (Function.update d.lookup (d.place p) none) d d' := by
  obtain ⟨e, hstat, h⟩ := Outcome.bind_eq_ok.1 h
  cases e with
  | directory => cases h
  | file text =>
    obtain ⟨hp, hwalks, hfile⟩ := stat_eq_file hstat
    obtain ⟨l, hlocate, h⟩ := Outcome.bind_eq_ok.1 h
    cases h
    obtain ⟨t, hfollow, rfl⟩ := Outcome.map_eq_ok.1 hlocate
    obtain ⟨-, -, rfl⟩ := follow_eq_ok hfollow
    have hne : d.lookup (d.place p) ≠ some .directory := hfile ▸ nofun
    obtain ⟨dir, name, hplace, hdir⟩ := hwalks.exists_directory hp hne
    rw [location_trailTo, hplace]
    rw [hplace] at hne
    exact ⟨hne, alters_erase hdir hne⟩

/-! ### Changes -/

/-- The disks differ in these locations only, and what was a directory is one still. -/
structure ChangesIn (P : Location → Prop) (d d' : Disk) : Prop where
  workingDirectory : d'.workingDirectory = d.workingDirectory
  entry : ∀ l, ¬P l → d'.lookup l = d.lookup l
  directory : ∀ l, d.lookup l = some .directory → d'.lookup l = some .directory

theorem ChangesIn.refl (P : Location → Prop) (d : Disk) : ChangesIn P d d :=
  ⟨rfl, fun _ _ ↦ rfl, fun _ h ↦ h⟩

theorem ChangesIn.trans (h : ChangesIn P d d') (h' : ChangesIn P d' d'') : ChangesIn P d d'' where
  workingDirectory := h'.workingDirectory.trans h.workingDirectory
  entry l hl := (h'.entry l hl).trans (h.entry l hl)
  directory l hl := h'.directory l (h.directory l hl)

/-- One entry that was no directory is changed. -/
theorem Alters.changesIn {e : Option Entry}
    (h : d.lookup l ≠ some .directory ∧ Alters [] (Function.update d.lookup l e) d d') (hl : P l) :
    ChangesIn P d d' where
  workingDirectory := h.2.workingDirectory
  entry k hk := by
    rw [h.2.entry, Function.update_of_ne]
    rintro rfl
    exact hk hl
  directory k hk := by
    rw [h.2.entry]
    exact directory_update h.1 e hk

/-- Every place on the way of a path is a directory already, or one that may be changed. -/
def Admits (P : Location → Prop) (d : Disk) (p : String) : Prop :=
  ∀ names, names <+: Path.steps p →
    d.lookup (resolve (d.start p) names) = some .directory ∨ P (resolve (d.start p) names)

theorem Admits.parent (h : Admits P d p) : Admits P d (Path.parent p) := by
  intro names hnames
  have hstart : d.start (Path.parent p) = d.start p := by
    rw [start, start, Path.isAbsolute_parent]
  rw [hstart]
  exact h names (hnames.trans (Path.steps_parent_prefix p))

theorem Admits.changesIn (h : Admits P d p) (hd : ChangesIn P d d') : Admits P d' p := by
  intro names hnames
  rw [start_congr hd.workingDirectory]
  exact (h names hnames).imp_left (hd.directory _)

theorem Admits.changesIn_createDirectory (h : Admits P d p) (hd : d.createDirectory p = .ok d') :
    ChangesIn P d d' := by
  obtain ⟨hnone, halters⟩ := createDirectory_eq_ok hd
  have hplace : P (d.place p) := by
    refine (h _ List.prefix_rfl).resolve_left fun hdir ↦ ?_
    rw [← place, hnone] at hdir
    cases hdir
  exact Alters.changesIn ⟨hnone ▸ nofun, halters⟩ hplace

/-- **Making directories changes places on the way only**, whether it comes to an end or not. -/
theorem Admits.changesIn_createDirectoriesUpTo (h : Admits P d p) (n : ℕ) :
    ChangesIn P d (d.createDirectoriesUpTo p n).2 := by
  induction n generalizing d p with
  | zero => exact .refl P d
  | succ n ih =>
    rw [createDirectoriesUpTo]
    split
    · rename_i d' hd
      exact h.changesIn_createDirectory hd
    · have hup := ih h.parent
      split
      · rename_i hd
        rw [hd] at hup
        exact hup
      · rename_i d₁ hd
        rw [hd] at hup
        split
        · rename_i d' hd'
          exact hup.trans ((h.changesIn hup).changesIn_createDirectory hd')
        · exact hup
    · exact .refl P d

theorem Admits.changesIn_createDirectories (h : Admits P d p) :
    ChangesIn P d (d.createDirectories p).2 := by
  rw [createDirectories]
  split
  · exact .refl P d
  · exact h.changesIn_createDirectoriesUpTo _

theorem changesIn_rename (h : d.rename p q = .ok d') (hp : P (d.place p)) (hq : P (d.place q)) :
    ChangesIn P d d' := by
  obtain ⟨text, -, h⟩ := Outcome.bind_eq_ok.1 h
  obtain ⟨d₁, hwrite, h⟩ := Outcome.bind_eq_ok.1 h
  have hd := Alters.changesIn (writeFile_eq_ok hwrite) hq
  split at h
  · cases h
    exact hd
  · rw [← place_congr hd.workingDirectory] at hp
    exact hd.trans (Alters.changesIn (removeFile_eq_ok h) hp)

/-- A file that was moved is at the place that it was moved to. -/
theorem lookup_rename (h : d.rename p q = .ok d') (hne : d.place p ≠ d.place q)
    (hfile : d.lookup (d.place p) = some (.file text)) :
    d'.lookup (d.place q) = some (.file text) := by
  obtain ⟨text', hread, h⟩ := Outcome.bind_eq_ok.1 h
  obtain rfl : text = text' := by
    have hsame := hfile.symm.trans (readFile_eq_ok hread)
    cases hsame
    rfl
  obtain ⟨d₁, hwrite, h⟩ := Outcome.bind_eq_ok.1 h
  have hd := (writeFile_eq_ok hwrite).2
  have hthere : d₁.lookup (d.place q) = some (.file text) := by
    rw [hd.entry, Function.update_self]
  split at h
  · cases h
    exact hthere
  · rw [(removeFile_eq_ok h).2.entry, place_congr hd.workingDirectory,
      Function.update_of_ne hne.symm, hthere]

end Disk

end ClassWeave
