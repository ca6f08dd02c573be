import ClassWeave.Proofs.Names
import ClassWeave.Proofs.Store.Footprint

/-!
# Stores that stay below their root

The files of a class have paths made of the text of its name as it stands, so nothing but the name
decides where they are. A name is confined if it is no absolute path and none of its steps leads out
of the directory that it is taken from (`ClassName.Confined`); every relative name without dots is
(`ClassName.confined_of_dotFree`). The file of the tree, the temporary one and that of a lease are
in one directory (`ClassName.Confined.exists_place`), and the directories that may have to be made
are on the way there (`ClassName.Confined.admits`). So the operations on a confined class change
nothing but what is below the root, also where they fail half-way (`DirectoryStore.changesIn_write`,
`DirectoryStore.changesIn_lease`, `DirectoryStore.changesIn_release`).

That the root is a directory is used, and no more about it: its path may have steps of any kind, and
may be empty. A store that was created has its root (`DirectoryStore.exists_reaches_of_create`).

Of other names, it is only said where the tree is if it could be written
(`DirectoryStore.lookup_of_write`).
-/

namespace ClassWeave

/-! ### Ways that stay below their start -/

namespace Path

/-- One step from a location that is told by the names from some directory on. No step leads out of
that directory. -/
def descend? (l : Location) (name : String) : Option Location :=
  if name = "." then some l
  else if name = ".." then if l = [] then none else some l.dropLast
  else some (l ++ [name])

variable {l l' : Location} {base : Location} {name : String} {names : List String}

theorem stepFrom_of_descend? (h : descend? l name = some l') (base : Location) :
    Disk.stepFrom (base ++ l) name = base ++ l' := by
  rw [descend?] at h
  rw [Disk.stepFrom]
  split_ifs at h ⊢ with hdot hdots hl
  · cases h
    rfl
  · cases h
    exact List.dropLast_append_of_ne_nil hl
  · cases h
    exact List.append_assoc base l [name]

/-- **Steps that stay below their start** lead to the same location below any directory. -/
theorem resolve_of_descend? (h : names.foldlM descend? l = some l') (base : Location) :
    Disk.resolve (base ++ l) names = base ++ l' := by
  induction names generalizing l with
  | nil =>
    cases h
    rfl
  | cons name names ih =>
    rw [List.foldlM_cons] at h
    obtain ⟨m, hstep, h⟩ := Option.bind_eq_some_iff.1 h
    rw [Disk.resolve, List.foldl_cons, stepFrom_of_descend? hstep, ← Disk.resolve, ih h]

/-- Where all steps stay below their start, so do the first of them. -/
theorem exists_descend?_of_prefix {front : List String} (h : names.foldlM descend? l = some l')
    (hfront : front <+: names) : ∃ m, front.foldlM descend? l = some m := by
  obtain ⟨back, rfl⟩ := hfront
  rw [List.foldlM_append] at h
  obtain ⟨m, hm, -⟩ := Option.bind_eq_some_iff.1 h
  exact ⟨m, hm⟩

/-- Names that are no steps upwards stay below any start. -/
theorem exists_descend?_of_not_mem (h : ".." ∉ names) (l : Location) :
    ∃ l', names.foldlM descend? l = some l' := by
  induction names generalizing l with
  | nil => exact ⟨l, rfl⟩
  | cons name names ih =>
    rw [List.mem_cons, not_or] at h
    rw [List.foldlM_cons, descend?, if_neg (Ne.symm h.1)]
    split
    · exact ih h.2 l
    · exact ih h.2 (l ++ [name])

end Path

namespace ClassName

/-- The name leads from a directory to below it: it is no absolute path, and no step of it leads out
of the directory. -/
structure Confined (c : ClassName) : Prop where
  relative : Path.isAbsolute c.text = false
  inside : ((Path.above c.text).foldlM Path.descend? []).isSome = true

instance (c : ClassName) : Decidable c.Confined :=
  decidable_of_iff (_ ∧ _) ⟨fun ⟨hrelative, hinside⟩ ↦ ⟨hrelative, hinside⟩,
    fun h ↦ ⟨h.relative, h.inside⟩⟩

/-- Where the file of the tree is, for a store whose root is at `base`. -/
def fileFrom (base : Location) (c : ClassName) : Location :=
  Disk.resolve (if Path.isAbsolute c.text then [] else base) (Path.steps (c.text ++ ".json"))

/-- **A relative name without dots is confined.** -/
theorem confined_of_dotFree {c : ClassName} (hdots : c.DotFree)
    (hrelative : Path.isAbsolute c.text = false) : c.Confined := by
  refine ⟨hrelative, Option.isSome_iff_exists.2 (Path.exists_descend?_of_not_mem ?_ [])⟩
  intro hup
  obtain ⟨cs, hcs, hdotdot⟩ := List.mem_map.1 hup
  have hdot : '.' ∈ cs := by
    rw [← String.toList_ofList (l := cs), hdotdot]
    decide
  have hmem := (Path.of_mem_splitOn (List.mem_filter.1 hcs).1 hdot).1
  rw [List.mem_reverse] at hmem
  exact hdots (List.mem_reverse.1 ((List.dropWhile_suffix _).mem hmem))

end ClassName

/-! ### The paths of a class -/

namespace Path

variable {text ext : String}

/-- What the name of a class is made into a path with. -/
structure Extension (ext : String) : Prop where
  no_slash : '/' ∉ ext.toList
  length : 2 < ext.length

theorem Extension.ne_empty (h : Extension ext) : ext ≠ "" := by
  rintro rfl
  exact absurd h.length (by decide)

theorem Extension.append_ne (h : Extension ext) (name : String) {short : String}
    (hshort : short.length ≤ 2) : name ++ ext ≠ short := by
  rintro rfl
  have hlength := h.length
  rw [String.length_append] at hshort
  omega

theorem Extension.isAbsolute_eq (h : Extension ext) (text : String) :
    isAbsolute (text ++ ext) = isAbsolute text := isAbsolute_append text h.no_slash

/-- **A path that is made of a name** ends in a name, with the same extension. -/
theorem Extension.endsInName_join (h : Extension ext) (root text : String) :
    EndsInName (join root (text ++ ext)) ∧
      fileName (join root (text ++ ext)) = fileName text ++ ext := by
  have hne := append_ne_empty text h.ne_empty
  have hsteps := steps_append text h.no_slash h.ne_empty
  have hslash := endsInSlash_append text h.no_slash h.ne_empty
  have hdot : fileName text ++ ext ≠ "." := h.append_ne _ (by decide)
  cases habsolute : isAbsolute (text ++ ext) with
  | true =>
    have hjoin : join root (text ++ ext) = text ++ ext := if_pos habsolute
    have hname := fileName_append text h.no_slash
    rw [hjoin, hname]
    exact ⟨⟨hne, hslash, by rwa [hname]⟩, rfl⟩
  | false =>
    have hjoin := steps_join root habsolute
    have hslash' := (endsInSlash_join root habsolute hne).trans hslash
    have hne' : join root (text ++ ext) ≠ "" := by
      intro hempty
      rw [hempty, steps_empty, hsteps] at hjoin
      simp at hjoin
    rw [steps_of_fileName hne' hslash', hsteps, ← List.append_assoc] at hjoin
    have hname : fileName (join root (text ++ ext)) = fileName text ++ ext := by
      have hlast := congrArg List.getLast? hjoin
      rwa [List.getLast?_concat, List.getLast?_concat, Option.some.injEq] at hlast
    exact ⟨⟨hne', hslash', by rwa [hname]⟩, hname⟩

end Path

namespace Disk

variable {d d' : Disk} {base l : Location} {root p name text ext : String}
  {P : Location → Prop}

/-- Strictly below a directory. -/
def Below (base l : Location) : Prop := base <+: l ∧ l ≠ base

/-- A path leads to a directory. The empty path stands for the working directory. -/
structure Reaches (d : Disk) (root : String) (base : Location) : Prop where
  walks : Walks d.lookup (d.start root) (Path.steps root) base
  directory : d.lookup base = some .directory

theorem Reaches.changesIn (h : d.Reaches root base) (hd : ChangesIn P d d') :
    d'.Reaches root base where
  walks := by
    rw [start_congr hd.workingDirectory]
    exact h.walks.mono hd.directory
  directory := hd.directory base h.directory

theorem reaches_of_visit (h : d.visit root = .ok (base, some .directory)) :
    d.Reaches root base := by
  obtain ⟨rfl, hdir, -, hwalks⟩ := walks_of_visit h
  exact ⟨hwalks, hdir.symm⟩

theorem reaches_of_isDirectory (h : d.isDirectory root = true) : ∃ base, d.Reaches root base := by
  cases hstat : d.stat root with
  | error e =>
    rw [isDirectory, hstat] at h
    cases h
  | ok e =>
    rw [isDirectory, hstat] at h
    obtain rfl : e = .directory := Option.some.inj (of_decide_eq_true h)
    obtain ⟨⟨l, e⟩, hvisit, hstat⟩ := Outcome.bind_eq_ok.1 hstat
    refine ⟨l, reaches_of_visit (hvisit.trans ?_)⟩
    dsimp only at hstat
    split at hstat
    · split at hstat <;> cases hstat
    · rfl
    · cases hstat

theorem reaches_of_createDirectory (h : d.createDirectory root = .ok d') :
    d'.Reaches root (d.place root) := by
  obtain ⟨hnone, hd⟩ := createDirectory_eq_ok h
  have hchanges : ChangesIn (fun _ ↦ True) d d' := Alters.changesIn ⟨hnone ▸ nofun, hd⟩ trivial
  obtain ⟨⟨l, e⟩, hvisit, -⟩ := Outcome.bind_eq_ok.1 h
  obtain ⟨-, -, -, hwalks⟩ := walks_of_visit hvisit
  refine ⟨?_, ?_⟩
  · rw [start_congr hchanges.workingDirectory]
    exact hwalks.mono hchanges.directory
  · rw [hd.entry, Function.update_self]

/-- **A directory that was made with those above it is there.** -/
theorem exists_reaches_of_createDirectories (hstart : d.lookup d.workingDirectory = some .directory)
    (h : d.createDirectories root = (.ok (), d')) : ∃ base, d'.Reaches root base := by
  rw [createDirectories] at h
  split_ifs at h with hempty
  · cases h
    obtain rfl : root = "" := String.isEmpty_iff.1 hempty
    exact ⟨d.workingDirectory, .nil _, hstart⟩
  rw [createDirectoriesUpTo] at h
  split at h
  · rename_i hcreate
    cases h
    exact ⟨_, reaches_of_createDirectory hcreate⟩
  · split at h
    · cases h
    rename_i d₁ _
    split at h
    · rename_i hcreate
      cases h
      exact ⟨_, reaches_of_createDirectory hcreate⟩
    · split_ifs at h with hdir
      · cases h
        exact reaches_of_isDirectory hdir
      · cases h
  · split_ifs at h with hdir
    · cases h
      exact reaches_of_isDirectory hdir
    · cases h

theorem place_join {rel : String} (hrel : Path.isAbsolute rel = false) :
    d.place (Path.join root rel) = resolve (d.place root) (Path.steps rel) := by
  rw [place, place, start, start, Path.isAbsolute_join root hrel, Path.steps_join root hrel,
    resolve_append]

theorem resolve_replicate (l : Location) (k : ℕ) : resolve l (List.replicate k ".") = l := by
  induction k with
  | zero => rfl
  | succ k ih => exact ih

/-- **A path and another name in its place** lead to the same directory. -/
theorem place_withFileName (hp : Path.EndsInName p) (hup : Path.fileName p ≠ "..")
    (hext : Path.Extension ext) (hname : '/' ∉ name.toList) :
    d.place p = d.place (Path.parent p) ++ [Path.fileName p] ∧
      d.place (Path.withFileName p (name ++ ext)) = d.place (Path.parent p) ++ [name ++ ext] := by
  have hslash : '/' ∉ (name ++ ext).toList := by simp [hname, hext.no_slash]
  have hrelative : Path.isAbsolute (name ++ ext) = false :=
    decide_eq_false fun hhead ↦ hslash (List.mem_of_head? hhead)
  obtain ⟨k, hsteps, -⟩ := hp.exists_steps_parent
  constructor
  · rw [place, place, hsteps, resolve_append, resolve_append, resolve_replicate, start, start,
      Path.isAbsolute_parent]
    exact stepFrom_of_ne ⟨hp.name, hup⟩
  · rw [Path.withFileName, place_join hrelative,
      Path.steps_of_not_mem hslash (Path.append_ne_empty name hext.ne_empty)]
    exact stepFrom_of_ne ⟨hext.append_ne name (by decide), hext.append_ne name (by decide)⟩

theorem below_concat (base l : Location) (name : String) : Below base (base ++ l ++ [name]) := by
  rw [List.append_assoc]
  exact ⟨List.prefix_append _ _, by simp⟩

end Disk

namespace ClassName.Confined

open Disk

variable {c : ClassName} {d : Disk} {base : Location} {root ext : String}

/-- The steps of a path of the class lead to a name below the directory that they start at. -/
theorem exists_descend? (h : c.Confined) (hext : Path.Extension ext) :
    ∃ l, (Path.steps (c.text ++ ext)).foldlM Path.descend? [] =
      some (l ++ [Path.fileName c.text ++ ext]) := by
  obtain ⟨l, hl⟩ := Option.isSome_iff_exists.1 h.inside
  refine ⟨l, ?_⟩
  rw [Path.steps_append c.text hext.no_slash hext.ne_empty, List.foldlM_append, hl]
  show Path.descend? l _ >>= _ = _
  rw [Path.descend?, if_neg (hext.append_ne _ (by decide)), if_neg (hext.append_ne _ (by decide))]
  rfl

/-- **All files of the class are in one directory**, which is the root or below it. -/
theorem exists_place (h : c.Confined) (hext : Path.Extension ext) (hroot : d.Reaches root base) :
    ∃ l, d.place (Path.join root (c.text ++ ext)) = base ++ l ++ [Path.fileName c.text ++ ext] ∧
      ∀ {name ext' : String}, Path.Extension ext' → '/' ∉ name.toList →
        d.place (Path.withFileName (Path.join root (c.text ++ ext)) (name ++ ext')) =
          base ++ l ++ [name ++ ext'] := by
  obtain ⟨l, hl⟩ := h.exists_descend? hext
  have hplace : d.place (Path.join root (c.text ++ ext)) =
      base ++ l ++ [Path.fileName c.text ++ ext] := by
    rw [place_join ((hext.isAbsolute_eq c.text).trans h.relative), place, hroot.walks.resolve_eq]
    have hresolve := Path.resolve_of_descend? hl base
    rwa [List.append_nil, ← List.append_assoc] at hresolve
  refine ⟨l, hplace, fun hext' hname ↦ ?_⟩
  obtain ⟨hends, hfile⟩ := hext.endsInName_join root c.text
  have hup : Path.fileName (Path.join root (c.text ++ ext)) ≠ ".." := by
    rw [hfile]
    exact hext.append_ne _ (by decide)
  obtain ⟨hthis, hother⟩ := place_withFileName (d := d) hends hup hext' hname
  rw [hplace, hfile] at hthis
  rw [hother, (List.append_inj' hthis.symm rfl).1]

/-- **On the way to a file of the class** there is nothing but directories that are there and places
below the root. -/
theorem admits (h : c.Confined) (hext : Path.Extension ext) (hroot : d.Reaches root base) :
    Admits (Below base) d (Path.join root (c.text ++ ext)) := by
  have hrelative := (hext.isAbsolute_eq c.text).trans h.relative
  obtain ⟨l, hl⟩ := h.exists_descend? hext
  intro names hnames
  rw [start, Path.isAbsolute_join root hrelative, ← start]
  rw [Path.steps_join root hrelative] at hnames
  obtain ⟨back, hback⟩ := hnames
  -- the steps end on the way to the root, or behind it
  rcases List.append_eq_append_iff.1 hback with ⟨more, hway, -⟩ | ⟨front, rfl, hrest⟩
  · exact .inl (hroot.walks.directory_of_prefix hroot.directory ⟨more, hway.symm⟩)
  · obtain ⟨m, hm⟩ := Path.exists_descend?_of_prefix hl ⟨back, hrest.symm⟩
    have hresolve := Path.resolve_of_descend? hm base
    rw [List.append_nil] at hresolve
    rw [resolve_append, hroot.walks.resolve_eq, hresolve]
    rcases List.eq_nil_or_concat' m with rfl | ⟨m, name, rfl⟩
    · rw [List.append_nil]
      exact .inl hroot.directory
    · rw [← List.append_assoc]
      exact .inr (below_concat base m name)

end ClassName.Confined

namespace DirectoryStore

open Disk

variable {s : DirectoryStore} {c : ClassName} {d d' : Disk} {base : Location} {p text : String}
  {t : ClassTree} {P : Location → Prop}

/-! ### Operations -/

/-- The root of a store that was created is there. -/
theorem exists_reaches_of_create {root : String} {versions : List Version}
    (hstart : d.lookup d.workingDirectory = some .directory)
    (h : create root versions d = (.ok s, d')) :
    s.root = root ∧ ∃ base, d'.Reaches s.root base := by
  rw [create] at h
  split at h
  · rename_i d₁ hcreate
    cases h
    exact ⟨rfl, exists_reaches_of_createDirectories hstart hcreate⟩
  · cases h

theorem extension_json : Path.Extension ".json" := ⟨by decide, by decide⟩

theorem extension_lock : Path.Extension ".lock" := ⟨by decide, by decide⟩

theorem extension_tmp : Path.Extension ".tmp" := ⟨by decide, by decide⟩

theorem changesIn_replaceFile (hp : P (d.place p)) (htemporary : P (d.place (temporary p)))
    (text : String) : ChangesIn P d (replaceFile p text d).2 := by
  delta replaceFile
  split
  · exact .refl P d
  · rename_i d₁ hwrite
    have hd := Alters.changesIn (writeFile_eq_ok hwrite) htemporary
    rw [← place_congr hd.workingDirectory] at hp htemporary
    split
    · exact hd
    · rename_i d' hrename
      exact hd.trans (changesIn_rename hrename htemporary hp)

theorem slash_not_mem_dotted (p : String) : '/' ∉ ("." ++ Path.fileName p).toList := by
  simp [Path.not_mem_fileName]

/-- The file of the tree, the temporary one and the file of a lease are below the root. -/
theorem below_places (hc : c.Confined) (hroot : d.Reaches s.root base) :
    Below base (d.place (classPath s.root c)) ∧
      Below base (d.place (temporary (classPath s.root c))) ∧
      Below base (d.place (s.lockPath c)) := by
  obtain ⟨l, hfile, htemporary⟩ := hc.exists_place extension_json hroot
  obtain ⟨k, -, hlock⟩ := hc.exists_place extension_lock hroot
  refine ⟨?_, ?_, ?_⟩
  · rw [classPath, hfile]
    exact below_concat base l _
  · rw [temporary, classPath, htemporary extension_tmp (slash_not_mem_dotted _)]
    exact below_concat base l _
  · rw [lockPath, plainLockPath, (extension_lock.endsInName_join s.root c.text).2,
      ← String.append_assoc, hlock extension_lock (slash_not_mem_dotted _)]
    exact below_concat base k _

/-- **Writing a confined class changes nothing but what is below the root**, whether it succeeds or
not. -/
theorem changesIn_write (hc : c.Confined) (hroot : d.Reaches s.root base) (t : ClassTree) :
    ChangesIn (Below base) d (s.write c t d).2 := by
  have hup := (hc.admits extension_json hroot).parent.changesIn_createDirectories
  delta DirectoryStore.write classPath
  dsimp only
  split
  · rename_i hd
    rw [hd] at hup
    exact hup
  · rename_i d₁ hd
    rw [hd] at hup
    obtain ⟨hfile, htemporary, -⟩ := below_places hc (hroot.changesIn hup)
    have hreplace := changesIn_replaceFile hfile htemporary t.toJson.pretty
    rw [classPath] at hreplace
    split
    · rename_i hd'
      rw [hd'] at hreplace
      exact hup.trans hreplace
    · rename_i hd'
      rw [hd'] at hreplace
      exact hup.trans hreplace

/-- **Taking a lease on a confined class** changes nothing but what is below the root. -/
theorem changesIn_lease (hc : c.Confined) (hroot : d.Reaches s.root base) :
    ChangesIn (Below base) d (s.lease c d).2 := by
  have hup := (hc.admits extension_lock hroot).parent.changesIn_createDirectories
  delta DirectoryStore.lease plainLockPath
  dsimp only
  split
  · rename_i hd
    rw [hd] at hup
    exact hup
  · rename_i d₁ hd
    rw [hd] at hup
    obtain ⟨-, -, hlock⟩ := below_places hc (hroot.changesIn hup)
    split
    · rename_i d' hcreate
      exact hup.trans (Alters.changesIn (createFile_eq_ok hcreate) hlock)
    · exact hup
    · exact hup

/-- **Giving up a lease** on a confined class changes nothing but what is below the root. -/
theorem changesIn_release (hc : c.Confined) (hroot : d.Reaches s.root base) :
    ChangesIn (Below base) d (s.release c d) := by
  delta DirectoryStore.release
  cases hremove : d.removeFile (s.lockPath c) with
  | error e => exact .refl _ d
  | ok d' => exact Alters.changesIn (removeFile_eq_ok hremove) (below_places hc hroot).2.2

/-- A name with a slash in front leads from the top, any other one from the root. -/
theorem place_classPath (hroot : d.Reaches s.root base) :
    d.place (classPath s.root c) = c.fileFrom base := by
  have habsolute := extension_json.isAbsolute_eq c.text
  rw [classPath, ClassName.fileFrom]
  cases h : Path.isAbsolute c.text with
  | true =>
    rw [h] at habsolute
    rw [Path.join, if_pos habsolute, place, start, if_pos habsolute, if_pos rfl]
  | false =>
    rw [h] at habsolute
    rw [place_join habsolute, place, hroot.walks.resolve_eq, if_neg Bool.false_ne_true]

theorem place_temporary_ne (d : Disk) (root : String) (c : ClassName) :
    d.place (temporary (classPath root c)) ≠ d.place (classPath root c) := by
  obtain ⟨hends, hfile⟩ := extension_json.endsInName_join root c.text
  have hup : Path.fileName (classPath root c) ≠ ".." := by
    rw [classPath, hfile]
    exact extension_json.append_ne _ (by decide)
  obtain ⟨hthis, hother⟩ := place_withFileName (d := d) hends hup extension_tmp
    (slash_not_mem_dotted (classPath root c))
  rw [temporary, classPath] at *
  rw [hthis, hother]
  intro heq
  have hname := congrArg String.length (List.singleton_inj.1 (List.append_cancel_left heq))
  rw [String.length_append, String.length_append] at hname
  have htmp : ".tmp".length = 4 := rfl
  omega

/-- A file that was replaced has the text where its path leads to. -/
theorem lookup_of_replaceFile (hne : d.place (temporary p) ≠ d.place p)
    (h : replaceFile p text d = (.ok (), d')) : d'.lookup (d.place p) = some (.file text) := by
  delta replaceFile at h
  split at h
  · cases h
  rename_i d₁ hwrite
  have hdraft := (writeFile_eq_ok hwrite).2
  split at h
  · cases h
  rename_i d₂ hrename
  cases h
  rw [← place_congr hdraft.workingDirectory p] at hne ⊢
  rw [← place_congr hdraft.workingDirectory (temporary p)] at hne
  refine lookup_rename hrename hne ?_
  rw [hdraft.entry, place_congr hdraft.workingDirectory, Function.update_self]

/-- **Whatever the name is, a tree that is written is where the steps of the name lead to.** -/
theorem lookup_of_write (hroot : d.Reaches s.root base) (h : s.write c t d = (.ok (), d')) :
    d'.lookup (c.fileFrom base) = some (.file t.toJson.pretty) := by
  have hadmits : Admits (fun _ ↦ True) d (Path.parent (classPath s.root c)) :=
    fun _ _ ↦ .inr trivial
  have hup := hadmits.changesIn_createDirectories
  delta DirectoryStore.write at h
  dsimp only at h
  split at h
  · cases h
  rename_i d₁ hd
  rw [hd] at hup
  split at h
  · cases h
  rename_i hreplace
  cases h
  have hfile := lookup_of_replaceFile (place_temporary_ne d₁ s.root c) hreplace
  rwa [place_classPath (hroot.changesIn hup)] at hfile

end DirectoryStore

end ClassWeave
