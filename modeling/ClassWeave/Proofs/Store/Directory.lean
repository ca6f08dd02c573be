import ClassWeave.Proofs.Store.Disk
import ClassWeave.Proofs.Store.Path
import ClassWeave.Store.Directory

/-!
# Files and directories below a root

On a disk that takes names and paths of any length, a path below an existing directory comes down to
the names that it adds to those of the directory (`Disk.Leads`). The parent of such a path adds the
names before the last one (`Disk.Leads.parent`), and another file name in its place adds that name
(`Disk.Leads.withFileName`).

So the operations on paths are told from the entries. What a path leads to is what is seen at its
location, as long as no file is in the way (`Disk.Leads.stat`). Creating directories makes those on
the way and nothing else (`Disk.Leads.exists_createDirectories`), and where the directory of a path
is there (`Disk.Points`), each of the other operations changes one entry. That includes replacing a
file by way of a temporary one (`DirectoryStore.exists_replaceFile`).
-/

namespace ClassWeave

namespace Disk

variable {d d' d₁ : Disk} {base l : Location} {names : List String} {name p text : String}

/-! ### Ways in parts -/

theorem walks_append {see : Location → Option Entry} {a b : List String} {l l' : Location} :
    Walks see l (a ++ b) l' ↔ ∃ m, Walks see l a m ∧ Walks see m b l' := by
  induction a generalizing l with
  | nil => exact ⟨fun h ↦ ⟨l, .nil l, h⟩, fun ⟨m, hm, h⟩ ↦ walks_nil.1 hm ▸ h⟩
  | cons name a ih =>
    simp only [List.cons_append, walks_cons, ih]
    exact ⟨fun ⟨hl, m, ha, hb⟩ ↦ ⟨m, ⟨hl, ha⟩, hb⟩, fun ⟨m, ⟨hl, ha⟩, hb⟩ ↦ ⟨hl, m, ha, hb⟩⟩

/-- Steps that stay in place lead nowhere else. -/
theorem Walks.of_replicate {see : Location → Option Entry} {l l' : Location} {k : Nat}
    (h : Walks see l (List.replicate k ".") l') : l = l' := by
  induction k with
  | zero => exact walks_nil.1 h
  | succ k ih => exact ih (walks_cons.1 h).2

theorem stepFrom_of_ne (hname : name ≠ "." ∧ name ≠ "..") : stepFrom l name = l ++ [name] := by
  rw [stepFrom, if_neg hname.1, if_neg hname.2]

/-- Names lead from a directory to below it, if the last of them alone is none of a directory. -/
theorem walks_names (hplain : Plain (names ++ [name]))
    (hdir : d.lookup (l ++ names) = some .directory) :
    Walks d.lookup l (names ++ [name]) (l ++ names ++ [name]) := by
  induction names generalizing l with
  | nil =>
    rw [List.append_nil] at hdir ⊢
    refine walks_cons.2 ⟨hdir, walks_nil.2 (stepFrom_of_ne (hplain _ List.mem_cons_self))⟩
  | cons a names ih =>
    have hl : d.lookup l = some .directory := lookup_of_append hdir
    have hcons : l ++ a :: names = l ++ [a] ++ names := List.append_cons l a names
    rw [hcons] at hdir ⊢
    refine .cons hl ?_
    rw [stepFrom_of_ne (hplain _ List.mem_cons_self)]
    exact ih (fun b hb ↦ hplain b (List.mem_cons_of_mem a hb)) hdir

/-! ### Paths below a directory -/

/-- Where a path starts. -/
def start (d : Disk) (p : String) : Location :=
  if Path.isAbsolute p then [] else d.workingDirectory

/-- A path that leads to a directory, and from there on to names. -/
structure Leads (d : Disk) (base : Location) (names : List String) (p : String) : Prop where
  no_nul : '\x00' ∉ p.toList
  no_slash : names ≠ [] → Path.endsInSlash p = false
  steps : ∃ way, Path.steps p = way ++ names ∧ (Path.isAbsolute p = true ∨ way ≠ []) ∧
    Walks d.lookup (d.start p) way base

theorem Leads.ne_empty (h : d.Leads base names p) : p ≠ "" := by
  rintro rfl
  obtain ⟨way, hsteps, hway, -⟩ := h.steps
  rcases hway with habsolute | hway
  · cases habsolute
  · exact hway (List.append_eq_nil_iff.1 hsteps.symm).1

/-- A path still leads to its names where the directories are still there. -/
theorem Leads.mono (h : d.Leads base names p) (hstart : d'.workingDirectory = d.workingDirectory)
    (hdirs : ∀ l, d.lookup l = some .directory → d'.lookup l = some .directory) :
    d'.Leads base names p where
  no_nul := h.no_nul
  no_slash := h.no_slash
  steps := by
    obtain ⟨way, hsteps, hway, hwalks⟩ := h.steps
    refine ⟨way, hsteps, hway, ?_⟩
    rw [start, hstart]
    exact hwalks.mono hdirs

/-- **Joining adds the names of the second path.** -/
theorem Leads.join {rel : String} {names' : List String} (h : d.Leads base names p)
    (hrel : Path.isAbsolute rel = false) (hne : rel ≠ "") (hslash : Path.endsInSlash rel = false)
    (hnul : '\x00' ∉ rel.toList) (hnames : Path.steps rel = names') :
    d.Leads base (names ++ names') (Path.join p rel) where
  no_nul := (Path.mem_join (by decide) p hrel).not.2 (not_or.2 ⟨h.no_nul, hnul⟩)
  no_slash _ := (Path.endsInSlash_join p hrel hne).trans hslash
  steps := by
    obtain ⟨way, hsteps, hway, hwalks⟩ := h.steps
    refine ⟨way, ?_, ?_, ?_⟩
    · rw [Path.steps_join p hrel, hsteps, hnames, List.append_assoc]
    · rwa [Path.isAbsolute_join p hrel]
    · rwa [start, Path.isAbsolute_join p hrel]

/-- Steps that stay in place do not stand between plain names. -/
theorem Walks.of_append_replicate {see : Location → Option Entry} {steps way : List String}
    {l l' : Location} {k : Nat} (hplain : Plain names) (hwalks : Walks see l way l')
    (hsteps : steps ++ List.replicate k "." = way ++ names) :
    (names = [] ∧ way = steps ++ List.replicate k "." ∧ Walks see l steps l') ∨
      (k = 0 ∧ names ≠ [] ∧ steps = way ++ names) := by
  rcases List.eq_nil_or_concat' names with rfl | ⟨front, x, rfl⟩
  · rw [List.append_nil] at hsteps
    subst hsteps
    obtain ⟨m, hfront, hstay⟩ := walks_append.1 hwalks
    obtain rfl := hstay.of_replicate
    exact .inl ⟨rfl, rfl, hfront⟩
  · cases k with
    | zero => exact .inr ⟨rfl, by simp, by simpa using hsteps⟩
    | succ k =>
      rw [List.replicate_succ', ← List.append_assoc, ← List.append_assoc] at hsteps
      have hdot : "." = x := List.singleton_inj.1 (List.append_inj_right' hsteps rfl)
      exact absurd hdot.symm (hplain x (by simp)).1

theorem Leads.endsInName (h : d.Leads base (names ++ [name]) p) (hname : name ≠ ".") :
    Path.EndsInName p ∧ Path.fileName p = name := by
  have hslash := h.no_slash (by simp)
  obtain ⟨way, hsteps, -, -⟩ := h.steps
  rw [Path.steps_of_fileName h.ne_empty hslash, ← List.append_assoc] at hsteps
  have hfile : Path.fileName p = name := List.singleton_inj.1 (List.append_inj_right' hsteps rfl)
  exact ⟨⟨h.ne_empty, hslash, hfile ▸ hname⟩, hfile⟩

/-- **The parent leads to the names before the last one.** -/
theorem Leads.parent (h : d.Leads base (names ++ [name]) p) (hplain : Plain (names ++ [name])) :
    d.Leads base names (Path.parent p) := by
  obtain ⟨hends, hfile⟩ := h.endsInName (hplain name (by simp)).1
  obtain ⟨way, hsteps, hway, hwalks⟩ := h.steps
  obtain ⟨k, hparent, hempty⟩ := hends.exists_steps_parent
  have hstart : d.start (Path.parent p) = d.start p := by
    rw [start, Path.isAbsolute_parent, start]
  rw [← hstart] at hwalks
  rw [← Path.isAbsolute_parent] at hway
  rw [hparent, hfile, ← List.append_assoc] at hsteps
  have hnames : Plain names := fun a ha ↦ hplain a (List.mem_append_left _ ha)
  refine ⟨fun hnul ↦ h.no_nul (hends.mem_parent hnul), fun hne ↦ ?_, ?_⟩
  · refine hends.endsInSlash_parent.resolve_right fun hnil ↦ ?_
    rcases hwalks.of_append_replicate hnames (List.append_cancel_right hsteps) with
      ⟨hnone, -, -⟩ | ⟨-, -, hbefore⟩
    · exact hne hnone
    · exact hne (List.append_eq_nil_iff.1 (hbefore.symm.trans hnil)).2
  · rcases hwalks.of_append_replicate hnames (List.append_cancel_right hsteps) with
      ⟨rfl, hbefore, hfront⟩ | ⟨-, -, hbefore⟩
    · refine ⟨_, (List.append_nil _).symm, ?_, hfront⟩
      cases habsolute : Path.isAbsolute (Path.parent p) with
      | true => exact .inl rfl
      | false =>
        refine .inr (Path.steps_ne_nil (fun hnil ↦ ?_) habsolute)
        refine hway.resolve_left (by simp [habsolute]) ?_
        rw [hbefore, hempty hnil, hnil, Path.steps_empty, List.replicate_zero, List.append_nil]
    · exact ⟨way, hbefore, hway, hwalks⟩

/-! ### Following a path -/

theorem trailTo_start (d : Disk) (p : String) :
    (if Path.isAbsolute p then [] else d.trailTo d.workingDirectory) = d.trailTo (d.start p) := by
  rw [start]
  cases Path.isAbsolute p <;> rfl

theorem Leads.follow (hlimits : d.limits = none) (h : d.Leads base names p) :
    d.follow p = names.foldlM d.step (d.trailTo base) := by
  obtain ⟨way, hsteps, -, hwalks⟩ := h.steps
  have hway : way.foldlM d.step (d.trailTo (d.start p)) = .ok (d.trailTo base) :=
    (foldlM_step_eq_ok hlimits).2 ⟨base, hwalks, rfl⟩
  have hempty : p.isEmpty = false := by
    rw [Bool.eq_false_iff, ne_eq, String.isEmpty_iff]
    exact h.ne_empty
  rw [Disk.follow, if_neg (by simpa using h.no_nul), if_neg (by rw [hempty]; exact nofun), hlimits,
    Option.any_none, if_neg (by exact nofun), trailTo_start, hsteps, List.foldlM_append, hway]
  rfl

theorem visit_eq_ok (h : d.follow p = .ok (d.trailTo l)) : d.visit p = .ok (l, d.lookup l) := by
  rw [visit, h]
  show Except.ok ((d.trailTo l).location, _) = _
  rw [location_trailTo, here_trailTo]
  rfl

theorem locate_eq_ok (h : d.follow p = .ok (d.trailTo l)) : d.locate p = .ok l := by
  rw [locate, h]
  exact congrArg Except.ok (location_trailTo d l)

/-- A path leads to the directory that it is found at. -/
theorem leads_of_locate (hlimits : d.limits = none) (h : d.locate p = .ok base) :
    d.Leads base [] p := by
  obtain ⟨t, hfollow, hlocation⟩ := Outcome.map_eq_ok.1 h
  rw [Disk.follow] at hfollow
  split at hfollow
  · cases hfollow
  split at hfollow
  · cases hfollow
  next hnul hempty =>
  rw [hlimits, Option.any_none, if_neg Bool.false_ne_true, trailTo_start] at hfollow
  obtain ⟨l', hwalks, rfl⟩ := (foldlM_step_eq_ok hlimits).1 hfollow
  obtain rfl : l' = base := by rw [← hlocation, location_trailTo]
  refine ⟨by simpa using hnul, (absurd rfl ·), Path.steps p, (List.append_nil _).symm, ?_, hwalks⟩
  cases habsolute : Path.isAbsolute p with
  | true => exact .inl rfl
  | false => exact .inr (Path.steps_ne_nil (by simpa [String.isEmpty_iff] using hempty) habsolute)

theorem stat_eq (h : d.visit p = .ok (l, d.lookup l)) (hslash : Path.endsInSlash p = false) :
    d.stat p = (d.lookup l).elim (.error .notFound) .ok := by
  cases he : d.lookup l with
  | none =>
    rw [stat, h, he]
    rfl
  | some e =>
    rw [stat, h, he]
    cases e with
    | file text =>
      show (if Path.endsInSlash p then _ else _) = _
      rw [hslash]
      rfl
    | directory => rfl

theorem isDirectory_eq_true (h : d.visit p = .ok (l, some .directory)) :
    d.isDirectory p = true := by
  rw [isDirectory, stat, h]
  rfl

/-! ### A name in a directory -/

/-- A path that ends in a name in a directory, whether there is something of that name or not. -/
structure Points (d : Disk) (base dir : Location) (name p : String) : Prop where
  limits : d.limits = none
  leads : d.Leads base (dir ++ [name]) p
  plain : Plain (dir ++ [name])
  directory : d.lookup (base ++ dir) = some .directory

theorem directory_update {see : Location → Option Entry} (hplace : see l ≠ some .directory)
    (e : Option Entry) {k : Location} (hk : see k = some .directory) :
    Function.update see l e k = some .directory := by
  rw [Function.update_of_ne (fun hkl ↦ hplace (by rw [← hkl, hk])), hk]

namespace Points

variable {dir : Location} {see : Location → Option Entry} {e : Entry}

theorem follow (h : d.Points base dir name p) :
    d.follow p = .ok (d.trailTo (base ++ dir ++ [name])) := by
  rw [h.leads.follow h.limits]
  exact (foldlM_step_eq_ok h.limits).2 ⟨_, walks_names h.plain h.directory, rfl⟩

theorem visit (h : d.Points base dir name p) :
    d.visit p = .ok (base ++ dir ++ [name], d.lookup (base ++ dir ++ [name])) :=
  visit_eq_ok h.follow

theorem no_slash (h : d.Points base dir name p) : Path.endsInSlash p = false :=
  h.leads.no_slash (by simp)

theorem stat (h : d.Points base dir name p) :
    d.stat p = (d.lookup (base ++ dir ++ [name])).elim (.error .notFound) .ok :=
  stat_eq h.visit h.no_slash

/-- Paths still point where they did as long as directories stay. -/
theorem alters (h : d.Points base dir name p) (hd : Alters base see d d')
    (hdirs : ∀ k, d.lookup k = some .directory → see k = some .directory) :
    d'.Points base dir name p := by
  rw [← hd.entry] at hdirs
  exact ⟨hd.limits.trans h.limits, h.leads.mono hd.workingDirectory hdirs, h.plain,
    hdirs _ h.directory⟩

theorem readFile_eq_ok (h : d.Points base dir name p)
    (hplace : d.lookup (base ++ dir ++ [name]) = some (.file text)) : d.readFile p = .ok text := by
  rw [readFile, h.stat, hplace]
  rfl

theorem exists_createDirectory (h : d.Points base dir name p)
    (hplace : d.lookup (base ++ dir ++ [name]) = none) :
    ∃ d', d.createDirectory p = .ok d' ∧
      Alters base (Function.update d.lookup (base ++ dir ++ [name]) (some .directory)) d d' := by
  refine ⟨d.put (base ++ dir ++ [name]) .empty, ?_,
    alters_put (n := .empty) rfl h.directory ?_⟩
  · rw [createDirectory, h.visit, hplace]
    rfl
  · rw [hplace]
    exact nofun

theorem exists_writeFile (h : d.Points base dir name p)
    (hplace : d.lookup (base ++ dir ++ [name]) ≠ some .directory) (text : String) :
    ∃ d', d.writeFile p text = .ok d' ∧
      Alters base (Function.update d.lookup (base ++ dir ++ [name]) (some (.file text))) d d' := by
  refine ⟨d.put (base ++ dir ++ [name]) (.file text), ?_,
    alters_put (n := .file text) rfl h.directory hplace⟩
  rw [writeFile, h.visit]
  show (if _ then _ else _) = _
  rw [h.no_slash, if_neg (by simpa using hplace)]
  rfl

theorem createFile_of_some (h : d.Points base dir name p)
    (hplace : d.lookup (base ++ dir ++ [name]) = some e) :
    d.createFile p = .error .alreadyExists := by
  rw [createFile, h.visit, hplace]
  rfl

theorem exists_createFile (h : d.Points base dir name p)
    (hplace : d.lookup (base ++ dir ++ [name]) = none) :
    ∃ d', d.createFile p = .ok d' ∧
      Alters base (Function.update d.lookup (base ++ dir ++ [name]) (some (.file ""))) d d' := by
  obtain ⟨d', hwrite, hd⟩ := h.exists_writeFile (hplace ▸ nofun) ""
  refine ⟨d', ?_, hd⟩
  rw [createFile, h.visit, hplace]
  exact hwrite

theorem exists_removeFile (h : d.Points base dir name p)
    (hplace : d.lookup (base ++ dir ++ [name]) = some (.file text)) :
    ∃ d', d.removeFile p = .ok d' ∧
      Alters base (Function.update d.lookup (base ++ dir ++ [name]) none) d d' := by
  refine ⟨d.erase (base ++ dir ++ [name]), ?_, alters_erase h.directory (hplace ▸ nofun)⟩
  rw [removeFile, h.stat, hplace]
  show d.locate p >>= _ = _
  rw [locate_eq_ok h.follow]
  rfl

/-- A file can be moved to another name in its directory. -/
theorem exists_rename {other target : String} (h : d.Points base dir name p)
    (htarget : d.Points base dir other target) (hne : name ≠ other)
    (hfile : d.lookup (base ++ dir ++ [name]) = some (.file text))
    (hplace : d.lookup (base ++ dir ++ [other]) ≠ some .directory) :
    ∃ d', d.rename p target = .ok d' ∧ Alters base
      (Function.update (Function.update d.lookup (base ++ dir ++ [other]) (some (.file text)))
        (base ++ dir ++ [name]) none) d d' := by
  have hloc : base ++ dir ++ [name] ≠ base ++ dir ++ [other] := by simpa using hne
  obtain ⟨d₁, hwrite, h₁⟩ := htarget.exists_writeFile hplace text
  have hdirs : ∀ k, d.lookup k = some .directory → Function.update d.lookup
      (base ++ dir ++ [other]) (some (.file text)) k = some .directory :=
    fun k ↦ directory_update hplace _
  have hsource := h.alters h₁ hdirs
  have hfile₁ : d₁.lookup (base ++ dir ++ [name]) = some (.file text) := by
    rw [h₁.entry, Function.update_of_ne hloc, hfile]
  obtain ⟨d', hremove, h'⟩ := hsource.exists_removeFile hfile₁
  rw [h₁.entry] at h'
  refine ⟨d', ?_, h₁.trans h'⟩
  rw [rename, h.readFile_eq_ok hfile]
  show d.writeFile target text >>= _ = _
  rw [hwrite]
  show (if (d₁.locate p).toOption = (d₁.locate target).toOption then _ else _) = _
  rw [locate_eq_ok hsource.follow, locate_eq_ok (htarget.alters h₁ hdirs).follow, hremove]
  exact if_neg fun heq ↦ hloc (Option.some.inj heq)

/-- A file that is written under a new name and then moved to another one is all that is new. -/
theorem exists_writeFile_rename {other target : String} (h : d.Points base dir name p)
    (htarget : d.Points base dir other target) (hne : name ≠ other)
    (hnone : d.lookup (base ++ dir ++ [name]) = none)
    (hplace : d.lookup (base ++ dir ++ [other]) ≠ some .directory) (text : String) :
    ∃ d₁ d', d.writeFile p text = .ok d₁ ∧ d₁.rename p target = .ok d' ∧
      Alters base (Function.update d.lookup (base ++ dir ++ [other]) (some (.file text))) d d' := by
  have hloc : base ++ dir ++ [other] ≠ base ++ dir ++ [name] := by simpa using hne.symm
  have hfree : d.lookup (base ++ dir ++ [name]) ≠ some .directory := by
    rw [hnone]
    exact nofun
  obtain ⟨d₁, hwrite, h₁⟩ := h.exists_writeFile hfree text
  have hdirs : ∀ k, d.lookup k = some .directory → Function.update d.lookup
      (base ++ dir ++ [name]) (some (.file text)) k = some .directory :=
    fun k ↦ directory_update hfree _
  have hfile : d₁.lookup (base ++ dir ++ [name]) = some (.file text) := by
    rw [h₁.entry, Function.update_self]
  have hplace₁ : d₁.lookup (base ++ dir ++ [other]) ≠ some .directory := by
    rwa [h₁.entry, Function.update_of_ne hloc]
  obtain ⟨d', hrename, h'⟩ :=
    (h.alters h₁ hdirs).exists_rename (htarget.alters h₁ hdirs) hne hfile hplace₁
  have hsee := h₁.trans h'
  rw [h₁.entry, Function.update_comm hloc, Function.update_idem, ← hnone,
    Function.update_eq_self] at hsee
  exact ⟨d₁, d', hwrite, hrename, hsee⟩

end Points

/-! ### Directories on the way -/

/-- What is seen where directories have been made from one directory on. -/
def withDirectories (see : Location → Option Entry) (base : Location) (names : List String) :
    Location → Option Entry :=
  fun l ↦ if base <+: l ∧ l <+: base ++ names then some .directory else see l

/-- Where the last of the directories is there, all of them are. -/
theorem withDirectories_eq_self (hdir : d.lookup (base ++ names) = some .directory) :
    withDirectories d.lookup base names = d.lookup := by
  funext l
  rw [withDirectories]
  split
  next h =>
    obtain ⟨r, hr⟩ := h.2
    cases r with
    | nil => rw [← hdir, ← hr, List.append_nil]
    | cons a r => exact (lookup_of_append (hr ▸ hdir)).symm
  next => rfl

theorem withDirectories_concat (see : Location → Option Entry) (base : Location)
    (names : List String) (name : String) :
    withDirectories see base (names ++ [name]) =
      Function.update (withDirectories see base names) (base ++ names ++ [name])
        (some .directory) := by
  funext l
  rw [Function.update_apply, withDirectories, withDirectories, ← List.append_assoc]
  by_cases hl : l = base ++ names ++ [name]
  · subst hl
    rw [if_pos ⟨by simp [List.append_assoc], List.prefix_rfl⟩, if_pos rfl]
  · rw [if_neg hl]
    simp only [List.prefix_concat_iff, hl, false_or]

/-- Nothing that was there is another directory now. -/
theorem directory_withDirectories {see : Location → Option Entry} {k : Location}
    (hk : see k = some .directory) : withDirectories see base names k = some .directory := by
  rw [withDirectories, hk, ite_self]

theorem Leads.visit_of_directory (hlimits : d.limits = none) (h : d.Leads base names p)
    (hplain : Plain names) (hdir : d.lookup (base ++ names) = some .directory) :
    d.visit p = .ok (base ++ names, some .directory) := by
  rcases List.eq_nil_or_concat' names with rfl | ⟨front, name, rfl⟩
  · rw [List.append_nil] at hdir ⊢
    rw [visit_eq_ok (h.follow hlimits), hdir]
  · rw [← List.append_assoc] at hdir ⊢
    have hfront : d.lookup (base ++ front) = some .directory := lookup_of_append hdir
    have hpoints : d.Points base front name p := ⟨hlimits, h, hplain, hfront⟩
    rw [hpoints.visit, hdir]

/-- Below a directory that is not there, nothing can be made. -/
theorem Leads.createDirectory_of_none (hlimits : d.limits = none)
    (h : d.Leads base (names ++ [name]) p) (hplain : Plain names)
    (hclear : d.Clear base names) (hnone : d.lookup (base ++ names) = none) :
    d.createDirectory p = .error .notFound := by
  have hfollow : d.follow p = .error .notFound :=
    (h.follow hlimits).trans (foldlM_step_notFound hlimits hplain hclear hnone name)
  rw [createDirectory, visit, hfollow]
  rfl

theorem createDirectoriesUpTo_of_directory (h : d.visit p = .ok (l, some .directory)) (n : Nat) :
    d.createDirectoriesUpTo p n = (.ok (), d) := by
  cases n with
  | zero => rfl
  | succ n =>
    have hcreate : d.createDirectory p = .error .alreadyExists := by
      rw [createDirectory, h]
      rfl
    rw [createDirectoriesUpTo, hcreate]
    simp only [isDirectory_eq_true h]
    rfl

/-- Nothing is left to make where the last of the directories is there. -/
theorem Leads.exists_createDirectoriesUpTo_of_directory (hlimits : d.limits = none)
    (h : d.Leads base names p) (hplain : Plain names)
    (hdir : d.lookup (base ++ names) = some .directory) (n : Nat) :
    ∃ d', d.createDirectoriesUpTo p n = (.ok (), d') ∧
      Alters base (withDirectories d.lookup base names) d d' := by
  rw [withDirectories_eq_self hdir]
  have hvisit := h.visit_of_directory hlimits hplain hdir
  exact ⟨d, createDirectoriesUpTo_of_directory hvisit n, .refl base d⟩

/-- Once the directories above are made, so can the last one be. -/
theorem Leads.exists_createDirectory (hlimits : d.limits = none)
    (h : d.Leads base (names ++ [name]) p) (hplain : Plain (names ++ [name]))
    (hplace : d.lookup (base ++ names ++ [name]) = none)
    (h₁ : Alters base (withDirectories d.lookup base names) d d₁) :
    ∃ d', d₁.createDirectory p = .ok d' ∧
      Alters base (withDirectories d.lookup base (names ++ [name])) d d' := by
  have hpoints : d₁.Points base names name p := by
    refine ⟨h₁.limits.trans hlimits, h.mono h₁.workingDirectory fun l hl ↦ ?_, hplain, ?_⟩
    · rw [h₁.entry]
      exact directory_withDirectories hl
    · rw [h₁.entry, withDirectories, if_pos ⟨List.prefix_append .., List.prefix_rfl⟩]
  have hplace₁ : d₁.lookup (base ++ names ++ [name]) = none := by
    rw [h₁.entry, withDirectories, if_neg (fun hle ↦ ?_), hplace]
    exact absurd hle.2.length_le (by simp)
  obtain ⟨d', hcreate, hd⟩ := hpoints.exists_createDirectory hplace₁
  rw [h₁.entry] at hd
  rw [withDirectories_concat]
  exact ⟨d', hcreate, h₁.trans hd⟩

/-- **The directories on the way are made**, those that are missing, if no file is in the way. -/
theorem exists_createDirectoriesUpTo (hlimits : d.limits = none) (h : d.Leads base names p)
    (hplain : Plain names) (hbase : d.lookup base = some .directory)
    (hclear : d.Clear base names) {n : Nat} (hn : names.length < n) :
    ∃ d', d.createDirectoriesUpTo p n = (.ok (), d') ∧
      Alters base (withDirectories d.lookup base names) d d' := by
  induction names using List.reverseRecOn generalizing p n with
  | nil =>
    exact h.exists_createDirectoriesUpTo_of_directory hlimits hplain (by rwa [List.append_nil]) n
  | append_singleton names name ih =>
    obtain ⟨n, rfl⟩ := Nat.exists_eq_succ_of_ne_zero (Nat.ne_zero_of_lt hn)
    have hfront : Plain names := fun a ha ↦ hplain a (List.mem_append_left _ ha)
    have hbelow : d.Clear base names := fun k hk ↦ hclear k (hk.trans (List.prefix_append ..))
    cases hplace : d.lookup (base ++ (names ++ [name])) with
    | some e =>
      cases e with
      | file text => exact absurd hplace (hclear _ List.prefix_rfl text)
      | directory => exact h.exists_createDirectoriesUpTo_of_directory hlimits hplain hplace _
    | none =>
      rw [← List.append_assoc] at hplace
      rw [createDirectoriesUpTo]
      cases hparent : d.lookup (base ++ names) with
      | some e =>
        cases e with
        | file text => exact absurd hparent (hbelow names List.prefix_rfl text)
        | directory =>
          have hsame : Alters base (withDirectories d.lookup base names) d d := by
            rw [withDirectories_eq_self hparent]
            exact .refl base d
          obtain ⟨d', hcreate, hd⟩ := h.exists_createDirectory hlimits hplain hplace hsame
          exact ⟨d', by rw [hcreate], hd⟩
      | none =>
        -- the directory above is made first
        rw [h.createDirectory_of_none hlimits hfront hbelow hparent]
        obtain ⟨d₁, hup, h₁⟩ := ih (h.parent hplain) hfront hbelow (n := n) (by simpa using hn)
        obtain ⟨d', hcreate, hd⟩ := h.exists_createDirectory hlimits hplain hplace h₁
        exact ⟨d', by simp only [hup, hcreate], hd⟩

/-- A path has as many components as names at least. -/
theorem Leads.length_le (h : d.Leads base names p) (hplain : Plain names) :
    names.length ≤ (Path.components p).length := by
  obtain ⟨way, hsteps, -, -⟩ := h.steps
  have hnames : names.filter (fun a ↦ decide (a ≠ ".")) = names :=
    List.filter_eq_self.2 fun a ha ↦ decide_eq_true (hplain a ha).1
  rw [Path.components, hsteps, List.filter_append, hnames, List.length_append]
  exact Nat.le_add_left ..

/-- **A directory is made with those above it**, if no file is in the way. -/
theorem Leads.exists_createDirectories (hlimits : d.limits = none) (h : d.Leads base names p)
    (hplain : Plain names) (hbase : d.lookup base = some .directory)
    (hclear : d.Clear base names) :
    ∃ d', d.createDirectories p = (.ok (), d') ∧
      Alters base (withDirectories d.lookup base names) d d' := by
  have hempty : ¬ p.isEmpty := by
    rw [String.isEmpty_iff]
    exact h.ne_empty
  rw [createDirectories, if_neg hempty]
  exact exists_createDirectoriesUpTo hlimits h hplain hbase hclear
    (Nat.lt_succ_of_le (h.length_le hplain))

/-! ### Files that may be missing with their directory -/

variable {dir : Location}

/-- **What a path leads to** if no file is in the way: what is seen at its location. -/
theorem Leads.stat (hlimits : d.limits = none) (h : d.Leads base (dir ++ [name]) p)
    (hplain : Plain (dir ++ [name])) (hclear : d.Clear base dir) :
    d.stat p = (d.lookup (base ++ dir ++ [name])).elim (.error .notFound) .ok := by
  cases hdir : d.lookup (base ++ dir) with
  | none =>
    have hplace : d.lookup (base ++ dir ++ [name]) = none := by
      refine Option.eq_none_iff_forall_ne_some.2 fun e he ↦ ?_
      rw [lookup_of_append he] at hdir
      cases hdir
    have hfollow : d.follow p = .error .notFound :=
      (h.follow hlimits).trans (foldlM_step_notFound hlimits
        (fun a ha ↦ hplain a (List.mem_append_left _ ha)) hclear hdir name)
    rw [hplace, Disk.stat, visit, hfollow]
    rfl
  | some e =>
    cases e with
    | file text => exact absurd hdir (hclear dir List.prefix_rfl text)
    | directory => exact Points.stat ⟨hlimits, h, hplain, hdir⟩

theorem Leads.readFile (hlimits : d.limits = none) (h : d.Leads base (dir ++ [name]) p)
    (hplain : Plain (dir ++ [name])) (hclear : d.Clear base dir)
    {text? : Option String} (hplace : d.lookup (base ++ dir ++ [name]) = text?.map .file) :
    d.readFile p = text?.elim (.error .notFound) .ok := by
  rw [Disk.readFile, h.stat hlimits hplain hclear, hplace]
  cases text? <;> rfl

theorem Leads.removeFile_of_none (hlimits : d.limits = none) (h : d.Leads base (dir ++ [name]) p)
    (hplain : Plain (dir ++ [name])) (hclear : d.Clear base dir)
    (hplace : d.lookup (base ++ dir ++ [name]) = none) : d.removeFile p = .error .notFound := by
  rw [removeFile, h.stat hlimits hplain hclear, hplace]
  rfl

/-! ### Names for files -/

/-- A text that can be the name of a file. -/
structure FileName (name : String) : Prop where
  ne_empty : name ≠ ""
  no_slash : '/' ∉ name.toList
  no_nul : '\x00' ∉ name.toList
  plain : name ≠ "." ∧ name ≠ ".."

theorem FileName.append (h : FileName name) {ext : String} (hlength : 2 ≤ ext.length)
    (hslash : '/' ∉ ext.toList) (hnul : '\x00' ∉ ext.toList) : FileName (name ++ ext) := by
  have hname : 0 < name.length := by
    rw [← String.length_toList]
    exact List.length_pos_iff.2 (Path.toList_ne_nil h.ne_empty)
  have hlong : ∀ other : String, other.length ≤ 2 → name ++ ext ≠ other := by
    rintro other hother rfl
    rw [String.length_append] at hother
    omega
  exact ⟨hlong "" (by decide), by simp [h.no_slash, hslash], by simp [h.no_nul, hnul],
    hlong "." (by decide), hlong ".." (by decide)⟩

theorem FileName.dotted (h : FileName name) : FileName ("." ++ name) where
  ne_empty hempty := absurd (congrArg String.toList hempty) (by simp)
  no_slash := by simp [h.no_slash]
  no_nul := by simp [h.no_nul]
  plain := ⟨fun hdot ↦ h.ne_empty ((String.append_right_inj ".").1 hdot),
    fun hdots ↦ h.plain.1 ((String.append_right_inj ".").1 hdots)⟩

theorem FileName.isAbsolute (h : FileName name) : Path.isAbsolute name = false :=
  decide_eq_false fun hhead ↦ h.no_slash (List.mem_of_head? hhead)

theorem FileName.endsInSlash (h : FileName name) : Path.endsInSlash name = false :=
  decide_eq_false fun hlast ↦ h.no_slash (List.mem_of_getLast? hlast)

/-- **Another name in its place**: a path for the directory of the first. -/
theorem Leads.withFileName (h : d.Leads base (dir ++ [name]) p) (hplain : Plain (dir ++ [name]))
    {other : String} (hother : FileName other) :
    d.Leads base (dir ++ [other]) (Path.withFileName p other) :=
  (h.parent hplain).join hother.isAbsolute hother.ne_empty hother.endsInSlash hother.no_nul
    (Path.steps_of_not_mem hother.no_slash hother.ne_empty)

end Disk

namespace DirectoryStore

open Disk

variable {d : Disk} {base dir : Location} {name p text : String}

/-- **A file is replaced** by way of a temporary one, of which nothing remains. -/
theorem exists_replaceFile (h : d.Points base dir name p)
    (hplace : d.lookup (base ++ dir ++ [name]) ≠ some .directory)
    (htemporary : FileName ("." ++ name ++ ".tmp"))
    (hnone : d.lookup (base ++ dir ++ ["." ++ name ++ ".tmp"]) = none) :
    ∃ d', replaceFile p text d = (.ok (), d') ∧
      Alters base (Function.update d.lookup (base ++ dir ++ [name]) (some (.file text))) d d' := by
  have hfile : Path.fileName p = name := (h.leads.endsInName (h.plain name (by simp)).1).2
  have hne : "." ++ name ++ ".tmp" ≠ name := by
    intro heq
    have hlength := congrArg String.length heq
    rw [String.length_append, String.length_append] at hlength
    have hdot : ".".length = 1 := rfl
    omega
  have hother : d.Points base dir ("." ++ name ++ ".tmp") (temporary p) := by
    rw [temporary, hfile]
    refine ⟨h.limits, h.leads.withFileName h.plain htemporary, fun a ha ↦ ?_, h.directory⟩
    rcases List.mem_append.1 ha with ha | ha
    · exact h.plain a (List.mem_append_left _ ha)
    · exact List.mem_singleton.1 ha ▸ htemporary.plain
  obtain ⟨d₁, d', hwrite, hrename, hd⟩ := hother.exists_writeFile_rename h hne hnone hplace text
  refine ⟨d', ?_, hd⟩
  -- with its equation in place of its body, the path would be followed
  delta replaceFile
  simp only [hwrite, hrename]

end DirectoryStore

end ClassWeave
