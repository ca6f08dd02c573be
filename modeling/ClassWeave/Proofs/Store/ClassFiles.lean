import ClassWeave.Proofs.Names
import ClassWeave.Proofs.Store.Directory

/-!
# The files of classes

The name of a class comes apart into directories and a stem, and the class has two files there: one
for its tree and one for a lease. While a tree is written, there is a third one.

Where the parts of the name are not empty and have no dots (`DirectoryStore.Accepts`), the files of
different classes are different and none of them can be a directory, and a listing tells the class
from the file of its tree (`DirectoryStore.Accepts.listedClass?_file`) and skips the other two.
-/

namespace ClassWeave

/-! ### Parts of a name -/

namespace ClassName

variable {c c' : ClassName}

/-- The texts between the slashes. -/
def parts (c : ClassName) : List String := (c.text.toList.splitOn '/').map .ofList

theorem parts_ne_nil (c : ClassName) : c.parts ≠ [] := fun h ↦
  List.splitOn_ne_nil '/' _ (List.map_eq_nil_iff.1 h)

theorem intercalate_parts (c : ClassName) : "/".intercalate c.parts = c.text := by
  have hpieces : c.parts.map String.toList = c.text.toList.splitOn '/' := by
    rw [parts, List.map_map]
    exact (List.map_congr_left fun cs _ ↦ String.toList_ofList).trans (List.map_id _)
  refine String.toList_inj.1 ?_
  rw [String.toList_intercalate, hpieces]
  exact List.intercalate_splitOn '/'

theorem eq_of_parts_eq (h : c.parts = c'.parts) : c = c' := by
  have htext : c.text = c'.text := by rw [← intercalate_parts c, h, intercalate_parts]
  cases c
  exact congrArg mk htext

/-- The directories above the files of a class. -/
def directories (c : ClassName) : List String := c.parts.dropLast

/-- The name of a class in its directory. -/
def stem (c : ClassName) : String := c.parts.getLast c.parts_ne_nil

theorem directories_append_stem (c : ClassName) : c.directories ++ [c.stem] = c.parts :=
  List.dropLast_concat_getLast c.parts_ne_nil

theorem text_append (c : ClassName) (ext : String) :
    c.text ++ ext = "/".intercalate (c.directories ++ [c.stem ++ ext]) := by
  rw [← c.intercalate_parts, ← c.directories_append_stem]
  by_cases h : c.directories = []
  · rw [h, List.nil_append, List.nil_append, String.intercalate_singleton,
      String.intercalate_singleton]
  · rw [String.intercalate_append_of_ne_nil h (List.cons_ne_nil _ _),
      String.intercalate_append_of_ne_nil h (List.cons_ne_nil _ _), String.intercalate_singleton,
      String.intercalate_singleton, String.append_assoc]

/-! ### Files -/

/-- The file of the tree. -/
def file (c : ClassName) : Location := c.directories ++ [c.stem ++ ".json"]

/-- The file that the tree is written to first. -/
def draft (c : ClassName) : Location := c.directories ++ ["." ++ (c.stem ++ ".json") ++ ".tmp"]

/-- The file of a lease. -/
def lock (c : ClassName) : Location := c.directories ++ ["." ++ (c.stem ++ ".lock")]

theorem eq_of_stem {dir : Location} (hdir : c.directories = dir) (hdir' : c'.directories = dir)
    (hstem : c.stem = c'.stem) : c = c' :=
  eq_of_parts_eq (by
    rw [← c.directories_append_stem, ← c'.directories_append_stem, hdir, hdir', hstem])

theorem file_inj : c.file = c'.file ↔ c = c' := by
  refine ⟨fun h ↦ ?_, congrArg file⟩
  obtain ⟨hdirs, hname⟩ := List.append_inj' h rfl
  exact eq_of_stem hdirs rfl ((String.append_left_inj _).1 (List.singleton_inj.1 hname))

theorem lock_inj : c.lock = c'.lock ↔ c = c' := by
  refine ⟨fun h ↦ ?_, congrArg lock⟩
  obtain ⟨hdirs, hname⟩ := List.append_inj' h rfl
  have hstem := (String.append_right_inj _).1 (List.singleton_inj.1 hname)
  exact eq_of_stem hdirs rfl ((String.append_left_inj _).1 hstem)

theorem draft_ne_lock : c.draft ≠ c'.lock := by
  intro h
  have hname := congrArg (fun l : Location ↦ (l.getLast?.getD "").toList.getLast?) h
  simp [draft, lock, List.getLast?_append, List.getLast?_cons] at hname

end ClassName

/-! ### Names without dots -/

namespace DirectoryStore

/-- The class names that a store keeps apart: of parts that are not empty, without dots, and not
starting with the directory of a version. -/
structure Accepts (s : DirectoryStore) (c : ClassName) : Prop where
  parts : "" ∉ c.parts
  dotFree : c.DotFree
  no_nul : '\x00' ∉ c.text.toList
  versions : ∀ v ∈ s.versions, c.parts.head? ≠ some v.id

instance (s : DirectoryStore) (c : ClassName) : Decidable (s.Accepts c) :=
  decidable_of_iff ("" ∉ c.parts ∧ c.DotFree ∧ '\x00' ∉ c.text.toList ∧
    ∀ v ∈ s.versions, c.parts.head? ≠ some v.id)
    ⟨fun ⟨h₁, h₂, h₃, h₄⟩ ↦ ⟨h₁, h₂, h₃, h₄⟩, fun h ↦ ⟨h.parts, h.dotFree, h.no_nul, h.versions⟩⟩

namespace Accepts

variable {s : DirectoryStore} {c c' : ClassName} {name : String}

theorem no_dot_of_mem_parts (h : s.Accepts c) (hname : name ∈ c.parts) : '.' ∉ name.toList := by
  obtain ⟨cs, hcs, rfl⟩ := List.mem_map.1 hname
  rw [String.toList_ofList]
  exact fun hc ↦ h.dotFree (Path.of_mem_splitOn hcs hc).1

/-- The parts of an accepted name can be names of files. -/
theorem fileName_of_mem_parts (h : s.Accepts c) (hname : name ∈ c.parts) : Disk.FileName name := by
  have hne : name ≠ "" := fun hempty ↦ h.parts (hempty ▸ hname)
  have hdot : '.' ∉ name.toList := h.no_dot_of_mem_parts hname
  obtain ⟨cs, hcs, rfl⟩ := List.mem_map.1 hname
  refine ⟨hne, ?_, ?_, fun heq ↦ hdot (heq ▸ by decide), fun heq ↦ hdot (heq ▸ by decide)⟩
  · rw [String.toList_ofList]
    exact fun hc ↦ (Path.of_mem_splitOn hcs hc).2 rfl
  · rw [String.toList_ofList]
    exact fun hc ↦ h.no_nul (Path.of_mem_splitOn hcs hc).1

theorem mem_parts_of_mem_directories (hname : name ∈ c.directories) : name ∈ c.parts :=
  (List.dropLast_prefix _).mem hname

theorem fileName_stem (h : s.Accepts c) : Disk.FileName c.stem :=
  h.fileName_of_mem_parts (List.getLast_mem _)

theorem no_dot_stem (h : s.Accepts c) : '.' ∉ c.stem.toList :=
  h.no_dot_of_mem_parts (List.getLast_mem _)

/-- In the directories of a class, any file name makes a plain location. -/
theorem plain (h : s.Accepts c) (hname : Disk.FileName name) :
    Disk.Plain (c.directories ++ [name]) := by
  intro a ha
  rcases List.mem_append.1 ha with hdir | hlast
  · exact (h.fileName_of_mem_parts (mem_parts_of_mem_directories hdir)).plain
  · exact List.mem_singleton.1 hlast ▸ hname.plain

/-- No file of a class has the name of a directory. -/
theorem exists_dot_mem {l : Location} (hl : l = c.file ∨ l = c.draft ∨ l = c.lock) :
    ∃ name ∈ l, '.' ∈ name.toList := by
  rcases hl with rfl | rfl | rfl
  · exact ⟨c.stem ++ ".json", by simp [ClassName.file], by simp⟩
  · exact ⟨"." ++ (c.stem ++ ".json") ++ ".tmp", by simp [ClassName.draft], by simp⟩
  · exact ⟨"." ++ (c.stem ++ ".lock"), by simp [ClassName.lock], by simp⟩

/-- The file of a tree does not start with a dot. -/
theorem head?_ne_dot (h : s.Accepts c) (hname : name ∈ c.file) : name.toList.head? ≠ some '.' := by
  rcases List.mem_append.1 hname with hdir | hlast
  · exact fun hhead ↦ h.no_dot_of_mem_parts (mem_parts_of_mem_directories hdir)
      (List.mem_of_head? hhead)
  · rw [List.mem_singleton.1 hlast, String.toList_append,
      List.head?_append_of_ne_nil _ (Path.toList_ne_nil h.fileName_stem.ne_empty)]
    exact fun hhead ↦ h.no_dot_stem (List.mem_of_head? hhead)

theorem file_ne_lock (h : s.Accepts c) : c.file ≠ c'.lock := by
  intro heq
  have hname : "." ++ (c'.stem ++ ".lock") ∈ c.file := by simp [heq, ClassName.lock]
  exact h.head?_ne_dot hname (by simp)

theorem file_ne_draft (h : s.Accepts c) : c.file ≠ c'.draft := by
  intro heq
  have hname : "." ++ (c'.stem ++ ".json") ++ ".tmp" ∈ c.file := by simp [heq, ClassName.draft]
  exact h.head?_ne_dot hname (by simp)

/-! ### Listing -/

/-- No class lies in the directory of a version. -/
theorem not_skipped (h : s.Accepts c) : (1 < c.file.length &&
    (s.versions.map (·.id)).contains (c.file.head?.getD "")) = false := by
  rw [Bool.and_eq_false_imp]
  intro hlong
  have hdirs : c.directories ≠ [] := by
    intro hnil
    simp [ClassName.file, hnil] at hlong
  obtain ⟨first, hfirst⟩ := Option.isSome_iff_exists.1 (List.isSome_head?.2 hdirs)
  have hhead : c.file.head? = some first := by
    rw [ClassName.file, List.head?_append_of_ne_nil _ hdirs, hfirst]
  have hparts : c.parts.head? = some first := by
    rw [← c.directories_append_stem, List.head?_append_of_ne_nil _ hdirs, hfirst]
  rw [hhead, Option.getD_some, Bool.eq_false_iff, ne_eq, List.contains_iff_mem, List.mem_map]
  rintro ⟨v, hv, rfl⟩
  exact h.versions v hv hparts

/-- **A listing tells the class from the file of its tree.** -/
theorem listedClass?_file (h : s.Accepts c) :
    listedClass? (s.versions.map (·.id)) c.file = some c := by
  have hlast : c.file.getLast?.getD "" = c.stem ++ ".json" := by
    rw [ClassName.file, List.getLast?_concat, Option.getD_some]
  have hdot : c.file.any (·.toList.head? = some '.') = false :=
    List.any_eq_false.2 fun name hname ↦ by simpa using h.head?_ne_dot hname
  have hskipped := h.not_skipped
  have hstem : (c.stem ++ ".json").toList.take ((c.stem ++ ".json").length - ".json".length) =
      c.stem.toList := by
    rw [String.length_append, Nat.add_sub_cancel, String.toList_append]
    exact List.take_left' rfl
  have hsuffix : ".json".toList.isSuffixOf (c.stem ++ ".json").toList = true :=
    List.isSuffixOf_iff_suffix.2 (by simp)
  have htext : "/".intercalate (c.file.dropLast ++ [c.stem]) = c.text := by
    rw [ClassName.file, List.dropLast_concat, c.directories_append_stem, c.intercalate_parts]
  simp only [listedClass?, hlast, hdot, hskipped, hsuffix, hstem, String.ofList_toList, htext,
    ClassName.ofText_text h.dotFree, if_true, Bool.false_eq_true, if_false]

theorem listedClass?_lock (skipped : List String) (c : ClassName) :
    listedClass? skipped c.lock = none := by
  have hdot : c.lock.any (·.toList.head? = some '.') = true :=
    List.any_eq_true.2 ⟨"." ++ (c.stem ++ ".lock"), by simp [ClassName.lock], by simp⟩
  simp only [listedClass?, hdot, if_true]

/-! ### Paths -/

variable {d : Disk} {base : Location}

/-- An accepted name is not empty and does not start with a slash. -/
theorem exists_text (h : s.Accepts c) : ∃ a cs, c.text.toList = a :: cs ∧ a ≠ '/' := by
  cases htext : c.text.toList with
  | nil =>
    refine absurd ?_ h.parts
    rw [ClassName.parts, htext]
    exact List.mem_singleton.2 rfl
  | cons a cs =>
    refine ⟨a, cs, rfl, ?_⟩
    rintro rfl
    refine h.parts ?_
    rw [ClassName.parts, htext, List.splitOn_cons_eq_if_modifyHead, if_pos (by simp)]
    exact List.mem_cons_self

/-- **The path of a file of a class** leads to its directories and the stem with an extension. -/
theorem leads (h : s.Accepts c) (hroot : d.Leads base [] s.root) {ext : String} (hne : ext ≠ "")
    (hslash : '/' ∉ ext.toList) (hnul : '\x00' ∉ ext.toList) :
    d.Leads base (c.directories ++ [c.stem ++ ext]) (Path.join s.root (c.text ++ ext)) := by
  obtain ⟨a, cs, htext, ha⟩ := h.exists_text
  have hnames : ∀ name ∈ c.directories ++ [c.stem ++ ext], name ≠ "" ∧ '/' ∉ name.toList := by
    intro name hname
    rcases List.mem_append.1 hname with hdir | hlast
    · have hfile := h.fileName_of_mem_parts (mem_parts_of_mem_directories hdir)
      exact ⟨hfile.ne_empty, hfile.no_slash⟩
    · rw [List.mem_singleton.1 hlast]
      exact ⟨by simp [hne], by simp [h.fileName_stem.no_slash, hslash]⟩
  show d.Leads base ([] ++ (c.directories ++ [c.stem ++ ext])) _
  refine hroot.join ?_ ?_ ?_ ?_ ?_
  · rw [Path.isAbsolute, String.toList_append, htext]
    exact decide_eq_false fun hhead ↦ ha (Option.some.inj hhead)
  · simp [hne]
  · rw [Path.endsInSlash, String.toList_append,
      List.getLast?_append_of_ne_nil _ (Path.toList_ne_nil hne)]
    exact decide_eq_false fun hlast ↦ hslash (List.mem_of_getLast? hlast)
  · simp [h.no_nul, hnul]
  · rw [c.text_append, Path.steps_intercalate hnames]

theorem fileName_file (h : s.Accepts c) : Disk.FileName (c.stem ++ ".json") :=
  h.fileName_stem.append (by decide) (by simp) (by simp)

theorem fileName_plainLock (h : s.Accepts c) : Disk.FileName (c.stem ++ ".lock") :=
  h.fileName_stem.append (by decide) (by simp) (by simp)

theorem leads_file (h : s.Accepts c) (hroot : d.Leads base [] s.root) :
    d.Leads base (c.directories ++ [c.stem ++ ".json"]) (classPath s.root c) :=
  h.leads hroot (by decide) (by simp) (by simp)

theorem leads_plainLock (h : s.Accepts c) (hroot : d.Leads base [] s.root) :
    d.Leads base (c.directories ++ [c.stem ++ ".lock"]) (s.plainLockPath c) :=
  h.leads hroot (by decide) (by simp) (by simp)

theorem leads_lock (h : s.Accepts c) (hroot : d.Leads base [] s.root) :
    d.Leads base (c.directories ++ ["." ++ (c.stem ++ ".lock")]) (s.lockPath c) := by
  have hplain := h.leads_plainLock hroot
  have hname := h.fileName_plainLock
  rw [lockPath, (hplain.endsInName hname.plain.1).2]
  exact hplain.withFileName (h.plain hname) hname.dotted

end Accepts

end DirectoryStore

end ClassWeave
