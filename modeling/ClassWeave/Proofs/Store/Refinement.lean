import ClassWeave.Proofs.Store.ClassFiles
import ClassWeave.Proofs.Store.Memory
import ClassWeave.Proofs.Tree.Wire

/-!
# Directories in the place of memory

A store in a directory answers as one in memory does: what the disk shows below the root is a file
for each tree and one for each lease, besides directories (`DirectoryStore.Shows`), and each request
keeps it so (`DirectoryStore.Shows.serve`). On an empty root, therefore, any requests have the
replies of a store in memory that starts empty (`DirectoryStore.replies_emptyRoot`), as long as the
disk takes names of any length and the classes have names that the store can keep apart.
-/

namespace ClassWeave

open Disk

/-! ### Requests -/

/-- What is asked of a store of trees without version. -/
inductive StoreRequest where
  | write (c : ClassName) (t : ClassTree)
  | readMerged (c : ClassName)
  | list
  | lease (c : ClassName)
  | release (c : ClassName)

inductive StoreReply where
  | done
  | tree (t : ClassTree)
  | classes (cs : List ClassName)

namespace StoreRequest

/-- The class that a request is about. -/
def cls? : StoreRequest → Option ClassName
  | write c _ | readMerged c | lease c | release c => some c
  | list => none

variable {σ : Type} (source : σ → Source) (output : Output σ)

/-- One request to a store, its reply and what the store is afterwards. -/
def serve (st : σ) : StoreRequest → Except StoreError StoreReply × σ
  | write c t => ((output.write c t st).1.map fun _ ↦ .done, (output.write c t st).2)
  | readMerged c => (((source st).readMerged c).map .tree, st)
  | list => (((source st).list none).map .classes, st)
  | lease c => ((output.lease c st).1.map fun _ ↦ .done, (output.lease c st).2)
  | release c => (.ok .done, output.release c st)

/-- The replies to one request after the other. -/
def replies : List StoreRequest → σ → List (Except StoreError StoreReply)
  | [], _ => []
  | r :: rs, st => (serve source output st r).1 :: replies rs (serve source output st r).2

end StoreRequest

/-- A tree is read back from the text that it is written as. -/
theorem ClassTree.read_pretty (t : ClassTree) : read t.toJson.pretty = .ok t := by
  have hplain : Json.Plain 7 t.toJson := t.plain_toJson
  rw [read, Json.read?_pretty hplain (by decide), Option.bind_eq_bind, Option.bind_some,
    ofJson?_toJson]

namespace DirectoryStore

/-! ### What a disk shows of a store -/

/-- The root of a store is a directory of a disk that takes names of any length. -/
structure Rooted (s : DirectoryStore) (base : Location) (d : Disk) : Prop where
  limits : d.limits = none
  leads : d.Leads base [] s.root
  directory : d.lookup base = some .directory
  ordered : d.OrderedFrom base

/-- Below the root there are a file for each tree, one for each lease, and directories the names of
which have no dots. -/
structure Shows (s : DirectoryStore) (base : Location) (d : Disk) (m : MemoryStore) : Prop
    extends s.Rooted base d where
  tree : ∀ c, s.Accepts c →
    d.lookup (base ++ c.file) = (m.trees.get? ⟨none, c⟩).map fun t ↦ .file t.toJson.pretty
  lease : ∀ c, s.Accepts c →
    d.lookup (base ++ c.lock) = if c ∈ m.leases then some (.file "") else none
  rest : ∀ l e, d.lookup (base ++ l) = some e →
    (e = .directory ∧ ∀ name ∈ l, '.' ∉ name.toList) ∨ ∃ c, s.Accepts c ∧ (l = c.file ∨ l = c.lock)
  accepts : ∀ c ∈ m.list none, s.Accepts c

variable {s : DirectoryStore} {base : Location} {d d' : Disk} {m m' : MemoryStore} {c : ClassName}
  {t : ClassTree} {see : Location → Option Entry}

theorem Rooted.alters (h : s.Rooted base d) (hd : Alters base see d d')
    (hdirs : ∀ k, d.lookup k = some .directory → see k = some .directory) : s.Rooted base d' where
  limits := hd.limits.trans h.limits
  leads := h.leads.mono hd.workingDirectory (hd.entry ▸ hdirs)
  directory := by
    rw [hd.entry]
    exact hdirs base h.directory
  ordered := hd.ordered h.ordered

theorem Rooted.visit_root (h : s.Rooted base d) : d.visit s.root = .ok (base, some .directory) := by
  rw [visit_eq_ok (h.leads.follow h.limits), h.directory]

/-- Where the root is there already, a store comes into being without a trace. -/
theorem Rooted.create_eq (h : s.Rooted base d) : create s.root s.versions d = (.ok s, d) := by
  have hcreate : d.createDirectories s.root = (.ok (), d) := by
    rw [createDirectories, if_neg (by rw [String.isEmpty_iff]; exact h.leads.ne_empty),
      createDirectoriesUpTo_of_directory h.visit_root]
  simp only [create, hcreate]

/-- **A store starts out empty.** -/
theorem shows_empty (hlimits : d.limits = none) (hroot : d.locate s.root = .ok base)
    (hempty : d.root.at? base = some .empty) : s.Shows base d .empty := by
  have hbelow : ∀ l, l ≠ [] → d.lookup (base ++ l) = none := by
    intro l hl
    obtain ⟨name, l, rfl⟩ := List.exists_cons_of_ne_nil hl
    rw [lookup, Node.at?_append, hempty]
    rfl
  exact {
    limits := hlimits
    leads := leads_of_locate hlimits hroot
    directory := by
      rw [lookup, hempty]
      rfl
    ordered := by
      intro n hn
      obtain rfl : .empty = n := Option.some.inj (hempty.symm.trans hn)
      exact .directory .nil fun _ he ↦ absurd he List.not_mem_nil
    tree := fun c _ ↦ hbelow c.file (by simp [ClassName.file])
    lease := fun c _ ↦ hbelow c.lock (by simp [ClassName.lock])
    rest := by
      intro l e he
      by_cases hl : l = []
      · subst hl
        rw [List.append_nil, lookup, hempty] at he
        exact .inl ⟨(Option.some.inj he).symm, fun _ hname ↦ absurd hname List.not_mem_nil⟩
      · rw [hbelow l hl] at he
        cases he
    accepts := fun _ hc ↦ absurd hc List.not_mem_nil }

namespace Shows

theorem file_ne_directory (h : s.Shows base d m) (hc : s.Accepts c) :
    d.lookup (base ++ c.file) ≠ some .directory := by
  rw [h.tree c hc]
  cases m.trees.get? ⟨none, c⟩ <;> exact nofun

theorem lock_ne_directory (h : s.Shows base d m) (hc : s.Accepts c) :
    d.lookup (base ++ c.lock) ≠ some .directory := by
  rw [h.lease c hc]
  split <;> exact nofun

/-- Before a tree is written there is no file of its draft. -/
theorem draft_eq_none (h : s.Shows base d m) : d.lookup (base ++ c.draft) = none := by
  refine Option.eq_none_iff_forall_ne_some.2 fun e he ↦ ?_
  rcases h.rest _ _ he with ⟨-, hdotless⟩ | ⟨c', hc', hl | hl⟩
  · obtain ⟨name, hname, hdot⟩ := Accepts.exists_dot_mem (.inr (.inl (rfl : c.draft = c.draft)))
    exact hdotless name hname hdot
  · exact hc'.file_ne_draft hl.symm
  · exact ClassName.draft_ne_lock hl

/-- No file is in the way of a class. -/
theorem clear (h : s.Shows base d m) (hc : s.Accepts c) : d.Clear base c.directories := by
  intro k hk text hfile
  rcases h.rest k _ hfile with ⟨hdir, -⟩ | ⟨c', -, hl⟩
  · cases hdir
  · obtain ⟨name, hname, hdot⟩ :=
      Accepts.exists_dot_mem (hl.elim .inl fun hlock ↦ .inr (.inr hlock))
    exact hc.no_dot_of_mem_parts (Accepts.mem_parts_of_mem_directories (hk.mem hname)) hdot

/-! ### Reading -/

theorem readMerged (h : s.Shows base d m) (hc : s.Accepts c) :
    (s.source d).readMerged c = m.source.readMerged c := by
  have hread : d.readFile (classPath s.root c) =
      ((m.trees.get? ⟨none, c⟩).map (·.toJson.pretty)).elim (.error .notFound) .ok := by
    refine (hc.leads_file h.leads).readFile h.limits (hc.plain hc.fileName_file) (h.clear hc) ?_
    rw [List.append_assoc, Option.map_map]
    exact h.tree c hc
  show readPath d (classPath s.root c) c none = m.readSlot c none
  rw [readPath, hread, MemoryStore.readSlot]
  cases m.trees.get? ⟨none, c⟩ with
  | none => rfl
  | some t => exact congrArg (Except.mapError _) t.read_pretty

/-- A class is listed exactly for the file of its tree. -/
theorem of_listedClass? (h : s.Shows base d m) {l : Location} {text : String}
    (hfile : (l, text) ∈ d.filesBelow base)
    (hlisted : listedClass? (s.versions.map (·.id)) l = some c) :
    l = c.file ∧ c ∈ m.list none := by
  rw [mem_filesBelow h.ordered h.directory] at hfile
  rcases h.rest l _ hfile with ⟨hdir, -⟩ | ⟨c', hc', rfl | rfl⟩
  · cases hdir
  · obtain rfl : c' = c := Option.some.inj (hc'.listedClass?_file.symm.trans hlisted)
    rw [h.tree c' hc'] at hfile
    obtain ⟨t, ht, -⟩ := Option.map_eq_some_iff.1 hfile
    exact ⟨rfl, MemoryStore.mem_list.2 ⟨t, ht⟩⟩
  · rw [Accepts.listedClass?_lock] at hlisted
    cases hlisted

/-- The files below the root tell the classes of the store, each of them once. -/
theorem listed_perm (h : s.Shows base d m) :
    ((d.filesBelow base).filterMap fun f ↦ listedClass? (s.versions.map (·.id)) f.1).Perm
      (m.list none) := by
  have hascending : (m.list none).Nodup :=
    OrderedSet.nodup_toList ⟨m.list none, m.ascending_list none⟩
  refine (List.perm_ext_iff_of_nodup ?_ hascending).2 fun c ↦ ?_
  · refine List.pairwise_filterMap.2 ?_
    refine (List.pairwise_map.1 (nodup_filesBelow h.ordered h.directory)).imp_of_mem ?_
    intro f f' hf hf' hne a ha b hb hab
    rw [(h.of_listedClass? hf ha).1, (h.of_listedClass? hf' hb).1, hab] at hne
    exact hne rfl
  · rw [List.mem_filterMap]
    constructor
    · rintro ⟨f, hf, hlisted⟩
      exact (h.of_listedClass? hf hlisted).2
    · intro hmem
      have hc := h.accepts c hmem
      obtain ⟨t, ht⟩ := MemoryStore.mem_list.1 hmem
      refine ⟨(c.file, t.toJson.pretty), ?_, hc.listedClass?_file⟩
      rw [mem_filesBelow h.ordered h.directory, h.tree c hc, ht]
      rfl

theorem list (h : s.Shows base d m) : (s.source d).list none = m.source.list none := by
  have hdirectory : d.isDirectory s.root = true := isDirectory_eq_true h.visit_root
  have hsame : Path.same s.root s.root = true := by simp [Path.same]
  have hsorted := OrderedSet.mergeSort_eq (s := ⟨m.list none, m.ascending_list none⟩) h.listed_perm
  refine congrArg Except.ok ?_
  delta DirectoryStore.list
  simp only [hdirectory, if_true, hsame, locate_eq_ok (h.leads.follow h.limits)]
  exact hsorted

/-! ### Changing -/

theorem alters_tree (h : s.Shows base d m) (hc : s.Accepts c)
    (hd : Alters base (Function.update d.lookup (base ++ c.file) (some (.file t.toJson.pretty)))
      d d') : s.Shows base d' (m.write c t) where
  toRooted := h.toRooted.alters hd fun k ↦ directory_update (h.file_ne_directory hc) _
  tree c' hc' := by
    rw [hd.entry, MemoryStore.write, OrderedMap.get?_insert]
    by_cases heq : c' = c
    · rw [heq, Function.update_self, if_pos rfl]
      rfl
    · rw [Function.update_of_ne (by simpa [ClassName.file_inj] using heq),
        if_neg (by simpa using heq), h.tree c' hc']
  lease c' hc' := by
    rw [hd.entry, Function.update_of_ne (by simpa using hc.file_ne_lock.symm)]
    exact h.lease c' hc'
  rest l e he := by
    by_cases hl : l = c.file
    · exact .inr ⟨c, hc, .inl hl⟩
    · rw [hd.entry, Function.update_of_ne (by simpa using hl)] at he
      exact h.rest l e he
  accepts c' hc' := by
    obtain ⟨t', ht'⟩ := MemoryStore.mem_list.1 hc'
    rw [MemoryStore.write, OrderedMap.get?_insert] at ht'
    split at ht'
    next heq =>
      obtain rfl : c' = c := congrArg Slot.cls heq
      exact hc
    next => exact h.accepts c' (MemoryStore.mem_list.2 ⟨t', ht'⟩)

theorem alters_lease (h : s.Shows base d m) (hc : s.Accepts c) (htrees : m'.trees = m.trees)
    (hleases : ∀ a, a ≠ c → (a ∈ m'.leases ↔ a ∈ m.leases))
    (hd : Alters base (Function.update d.lookup (base ++ c.lock)
      (if c ∈ m'.leases then some (.file "") else none)) d d') : s.Shows base d' m' where
  toRooted := h.toRooted.alters hd fun k ↦ directory_update (h.lock_ne_directory hc) _
  tree c' hc' := by
    rw [hd.entry, Function.update_of_ne (by simpa using hc'.file_ne_lock), htrees]
    exact h.tree c' hc'
  lease c' hc' := by
    rw [hd.entry]
    by_cases heq : c' = c
    · rw [heq, Function.update_self]
    · rw [Function.update_of_ne (by simpa [ClassName.lock_inj] using heq), h.lease c' hc']
      simp only [hleases c' heq]
  rest l e he := by
    by_cases hl : l = c.lock
    · exact .inr ⟨c, hc, .inr hl⟩
    · rw [hd.entry, Function.update_of_ne (by simpa using hl)] at he
      exact h.rest l e he
  accepts c' hc' := by
    rw [MemoryStore.mem_list, htrees, ← MemoryStore.mem_list] at hc'
    exact h.accepts c' hc'

theorem alters_directories (h : s.Shows base d m) (hc : s.Accepts c)
    (hd : Alters base (withDirectories d.lookup base c.directories) d d') :
    s.Shows base d' m := by
  have hdotless : ∀ l, l <+: c.directories → ∀ name ∈ l, '.' ∉ name.toList :=
    fun l hl name hname ↦
      hc.no_dot_of_mem_parts (Accepts.mem_parts_of_mem_directories (hl.mem hname))
  have hdotted : ∀ l, (∃ name ∈ l, '.' ∈ name.toList) →
      d'.lookup (base ++ l) = d.lookup (base ++ l) := by
    rintro l ⟨name, hname, hdot⟩
    rw [hd.entry, withDirectories, if_neg]
    exact fun hl ↦ hdotless l ((List.prefix_append_right_inj base).1 hl.2) name hname hdot
  exact {
    toRooted := h.toRooted.alters hd fun k ↦ directory_withDirectories
    tree := fun c' hc' ↦ (hdotted _ (Accepts.exists_dot_mem (.inl rfl))).trans (h.tree c' hc')
    lease := fun c' hc' ↦
      (hdotted _ (Accepts.exists_dot_mem (.inr (.inr rfl)))).trans (h.lease c' hc')
    rest := by
      intro l e he
      rw [hd.entry, withDirectories] at he
      split at he
      next hl =>
        exact .inl ⟨(Option.some.inj he).symm,
          hdotless l ((List.prefix_append_right_inj base).1 hl.2)⟩
      next => exact h.rest l e he
    accepts := h.accepts }

/-- The directories of a class can be made at any time. -/
theorem exists_createDirectories (h : s.Shows base d m) (hc : s.Accepts c) {p : String}
    (hp : d.Leads base c.directories p) :
    ∃ d₁, d.createDirectories p = (.ok (), d₁) ∧ s.Shows base d₁ m ∧
      d₁.lookup (base ++ c.directories) = some .directory := by
  have hplain : Plain c.directories := fun a ha ↦
    hc.plain hc.fileName_file a (List.mem_append_left _ ha)
  obtain ⟨d₁, hcreate, hd⟩ :=
    hp.exists_createDirectories h.limits hplain h.directory (h.clear hc)
  refine ⟨d₁, hcreate, h.alters_directories hc hd, ?_⟩
  rw [hd.entry, withDirectories, if_pos ⟨List.prefix_append .., List.prefix_rfl⟩]

theorem exists_write (h : s.Shows base d m) (hc : s.Accepts c) (t : ClassTree) :
    ∃ d', s.write c t d = (.ok (), d') ∧ s.Shows base d' (m.write c t) := by
  have hplain := hc.plain hc.fileName_file
  obtain ⟨d₁, hcreate, h₁, hdir⟩ :=
    h.exists_createDirectories hc ((hc.leads_file h.leads).parent hplain)
  have hpoints : d₁.Points base c.directories (c.stem ++ ".json") (classPath s.root c) :=
    ⟨h₁.limits, hc.leads_file h₁.leads, hplain, hdir⟩
  have hdraft : FileName ("." ++ (c.stem ++ ".json") ++ ".tmp") :=
    hc.fileName_file.dotted.append (by decide) (by simp) (by simp)
  have hfile := h₁.file_ne_directory hc
  have hnone := h₁.draft_eq_none (c := c)
  rw [ClassName.file, ← List.append_assoc] at hfile
  rw [ClassName.draft, ← List.append_assoc] at hnone
  obtain ⟨d', hreplace, hd⟩ := exists_replaceFile hpoints hfile hdraft hnone
  rw [List.append_assoc] at hd
  refine ⟨d', ?_, h₁.alters_tree hc hd⟩
  delta DirectoryStore.write
  simp only [hcreate, hreplace]

theorem exists_lease (h : s.Shows base d m) (hc : s.Accepts c) :
    ∃ d', s.lease c d = ((MemoryStore.lease c m).1, d') ∧
      s.Shows base d' (MemoryStore.lease c m).2 := by
  obtain ⟨d₁, hcreate, h₁, hdir⟩ :=
    h.exists_createDirectories hc ((hc.leads_plainLock h.leads).parent
      (hc.plain hc.fileName_plainLock))
  have hpoints : d₁.Points base c.directories ("." ++ (c.stem ++ ".lock")) (s.lockPath c) :=
    ⟨h₁.limits, hc.leads_lock h₁.leads, hc.plain hc.fileName_plainLock.dotted, hdir⟩
  have hlock := h₁.lease c hc
  rw [ClassName.lock, ← List.append_assoc] at hlock
  rw [MemoryStore.lease]
  split at hlock
  next hmem =>
    refine ⟨d₁, ?_, by rwa [if_pos hmem]⟩
    delta DirectoryStore.lease
    simp only [hcreate, hpoints.createFile_of_some hlock, if_pos hmem]
  next hmem =>
    obtain ⟨d', hfile, hd⟩ := hpoints.exists_createFile hlock
    rw [List.append_assoc] at hd
    refine ⟨d', ?_, ?_⟩
    · delta DirectoryStore.lease
      simp only [hcreate, hfile, if_neg hmem]
    · rw [if_neg hmem]
      refine h₁.alters_lease hc rfl (fun a ha ↦ ?_) ?_
      · exact OrderedSet.mem_insert.trans (or_iff_right ha)
      · rw [if_pos (OrderedSet.mem_insert.2 (.inl rfl))]
        exact hd

theorem release (h : s.Shows base d m) (hc : s.Accepts c) :
    s.Shows base (s.release c d) (MemoryStore.release c m) := by
  have hleads := hc.leads_lock h.leads
  have hplain := hc.plain hc.fileName_plainLock.dotted
  have hlock := h.lease c hc
  rw [ClassName.lock, ← List.append_assoc] at hlock
  have hleases : ∀ a, a ≠ c → (a ∈ (MemoryStore.release c m).leases ↔ a ∈ m.leases) :=
    fun a ha ↦ MemoryStore.mem_release.trans (and_iff_left ha)
  have hgone : c ∉ (MemoryStore.release c m).leases := fun hmem ↦
    (MemoryStore.mem_release.1 hmem).2 rfl
  rw [DirectoryStore.release]
  split at hlock
  next hmem =>
    have hdir : d.lookup (base ++ c.directories) = some .directory := lookup_of_append hlock
    have hpoints : d.Points base c.directories ("." ++ (c.stem ++ ".lock")) (s.lockPath c) :=
      ⟨h.limits, hleads, hplain, hdir⟩
    obtain ⟨d', hremove, hd⟩ := hpoints.exists_removeFile hlock
    rw [List.append_assoc] at hd
    rw [hremove]
    refine h.alters_lease hc rfl hleases ?_
    rw [if_neg hgone]
    exact hd
  next hmem =>
    rw [hleads.removeFile_of_none h.limits hplain (h.clear hc) hlock]
    have hsame : Function.update d.lookup (base ++ c.lock) none = d.lookup := by
      rw [← hlock, List.append_assoc]
      exact Function.update_eq_self (base ++ c.lock) d.lookup
    refine h.alters_lease hc rfl hleases ?_
    rw [if_neg hgone, hsame]
    exact .refl base d

/-! ### Requests -/

open StoreRequest

/-- **Each request has the same reply**, and the disk shows the store that is left. -/
theorem serve (h : s.Shows base d m) {r : StoreRequest} (hr : ∀ c ∈ r.cls?, s.Accepts c) :
    (serve s.source s.output d r).1 = (serve MemoryStore.source MemoryStore.output m r).1 ∧
      s.Shows base (serve s.source s.output d r).2
        (serve MemoryStore.source MemoryStore.output m r).2 := by
  cases r with
  | write c t =>
    obtain ⟨d', hwrite, h'⟩ := h.exists_write (hr c rfl) t
    simp only [StoreRequest.serve, DirectoryStore.output, hwrite]
    exact ⟨rfl, h'⟩
  | readMerged c =>
    simp only [StoreRequest.serve, h.readMerged (hr c rfl)]
    exact ⟨trivial, h⟩
  | list =>
    simp only [StoreRequest.serve, h.list]
    exact ⟨trivial, h⟩
  | lease c =>
    obtain ⟨d', hlease, h'⟩ := h.exists_lease (hr c rfl)
    simp only [StoreRequest.serve, DirectoryStore.output, hlease]
    exact ⟨rfl, h'⟩
  | release c =>
    simp only [StoreRequest.serve, DirectoryStore.output]
    exact ⟨trivial, h.release (hr c rfl)⟩

/-- **Requests have the replies of the store in memory** that the disk shows. -/
theorem replies (h : s.Shows base d m) {rs : List StoreRequest}
    (hrs : ∀ r ∈ rs, ∀ c ∈ r.cls?, s.Accepts c) :
    replies s.source s.output rs d = replies MemoryStore.source MemoryStore.output rs m := by
  induction rs generalizing d m with
  | nil => rfl
  | cons r rs ih =>
    obtain ⟨hreply, h'⟩ := h.serve (hrs r List.mem_cons_self)
    rw [StoreRequest.replies, StoreRequest.replies, hreply,
      ih h' fun r hr ↦ hrs r (List.mem_cons_of_mem _ hr)]

end Shows

/-- **A store in an empty directory answers as an empty store in memory does.** The root has to lead
to a directory that is there, so that creating the store makes none (`Rooted.create_eq`). That leaves
out the empty path: a store can be created for it, but it leads nowhere. -/
theorem replies_emptyRoot {rs : List StoreRequest} (hlimits : d.limits = none)
    (hroot : d.locate s.root = .ok base) (hempty : d.root.at? base = some .empty)
    (hrs : ∀ r ∈ rs, ∀ c ∈ r.cls?, s.Accepts c) :
    StoreRequest.replies s.source s.output rs d =
      StoreRequest.replies MemoryStore.source MemoryStore.output rs .empty :=
  (shows_empty hlimits hroot hempty).replies hrs

/-- A disk that takes names of any length, with an empty directory for a store. -/
def emptyRoot : Disk where
  top := (Node.put .empty ["srv", "out"] .empty).nodes
  workingDirectory := ["srv"]
  limits := none

/-- Two classes, one of them in a directory named as the other; the latter is leased and written
again meanwhile. -/
def nestedRequests : List StoreRequest :=
  [.lease ⟨"x/A"⟩, .write ⟨"x/A"⟩ { name := ⟨"x/A"⟩, access := .packageAccess },
    .lease ⟨"x/A"⟩, .write ⟨"x/A/B"⟩ { name := ⟨"x/A/B"⟩, access := .publicAccess }, .list,
    .write ⟨"x/A"⟩ { name := ⟨"x/A"⟩, access := .publicAccess }, .readMerged ⟨"x/A"⟩,
    .release ⟨"x/A"⟩, .lease ⟨"x/A"⟩, .readMerged ⟨"x"⟩]

theorem replies_emptyRoot_nestedRequests :
    emptyRoot.limits = none ∧ emptyRoot.locate "out" = .ok ["srv", "out"] ∧
      emptyRoot.root.at? ["srv", "out"] = some .empty ∧
      (∀ r ∈ nestedRequests, ∀ c ∈ r.cls?, Accepts ⟨"out", [⟨"a"⟩]⟩ c) ∧
      create "out" [⟨"a"⟩] emptyRoot = (.ok ⟨"out", [⟨"a"⟩]⟩, emptyRoot) ∧
      StoreRequest.replies (source ⟨"out", [⟨"a"⟩]⟩) (output ⟨"out", [⟨"a"⟩]⟩) nestedRequests
        emptyRoot =
        [.ok .done, .ok .done, .error (.locked ⟨"x/A"⟩), .ok .done,
          .ok (.classes [⟨"x/A"⟩, ⟨"x/A/B"⟩]), .ok .done,
          .ok (.tree { name := ⟨"x/A"⟩, access := .publicAccess }), .ok .done, .ok .done,
          .error (.notFound ⟨"x"⟩ none)] := by
  have hroot : emptyRoot.locate "out" = .ok ["srv", "out"] := by decide +kernel
  have hrs : ∀ r ∈ nestedRequests, ∀ c ∈ r.cls?, Accepts ⟨"out", [⟨"a"⟩]⟩ c := by decide +kernel
  have hshows : Shows ⟨"out", [⟨"a"⟩]⟩ ["srv", "out"] emptyRoot .empty := shows_empty rfl hroot rfl
  exact ⟨rfl, hroot, rfl, hrs, hshows.create_eq, (replies_emptyRoot rfl hroot rfl hrs).trans rfl⟩

end DirectoryStore

end ClassWeave
