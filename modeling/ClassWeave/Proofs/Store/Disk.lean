import ClassWeave.Proofs.Ordered.Map
import ClassWeave.Proofs.Outcome
import ClassWeave.Store.Disk
import Mathlib.Data.List.Induction
import Mathlib.Data.List.Nodup
import Mathlib.Logic.Function.Basic

/-!
# Disks through their entries

What can be seen of a disk is an entry at each location (`Disk.lookup`), and above every entry there
are directories (`Disk.lookup_of_append`). Where these are there already, putting a file or an empty
directory somewhere and removing a file each change one entry and no other (`Disk.alters_put`,
`Disk.alters_erase`).

The way that a path takes is told from the entries too (`Disk.Walks`), so a disk that has more
directories than another one still has its ways (`Disk.Walks.mono`). The files below a directory are
those that can be seen there, each of them once, as long as no directory has two entries of one name
(`Node.Ordered`).
-/

namespace ClassWeave

/-! ### Nodes -/

namespace Node

variable {n m new : Node} {name : String} {l dir : Location}

/-- What can be seen of a node at a location below it. -/
def entryAt? (n : Node) (l : Location) : Option Entry := (n.at? l).map entry

theorem entryAt?_cons (n : Node) (name : String) (l : Location) :
    n.entryAt? (name :: l) = n.child? name >>= fun m ↦ m.entryAt? l := by
  rw [entryAt?, at?]
  cases n.child? name <;> rfl

theorem at?_append (n : Node) (l l' : Location) : n.at? (l ++ l') = n.at? l >>= (·.at? l') := by
  induction l generalizing n with
  | nil => rfl
  | cons name l ih =>
    rw [List.cons_append, at?, at?]
    cases n.child? name with
    | none => rfl
    | some m => exact ih m

/-- Only a directory has something below it. -/
theorem entry_of_child? (h : n.child? name = some m) : n.entry = .directory := by
  cases n with
  | file text => cases h
  | directory nodes => rfl

theorem entryAt?_of_append {r : Location} (h : n.entryAt? (l ++ name :: r) ≠ none) :
    n.entryAt? l = some .directory := by
  rw [entryAt?, at?_append] at h
  rw [entryAt?]
  cases hl : n.at? l with
  | none =>
    rw [hl] at h
    exact absurd rfl h
  | some m =>
    rw [hl, Option.bind_eq_bind, Option.bind_some, at?] at h
    cases hm : m.child? name with
    | none =>
      rw [hm] at h
      exact absurd rfl h
    | some _ => exact congrArg some (entry_of_child? hm)

/-! ### One entry of a directory -/

/-- The nodes of a directory with another node, or none, under a name. -/
def withChild (name : String) (new : Option Node) (nodes : List (String × Node)) :
    List (String × Node) :=
  match new with
  | some m => OrderedMap.insertEntry name m nodes
  | none => nodes.filter (·.1 ≠ name)

/-- Changes what the directory at a location has under a name. -/
def alter (name : String) (new : Option Node) : Location → Node → Node
  | [], n => directory (withChild name new n.nodes)
  | a :: dir, n =>
    match n.child? a with
    | some m => directory (withChild a (some (alter name new dir m)) n.nodes)
    | none => n

theorem child?_withChild (n : Node) (name a : String) (new : Option Node) :
    (directory (withChild name new n.nodes)).child? a = if a = name then new else n.child? a := by
  cases new with
  | some m => exact OrderedMap.findEntry?_insertEntry name a m n.nodes
  | none =>
    show OrderedMap.findEntry? a (n.nodes.filter (·.1 ≠ name)) = _
    rw [OrderedMap.findEntry?, List.find?_filter]
    by_cases ha : a = name
    · subst ha
      rw [if_pos rfl, List.find?_eq_none.2, Option.map_none]
      intro e _ he
      obtain ⟨hne, heq⟩ := of_decide_eq_true he
      exact of_decide_eq_true hne (Std.LawfulEqOrd.eq_of_compare (eq_of_beq heq)).symm
    · rw [if_neg ha, child?, OrderedMap.findEntry?]
      congr 2
      funext e
      refine Bool.eq_iff_iff.2 (decide_eq_true_iff.trans (and_iff_right_of_imp fun heq ↦ ?_))
      have hae : a = e.1 := Std.LawfulEqOrd.eq_of_compare (eq_of_beq heq)
      exact decide_eq_true (hae ▸ ha)

theorem put_eq_alter (new : Node) (name : String) (hdir : n.entryAt? dir = some .directory) :
    put new (dir ++ [name]) n = alter name (some new) dir n := by
  induction dir generalizing n with
  | nil => rfl
  | cons a dir ih =>
    rw [entryAt?_cons] at hdir
    obtain ⟨m, hm, hdir⟩ := Option.bind_eq_some_iff.1 hdir
    rw [List.cons_append, put, alter, hm, Option.getD_some, ih hdir]
    rfl

theorem erase_cons_append (a : String) (dir : Location) (name : String) (n : Node) :
    erase (a :: (dir ++ [name])) n =
      match n.child? a with
      | some m => directory (OrderedMap.insertEntry a (erase (dir ++ [name]) m) n.nodes)
      | none => n := by
  cases dir with
  | nil => rfl
  | cons b dir => rfl

theorem erase_eq_alter (name : String) (hdir : n.entryAt? dir = some .directory) :
    erase (dir ++ [name]) n = alter name none dir n := by
  induction dir generalizing n with
  | nil => rfl
  | cons a dir ih =>
    rw [entryAt?_cons] at hdir
    obtain ⟨m, hm, hdir⟩ := Option.bind_eq_some_iff.1 hdir
    rw [List.cons_append, erase_cons_append, alter, hm]
    simp only [ih hdir]
    rfl

theorem entryAt?_withChild {new : Option Node} (hnew : ∀ m, new = some m → m.nodes = [])
    (hn : n.entry = .directory) (hplace : n.entryAt? [name] ≠ some .directory) :
    (directory (withChild name new n.nodes)).entryAt? =
      Function.update n.entryAt? [name] (new.map entry) := by
  funext l
  cases l with
  | nil => exact congrArg some hn.symm
  | cons a l =>
    rw [entryAt?_cons, child?_withChild, Function.update_apply]
    by_cases ha : a = name
    · subst ha
      rw [if_pos rfl]
      cases l with
      | nil =>
        rw [if_pos rfl]
        cases new <;> rfl
      | cons b l =>
        -- below the entry there was nothing, and there is nothing now
        have hbelow : n.entryAt? (a :: b :: l) = none :=
          Decidable.not_not.1 (mt (entryAt?_of_append (l := [a])) hplace)
        rw [if_neg (by simp), hbelow]
        cases hm : new with
        | none => rfl
        | some m =>
          rw [Option.bind_eq_bind, Option.bind_some, entryAt?_cons, child?, hnew m hm]
          rfl
    · rw [if_neg ha, if_neg (by simp [ha]), entryAt?_cons]

/-- **To change an entry** that has no entries of its own for another such one, or for none, changes
what is seen at its location and nowhere else. -/
theorem entryAt?_alter {new : Option Node} (hnew : ∀ m, new = some m → m.nodes = [])
    (hdir : n.entryAt? dir = some .directory)
    (hplace : n.entryAt? (dir ++ [name]) ≠ some .directory) :
    (alter name new dir n).entryAt? =
      Function.update n.entryAt? (dir ++ [name]) (new.map entry) := by
  induction dir generalizing n with
  | nil => exact entryAt?_withChild hnew (Option.some.inj hdir) hplace
  | cons a dir ih =>
    rw [entryAt?_cons] at hdir
    obtain ⟨m, hm, hdir⟩ := Option.bind_eq_some_iff.1 hdir
    rw [List.cons_append, entryAt?_cons, hm, Option.bind_eq_bind, Option.bind_some] at hplace
    have halter := ih hdir hplace
    funext l
    rw [List.cons_append, alter, hm]
    cases l with
    | nil => exact congrArg some (entry_of_child? hm).symm
    | cons b l =>
      rw [entryAt?_cons, child?_withChild, Function.update_apply]
      by_cases hb : b = a
      · subst hb
        rw [if_pos rfl, Option.bind_eq_bind, Option.bind_some, halter, Function.update_apply,
          entryAt?_cons, hm]
        simp
      · rw [if_neg hb, if_neg (by simp [hb]), entryAt?_cons]

/-- What is done below a node is done to the node. -/
theorem at?_alter {base : Location} (hm : n.at? base = some m) (new : Option Node) :
    (alter name new (base ++ dir) n).at? base = some (alter name new dir m) := by
  induction base generalizing n with
  | nil =>
    cases hm
    rfl
  | cons a base ih =>
    rw [at?] at hm
    obtain ⟨m', hm', hm⟩ := Option.bind_eq_some_iff.1 hm
    rw [List.cons_append, alter, hm', at?, child?_withChild, if_pos rfl, Option.bind_eq_bind,
      Option.bind_some, ih hm]

/-! ### Names that are used once -/

/-- In each directory from a node on, names ascend. -/
inductive Ordered : Node → Prop
  | file (text : String) : Ordered (.file text)
  | directory {nodes : List (String × Node)}
      (names : nodes.Pairwise fun a b ↦ compare a.1 b.1 = .lt)
      (below : ∀ e ∈ nodes, Ordered e.2) : Ordered (.directory nodes)

theorem Ordered.nodes (h : n.Ordered) : (n.nodes.Pairwise fun a b ↦ compare a.1 b.1 = .lt) ∧
    ∀ e ∈ n.nodes, e.2.Ordered := by
  cases h with
  | file text => exact ⟨.nil, nofun⟩
  | directory names below => exact ⟨names, below⟩

/-- In an ordered directory a look-up finds the only node of the name. -/
theorem Ordered.child?_eq_some_iff (h : n.Ordered) : n.child? name = some m ↔ (name, m) ∈ n.nodes :=
  OrderedMap.get?_eq_some_iff (m := ⟨n.nodes, h.nodes.1⟩)

theorem Ordered.alter {new : Option Node} (h : n.Ordered) (hnew : ∀ m, new = some m → m.Ordered)
    (name : String) (dir : Location) : (alter name new dir n).Ordered := by
  have hwith : ∀ {n : Node} {name : String} {new : Option Node}, n.Ordered →
      (∀ m, new = some m → m.Ordered) → (Node.directory (withChild name new n.nodes)).Ordered := by
    intro n name new hn hnew
    cases new with
    | none =>
      exact .directory (hn.nodes.1.filter _) fun e he ↦ hn.nodes.2 e (List.mem_filter.1 he).1
    | some m =>
      refine .directory (OrderedMap.ascending_insertEntry name m hn.nodes.1) fun e he ↦ ?_
      rcases OrderedMap.mem_insertEntry he with rfl | he
      · exact hnew m rfl
      · exact hn.nodes.2 e he
  induction dir generalizing n with
  | nil => exact hwith h hnew
  | cons a dir ih =>
    rw [Node.alter]
    cases hm : n.child? a with
    | none => exact h
    | some m =>
      have hbelow : m.Ordered := h.nodes.2 _ (h.child?_eq_some_iff.1 hm)
      refine hwith h fun m' hm' ↦ ?_
      cases hm'
      exact ih hbelow

/-! ### Listings -/

theorem listingAll_eq (l : Location) (nodes : List (String × Node)) :
    listingAll l nodes = nodes.flatMap fun e ↦ e.2.listing (l ++ [e.1]) := by
  induction nodes with
  | nil => rfl
  | cons e nodes ih => rw [listingAll, ih, List.flatMap_cons]

/-- **A listing has what can be seen.** -/
theorem Ordered.mem_listing (h : n.Ordered) {l k : Location} {e : Entry} :
    (k, e) ∈ n.listing l ↔ ∃ r, k = l ++ r ∧ n.entryAt? r = some e := by
  induction h generalizing l with
  | file text =>
    rw [listing, List.mem_singleton]
    constructor
    · intro h
      obtain ⟨rfl, rfl⟩ := Prod.mk.inj h
      exact ⟨[], (List.append_nil k).symm, rfl⟩
    · rintro ⟨r, rfl, hr⟩
      cases r with
      | nil => exact Prod.ext (List.append_nil l) (Option.some.inj hr).symm
      | cons a r => cases hr
  | @directory nodes names below ih =>
    have hn : (Node.directory nodes).Ordered := .directory names below
    rw [listing, List.mem_cons, listingAll_eq, List.mem_flatMap]
    constructor
    · rintro (h | ⟨⟨name, m⟩, hm, h⟩)
      · obtain ⟨rfl, rfl⟩ := Prod.mk.inj h
        exact ⟨[], (List.append_nil k).symm, rfl⟩
      · obtain ⟨r, rfl, hr⟩ := (ih _ hm).1 h
        refine ⟨name :: r, List.append_assoc l [name] r, ?_⟩
        rw [entryAt?_cons, hn.child?_eq_some_iff.2 hm]
        exact hr
    · rintro ⟨r, rfl, hr⟩
      cases r with
      | nil => exact .inl (Prod.ext (List.append_nil l) (Option.some.inj hr).symm)
      | cons name r =>
        rw [entryAt?_cons] at hr
        obtain ⟨m, hm, hr⟩ := Option.bind_eq_some_iff.1 hr
        have hmem := hn.child?_eq_some_iff.1 hm
        exact .inr ⟨_, hmem, (ih _ hmem).2 ⟨r, List.append_cons l name r, hr⟩⟩

/-- **A listing has each location once.** -/
theorem Ordered.nodup_listing (h : n.Ordered) (l : Location) :
    ((n.listing l).map (·.1)).Nodup := by
  induction h generalizing l with
  | file text => exact List.nodup_singleton l
  | @directory nodes names below ih =>
    rw [listing, listingAll_eq, List.map_cons, List.map_flatMap, List.nodup_cons]
    have hbelow : ∀ e ∈ nodes, ∀ k ∈ (e.2.listing (l ++ [e.1])).map (·.1),
        ∃ r, k = l ++ e.1 :: r := by
      intro e he k hk
      obtain ⟨x, hx, rfl⟩ := List.mem_map.1 hk
      obtain ⟨r, hr, -⟩ := (below e he).mem_listing.1 hx
      exact ⟨r, hr.trans (List.append_assoc l [e.1] r)⟩
    refine ⟨fun hl ↦ ?_, List.nodup_flatMap.2 ⟨fun e he ↦ ih e he _, ?_⟩⟩
    · obtain ⟨e, he, hk⟩ := List.mem_flatMap.1 hl
      obtain ⟨r, hr⟩ := hbelow e he l hk
      simp at hr
    · refine names.imp_of_mem fun {e e'} he he' hlt k hk hk' ↦ ?_
      obtain ⟨r, hr⟩ := hbelow e he k hk
      obtain ⟨r', hr'⟩ := hbelow e' he' k hk'
      have hname : e.1 = e'.1 := (List.cons.inj (List.append_cancel_left (hr.symm.trans hr'))).1
      rw [hname] at hlt
      exact absurd hlt (by simp)

end Node

namespace Disk

variable {d : Disk} {l l' dir base : Location} {name : String} {names : List String} {t : Trail}

/-! ### Disks -/

/-- **Above every entry there is a directory.** -/
theorem lookup_of_append {r : Location} {e : Entry} (h : d.lookup (l ++ name :: r) = some e) :
    d.lookup l = some .directory :=
  Node.entryAt?_of_append (Option.ne_none_iff_exists'.2 ⟨e, h⟩)

/-- Changes what the directory at a location has under a name. -/
def alter (name : String) (new : Option Node) (dir : Location) (d : Disk) : Disk :=
  { d with top := (Node.alter name new dir d.root).nodes }

theorem root_alter (name : String) (new : Option Node) (dir : Location) (d : Disk) :
    (d.alter name new dir).root = Node.alter name new dir d.root := by
  rw [root, alter]
  cases dir with
  | nil => rfl
  | cons a dir =>
    rw [Node.alter]
    cases d.root.child? a <;> rfl

theorem put_eq_alter (n : Node) (name : String) (hdir : d.lookup dir = some .directory) :
    d.put (dir ++ [name]) n = d.alter name (some n) dir := by
  rw [put, alter, Node.put_eq_alter n name hdir]

theorem erase_eq_alter (name : String) (hdir : d.lookup dir = some .directory) :
    d.erase (dir ++ [name]) = d.alter name none dir := by
  rw [erase, alter, Node.erase_eq_alter name hdir]

/-- From a directory on, no name is used twice in one place. -/
def OrderedFrom (d : Disk) (base : Location) : Prop :=
  ∀ n, d.root.at? base = some n → n.Ordered

/-- A disk that was altered below a directory, and what is seen of it now. -/
structure Alters (base : Location) (see : Location → Option Entry) (d d' : Disk) : Prop where
  limits : d'.limits = d.limits
  workingDirectory : d'.workingDirectory = d.workingDirectory
  entry : d'.lookup = see
  ordered : d.OrderedFrom base → d'.OrderedFrom base

theorem Alters.refl (base : Location) (d : Disk) : Alters base d.lookup d d := ⟨rfl, rfl, rfl, id⟩

theorem Alters.trans {see see' : Location → Option Entry} {d₁ d₂ : Disk}
    (h : Alters base see d d₁) (h' : Alters base see' d₁ d₂) : Alters base see' d d₂ :=
  ⟨h'.limits.trans h.limits, h'.workingDirectory.trans h.workingDirectory, h'.entry,
    h'.ordered ∘ h.ordered⟩

theorem alters_alter {new : Option Node} (hnew : ∀ m, new = some m → m.nodes = [])
    (hdir : d.lookup (base ++ dir) = some .directory)
    (hplace : d.lookup (base ++ dir ++ [name]) ≠ some .directory) :
    Alters base (Function.update d.lookup (base ++ dir ++ [name]) (new.map Node.entry)) d
      (d.alter name new (base ++ dir)) where
  limits := rfl
  workingDirectory := rfl
  entry := by
    show (d.alter name new (base ++ dir)).root.entryAt? = _
    rw [root_alter]
    exact Node.entryAt?_alter hnew hdir hplace
  ordered h := by
    intro n hn
    rw [root_alter] at hn
    cases hm : d.root.at? base with
    | none =>
      rw [lookup, Node.at?_append, hm] at hdir
      cases hdir
    | some m =>
      rw [Node.at?_alter hm, Option.some.injEq] at hn
      rw [← hn]
      refine (h m hm).alter (fun n hn ↦ ?_) name dir
      cases n with
      | file text => exact .file text
      | directory nodes =>
        obtain rfl : nodes = [] := hnew _ hn
        exact .directory .nil nofun

/-- **A file or an empty directory that is put into a directory** is all that is new. -/
theorem alters_put {n : Node} (hn : n.nodes = []) (hdir : d.lookup (base ++ dir) = some .directory)
    (hplace : d.lookup (base ++ dir ++ [name]) ≠ some .directory) :
    Alters base (Function.update d.lookup (base ++ dir ++ [name]) (some n.entry)) d
      (d.put (base ++ dir ++ [name]) n) := by
  rw [put_eq_alter n name hdir]
  exact alters_alter (fun m hm ↦ Option.some.inj hm ▸ hn) hdir hplace

/-- **A file that is removed** is all that is gone. -/
theorem alters_erase (hdir : d.lookup (base ++ dir) = some .directory)
    (hplace : d.lookup (base ++ dir ++ [name]) ≠ some .directory) :
    Alters base (Function.update d.lookup (base ++ dir ++ [name]) none) d
      (d.erase (base ++ dir ++ [name])) := by
  rw [erase_eq_alter name hdir]
  exact alters_alter (fun m (hm : none = some m) ↦ nomatch hm) hdir hplace

/-! ### Files below a directory -/

/-- The file of an entry of a listing. -/
def fileOf? (e : Location × Entry) : Option (Location × String) :=
  match e.2 with
  | .file text => some (e.1, text)
  | .directory => none

theorem fileOf?_eq_some {e : Location × Entry} {x : Location × String} :
    fileOf? e = some x ↔ e = (x.1, .file x.2) := by
  obtain ⟨k, text | _⟩ := e
  · simp [fileOf?, Prod.ext_iff]
  · simp [fileOf?]

/-- The files below a directory are among its listing, which starts with the directory itself. -/
theorem exists_listing (hbase : d.lookup base = some .directory) :
    ∃ n rest, d.root.at? base = some n ∧ n.listing [] = ([], .directory) :: rest ∧
      d.filesBelow base = rest.filterMap fileOf? := by
  obtain ⟨n, hn, hentry⟩ := Option.map_eq_some_iff.1 hbase
  cases n with
  | file text => cases hentry
  | directory nodes =>
    refine ⟨_, Node.listingAll [] nodes, hn, rfl, ?_⟩
    rw [filesBelow, hn]
    rfl

theorem mem_filesBelow (h : d.OrderedFrom base) (hbase : d.lookup base = some .directory)
    {text : String} :
    (l, text) ∈ d.filesBelow base ↔ d.lookup (base ++ l) = some (.file text) := by
  obtain ⟨n, rest, hn, hlisting, hfiles⟩ := exists_listing hbase
  have hentry : d.lookup (base ++ l) = n.entryAt? l := by
    rw [lookup, Node.at?_append, hn]
    rfl
  have hmem : (l, Entry.file text) ∈ rest ↔ (l, Entry.file text) ∈ n.listing [] := by
    rw [hlisting, List.mem_cons]
    exact (or_iff_right nofun).symm
  rw [hfiles, hentry, List.mem_filterMap]
  simp only [fileOf?_eq_some, exists_eq_right]
  rw [hmem, (h n hn).mem_listing]
  simp only [List.nil_append, exists_eq_left']

theorem nodup_filesBelow (h : d.OrderedFrom base) (hbase : d.lookup base = some .directory) :
    ((d.filesBelow base).map (·.1)).Nodup := by
  obtain ⟨n, rest, hn, hlisting, hfiles⟩ := exists_listing hbase
  have hnodup := (h n hn).nodup_listing []
  rw [hlisting, List.map_cons, List.nodup_cons] at hnodup
  rw [hfiles]
  exact hnodup.2.sublist (OrderedMap.keys_filterMap_sublist
    (fun e x hx ↦ (congrArg Prod.fst (fileOf?_eq_some.1 hx)).symm) rest)

/-! ### Ways -/

theorem trailTo_append (d : Disk) (l : Location) (name : String) :
    d.trailTo (l ++ [name]) =
      (name, Trail.here d (d.trailTo l) >>= (·.child? name)) :: d.trailTo l := by
  rw [trailTo, List.foldl_append]
  rfl

theorem here_trailTo (d : Disk) (l : Location) : Trail.here d (d.trailTo l) = d.root.at? l := by
  induction l using List.reverseRecOn with
  | nil => rfl
  | append_singleton l name ih =>
    rw [trailTo_append, Trail.here, ih, Node.at?_append]
    congr 1
    funext n
    rw [Node.at?]
    cases n.child? name <;> rfl

theorem location_trailTo (d : Disk) (l : Location) : (d.trailTo l).location = l := by
  induction l using List.reverseRecOn with
  | nil => rfl
  | append_singleton l name ih =>
    rw [Trail.location] at ih
    rw [trailTo_append, Trail.location, List.map_cons, List.reverse_cons, ih]

theorem tail_trailTo (d : Disk) (l : Location) : (d.trailTo l).tail = d.trailTo l.dropLast := by
  induction l using List.reverseRecOn with
  | nil => rfl
  | append_singleton l name ih => rw [trailTo_append, List.tail_cons, List.dropLast_concat]

/-- Where a step of a path leads to. -/
def stepFrom (l : Location) (name : String) : Location :=
  if name = "." then l else if name = ".." then l.dropLast else l ++ [name]

/-- On a disk that takes names of any length, a step starts at a directory or fails. -/
theorem step_trailTo (hlimits : d.limits = none) (l : Location) (name : String) :
    d.step (d.trailTo l) name =
      match d.lookup l with
      | none => .error .notFound
      | some (.file _) => .error .notADirectory
      | some .directory => .ok (d.trailTo (stepFrom l name)) := by
  rw [step, here_trailTo, lookup]
  cases hl : d.root.at? l with
  | none => rfl
  | some n =>
    cases n with
    | file text => rfl
    | directory nodes =>
      simp only [Option.map_some, Node.entry, stepFrom, hlimits, Option.any_none,
        Bool.false_eq_true, if_false]
      split
      · rfl
      split
      · rw [tail_trailTo]
      · rw [trailTo_append, here_trailTo, hl]
        rfl

/-- The steps lead from one location to another, each of them from a directory. -/
inductive Walks (see : Location → Option Entry) : Location → List String → Location → Prop
  | nil (l : Location) : Walks see l [] l
  | cons {l l' : Location} {name : String} {names : List String} (hdir : see l = some .directory)
      (hon : Walks see (stepFrom l name) names l') : Walks see l (name :: names) l'

theorem walks_nil {see : Location → Option Entry} : Walks see l [] l' ↔ l = l' :=
  ⟨fun | .nil _ => rfl, fun h ↦ h ▸ .nil l⟩

theorem walks_cons {see : Location → Option Entry} :
    Walks see l (name :: names) l' ↔
      see l = some .directory ∧ Walks see (stepFrom l name) names l' :=
  ⟨fun | .cons hdir hon => ⟨hdir, hon⟩, fun ⟨hdir, hon⟩ ↦ .cons hdir hon⟩

/-- **Ways stay open** as long as directories do. -/
theorem Walks.mono {see see' : Location → Option Entry}
    (hsee : ∀ l, see l = some .directory → see' l = some .directory) (h : Walks see l names l') :
    Walks see' l names l' := by
  induction h with
  | nil l => exact .nil l
  | cons hdir _ ih => exact .cons (hsee _ hdir) ih

/-- **Following steps is walking.** -/
theorem foldlM_step_eq_ok (hlimits : d.limits = none) :
    names.foldlM d.step (d.trailTo l) = .ok t ↔
      ∃ l', Walks d.lookup l names l' ∧ t = d.trailTo l' := by
  induction names generalizing l with
  | nil =>
    rw [List.foldlM_nil, Outcome.pure_eq_ok]
    exact ⟨fun h ↦ ⟨l, .nil l, h.symm⟩, fun ⟨_, hl, ht⟩ ↦ walks_nil.1 hl ▸ ht.symm⟩
  | cons name names ih =>
    rw [List.foldlM_cons, step_trailTo hlimits]
    simp only [walks_cons]
    cases hl : d.lookup l with
    | none => simp [bind, Except.bind]
    | some e =>
      cases e with
      | file text => simp [bind, Except.bind]
      | directory => simpa [bind, Except.bind] using ih

/-- Names that are no steps but into an entry of a directory. -/
def Plain (names : List String) : Prop := ∀ name ∈ names, name ≠ "." ∧ name ≠ ".."

/-- No file is in the way of these names. -/
def Clear (d : Disk) (l : Location) (names : List String) : Prop :=
  ∀ k, k <+: names → ∀ text, d.lookup (l ++ k) ≠ some (.file text)

/-- Steps below a directory that is not there lead nowhere. -/
theorem foldlM_step_notFound (hlimits : d.limits = none) (hplain : Plain names)
    (hclear : d.Clear l names) (hnone : d.lookup (l ++ names) = none) (name : String) :
    (names ++ [name]).foldlM d.step (d.trailTo l) = .error .notFound := by
  have hfile := hclear [] (List.nil_prefix ..)
  rw [List.append_nil] at hfile
  induction names generalizing l with
  | nil =>
    rw [List.append_nil] at hnone
    rw [List.nil_append, List.foldlM_cons, step_trailTo hlimits, hnone]
    rfl
  | cons a names ih =>
    rw [List.cons_append, List.foldlM_cons, step_trailTo hlimits]
    cases hl : d.lookup l with
    | none => rfl
    | some e =>
      cases e with
      | file text => exact absurd hl (hfile text)
      | directory =>
        obtain ⟨hdot, hdots⟩ := hplain a List.mem_cons_self
        have hstep : stepFrom l a = l ++ [a] := by rw [stepFrom, if_neg hdot, if_neg hdots]
        show (names ++ [name]).foldlM d.step (d.trailTo (stepFrom l a)) = _
        rw [hstep]
        refine ih (fun b hb ↦ hplain b (List.mem_cons_of_mem a hb)) (fun k hk text ↦ ?_) ?_ ?_
        · rw [List.append_assoc]
          exact hclear (a :: k) ((List.prefix_cons_inj a).2 hk) text
        · rw [List.append_assoc]
          exact hnone
        · exact hclear [a] (List.prefix_append [a] names)

end Disk

end ClassWeave
