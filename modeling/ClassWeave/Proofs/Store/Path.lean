import ClassWeave.Store.Path
import Mathlib.Data.List.Basic
import Mathlib.Data.List.TakeWhile

/-!
# The steps of paths

What counts about a path is whether it is absolute and which steps it has. Joining appends the steps
(`steps_join`), and the last step of a path that does not end in a slash is its file name
(`steps_of_fileName`). The parent of such a path has the steps before that one, but for steps at
their end that stay in place (`EndsInName.exists_steps_parent`). Of any path at all, the parent has
the first steps (`steps_parent_prefix`).
-/

namespace ClassWeave.Path

/-! ### Pieces -/

theorem splitOn_eq_splitOnP (p : Char → Bool) (cs : List Char) : splitOn p cs = cs.splitOnP p := by
  induction cs with
  | nil => rfl
  | cons c cs ih =>
    rw [splitOn, List.splitOnP_cons_eq_if_modifyHead, ih]
    split
    · rfl
    · cases h : cs.splitOnP p with
      | nil => exact absurd h (List.splitOnP_ne_nil p cs)
      | cons piece more => rfl

/-- The pieces between slashes that are not empty. -/
def pieces (cs : List Char) : List (List Char) := (cs.splitOn '/').filter (!·.isEmpty)

theorem isEmpty_ofList (cs : List Char) : (String.ofList cs).isEmpty = cs.isEmpty := by
  rw [Bool.eq_iff_iff, String.isEmpty_iff, List.isEmpty_iff, ← String.toList_inj,
    String.toList_ofList]
  exact Iff.rfl

theorem steps_eq (p : String) : steps p = (pieces p.toList).map .ofList := by
  have hsplit : splitOn (· = '/') p.toList = p.toList.splitOn '/' := splitOn_eq_splitOnP _ _
  rw [steps, hsplit, pieces, List.filter_map]
  exact congrArg (List.map _) (List.filter_congr fun cs _ ↦ congrArg _ (isEmpty_ofList cs))

theorem pieces_nil : pieces [] = [] := rfl

theorem pieces_append (cs cs' : List Char) :
    pieces (cs ++ '/' :: cs') = pieces cs ++ pieces cs' := by
  rw [pieces, List.splitOn_append_cons_self, List.filter_append, pieces, pieces]

theorem pieces_concat (cs : List Char) : pieces (cs ++ ['/']) = pieces cs := by
  rw [pieces_append]
  exact List.append_nil _

theorem pieces_of_not_mem {cs : List Char} (h : '/' ∉ cs) (hcs : cs ≠ []) : pieces cs = [cs] := by
  rw [pieces, List.splitOn_eq_singleton h]
  exact List.filter_cons_of_pos (by simpa [List.isEmpty_iff] using hcs)

/-- A piece has characters of the list that are no slashes. -/
theorem of_mem_splitOn {cs piece : List Char} (h : piece ∈ cs.splitOn '/') {c : Char}
    (hc : c ∈ piece) : c ∈ cs ∧ c ≠ '/' := by
  induction cs generalizing piece with
  | nil =>
    rw [List.splitOn_nil, List.mem_singleton] at h
    rw [h] at hc
    cases hc
  | cons a cs ih =>
    rw [List.splitOn_cons_eq_if_modifyHead] at h
    by_cases ha : a = '/'
    · rw [if_pos (by simpa using ha), List.mem_cons] at h
      rcases h with rfl | h
      · cases hc
      · exact ⟨List.mem_cons_of_mem a (ih h hc).1, (ih h hc).2⟩
    · rw [if_neg (by simpa using ha)] at h
      cases hpieces : cs.splitOn '/' with
      | nil => exact absurd hpieces (List.splitOn_ne_nil '/' cs)
      | cons first more =>
        rw [hpieces, List.modifyHead_cons, List.mem_cons] at h
        rw [hpieces] at ih
        rcases h with rfl | h
        · rcases List.mem_cons.1 hc with rfl | hc
          · exact ⟨List.mem_cons_self, ha⟩
          · have hfirst := ih List.mem_cons_self hc
            exact ⟨List.mem_cons_of_mem a hfirst.1, hfirst.2⟩
        · have hmore := ih (List.mem_cons_of_mem first h) hc
          exact ⟨List.mem_cons_of_mem a hmore.1, hmore.2⟩

/-! ### Steps -/

variable {p rel name : String} {names : List String}

theorem steps_empty : steps "" = [] := steps_eq ""

theorem steps_of_not_mem (h : '/' ∉ name.toList) (hname : name ≠ "") : steps name = [name] := by
  have hne : name.toList ≠ [] := fun hnil ↦ hname (String.toList_inj.1 hnil)
  rw [steps_eq, pieces_of_not_mem h hne, List.map_singleton, String.ofList_toList]

theorem steps_intercalate (h : ∀ name ∈ names, name ≠ "" ∧ '/' ∉ name.toList) :
    steps ("/".intercalate names) = names := by
  by_cases hnames : names = []
  · rw [hnames]
    rfl
  have hslash : ∀ cs ∈ names.map String.toList, '/' ∉ cs := by
    intro cs hcs
    obtain ⟨name, hname, rfl⟩ := List.mem_map.1 hcs
    exact (h name hname).2
  have hsplit : (['/'].intercalate (names.map String.toList)).splitOn '/' =
      names.map String.toList := List.splitOn_intercalate '/' hslash (by simpa using hnames)
  have htext : ("/".intercalate names).toList = ['/'].intercalate (names.map String.toList) :=
    String.toList_intercalate
  have hfilled : (names.map String.toList).filter (!·.isEmpty) = names.map String.toList := by
    refine List.filter_eq_self.2 fun cs hcs ↦ ?_
    obtain ⟨name, hname, rfl⟩ := List.mem_map.1 hcs
    rw [Bool.not_eq_true', ← isEmpty_ofList, String.ofList_toList]
    exact Bool.eq_false_iff.2 fun hempty ↦ (h name hname).1 (String.isEmpty_iff.1 hempty)
  rw [steps_eq, htext, pieces, hsplit, hfilled, List.map_map]
  exact (List.map_congr_left fun name _ ↦ String.ofList_toList).trans (List.map_id names)

/-- A path that is not absolute has a step, unless it is empty. -/
theorem steps_ne_nil (hp : p ≠ "") (habsolute : isAbsolute p = false) : steps p ≠ [] := by
  cases hcs : p.toList with
  | nil => exact absurd (String.toList_inj.1 hcs) hp
  | cons c cs =>
    have hc : c ≠ '/' := by
      rintro rfl
      rw [isAbsolute, hcs] at habsolute
      cases habsolute
    rw [steps_eq, hcs, pieces, List.splitOn_cons_eq_if_modifyHead, if_neg (by simpa using hc)]
    cases hpieces : cs.splitOn '/' with
    | nil => exact absurd hpieces (List.splitOn_ne_nil '/' cs)
    | cons piece more => exact List.cons_ne_nil _ _

theorem toList_ne_nil {s : String} (h : s ≠ "") : s.toList ≠ [] := fun hnil ↦
  h (String.toList_inj.1 hnil)

/-- What joining does to the characters of a path and of one that is not absolute. -/
theorem toList_join (base : String) (hrel : isAbsolute rel = false) :
    (base = "" ∧ (join base rel).toList = rel.toList) ∨
      (∃ cs, base.toList = cs ++ ['/'] ∧ (join base rel).toList = cs ++ '/' :: rel.toList) ∨
      (base ≠ "" ∧ (join base rel).toList = base.toList ++ '/' :: rel.toList) := by
  rw [join, if_neg (by simp [hrel])]
  by_cases hbase : base = ""
  · subst hbase
    exact .inl ⟨rfl, by simp⟩
  · have hempty : base.isEmpty = false :=
      Bool.eq_false_iff.2 fun h ↦ hbase (String.isEmpty_iff.1 h)
    rw [hempty, Bool.false_or]
    cases hslash : endsInSlash base with
    | true =>
      have hlast : base.toList.getLast? = some '/' := of_decide_eq_true hslash
      obtain ⟨cs, hcs⟩ := List.getLast?_eq_some_iff.1 hlast
      refine .inr (.inl ⟨cs, hcs, ?_⟩)
      rw [if_pos rfl, String.toList_append, hcs, List.append_assoc, List.singleton_append]
    | false =>
      refine .inr (.inr ⟨hbase, ?_⟩)
      rw [if_neg Bool.false_ne_true, String.toList_append, String.toList_append, List.append_assoc]
      rfl

/-- **Joining appends the steps.** -/
theorem steps_join (base : String) (hrel : isAbsolute rel = false) :
    steps (join base rel) = steps base ++ steps rel := by
  rw [steps_eq, steps_eq, steps_eq, ← List.map_append]
  refine congrArg (List.map _) ?_
  rcases toList_join base hrel with ⟨rfl, hjoin⟩ | ⟨cs, hbase, hjoin⟩ | ⟨-, hjoin⟩
  · rw [hjoin]
    rfl
  · rw [hjoin, hbase, pieces_append, pieces_concat]
  · rw [hjoin, pieces_append]

theorem isAbsolute_join (base : String) (hrel : isAbsolute rel = false) :
    isAbsolute (join base rel) = isAbsolute base := by
  rcases toList_join base hrel with ⟨rfl, hjoin⟩ | ⟨cs, hbase, hjoin⟩ | ⟨hbase, hjoin⟩
  · rw [isAbsolute, hjoin]
    exact hrel
  · rw [isAbsolute, hjoin, isAbsolute, hbase]
    cases cs <;> rfl
  · rw [isAbsolute, hjoin, isAbsolute, List.head?_append_of_ne_nil _ (toList_ne_nil hbase)]

theorem endsInSlash_join (base : String) (hrel : isAbsolute rel = false) (hne : rel ≠ "") :
    endsInSlash (join base rel) = endsInSlash rel := by
  have hlast : ∀ cs, (cs ++ rel.toList).getLast? = rel.toList.getLast? := fun cs ↦
    List.getLast?_append_of_ne_nil cs (toList_ne_nil hne)
  rcases toList_join base hrel with ⟨-, hjoin⟩ | ⟨cs, -, hjoin⟩ | ⟨-, hjoin⟩
  · rw [endsInSlash, hjoin, endsInSlash]
  · rw [endsInSlash, hjoin, endsInSlash, List.append_cons, hlast]
  · rw [endsInSlash, hjoin, endsInSlash, List.append_cons, hlast]

theorem mem_join {c : Char} (hc : c ≠ '/') (base : String) (hrel : isAbsolute rel = false) :
    c ∈ (join base rel).toList ↔ c ∈ base.toList ∨ c ∈ rel.toList := by
  rcases toList_join base hrel with ⟨rfl, hjoin⟩ | ⟨cs, hbase, hjoin⟩ | ⟨-, hjoin⟩
  · simp [hjoin]
  · simp [hjoin, hbase, hc]
  · simp [hjoin, hc]

/-! ### Parents -/

/-- What is removed from the end of a path are steps that stay in place. -/
theorem exists_pieces_trimEnd (cs : List Char) :
    ∃ k, pieces cs.reverse = pieces (trimEnd cs).reverse ++ List.replicate k ['.'] := by
  fun_induction trimEnd cs with
  | case1 => exact ⟨0, (List.append_nil _).symm⟩
  | case2 cs h ih =>
    obtain ⟨k, hk⟩ := ih
    exact ⟨k, by rw [List.reverse_cons, pieces_concat, hk]⟩
  | case3 cs ih =>
    obtain ⟨k, hk⟩ := ih
    refine ⟨k + 1, ?_⟩
    rw [List.reverse_cons, pieces_concat] at hk
    rw [List.reverse_cons, List.reverse_cons, List.append_assoc, List.singleton_append,
      pieces_append, hk, List.replicate_succ', List.append_assoc]
    rfl
  | case4 cs => exact ⟨0, (List.append_nil _).symm⟩

theorem trimEnd_suffix (cs : List Char) : trimEnd cs <:+ cs := by
  fun_induction trimEnd cs with
  | case1 => exact List.suffix_refl _
  | case2 cs h ih => exact ih.trans (List.suffix_cons '/' cs)
  | case3 cs ih => exact ih.trans (List.suffix_cons '.' _)
  | case4 cs => exact List.suffix_refl _

theorem trimEnd_ne_nil {cs : List Char} (h : cs ≠ []) : trimEnd cs ≠ [] := by
  fun_induction trimEnd cs with
  | case1 => exact h
  | case2 cs hcs ih => exact ih fun hnil ↦ hcs hnil
  | case3 cs ih => exact ih (List.cons_ne_nil _ _)
  | case4 cs => exact h

/-- Only the root keeps its slash. -/
theorem trimEnd_eq_or (cs : List Char) : trimEnd cs = ['/'] ∨ (trimEnd cs).head? ≠ some '/' := by
  fun_induction trimEnd cs with
  | case1 => exact .inl rfl
  | case2 cs h ih => exact ih
  | case3 cs ih => exact ih
  | case4 cs _ hslash _ =>
    refine .inr fun hhead ↦ ?_
    obtain ⟨rest, hrest⟩ := List.head?_eq_some_iff.1 hhead
    exact hslash rest hrest

/-- Nothing is removed from the end of a path that ends in a name. -/
theorem trimEnd_eq_self {cs : List Char} (hslash : cs.head? ≠ some '/')
    (hname : cs.takeWhile (· ≠ '/') ≠ ['.']) : trimEnd cs = cs := by
  fun_cases trimEnd cs with
  | case1 => rfl
  | case2 cs h => exact absurd rfl hslash
  | case3 cs => exact absurd rfl hname
  | case4 => rfl

theorem getLast?_trimEnd (cs : List Char) : (trimEnd cs).getLast? = cs.getLast? := by
  by_cases hcs : cs = []
  · rw [hcs]
    rfl
  · obtain ⟨front, hfront⟩ := trimEnd_suffix cs
    conv_rhs => rw [← hfront]
    exact (List.getLast?_append_of_ne_nil front (trimEnd_ne_nil hcs)).symm

theorem dropWhile_slash_cases (cs : List Char) :
    cs.dropWhile (· ≠ '/') = [] ∨ ∃ rest, cs.dropWhile (· ≠ '/') = '/' :: rest := by
  cases hdrop : cs.dropWhile (· ≠ '/') with
  | nil => exact .inl rfl
  | cons c rest =>
    have hc := List.head?_dropWhile_not (fun c : Char ↦ decide (c ≠ '/')) cs
    rw [hdrop] at hc
    obtain rfl : c = '/' := by simpa using hc
    exact .inr ⟨rest, rfl⟩

/-- The pieces before the last slash, which is the first one of the reversed list. -/
theorem pieces_dropWhile_prefix (cs : List Char) :
    pieces (cs.dropWhile (· ≠ '/')).reverse <+: pieces cs.reverse := by
  have hcut := List.takeWhile_append_dropWhile (p := fun c : Char ↦ decide (c ≠ '/')) (l := cs)
  rcases dropWhile_slash_cases cs with hdrop | ⟨rest, hdrop⟩
  · rw [hdrop]
    exact List.nil_prefix
  · rw [hdrop, List.reverse_cons, pieces_concat]
    rw [hdrop] at hcut
    rw [← hcut, List.reverse_append, List.reverse_cons, List.append_assoc, List.singleton_append,
      pieces_append]
    exact List.prefix_append _ _

/-- **The steps of a parent** are the first of those of its path. -/
theorem steps_parent_prefix (p : String) : steps (parent p) <+: steps p := by
  rw [steps_eq, steps_eq, parent, String.toList_ofList]
  refine List.IsPrefix.map _ ?_
  obtain ⟨k, hk⟩ := exists_pieces_trimEnd p.toList.reverse
  obtain ⟨k', hk'⟩ := exists_pieces_trimEnd ((trimEnd p.toList.reverse).dropWhile (· ≠ '/'))
  rw [List.reverse_reverse] at hk
  have hfront := pieces_dropWhile_prefix (trimEnd p.toList.reverse)
  rw [hk'] at hfront
  rw [hk]
  exact ((List.prefix_append _ _).trans hfront).trans (List.prefix_append _ _)

theorem isAbsolute_parent (p : String) : isAbsolute (parent p) = isAbsolute p := by
  have hlast : ∀ cs : List Char,
      (cs.dropWhile (· ≠ '/')).getLast? = some '/' ↔ cs.getLast? = some '/' := by
    intro cs
    have hcut := List.takeWhile_append_dropWhile (p := fun c : Char ↦ decide (c ≠ '/')) (l := cs)
    rcases dropWhile_slash_cases cs with hdrop | ⟨rest, hdrop⟩
    · rw [hdrop]
      refine iff_of_false nofun fun h ↦ ?_
      have hslash := List.dropWhile_eq_nil_iff.1 hdrop '/' (List.mem_of_getLast? h)
      simp at hslash
    · rw [hdrop] at hcut ⊢
      rw [← hcut, List.getLast?_append_of_ne_nil _ (List.cons_ne_nil '/' rest)]
  rw [isAbsolute, isAbsolute, parent, String.toList_ofList, List.head?_reverse, getLast?_trimEnd,
    decide_eq_decide, hlast, getLast?_trimEnd, List.getLast?_reverse]

/-- The characters up to the last slash, the last one first. -/
def base (p : String) : List Char := p.toList.reverse.dropWhile (· ≠ '/')

theorem toList_eq (p : String) : p.toList = (base p).reverse ++ (fileName p).toList := by
  rw [fileName, String.toList_ofList, base, ← List.reverse_append, List.takeWhile_append_dropWhile,
    List.reverse_reverse]

theorem base_eq (p : String) : base p = [] ∨ ∃ cs, base p = '/' :: cs :=
  dropWhile_slash_cases p.toList.reverse

theorem not_mem_fileName (p : String) : '/' ∉ (fileName p).toList := by
  rw [fileName, String.toList_ofList, List.mem_reverse]
  intro hmem
  have htake := List.all_eq_true.1 List.all_takeWhile '/' hmem
  simp at htake

/-- **The last step of a path that does not end in a slash** is its file name. -/
theorem steps_of_fileName (hp : p ≠ "") (hslash : endsInSlash p = false) :
    steps p = (pieces (base p).reverse).map .ofList ++ [fileName p] := by
  have hname : fileName p ≠ "" := by
    intro hempty
    have hchars := toList_eq p
    rw [hempty] at hchars
    rcases base_eq p with hbase | ⟨cs, hbase⟩
    · rw [hbase, List.reverse_nil, List.nil_append] at hchars
      exact hp (String.toList_inj.1 hchars)
    · have hlast := of_decide_eq_false hslash
      rw [hchars, hbase] at hlast
      simp at hlast
  have hpiece := pieces_of_not_mem (not_mem_fileName p) (toList_ne_nil hname)
  have hpieces : pieces p.toList = pieces (base p).reverse ++ [(fileName p).toList] := by
    conv_lhs => rw [toList_eq p]
    rcases base_eq p with hbase | ⟨cs, hbase⟩
    · rw [hbase, List.reverse_nil, List.nil_append, hpiece, pieces_nil, List.nil_append]
    · rw [hbase, List.reverse_cons, List.append_assoc, List.singleton_append, pieces_append,
        pieces_concat, hpiece]
  rw [steps_eq, hpieces, List.map_append, List.map_singleton, String.ofList_toList]

/-- A path that ends in a name, as opposed to a slash or a step that stays in place. -/
structure EndsInName (p : String) : Prop where
  ne_empty : p ≠ ""
  no_slash : endsInSlash p = false
  name : fileName p ≠ "."

theorem EndsInName.parent_eq (h : EndsInName p) :
    parent p = .ofList (trimEnd (base p)).reverse := by
  have hhead : p.toList.reverse.head? ≠ some '/' := by
    rw [List.head?_reverse]
    exact of_decide_eq_false h.no_slash
  have hname : p.toList.reverse.takeWhile (· ≠ '/') ≠ ['.'] := fun hdot ↦ h.name (by
    rw [fileName, hdot]
    rfl)
  rw [parent, trimEnd_eq_self hhead hname, base]

/-- **The parent of a path that ends in a name** has the steps before the name, but for steps at
their end that stay in place. -/
theorem EndsInName.exists_steps_parent (h : EndsInName p) :
    ∃ k, steps p = steps (parent p) ++ List.replicate k "." ++ [fileName p] ∧
      (parent p = "" → k = 0) := by
  obtain ⟨k, hk⟩ := exists_pieces_trimEnd (base p)
  have hparent : steps (parent p) = (pieces (trimEnd (base p)).reverse).map .ofList := by
    rw [h.parent_eq, steps_eq, String.toList_ofList]
  refine ⟨k, ?_, fun hempty ↦ ?_⟩
  · rw [steps_of_fileName h.ne_empty h.no_slash, hk, hparent, List.map_append, List.map_replicate]
  · rcases base_eq p with hbase | ⟨cs, hbase⟩
    · rw [hbase] at hk
      cases k with
      | zero => rfl
      | succ k => simp [pieces, trimEnd, List.replicate_succ] at hk
    · rw [h.parent_eq] at hempty
      have hnil : (trimEnd (base p)).reverse = [] := by
        rw [← String.toList_ofList (l := (trimEnd (base p)).reverse), hempty]
        rfl
      exact absurd (List.reverse_eq_nil_iff.1 hnil)
        (trimEnd_ne_nil (hbase ▸ List.cons_ne_nil '/' cs))

/-- A parent ends in a name, too, or is the root. -/
theorem EndsInName.endsInSlash_parent (h : EndsInName p) :
    endsInSlash (parent p) = false ∨ steps (parent p) = [] := by
  rw [h.parent_eq, endsInSlash, String.toList_ofList, List.getLast?_reverse]
  rcases trimEnd_eq_or (base p) with hroot | hhead
  · exact .inr (by rw [steps_eq, String.toList_ofList, hroot]; rfl)
  · exact .inl (decide_eq_false hhead)

theorem EndsInName.mem_parent (h : EndsInName p) {c : Char} (hc : c ∈ (parent p).toList) :
    c ∈ p.toList := by
  rw [h.parent_eq, String.toList_ofList, List.mem_reverse] at hc
  rw [toList_eq p]
  exact List.mem_append_left _ (List.mem_reverse.2 ((trimEnd_suffix _).mem hc))

/-! ### Extensions -/

/-- The steps before the last slash. -/
def above (p : String) : List String := (pieces (base p).reverse).map .ofList

variable {ext : String}

theorem base_append (p : String) (hslash : '/' ∉ ext.toList) : base (p ++ ext) = base p := by
  rw [base, base, String.toList_append, List.reverse_append, List.dropWhile_append_of_pos]
  intro c hc
  exact decide_eq_true (ne_of_mem_of_not_mem (List.mem_reverse.1 hc) hslash)

theorem fileName_append (p : String) (hslash : '/' ∉ ext.toList) :
    fileName (p ++ ext) = fileName p ++ ext := by
  rw [← String.toList_inj, fileName, fileName, String.toList_append, String.toList_append,
    String.toList_ofList, String.toList_ofList, List.reverse_append, List.takeWhile_append_of_pos,
    List.reverse_append, List.reverse_reverse]
  intro c hc
  exact decide_eq_true (ne_of_mem_of_not_mem (List.mem_reverse.1 hc) hslash)

theorem isAbsolute_append (p : String) (hslash : '/' ∉ ext.toList) :
    isAbsolute (p ++ ext) = isAbsolute p := by
  rw [isAbsolute, isAbsolute, String.toList_append]
  cases p.toList with
  | nil => exact decide_eq_false fun h ↦ hslash (List.mem_of_head? h)
  | cons c cs => rfl

theorem append_ne_empty (p : String) (hne : ext ≠ "") : p ++ ext ≠ "" := by
  simp [hne]

theorem endsInSlash_append (p : String) (hslash : '/' ∉ ext.toList) (hne : ext ≠ "") :
    endsInSlash (p ++ ext) = false := by
  rw [endsInSlash, String.toList_append, List.getLast?_append_of_ne_nil _ (toList_ne_nil hne)]
  exact decide_eq_false fun h ↦ hslash (List.mem_of_getLast? h)

/-- **An extension is a part of the last step.** -/
theorem steps_append (p : String) (hslash : '/' ∉ ext.toList) (hne : ext ≠ "") :
    steps (p ++ ext) = above p ++ [fileName p ++ ext] := by
  rw [steps_of_fileName (append_ne_empty p hne) (endsInSlash_append p hslash hne),
    base_append p hslash, fileName_append p hslash, above]

end ClassWeave.Path
