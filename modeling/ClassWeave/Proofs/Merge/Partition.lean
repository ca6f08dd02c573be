import ClassWeave.Proofs.Merge.Order
import ClassWeave.Proofs.Ordered.Map
import ClassWeave.Proofs.Parameters

/-!
# What grouping makes of the declarations

`Declarations.GroupedInto` says it in full, without any history: the groups share the declarations
out among themselves, the `n`-th declaration of a key in a version going to the `n`-th group of the
key; the groups stand in the order in which their first declarations are read; and each has the name
that its declarations call for (`Declarations.IsNameOf`). Methods with other parameters never call
for another name, methods that return something else do (`MemberGroup.clashing_iff_of_splitMethod`).

To tell the order, a declaration is numbered among those of its key in its version. Key and number
are those of its group, so the order of the groups is that of the pairs when they are read for the
first time (`numbered_keys_groups`). A version adds the keys that it declares more often than the
versions before it; in terms of the pairs this is to append those that are new
(`numbered_append_diff`).
-/

namespace ClassWeave

/-! ### Numbering -/

section Numbered

variable {κ : Type} [DecidableEq κ]

/-- Each of the keys with the number of equal ones before it, those in `before` included. -/
def numberedAfter (before : List κ) : List κ → List (κ × Nat)
  | [] => []
  | k :: ks => (k, before.count k) :: numberedAfter (before ++ [k]) ks

/-- Each key with the number of equal ones before it. -/
def numbered (ks : List κ) : List (κ × Nat) := numberedAfter [] ks

theorem numberedAfter_concat (before ks : List κ) (k : κ) :
    numberedAfter before (ks ++ [k]) =
      numberedAfter before ks ++ [(k, (before ++ ks).count k)] := by
  induction ks generalizing before with
  | nil => rw [List.append_nil]; rfl
  | cons a ks ih =>
    rw [List.cons_append, numberedAfter, ih, numberedAfter, List.append_assoc]
    rfl

theorem numbered_concat (ks : List κ) (k : κ) :
    numbered (ks ++ [k]) = numbered ks ++ [(k, ks.count k)] := numberedAfter_concat [] ks k

/-- The numbers of a key go up to how often it stands in the list. -/
theorem mem_numbered {ks : List κ} {k : κ} {n : Nat} : (k, n) ∈ numbered ks ↔ n < ks.count k := by
  induction ks using List.reverseRecOn with
  | nil => exact iff_of_false List.not_mem_nil (Nat.not_lt_zero n)
  | append_singleton ks a ih =>
    rw [numbered_concat, List.mem_append, ih, List.mem_singleton, Prod.mk.injEq,
      List.count_append, List.count_singleton]
    by_cases hk : k = a
    · subst hk
      simp only [true_and, beq_self_eq_true, if_true]
      omega
    · simp only [hk, false_and, or_false, beq_iff_eq, Ne.symm hk, if_false, Nat.add_zero]

/-- What a list has beyond another one grows by a key that it has often enough. -/
theorem concat_diff (ks old : List κ) (k : κ) :
    (ks ++ [k]).diff old =
      if ks.count k < old.count k then ks.diff old else ks.diff old ++ [k] := by
  induction ks generalizing old with
  | nil =>
    by_cases hk : k ∈ old
    · rw [List.count_nil, if_pos (List.count_pos_iff.2 hk), List.nil_append,
        List.cons_diff_of_mem hk, List.nil_diff, List.nil_diff]
    · rw [List.count_nil, if_neg (fun h ↦ hk (List.count_pos_iff.1 h)), List.nil_append,
        List.cons_diff_of_not_mem hk, List.nil_diff, List.nil_append]
  | cons a ks ih =>
    rw [List.cons_append]
    by_cases ha : a ∈ old
    · have hcount : ks.count k < (old.erase a).count k ↔ (a :: ks).count k < old.count k := by
        have hpos := List.count_pos_iff.2 ha
        rw [List.count_erase, List.count_cons]
        by_cases hk : a = k
        · subst hk
          simp only [beq_self_eq_true, if_true]
          omega
        · simp [hk]
      rw [List.cons_diff_of_mem ha, List.cons_diff_of_mem ha, ih]
      simp only [hcount]
    · have hcount : ks.count k < old.count k ↔ (a :: ks).count k < old.count k := by
        rw [List.count_cons]
        by_cases hk : a = k
        · subst hk
          rw [List.count_eq_zero_of_not_mem ha]
          simp
        · simp [hk]
      rw [List.cons_diff_of_not_mem ha, List.cons_diff_of_not_mem ha, ih]
      simp only [hcount]
      split <;> rfl

theorem eraseDups_concat {α : Type} [BEq α] [LawfulBEq α] (l : List α) (a : α) :
    (l ++ [a]).eraseDups = if a ∈ l then l.eraseDups else l.eraseDups ++ [a] := by
  rw [List.eraseDups_append, List.removeAll]
  by_cases ha : a ∈ l
  · simp [ha]
  · simp [ha, List.eraseDups_cons]

/-- **Keys beyond the old ones are the pairs that are read for the first time.** -/
theorem numbered_append_diff {old : List κ} {seen : List (κ × Nat)}
    (hold : numbered old = seen.eraseDups) (ks : List κ) :
    numbered (old ++ ks.diff old) = (seen ++ numbered ks).eraseDups := by
  induction ks using List.reverseRecOn with
  | nil => rw [List.nil_diff, List.append_nil, hold]; exact congrArg _ (List.append_nil seen).symm
  | append_singleton ks k ih =>
    -- the pair of the last key was read before exactly if the key is old often enough
    have hseen : (k, ks.count k) ∈ seen ++ numbered ks ↔ ks.count k < old.count k := by
      rw [List.mem_append, mem_numbered, ← List.mem_eraseDups, ← hold, mem_numbered]
      omega
    rw [numbered_concat, ← List.append_assoc, eraseDups_concat, ← ih, concat_diff]
    simp only [hseen]
    split
    · rfl
    · rename_i hcount
      have hall : (old ++ ks.diff old).count k = ks.count k := by
        rw [List.count_append, List.count_diff]
        omega
      rw [← List.append_assoc, numbered_concat, hall]

end Numbered

/-! ### Sharing out -/

namespace MemberGroup

theorem decls_place (v : Version) (m : Member) (gs : List MemberGroup) :
    ((place v m gs).flatMap (·.decls)).Perm (gs.flatMap (·.decls) ++ [(v, m)]) := by
  induction gs with
  | nil => exact .refl _
  | cons g gs ih =>
    rw [place, List.flatMap_cons]
    split
    · rw [List.flatMap_cons, List.append_assoc, List.append_assoc]
      exact (List.perm_append_comm).append_left g.decls
    · rw [List.flatMap_cons, List.append_assoc]
      exact ih.append_left g.decls

theorem decls_foldl_place (v : Version) (ms : List Member) (gs : List MemberGroup) :
    ((ms.foldl (fun gs m ↦ place v m gs) gs).flatMap (·.decls)).Perm
      (gs.flatMap (·.decls) ++ ms.map (v, ·)) := by
  induction ms generalizing gs with
  | nil => rw [List.map_nil, List.append_nil]; exact .refl _
  | cons m ms ih =>
    rw [List.foldl_cons, List.map_cons]
    refine (ih (place v m gs)).trans ?_
    have hplace := (decls_place v m gs).append_right (ms.map (v, ·))
    rwa [List.append_assoc] at hplace

end MemberGroup

namespace Declarations

variable {d : Declarations} {g : MemberGroup}

/-- All declarations with their versions, as they are read. -/
def all (d : Declarations) : List (Version × Member) :=
  d.flatMap fun input ↦ input.2.map (input.1, ·)

/-- **No declaration is lost, and none is taken twice.** -/
theorem decls_groups (d : Declarations) : (d.groups.flatMap (·.decls)).Perm d.all := by
  induction d using List.reverseRecOn with
  | nil => exact .refl _
  | append_singleton d input ih =>
    rw [groups, List.foldl_append, List.foldl_cons, List.foldl_nil, ← groups, all,
      List.flatMap_append, List.flatMap_singleton]
    exact (MemberGroup.decls_foldl_place input.1 input.2 (groups d)).trans (ih.append_right _)

/-- **A version's declarations of a key go to the groups of the key in turn.** -/
theorem getElem?_filter_groupKey (hd : d.versions.Nodup) {v : Version} {ms : List Member}
    (hv : (v, ms) ∈ d) (k : GroupKey) (n : Nat) (m : Member) :
    (ms.filter (·.groupKey = k))[n]? = some m ↔
      ∃ g, (d.groups.filter (·.key = k))[n]? = some g ∧ (v, m) ∈ g.decls := by
  have hslot : (ms.filter (·.groupKey = k))[n]? = some m ↔ (v, m) ∈ d.slot k n := by
    rw [mem_slot]
    constructor
    · exact fun hget ↦ ⟨ms, hv, hget⟩
    · rintro ⟨ms', hv', hget⟩
      rwa [OrderedMap.functional_of_nodup hd hv hv']
  simp only [groups_filter_key hd, MemberGroup.ofSlot?_eq_some, hslot]
  constructor
  · intro hmem
    exact ⟨_, ⟨List.ne_nil_of_mem hmem, rfl⟩, hmem⟩
  · rintro ⟨-, ⟨-, rfl⟩, hmem⟩
    exact hmem

/-- The declarations of a group stand in the order of the versions. -/
theorem versions_sublist (hd : d.versions.Nodup) (hg : g ∈ d.groups) :
    g.versions.Sublist d.versions := by
  obtain ⟨n, -, hn⟩ := (mem_groups hd).1 hg
  rw [hn]
  refine OrderedMap.keys_filterMap_sublist (fun e x hx ↦ ?_) d
  obtain ⟨-, -, rfl⟩ := Option.map_eq_some_iff.1 hx
  rfl

/-- Key and number of each declaration among those of its version, when they are first read. -/
def firstSeen (d : Declarations) : List (GroupKey × Nat) :=
  (d.flatMap fun input ↦ numbered (input.2.map (·.groupKey))).eraseDups

/-- **The groups stand in the order in which their first declarations are read.** -/
theorem numbered_keys_groups (hd : d.versions.Nodup) :
    numbered (d.groups.map (·.key)) = d.firstSeen := by
  induction d using List.reverseRecOn with
  | nil => rfl
  | append_singleton d input ih =>
    have hbefore : (versions d).Nodup := hd.sublist ((List.sublist_append_left _ _).map _)
    rw [keys_groups_concat hd, numbered_append_diff (ih hbefore), firstSeen, List.flatMap_append,
      List.flatMap_singleton]

/-! ### Names -/

/-- Some version declares the key more than once. -/
def DeclaresTwice (d : Declarations) (k : GroupKey) : Prop :=
  ∃ e ∈ d, 1 < (e.2.filter (·.groupKey = k)).length

theorem isRepeated_iff (hd : d.versions.Nodup) (g : MemberGroup) :
    isRepeated d.groups g = true ↔ d.DeclaresTwice g.key := by
  have hsecond : d.slot g.key 1 ≠ [] ↔ d.DeclaresTwice g.key := by
    constructor
    · intro hne
      obtain ⟨⟨v, m⟩, hm⟩ := List.exists_mem_of_ne_nil _ hne
      obtain ⟨ms, hms, hget⟩ := mem_slot.1 hm
      exact ⟨(v, ms), hms, (List.getElem?_eq_some_iff.1 hget).1⟩
    · rintro ⟨⟨v, ms⟩, hms, hlength⟩
      exact List.ne_nil_of_mem (mem_slot.2 ⟨ms, hms, List.getElem?_eq_getElem hlength⟩)
  rw [isRepeated, decide_eq_true_iff, ← hsecond, ne_eq, ← MemberGroup.ofSlot?_eq_none,
    ← groups_filter_key hd, List.getElem?_eq_none_iff, Nat.not_le]

end Declarations

/-- Written by an author in some version, and told apart by nothing that a source file shows from
another such group, which no version has together with it. -/
def MemberGroup.Clashing (gs : List MemberGroup) (g : MemberGroup) : Prop :=
  g.isSynthetic = false ∧ ∃ h ∈ gs, h.isSynthetic = false ∧
    g.key.name = h.key.name ∧ g.key.kind = h.key.kind ∧
    (g.key.kind = .method →
      Descriptor.parameterPart g.key.desc = Descriptor.parameterPart h.key.desc) ∧
    ∀ v ∈ g.versions, v ∉ h.versions

theorem MemberGroup.clashing_iff {gs : List MemberGroup} {g : MemberGroup} :
    gs.any g.clashes = true ↔ g.Clashing gs := by
  simp only [List.any_eq_true, clashes, Bool.and_eq_true, Bool.not_eq_true', decide_eq_true_iff,
    sourceIdentity_eq_iff, isDisjoint_iff, Clashing, and_assoc]
  constructor
  · rintro ⟨h, hh, hg, hrest⟩
    exact ⟨hg, h, hh, hrest⟩
  · rintro ⟨hg, h, hh, hrest⟩
    exact ⟨h, hh, hg, hrest⟩

/-- **A method clashes with methods of its name and its parameters only**, so overloads keep their
names. -/
theorem MemberGroup.clashing_iff_of_splitMethod {gs : List MemberGroup} {g : MemberGroup}
    {params ret : String} (hkind : g.key.kind = .method)
    (hsplit : Descriptor.splitMethod g.key.desc = .ok (params, ret)) :
    g.Clashing gs ↔ g.isSynthetic = false ∧ ∃ h ∈ gs, h.isSynthetic = false ∧
      g.key.name = h.key.name ∧ h.key.kind = .method ∧
      (∃ ret', Descriptor.splitMethod h.key.desc = .ok (params, ret')) ∧
      ∀ v ∈ g.versions, v ∉ h.versions := by
  refine and_congr_right fun _ ↦ exists_congr fun h ↦ and_congr_right fun _ ↦
    and_congr_right fun _ ↦ and_congr_right fun _ ↦ ?_
  rw [← Descriptor.parameterPart_eq_iff hsplit]
  simp only [hkind, true_imp_iff, eq_comm]

namespace Declarations

variable {d : Declarations}

/-- The name of a group: one that an author chose, the first of them; else the mangled name, if the
group has to be told apart from another one; else the declared name. -/
inductive IsNameOf (d : Declarations) (gs : List MemberGroup) (g : MemberGroup) : String → Prop
  | chosen {before after : List (Version × Member)} {e : Version × Member} {name : String}
      (hdecls : g.decls = before ++ e :: after)
      (hbefore : ∀ e' ∈ before, e'.2.nameOverride = none) (he : e.2.nameOverride = some name) :
      IsNameOf d gs g name
  | mangled (hunchosen : ∀ e ∈ g.decls, e.2.nameOverride = none)
      (hmangled : d.DeclaresTwice g.key ∨ g.Clashing gs) :
      IsNameOf d gs g (mangle g.key.name g.versionSet)
  | declared (hunchosen : ∀ e ∈ g.decls, e.2.nameOverride = none)
      (honce : ¬ d.DeclaresTwice g.key) (hclear : ¬ g.Clashing gs) :
      IsNameOf d gs g g.key.name

theorem nameOverride?_eq_findSome? (g : MemberGroup) :
    g.nameOverride? = g.decls.findSome? (·.2.nameOverride) := by
  rw [MemberGroup.nameOverride?, MemberGroup.overrides, ← List.head?_map, List.map_filterMap,
    List.head?_filterMap]
  simp [Function.comp_def]

/-- **The physical name of a group is the name that its declarations call for.** -/
theorem isNameOf_physicalName (hd : d.versions.Nodup) (g : MemberGroup) :
    d.IsNameOf d.groups g (physicalName d.groups g) := by
  have hmangling : needsMangling d.groups g = true ↔
      d.DeclaresTwice g.key ∨ g.Clashing d.groups := by
    rw [needsMangling, Bool.or_eq_true, MemberGroup.clashing_iff, isRepeated_iff hd, or_comm]
  rw [physicalName]
  cases hname : g.nameOverride? with
  | some name =>
    rw [nameOverride?_eq_findSome?] at hname
    obtain ⟨before, e, after, hdecls, he, hbefore⟩ := List.findSome?_eq_some_iff.1 hname
    exact .chosen hdecls hbefore he
  | none =>
    rw [nameOverride?_eq_findSome?] at hname
    have hunchosen := List.findSome?_eq_none_iff.1 hname
    dsimp only
    split
    · exact .mangled hunchosen (hmangling.1 ‹_›)
    · obtain ⟨honce, hclear⟩ := not_or.1 (mt hmangling.2 ‹_›)
      exact .declared hunchosen honce hclear

/-! ### The groups in full -/

/-- What it is for declarations to be grouped. -/
structure GroupedInto (d : Declarations) (gs : List NamedGroup) : Prop where
  /-- Every declaration is in a group, and in no second one. -/
  decls : (gs.flatMap (·.decls)).Perm d.all
  /-- The declarations of one key in one version are in the groups of the key in turn. -/
  inTurn : ∀ v ms, (v, ms) ∈ d → ∀ (k : GroupKey) (n : Nat) (m : Member),
    (ms.filter (·.groupKey = k))[n]? = some m ↔
      ∃ g, (gs.filter (·.key = k))[n]? = some g ∧ (v, m) ∈ g.decls
  /-- A group has one declaration of a version at most. -/
  nodup : ∀ g ∈ gs, g.versions.Nodup
  /-- The versions of a group are in the order of the input. -/
  versions : ∀ g ∈ gs, g.versions.Sublist d.versions
  /-- The groups are in the order in which their first declarations are read. -/
  firstSeen : numbered (gs.map (·.key)) = d.firstSeen
  isSynthetic : ∀ g ∈ gs, g.isSynthetic = true ↔ ∀ e ∈ g.decls, e.2.isSynthetic = true
  physicalName : ∀ g ∈ gs,
    d.IsNameOf (gs.map (·.toMemberGroup)) g.toMemberGroup g.physicalName

theorem toMemberGroup_groupMembers (d : Declarations) :
    (groupMembers d).map (·.toMemberGroup) = d.groups := by
  rw [groupMembers, List.map_map]
  exact List.map_id _

theorem mem_groupMembers {g : NamedGroup} : g ∈ groupMembers d ↔
    g.toMemberGroup ∈ d.groups ∧
      g.physicalName = ClassWeave.physicalName d.groups g.toMemberGroup := by
  rw [groupMembers, List.mem_map]
  constructor
  · rintro ⟨g, hg, rfl⟩
    exact ⟨hg, rfl⟩
  · rintro ⟨hg, hname⟩
    exact ⟨g.toMemberGroup, hg, by rw [← hname]⟩

/-- The groups of a key, before and after they are named. -/
theorem getElem?_filter_groupMembers (d : Declarations) (k : GroupKey) (n : Nat) :
    ((groupMembers d).filter (·.key = k))[n]?.map (·.toMemberGroup) =
      (d.groups.filter (·.key = k))[n]? := by
  rw [← List.getElem?_map, ← toMemberGroup_groupMembers d, List.filter_map]
  rfl

/-- **Grouping partitions the declarations**, in the order in which they are read, and names the
groups after them. -/
theorem groupedInto_groupMembers (hd : d.versions.Nodup) : d.GroupedInto (groupMembers d) where
  decls := by
    have hdecls := decls_groups d
    rwa [← toMemberGroup_groupMembers, List.flatMap_map] at hdecls
  inTurn v ms hv k n m := by
    rw [getElem?_filter_groupKey hd hv, ← getElem?_filter_groupMembers]
    simp only [Option.map_eq_some_iff]
    constructor
    · rintro ⟨_, ⟨g, hg, rfl⟩, hm⟩
      exact ⟨g, hg, hm⟩
    · rintro ⟨g, hg, hm⟩
      exact ⟨g.toMemberGroup, ⟨g, hg, rfl⟩, hm⟩
  nodup g hg := nodup_versions_of_mem_groups hd (mem_groupMembers.1 hg).1
  versions g hg := versions_sublist hd (mem_groupMembers.1 hg).1
  firstSeen := by
    rw [← numbered_keys_groups hd, ← toMemberGroup_groupMembers d, List.map_map]
    rfl
  isSynthetic g _ := by rw [MemberGroup.isSynthetic, List.all_eq_true]
  physicalName g hg := by
    rw [toMemberGroup_groupMembers, (mem_groupMembers.1 hg).2]
    exact isNameOf_physicalName hd g.toMemberGroup

/-- Three releases: a method that one of them declares twice, a field that changes its type, a
method that changes what it returns, one that changes its parameters, and one whose author has
chosen a name for it in one of them. -/
def reworkedReleases : Declarations :=
  let member (name desc : String) (kind : MemberKind) (chosen : Option String) : Member :=
    { name, desc, kind, access := .publicAccess, nameOverride := chosen }
  [(⟨"a"⟩, [member "run" "()V" .method none, member "size" "I" .field none,
      member "count" "(I)I" .method none, member "load" "(I)V" .method none]),
   (⟨"b"⟩, [member "size" "I" .field none, member "run" "()V" .method none,
      member "stop" "()V" .method none, member "run" "()V" .method none]),
   (⟨"c"⟩, [member "stop" "()V" .method (some "halt"), member "size" "J" .field none,
      member "count" "(I)J" .method none, member "load" "(J)V" .method none])]

theorem groupedInto_groupMembers_reworkedReleases :
    reworkedReleases.versions.Nodup ∧ reworkedReleases.GroupedInto (groupMembers reworkedReleases) ∧
      (groupMembers reworkedReleases).map (fun g ↦ (g.physicalName, g.versions.map (·.id))) =
        [("run$mv$a", ["a", "b"]), ("size$mv$a", ["a", "b"]), ("count$mv$a", ["a"]),
          ("load", ["a"]), ("halt", ["b", "c"]), ("run$mv$b", ["b"]), ("size$mv$c", ["c"]),
          ("count$mv$c", ["c"]), ("load", ["c"])] :=
  ⟨by decide, groupedInto_groupMembers (by decide), by decide +kernel⟩

end Declarations

end ClassWeave
