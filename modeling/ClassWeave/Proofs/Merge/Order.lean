import ClassWeave.Proofs.Merge.Grouping

/-!
# The order of the groups

The closed form of the groups says which groups there are, key by key, but not how the keys are
interleaved. That has a closed form of its own: a version appends the keys that it declares more
often than every version before it, in the order of its declarations
(`Declarations.keys_groups_concat`). A key that was declared before is not appended again, however
the version places it; so a version may list its declarations in the order of the groups instead of
its own, and the groups stay where they are (`Declarations.keys_groups_reordered`).

Lists with the same keys in the same order, and with the same members of each key, are the same list
(`eq_of_map_key`). This is how the two closed forms are put together.
-/

namespace ClassWeave

/-! ### Lists -/

section Lists

variable {α κ : Type} [DecidableEq κ]

/-- **A list is made up of its keys, in their order, and of its members of each key.** -/
theorem eq_of_map_key (key : α → κ) {l l' : List α} (hkeys : l.map key = l'.map key)
    (hfilter : ∀ k, l.filter (key · = k) = l'.filter (key · = k)) : l = l' := by
  induction l generalizing l' with
  | nil => rw [List.map_eq_nil_iff.1 hkeys.symm]
  | cons a l ih =>
    obtain ⟨b, l', rfl, hab, hrest⟩ := List.map_eq_cons_iff.1 hkeys.symm
    have hhead := hfilter (key a)
    rw [List.filter_cons_of_pos (by simp), List.filter_cons_of_pos (by simpa using hab)] at hhead
    obtain ⟨rfl, htail⟩ := List.cons.inj hhead
    refine congrArg (a :: ·) (ih hrest.symm fun k ↦ ?_)
    by_cases hk : key a = k
    · rw [← hk]
      exact htail
    · have hk' := hfilter k
      rwa [List.filter_cons_of_neg (by simpa using hk),
        List.filter_cons_of_neg (by simpa using hk)] at hk'

theorem append_diff_left (l l' : List κ) : (l ++ l').diff l = l' := by
  induction l with
  | nil => rfl
  | cons a l ih => rw [List.cons_append, List.diff_cons, List.erase_cons_head, ih]

theorem diff_eq_self {l l' : List κ} (h : ∀ a ∈ l, a ∉ l') : l.diff l' = l := by
  induction l' with
  | nil => rfl
  | cons b l' ih =>
    have hb : b ∉ l := fun hb ↦ h b hb List.mem_cons_self
    rw [List.diff_cons, List.erase_of_not_mem hb]
    exact ih fun a ha hmem ↦ h a ha (List.mem_cons_of_mem _ hmem)

/-- **A list that is put into the order of `old`, and of what it adds to `old`, adds the same.** -/
theorem diff_of_sublist_of_perm {old l l' : List κ} (hsub : l'.Sublist (old ++ l.diff old))
    (hperm : l'.Perm l) : l'.diff old = l.diff old := by
  obtain ⟨kept, new, rfl, hkept, hnew⟩ := List.sublist_append_iff.1 hsub
  have hcount : ∀ a, kept.count a + new.count a = l.count a := fun a ↦ by
    rw [← List.count_append, hperm.count_eq]
  have hkept_le : ∀ a, kept.count a ≤ old.count a := fun a ↦ hkept.count_le a
  -- what is kept is not more than what is old, so all that is added is new
  have hperm_new : new.Perm (l.diff old) := by
    refine List.perm_iff_count.2 fun a ↦ Nat.le_antisymm (hnew.count_le a) ?_
    rw [List.count_diff]
    have := hcount a
    have := hkept_le a
    omega
  obtain rfl := hnew.eq_of_length hperm_new.length_eq
  have hold : old.Perm (kept ++ old.diff kept) :=
    (List.subperm_append_diff_self_of_count_le fun a _ ↦ hkept_le a).symm
  rw [hold.diff_left, List.diff_append, append_diff_left]
  refine diff_eq_self fun a ha hmem ↦ ?_
  -- a key that is added is declared more often than it is old, so all of the old ones are kept
  have hadded := List.count_pos_iff.2 ha
  have hleft := List.count_pos_iff.2 hmem
  rw [List.count_diff] at hadded hleft
  have hsum := hcount a
  rw [List.count_diff] at hsum
  omega

end Lists

/-! ### The keys of the groups -/

namespace MemberGroup

variable {v w : Version} {m : Member} {g : MemberGroup} {gs : List MemberGroup}

/-- The keys of the groups that have no declaration of the version. -/
def openKeys (v : Version) (gs : List MemberGroup) : List GroupKey :=
  (gs.filter (v ∉ ·.versions)).map (·.key)

/-- The keys of the groups that have a declaration of the version. -/
def keysIn (v : Version) (gs : List MemberGroup) : List GroupKey :=
  (gs.filter (v ∈ ·.versions)).map (·.key)

theorem openKeys_cons_of_mem (h : v ∈ g.versions) : openKeys v (g :: gs) = openKeys v gs := by
  rw [openKeys, List.filter_cons_of_neg (by simpa using h), ← openKeys]

theorem openKeys_cons_of_not_mem (h : v ∉ g.versions) :
    openKeys v (g :: gs) = g.key :: openKeys v gs := by
  rw [openKeys, List.filter_cons_of_pos (by simpa using h), List.map_cons, ← openKeys]

theorem mem_versions_concat (v : Version) (m : Member) (g : MemberGroup) :
    v ∈ ({ g with decls := g.decls ++ [(v, m)] } : MemberGroup).versions := by
  simp [versions]

/-- A declaration takes the place of an open key, or adds a key. -/
theorem keys_place (v : Version) (m : Member) (gs : List MemberGroup) :
    (place v m gs).map (·.key) =
      if m.groupKey ∈ openKeys v gs then gs.map (·.key) else gs.map (·.key) ++ [m.groupKey] := by
  induction gs with
  | nil => rfl
  | cons g gs ih =>
    rw [place]
    by_cases hv : v ∈ g.versions
    · rw [if_neg (fun h ↦ h.2 hv), openKeys_cons_of_mem hv, List.map_cons, ih]
      split <;> rfl
    · rw [openKeys_cons_of_not_mem hv]
      by_cases hk : g.key = m.groupKey
      · rw [if_pos ⟨hk, hv⟩, if_pos (List.mem_cons.2 (.inl hk.symm))]
        rfl
      · have hmem : m.groupKey ∈ g.key :: openKeys v gs ↔ m.groupKey ∈ openKeys v gs := by
          rw [List.mem_cons, or_iff_right (Ne.symm hk)]
        simp only [hmem]
        rw [if_neg (fun h ↦ hk h.1), List.map_cons, ih]
        split <;> rfl

theorem openKeys_place (v : Version) (m : Member) (gs : List MemberGroup) :
    openKeys v (place v m gs) = (openKeys v gs).erase m.groupKey := by
  induction gs with
  | nil => exact openKeys_cons_of_mem (List.mem_singleton_self v)
  | cons g gs ih =>
    rw [place]
    by_cases hv : v ∈ g.versions
    · rw [if_neg (fun h ↦ h.2 hv), openKeys_cons_of_mem hv, openKeys_cons_of_mem hv, ih]
    · rw [openKeys_cons_of_not_mem hv]
      by_cases hk : g.key = m.groupKey
      · rw [if_pos ⟨hk, hv⟩, openKeys_cons_of_mem (mem_versions_concat v m g), hk,
          List.erase_cons_head]
      · rw [if_neg (fun h ↦ hk h.1), openKeys_cons_of_not_mem hv, ih,
          List.erase_cons_tail (by simpa using hk)]

/-- **The declarations of a version add the keys that they have beyond the open ones.** -/
theorem keys_foldl_place (v : Version) (ms : List Member) (gs : List MemberGroup) :
    (ms.foldl (fun gs m ↦ place v m gs) gs).map (·.key) =
      gs.map (·.key) ++ (ms.map (·.groupKey)).diff (openKeys v gs) := by
  induction ms generalizing gs with
  | nil => rw [List.map_nil, List.nil_diff, List.append_nil]; rfl
  | cons m ms ih =>
    rw [List.foldl_cons, ih, keys_place, openKeys_place, List.map_cons]
    by_cases hm : m.groupKey ∈ openKeys v gs
    · rw [if_pos hm, List.cons_diff_of_mem hm]
    · rw [if_neg hm, List.cons_diff_of_not_mem hm, List.erase_of_not_mem hm, List.append_assoc]
      rfl

/-- A declaration of another version does not concern the groups of a version. -/
theorem keysIn_place (h : w ≠ v) (m : Member) (gs : List MemberGroup) :
    keysIn v (place w m gs) = keysIn v gs := by
  induction gs with
  | nil =>
    refine congrArg (List.map _) (List.filter_cons_of_neg ?_)
    simpa [versions] using h.symm
  | cons g gs ih =>
    simp only [keysIn] at ih ⊢
    rw [place]
    split
    · have hsame : decide (v ∈ ({ g with decls := g.decls ++ [(w, m)] } : MemberGroup).versions) =
          decide (v ∈ g.versions) := by
        rw [decide_eq_decide, versions, List.map_append, List.mem_append]
        exact or_iff_left fun hv ↦ h (List.mem_singleton.1 hv).symm
      rw [List.filter_cons, List.filter_cons, hsame]
      split <;> rfl
    · rw [List.filter_cons, List.filter_cons]
      split
      · rw [List.map_cons, List.map_cons, ih]
      · exact ih

end MemberGroup

namespace Declarations

variable {d : Declarations} {v : Version} {input : Version × List Member}

/-- No group has a version that is not among the declarations. -/
theorem not_mem_versions_of_mem_groups (hd : d.versions.Nodup) (hv : v ∉ d.versions)
    {g : MemberGroup} (hg : g ∈ d.groups) : v ∉ g.versions := by
  intro hmem
  obtain ⟨⟨w, m⟩, hm, rfl⟩ := List.mem_map.1 hmem
  obtain ⟨ms, hms, -⟩ := exists_of_mem_decls hd hg hm
  exact hv (List.mem_map_of_mem hms)

/-- **A version appends the keys that it declares more often than the versions before it.** -/
theorem keys_groups_concat (hd : (d ++ [input]).versions.Nodup) :
    (groups (d ++ [input])).map (·.key) =
      d.groups.map (·.key) ++ (input.2.map (·.groupKey)).diff (d.groups.map (·.key)) := by
  rw [versions, List.map_append, List.nodup_append] at hd
  obtain ⟨hd, -, hnew⟩ := hd
  have hinput : input.1 ∉ d.versions := fun h ↦ hnew _ h _ (List.mem_singleton_self _) rfl
  have hopen : MemberGroup.openKeys input.1 d.groups = d.groups.map (·.key) := by
    refine congrArg (List.map _) (List.filter_eq_self.2 fun g hg ↦ ?_)
    exact decide_eq_true (not_mem_versions_of_mem_groups hd hinput hg)
  rw [groups, List.foldl_append, List.foldl_cons, List.foldl_nil, MemberGroup.keys_foldl_place,
    ← groups, hopen]

/-- Further versions do not concern the groups of a version. -/
theorem keysIn_groups_append {rest : Declarations} (hv : v ∉ rest.versions) :
    MemberGroup.keysIn v (groups (d ++ rest)) = MemberGroup.keysIn v d.groups := by
  induction rest using List.reverseRecOn with
  | nil => rw [List.append_nil]
  | append_singleton rest input ih =>
    rw [versions, List.map_append, List.mem_append, not_or] at hv
    have hne : input.1 ≠ v := fun h ↦ hv.2 (h ▸ List.mem_singleton_self _)
    rw [← List.append_assoc, groups, List.foldl_append, List.foldl_cons, List.foldl_nil, ← groups,
      ← ih hv.1]
    -- the declarations of the last version are placed one by one
    generalize groups (d ++ rest) = gs
    induction input.2 generalizing gs with
    | nil => rfl
    | cons m ms ihms => rw [List.foldl_cons, ihms, MemberGroup.keysIn_place hne]

/-- The groups hold the declarations of a version under their keys. -/
theorem map_groupKey_filterMap_at? (hd : d.versions.Nodup) (v : Version) :
    (d.groups.filterMap (·.at? v)).map (·.groupKey) = MemberGroup.keysIn v d.groups := by
  rw [List.map_filterMap, MemberGroup.keysIn, ← List.filterMap_eq_map, List.filterMap_filter]
  refine List.filterMap_congr fun g hg ↦ ?_
  cases hat : g.at? v with
  | some m =>
    have hm := (at?_groups_eq_some hd hg).1 hat
    have hv : v ∈ g.versions := List.mem_map_of_mem hm
    rw [Option.map_some, groupKey_of_mem_decls hd hg hm, if_pos (decide_eq_true hv)]
    rfl
  | none =>
    have hv : v ∉ g.versions := by
      intro hmem
      obtain ⟨⟨w, m⟩, hm, rfl⟩ := List.mem_map.1 hmem
      rw [(at?_groups_eq_some hd hg).2 hm] at hat
      cases hat
    rw [Option.map_none, if_neg (by simpa using hv)]

/-- **A version may list its declarations in the order of the groups**: the keys of the groups stay
in their order. -/
theorem keys_groups_reordered (hd : d.versions.Nodup) {members : Version → List Member}
    (hmembers : ∀ e ∈ d, (members e.1).map (·.groupKey) = MemberGroup.keysIn e.1 d.groups) :
    (groups (d.map fun e ↦ (e.1, members e.1))).map (·.key) = d.groups.map (·.key) := by
  -- the induction is on the versions read so far, while the groups are those of all of them
  suffices hprefix : ∀ p : Declarations, p <+: d →
      (groups (p.map fun e ↦ (e.1, members e.1))).map (·.key) = p.groups.map (·.key) from
    hprefix d List.prefix_rfl
  intro p
  induction p using List.reverseRecOn with
  | nil => exact fun _ ↦ rfl
  | append_singleton p e ih =>
    rintro ⟨rest, rfl⟩
    have hversions : (versions (p ++ [e]) ++ versions rest).Nodup := by
      rwa [versions, versions, ← List.map_append]
    obtain ⟨hpe, -, hrest⟩ := List.nodup_append.1 hversions
    have he : e ∈ p ++ [e] := List.mem_append_right _ (List.mem_singleton_self e)
    have hnew : e.1 ∉ versions rest := fun h ↦
      hrest _ (List.mem_map_of_mem he) _ h rfl
    have hkeysIn : (members e.1).map (·.groupKey) = MemberGroup.keysIn e.1 (groups (p ++ [e])) := by
      rw [hmembers e (List.mem_append_left _ he), keysIn_groups_append hnew]
    have hmapped :
        (versions ((p.map fun e ↦ (e.1, members e.1)) ++ [(e.1, members e.1)])).Nodup := by
      rw [versions, List.map_append] at hpe ⊢
      rwa [List.map_map]
    have ih := ih ⟨[e] ++ rest, by rw [List.append_assoc]⟩
    rw [List.map_append, List.map_singleton, keys_groups_concat hmapped, ih,
      keys_groups_concat hpe]
    refine congrArg _ (diff_of_sublist_of_perm ?_ ?_)
    · rw [hkeysIn, ← keys_groups_concat hpe]
      exact List.filter_sublist.map _
    · rw [hkeysIn, ← map_groupKey_filterMap_at? hpe]
      exact (filterMap_at?_groups hpe he).map _

end Declarations

end ClassWeave
