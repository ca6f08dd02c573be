import ClassWeave.Proofs.Link.Bridges
import ClassWeave.Proofs.Merge.Partition

/-!
# The flag of what a compiler made

A merged class keeps one flag for a member, however many versions declare it: whether a compiler
made the member in *every* version. So what comes back of a version's declaration is the flag of all
the declarations that became one member with it, which are the `n`-th declarations of its key, if it
is the `n`-th one in its version (`Declarations.groupOf`). An author's declaration keeps its flag,
since it is itself among them; a compiler's keeps it exactly if they all are a compiler's.

The members that a version gets back are known in full, with no condition on the trees:
`members_viewTree_stored` tells them group by group, and `filterMap_at?_groups_perm` turns this
into one declaration of the version after the other.
-/

namespace ClassWeave

/-! ### Numbered members -/

section Numbered

variable {α κ : Type} [DecidableEq κ] {key : α → κ} {l : List α} {a : α} {n : Nat}

theorem length_numbered (ks : List κ) : (numbered ks).length = ks.length := by
  induction ks using List.reverseRecOn with
  | nil => rfl
  | append_singleton ks k ih =>
    rw [numbered_concat, List.length_append, List.length_append, ih]
    rfl

/-- Each member of a list with the number of those of its key before it. -/
def numberedBy (key : α → κ) (l : List α) : List (α × Nat) :=
  l.zip ((numbered (l.map key)).map (·.2))

theorem numberedBy_concat (key : α → κ) (l : List α) (a : α) :
    numberedBy key (l ++ [a]) = numberedBy key l ++ [(a, (l.map key).count (key a))] := by
  have hlength : l.length = ((numbered (l.map key)).map (·.2)).length := by
    rw [List.length_map, length_numbered, List.length_map]
  rw [numberedBy, List.map_append, List.map_singleton, numbered_concat, List.map_append,
    List.zip_append hlength]
  rfl

/-- **The members of one key are numbered in turn.** -/
theorem filter_numberedBy (key : α → κ) (l : List α) (k : κ) :
    (numberedBy key l).filter (key ·.1 = k) = (l.filter (key · = k)).mapIdx fun n a ↦ (a, n) := by
  induction l using List.reverseRecOn with
  | nil => rfl
  | append_singleton l a ih =>
    rw [numberedBy_concat, List.filter_append, List.filter_append, ih]
    by_cases hk : key a = k
    · have hcount : (l.map key).count (key a) = (l.filter (key · = k)).length := by
        rw [hk, List.count_eq_countP, List.countP_map, List.countP_eq_length_filter]
        rfl
      rw [List.filter_cons_of_pos (by simpa using hk), List.filter_cons_of_pos (by simpa using hk),
        List.filter_nil, List.filter_nil, List.mapIdx_concat, hcount]
    · rw [List.filter_cons_of_neg (by simpa using hk), List.filter_cons_of_neg (by simpa using hk),
        List.filter_nil, List.filter_nil, List.append_nil, List.append_nil]

theorem getElem?_of_mem_numberedBy (h : (a, n) ∈ numberedBy key l) :
    (l.filter (key · = key a))[n]? = some a := by
  have hmem : (a, n) ∈ (numberedBy key l).filter (key ·.1 = key a) :=
    List.mem_filter.2 ⟨h, by simp⟩
  rw [filter_numberedBy] at hmem
  obtain ⟨i, hi, heq⟩ := List.mem_mapIdx.1 hmem
  obtain ⟨ha, rfl⟩ := Prod.mk.inj heq
  exact List.getElem?_eq_some_iff.2 ⟨hi, ha⟩

end Numbered

/-! ### The group of a declaration -/

namespace Declarations

variable {d : Declarations} {v : Version} {ms : List Member}

/-- The group of a version's declaration, if it is the `n`-th one of its key. -/
def groupOf (d : Declarations) (n : Nat) (a : Member) : MemberGroup :=
  ⟨a.groupKey, d.slot a.groupKey n⟩

/-- **The groups, as one version sees them, are those of its declarations.** -/
theorem filterMap_at?_groups_perm (hd : d.versions.Nodup) (hv : (v, ms) ∈ d) {β : Type}
    (f : MemberGroup → Member → β) :
    (d.groups.filterMap fun g ↦ (g.at? v).map (f g)).Perm
      ((numberedBy Member.groupKey ms).map fun e ↦ f (d.groupOf e.2 e.1) e.1) := by
  classical
  have hpairs : (d.groups.filterMap fun g ↦ (g.at? v).map (Prod.mk g)).Perm
      ((numberedBy Member.groupKey ms).map fun e ↦ (d.groupOf e.2 e.1, e.1)) := by
    refine perm_of_filter_key (fun e ↦ e.2.groupKey) fun k ↦ ?_
    rw [filter_filterMap_at?_groups hd hv (f := Prod.mk) (fun _ _ ↦ rfl), List.filter_map]
    refine Eq.trans ?_ (congrArg (List.map _) (filter_numberedBy Member.groupKey ms k)).symm
    refine List.ext_getElem? fun n ↦ ?_
    rw [List.getElem?_map, List.getElem?_mapIdx, List.getElem?_mapIdx, Option.map_map]
    refine Option.map_congr fun a ha ↦ ?_
    have hkey : a.groupKey = k := by
      simpa using (List.mem_filter.1 (List.mem_of_getElem? ha)).2
    rw [Function.comp_apply, groupOf, hkey]
  have hmap := hpairs.map fun e ↦ f e.1 e.2
  rw [List.map_filterMap, List.map_map] at hmap
  simpa only [Option.map_map, Function.comp_def] using hmap

/-- What comes back of a declaration of a group. An empty name gives way to the physical one. -/
def recollect (d : Declarations) (g : MemberGroup) (a : Member) : Member :=
  { a.bare with
    name := if a.name.isEmpty then physicalName d.groups g else a.name
    isSynthetic := g.isSynthetic }

end Declarations

/-- What comes back of a declaration with its number. -/
def Trees.recalled (ts : Trees) (e : Member × Nat) : Member :=
  ts.declarations.recollect (ts.declarations.groupOf e.2 e.1) e.1

theorem MergedMember.decl_undirected_stored (m : MergedMember) (v : Version) :
    (m.stored.undirected v).decl =
      (m.undirected v).decl.map fun a ↦ { a with name := m.stored.declaredName } := by
  rw [undirected, undirected]
  show (if m.isBridge || !m.inVersion v then _ else _ : MemberOutcome).decl = _
  split <;> rfl

/-- **A group of a stored class recalls the declaration of the version.** -/
theorem Declarations.decl_undirected_stored {d : Declarations} (hd : d.versions.Nodup)
    {g : MemberGroup} (hg : g ∈ d.groups) (v : Version) :
    ((d.toMember g).stored.undirected v).decl = (g.at? v).map (d.recollect g) := by
  rw [MergedMember.decl_undirected_stored, decl_undirected hd hg, Option.map_map]
  refine Option.map_congr fun a ha ↦ ?_
  have hkey : a.groupKey = g.key := groupKey_of_mem_decls hd hg ((at?_groups_eq_some hd hg).1 ha)
  have hname : a.name = g.key.name := congrArg GroupKey.name hkey
  rw [recollect, hname]
  rfl

/-! ### What a version gets back -/

section Merge

variable {m : Merger} {cls : ClassName} {ts : Trees} {c : MergedClass} {v : Version} {t : ClassTree}

/-- **A version gets back each of its declarations, with the flag of its group.** -/
theorem members_viewTree_stored (hc : m.merge cls ts = .ok c) (ht : (v, t) ∈ ts)
    (inheritance : Versioned Inheritance) :
    (MergedClass.viewTree
      { c with inheritance, members := c.members.map MergedMember.stored } v).members.Perm
      ((numberedBy Member.groupKey t.members).map ts.recalled) := by
  obtain ⟨hone, r, hr, -, rfl⟩ := Merger.merge_eq_ok.1 hc
  have hd := hone.nodup_declarations
  have hbridges : r.bridges.filterMap (fun b ↦ (b.stored.undirected v).decl) = [] := by
    refine List.filterMap_eq_nil_iff.2 fun b hb ↦ ?_
    have hbridge : b.stored.isBridge = true := isBridge_of_mem_bridges (b := b) hr hb
    rw [MergedMember.undirected, hbridge]
    rfl
  have hmembers : (MergedClass.viewTree { ts.assemble cls r with
        inheritance, members := (ts.members r).map MergedMember.stored } v).members =
      ts.declarations.groups.filterMap fun g ↦ (g.at? v).map (ts.declarations.recollect g) := by
    show ((ts.members r).map MergedMember.stored).filterMap (fun b ↦ (b.undirected v).decl) = _
    rw [Trees.members, List.filterMap_map, List.filterMap_append, List.filterMap_map]
    refine (congrArg _ hbridges).trans ((List.append_nil _).trans ?_)
    exact List.filterMap_congr fun g hg ↦ Declarations.decl_undirected_stored hd hg v
  exact hmembers ▸ Declarations.filterMap_at?_groups_perm hd (List.mem_map_of_mem ht) _

/-- **The flag survives where the versions agree on it.** Every declaration of a version comes back
once, as it was but for its flag (and for an empty name), up to what a merge does not carry
(`Member.bare`). The flag that comes back is that of all the declarations of one member; it is the
declaration's own unless that says that a compiler made the member, and some version says that an
author did. -/
theorem split_recalls_flags (hc : m.merge cls ts = .ok c) (ht : (v, t) ∈ ts) :
    ∃ stored u, c.encode.decode = .ok stored ∧
      stored.split v {} = .ok (.projected ⟨u, [], [], []⟩) ∧
      u.members.Perm ((numberedBy Member.groupKey t.members).map ts.recalled) ∧
      ∀ e ∈ numberedBy Member.groupKey t.members,
        ((ts.recalled e).isSynthetic = e.1.isSynthetic ↔ (e.1.isSynthetic = true →
          ∀ e' ∈ ts.declarations.slot e.1.groupKey e.2, e'.2.isSynthetic = true)) := by
  obtain ⟨inheritance, hstored⟩ := Merger.decode_encode_merged hc
  have hv : v ∈ c.versions := (mem_versions_of_merge hc).2 ⟨t, ht⟩
  refine ⟨_, _, hstored, Projector.project_undirected _ hv,
    members_viewTree_stored hc ht inheritance, ?_⟩
  rintro ⟨a, n⟩ he
  -- the declaration is one of those of its group
  have hown : (v, a) ∈ ts.declarations.slot a.groupKey n :=
    Declarations.mem_slot.2 ⟨t.members, List.mem_map_of_mem ht, getElem?_of_mem_numberedBy he⟩
  have hflag : (ts.recalled (a, n)).isSynthetic = true ↔
      ∀ e' ∈ ts.declarations.slot a.groupKey n, e'.2.isSynthetic = true := List.all_eq_true
  dsimp only
  rw [← hflag]
  constructor
  · intro hsame hsynthetic
    rw [hsame, hsynthetic]
  · intro hkept
    cases hsynthetic : a.isSynthetic with
    | true => exact hkept hsynthetic
    | false =>
      refine Bool.eq_false_iff.2 fun hall ↦ ?_
      have hall := hflag.1 hall _ hown
      rw [hsynthetic] at hall
      cases hall

/-- Two releases in which a compiler made `get`. Of `sync` the second one says that an author wrote
it; and both have a method without a name, with another return type. -/
def flaggedReleases : Trees :=
  let method (name desc : String) (isSynthetic : Bool) : Member :=
    { name, desc, kind := .method, isSynthetic, access := .publicAccess }
  [(⟨"a"⟩, { name := ⟨"x/C"⟩, access := .publicAccess
             members := [method "sync" "()V" true, method "get" "()Ljava/lang/Object;" true,
               method "" "()I" false] }),
   (⟨"b"⟩, { name := ⟨"x/C"⟩, access := .publicAccess
             members := [method "sync" "()V" false, method "get" "()Ljava/lang/Object;" true,
               method "" "()J" false] })]

theorem split_recalls_flags_flaggedReleases :
    ∃ c stored u, (⟨.empty, .empty⟩ : Merger).merge ⟨"x/C"⟩ flaggedReleases = .ok c ∧
      c.encode.decode = .ok stored ∧
      stored.split ⟨"a"⟩ {} = .ok (.projected ⟨u, [], [], []⟩) ∧
      (u.members.map fun b ↦ (b.name, b.isSynthetic)).Perm
        [("sync", false), ("get", true), ("$mv$a", false)] := by
  obtain ⟨c, hc⟩ : ∃ c, (⟨.empty, .empty⟩ : Merger).merge ⟨"x/C"⟩ flaggedReleases = .ok c :=
    Outcome.exists_eq_ok (by decide +kernel)
  obtain ⟨stored, u, hstored, hsplit, hmembers, -⟩ :=
    split_recalls_flags hc (v := ⟨"a"⟩) List.mem_cons_self
  refine ⟨c, stored, u, hc, hstored, hsplit, (hmembers.map _).trans (.of_eq ?_)⟩
  decide +kernel

/-- **A flag is lost where another version does not have it**, and a name that is empty gives way to
the physical one. -/
theorem flag_lost_flaggedReleases :
    ∃ c stored u, (⟨.empty, .empty⟩ : Merger).merge ⟨"x/C"⟩ flaggedReleases = .ok c ∧
      c.encode.decode = .ok stored ∧
      stored.split ⟨"a"⟩ {} = .ok (.projected ⟨u, [], [], []⟩) ∧
      (∃ a ∈ flaggedReleases[0].2.members, a.name = "sync" ∧ a.isSynthetic = true) ∧
      (∀ b ∈ u.members, b.name = "sync" → b.isSynthetic = false) ∧
      (∃ a ∈ flaggedReleases[0].2.members, a.name = "") ∧ ∀ b ∈ u.members, b.name ≠ "" := by
  obtain ⟨c, hc⟩ : ∃ c, (⟨.empty, .empty⟩ : Merger).merge ⟨"x/C"⟩ flaggedReleases = .ok c :=
    Outcome.exists_eq_ok (by decide +kernel)
  have ht : (⟨"a"⟩, flaggedReleases[0].2) ∈ flaggedReleases := List.mem_cons_self
  have hv : ⟨"a"⟩ ∈ c.versions := (mem_versions_of_merge hc).2 ⟨_, ht⟩
  obtain ⟨inheritance, hstored⟩ := Merger.decode_encode_merged hc
  have hmembers := members_viewTree_stored hc ht inheritance
  refine ⟨c, _, _, hc, hstored, Projector.project_undirected _ hv, by decide, ?_, by decide, ?_⟩
  · simp only [hmembers.mem_iff]
    decide +kernel
  · simp only [hmembers.mem_iff]
    decide +kernel

end Merge

end ClassWeave
