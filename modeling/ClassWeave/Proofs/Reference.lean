import ClassWeave.Proofs.Merge.Invariants
import ClassWeave.Reference

/-!
# Pointers into merged classes

Authors write pointers against the class of one version, while they are resolved against the merged
class. What the merged class has in that version are groups, which keep the declared names whatever
became of the physical ones, and bridges, which no author names. So up to their order the members
that answer to a pointer have the keys of those that answer to it in the tree of the version
(`perm_answers`). How many there are decides between the three outcomes
(`MergedClass.resolve_eq`), and a pointer is resolved as if the merge had not happened
(`resolve_merged`).
-/

namespace ClassWeave

/-! ### What answers to a pointer -/

/-- Whether declarations of a key answer to a pointer. -/
def Ref.isAnsweredByKey (r : Ref) (k : GroupKey) : Bool :=
  k.name = r.member && k.kind = r.kind && (r.desc.isEmpty || k.desc = r.desc)

/-- The members of a tree that answer to a pointer. -/
def ClassTree.answers (t : ClassTree) (r : Ref) : List Member :=
  t.members.filter fun n ↦ r.isAnsweredByKey n.groupKey

/-- The members of a merged class that answer to a pointer in a version. -/
def MergedClass.answers (c : MergedClass) (r : Ref) (v : Version) : List MergedMember :=
  c.members.filter fun b ↦ b.inVersion v && r.isAnsweredByKey b.groupKey

/-- How a key is reported among several candidates. -/
def GroupKey.text (k : GroupKey) : String := k.name ++ " " ++ k.desc

/-- **How many members answer decides how a pointer is resolved.** -/
theorem MergedClass.resolve_eq {c : MergedClass} {v : Version} {r : Ref} {lookup : ClassLookup}
    (hv : v ∈ c.versions) (hlookup : lookup r.owner v = c.view? v) :
    r.resolve v lookup = match c.answers r v with
      | [] => .error (.unresolvedReference r v)
      | [b] => .ok ⟨c.name, b.declaredName, b.physicalName, b.desc, b.kind, b.isStatic⟩
      | bs => .error (.ambiguousReference r v (bs.map (·.groupKey.text))) := by
  have hview : ((c.members.filter (·.inVersion v)).map fun m ↦
      (⟨m.declaredName, m.physicalName, m.desc, m.kind, m.isStatic, m.access.forVersion v⟩ :
        ViewMember)).filter r.isAnsweredBy = (c.answers r v).map fun m ↦
      ⟨m.declaredName, m.physicalName, m.desc, m.kind, m.isStatic, m.access.forVersion v⟩ := by
    rw [List.filter_map, List.filter_filter, answers]
    refine congrArg (List.map _) (List.filter_congr fun b _ ↦ ?_)
    exact Bool.and_comm _ _
  rw [Ref.resolve, hlookup, view?, if_pos hv]
  simp only [hview]
  rcases c.answers r v with - | ⟨b, - | ⟨b', bs⟩⟩
  · rfl
  · rfl
  · simp only [List.map_cons, List.map_map]
    rfl

/-! ### The same answers -/

section Merge

variable {m : Merger} {cls : ClassName} {ts : Trees} {c : MergedClass} {v : Version} {t : ClassTree}
  {r : Ref}

/-- A group has a declaration of its key in each of its versions, and none in another one. -/
theorem Declarations.map_groupKey_at? {d : Declarations} (hd : d.versions.Nodup) {g : MemberGroup}
    (hg : g ∈ d.groups) (v : Version) :
    (g.at? v).map Member.groupKey = if (d.toMember g).inVersion v then some g.key else none := by
  have hin : (d.toMember g).inVersion v = true ↔ ∃ a, (v, a) ∈ g.decls :=
    decide_eq_true_iff.trans ((gathers_toMember hd hg).declaredVersions v)
  cases hat : g.at? v with
  | some a =>
    have ha := (at?_groups_eq_some hd hg).1 hat
    rw [if_pos (hin.2 ⟨a, ha⟩), Option.map_some, groupKey_of_mem_decls hd hg ha]
  | none =>
    rw [if_neg, Option.map_none]
    rintro hversion
    obtain ⟨a, ha⟩ := hin.1 hversion
    rw [(at?_groups_eq_some hd hg).2 ha] at hat
    cases hat

/-- The groups of a merge have, in a version, the keys that the version declares. -/
theorem Trees.keys_inVersion (hone : ts.OneClass cls) (v : Version) :
    ((ts.declarations.groups.map ts.declarations.toMember).filter (·.inVersion v)).map
        (·.groupKey) = (ts.declarations.groups.filterMap (·.at? v)).map (·.groupKey) := by
  rw [List.filter_map, List.map_map, ← List.filterMap_eq_map, List.filterMap_filter,
    List.map_filterMap]
  refine List.filterMap_congr fun g hg ↦ ?_
  rw [Declarations.map_groupKey_at? hone.nodup_declarations hg]
  rfl

/-- **The members that answer have the keys of those that answer in the tree**, each as often. -/
theorem perm_answers (hc : m.merge cls ts = .ok c) (ht : (v, t) ∈ ts)
    (hname : hasBridgeName r.member = false) :
    ((c.answers r v).map (·.groupKey)).Perm ((t.answers r).map (·.groupKey)) := by
  obtain ⟨hone, rec, hr, -, rfl⟩ := Merger.merge_eq_ok.1 hc
  -- every bridge has a bridge name, and the pointer names none
  have hbridges : ((rec.bridges.filter (·.inVersion v)).map (·.groupKey)).filter
      r.isAnsweredByKey = [] := by
    refine List.filter_eq_nil_iff.2 <| List.forall_mem_map.2 fun b hb hanswers ↦ ?_
    obtain ⟨s, served, rfl, -⟩ := Merger.exists_bridge_of_mem hr (List.mem_filter.1 hb).1
    simp only [Ref.isAnsweredByKey, Bool.and_eq_true, decide_eq_true_iff] at hanswers
    have hbridge : bridgeName s = r.member := hanswers.1.1
    rw [← hbridge, hasBridgeName_bridgeName] at hname
    cases hname
  have hdeclared : (v, t.members) ∈ ts.declarations := List.mem_map_of_mem ht
  have hgroups := Declarations.filterMap_at?_groups hone.nodup_declarations hdeclared
  calc ((ts.assemble cls rec).answers r v).map (·.groupKey)
      = (((ts.members rec).filter (·.inVersion v)).map (·.groupKey)).filter r.isAnsweredByKey := by
        rw [List.filter_map, List.filter_filter]
        exact congrArg (List.map _) (List.filter_congr fun b _ ↦ Bool.and_comm _ _)
    _ = ((ts.declarations.groups.filterMap (·.at? v)).map (·.groupKey)).filter
          r.isAnsweredByKey := by
        rw [Trees.members, List.filter_append, List.map_append, List.filter_append, hbridges,
          List.append_nil, Trees.keys_inVersion hone]
    List.Perm _ ((t.members.map (·.groupKey)).filter r.isAnsweredByKey) :=
        (hgroups.map _).filter _
    _ = (t.answers r).map (·.groupKey) := List.filter_map

/-- **Resolving against the merged class is resolving against the version**: a pointer that names no
bridge is unresolved, ambiguous or bound as it is among the members of the tree. -/
theorem resolve_merged (lookup : ClassLookup) (hc : m.merge cls ts = .ok c) (ht : (v, t) ∈ ts)
    (howner : r.owner = c.name) (hname : hasBridgeName r.member = false)
    (hlookup : lookup c.name v = c.view? v) :
    (r.resolve v lookup = .error (.unresolvedReference r v) ↔ t.answers r = []) ∧
      ((∃ texts, r.resolve v lookup = .error (.ambiguousReference r v texts)) ↔
        2 ≤ (t.answers r).length) ∧
      (∀ texts, r.resolve v lookup = .error (.ambiguousReference r v texts) →
        texts.Perm ((t.answers r).map fun n ↦ n.name ++ " " ++ n.desc)) ∧
      ∀ n, t.answers r = [n] → ∃ b ∈ c.members, b.inVersion v = true ∧
        r.resolve v lookup = .ok ⟨c.name, n.name, b.physicalName, n.desc, n.kind, n.isStatic⟩ := by
  have hv : v ∈ c.versions := (mem_versions_of_merge hc).2 ⟨t, ht⟩
  have hresolve := MergedClass.resolve_eq hv (howner ▸ hlookup)
  have hperm := perm_answers hc ht hname
  have hlength : (c.answers r v).length = (t.answers r).length := by
    simpa only [List.length_map] using hperm.length_eq
  cases hbs : c.answers r v with
  | nil =>
    rw [hbs] at hresolve hlength
    have hnone : t.answers r = [] := List.eq_nil_of_length_eq_zero hlength.symm
    simp [hresolve, hnone]
  | cons b rest =>
    cases rest with
    | nil =>
      rw [hbs] at hresolve hperm hlength
      obtain ⟨n, hn⟩ := List.length_eq_one_iff.1 hlength.symm
      have hb := List.mem_filter.1 (hbs ▸ List.mem_singleton_self b : b ∈ c.answers r v)
      have hkey : b.groupKey = n.groupKey := by
        rw [hn] at hperm
        exact List.singleton_perm_singleton.1 hperm
      obtain ⟨hname, hdesc, hkind, hstatic⟩ := GroupKey.mk.inj hkey
      have hbound : r.resolve v lookup =
          .ok ⟨c.name, n.name, b.physicalName, n.desc, n.kind, n.isStatic⟩ := by
        rw [← hname, ← hdesc, ← hkind, ← hstatic]
        exact hresolve
      refine ⟨by simp [hbound, hn], by simp [hbound, hn], fun _ h ↦ ?_, fun n' hn' ↦ ?_⟩
      · rw [hbound] at h
        cases h
      · obtain rfl : n = n' := by simpa [hn] using hn'
        exact ⟨b, hb.1, (Bool.and_eq_true_iff.1 hb.2).1, hbound⟩
    | cons b' bs =>
      rw [hbs] at hresolve hperm hlength
      have htwo : 2 ≤ (t.answers r).length := by
        rw [← hlength, List.length_cons, List.length_cons]
        omega
      have htexts := hperm.map GroupKey.text
      rw [List.map_map, List.map_map] at htexts
      have hne : t.answers r ≠ [] := by
        intro hnone
        rw [hnone] at htwo
        exact absurd htwo (by decide)
      refine ⟨by simp [hresolve, hne], by simp [hresolve, htwo], fun texts h ↦ ?_, fun n hn ↦ ?_⟩
      · rw [hresolve] at h
        cases h
        exact htexts
      · rw [hn] at htwo
        exact absurd htwo (Nat.lt_irrefl 1)

theorem resolve_merged_threeReleases :
    ∃ c, (⟨meetingSupers, .empty⟩ : Merger).merge ⟨"x/C"⟩ threeReleases = .ok c ∧
      (∃ b ∈ c.members, b.inVersion ⟨"b"⟩ = true ∧
        Ref.resolve ⟨⟨"x/C"⟩, "n", "", false⟩ ⟨"b"⟩ (fun _ ↦ c.view?) =
          .ok ⟨c.name, "n", b.physicalName, "()J", .method, false⟩) ∧
      ∃ texts, Ref.resolve ⟨⟨"x/C"⟩, "run", "", false⟩ ⟨"b"⟩ (fun _ ↦ c.view?) =
        .error (.ambiguousReference ⟨⟨"x/C"⟩, "run", "", false⟩ ⟨"b"⟩ texts) := by
  obtain ⟨c, hc⟩ : ∃ c, (⟨meetingSupers, .empty⟩ : Merger).merge ⟨"x/C"⟩ threeReleases = .ok c :=
    Outcome.exists_eq_ok (by decide)
  have howner : (⟨"x/C"⟩ : ClassName) = c.name := by
    obtain ⟨-, r, -, -, rfl⟩ := Merger.merge_eq_ok.1 hc
    rfl
  have ht : (⟨"b"⟩, (threeReleases[1]).2) ∈ threeReleases :=
    List.mem_cons_of_mem _ List.mem_cons_self
  have hone : (threeReleases[1]).2.answers ⟨⟨"x/C"⟩, "n", "", false⟩ =
      [rawMethod "n" "()J" "lconst_1"] := by decide
  have htwo : 2 ≤ ((threeReleases[1]).2.answers ⟨⟨"x/C"⟩, "run", "", false⟩).length := by
    decide
  have hn := resolve_merged (fun _ ↦ c.view?) hc ht (r := ⟨⟨"x/C"⟩, "n", "", false⟩) howner
    (by decide) rfl
  have hrun := resolve_merged (fun _ ↦ c.view?) hc ht (r := ⟨⟨"x/C"⟩, "run", "", false⟩) howner
    (by decide) rfl
  exact ⟨c, hc, hn.2.2.2 _ hone, hrun.2.1.2 htwo⟩

end Merge

end ClassWeave
