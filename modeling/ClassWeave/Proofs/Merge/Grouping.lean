import ClassWeave.Merge.Grouping
import Mathlib.Data.List.Basic
import Mathlib.Data.List.Count
import Mathlib.Data.List.Nodup
import Mathlib.Data.List.Induction
import Mathlib.Data.List.Perm.Basic

/-!
# The groups of a merge, in closed form

Grouping runs over the declarations one after the other and looks for the first open group each
time. Its result has a description without any such history: where every version comes once, the
groups of a key, in their order, are its **slots**

```
slot k n = the n-th declaration of k in each version that has so many, versions in input order
```

(`groups_filter_key`). A version's declarations of a key form one *layer* over the slots that the
earlier versions have filled, and adding a layer is what placing them one by one amounts to
(`foldl_place`).

Two readings of the closed form carry all that is proved about merges. Read along a key, it makes
the groups independent of the order of the versions, since a slot is (`slot_perm`). Read along a
version, it gives back the members of the version (`filterMap_at?_groups`).
-/

namespace ClassWeave

/-! ### Lists by key -/

section Lists

variable {α β κ : Type}

/-- Lists that agree on the members of every key are permutations of each other. -/
theorem perm_of_filter_key [DecidableEq α] [DecidableEq κ] (key : α → κ) {l l' : List α}
    (h : ∀ k, l.filter (key · = k) = l'.filter (key · = k)) : l.Perm l' := by
  rw [List.perm_iff_count]
  intro a
  have hcount : ∀ l : List α, (l.filter (key · = key a)).count a = l.count a := fun l ↦
    List.count_filter (by simp)
  rw [← hcount l, h, hcount l']

/-- A list that has, at each position, what a partial function makes of another list there. The
function may be undefined only past the end. -/
theorem filterMap_eq_of_getElem? {f : α → Option β} {l : List α} {l' : List β}
    (h : ∀ n : Nat, l[n]?.bind f = l'[n]?) : l.filterMap f = l' := by
  induction l generalizing l' with
  | nil => exact List.ext_getElem? fun n ↦ h n
  | cons a l ih =>
    have h0 : f a = l'[0]? := h 0
    cases l' with
    | nil =>
      rw [List.filterMap_cons_none h0]
      exact ih fun n ↦ h (n + 1)
    | cons b l' =>
      rw [List.filterMap_cons_some h0, ih fun n ↦ h (n + 1)]

end Lists

/-! ### Groups that clash -/

namespace MemberGroup

theorem sourceIdentity_eq_iff {g h : MemberGroup} :
    g.sourceIdentity = h.sourceIdentity ↔ g.key.name = h.key.name ∧ g.key.kind = h.key.kind ∧
      (g.key.kind = .method →
        Descriptor.parameterPart g.key.desc = Descriptor.parameterPart h.key.desc) := by
  rw [sourceIdentity, sourceIdentity]
  cases g.key.kind <;> cases h.key.kind <;> simp

theorem isDisjoint_iff {g h : MemberGroup} :
    g.isDisjoint h = true ↔ ∀ v ∈ g.versions, v ∉ h.versions := by
  simp [isDisjoint]

end MemberGroup

/-! ### Slots -/

namespace Declarations

variable {d : Declarations} {k : GroupKey} {n : Nat} {v : Version} {m : Member}

def versions (d : Declarations) : List Version := d.map (·.1)

/-- The `n`-th declaration of a key in each version that has so many. -/
def slot (d : Declarations) (k : GroupKey) (n : Nat) : List (Version × Member) :=
  d.filterMap fun input ↦ (input.2.filter (·.groupKey = k))[n]?.map (input.1, ·)

theorem mem_slot :
    (v, m) ∈ d.slot k n ↔ ∃ ms, (v, ms) ∈ d ∧ (ms.filter (·.groupKey = k))[n]? = some m := by
  simp only [slot, List.mem_filterMap, Option.map_eq_some_iff, Prod.exists, Prod.mk.injEq]
  constructor
  · rintro ⟨w, ms, hmem, a, ha, rfl, rfl⟩
    exact ⟨ms, hmem, ha⟩
  · rintro ⟨ms, hmem, ha⟩
    exact ⟨v, ms, hmem, m, ha, rfl, rfl⟩

/-- A slot holds declarations of its key only. -/
theorem groupKey_of_mem_slot (h : (v, m) ∈ d.slot k n) : m.groupKey = k := by
  obtain ⟨ms, -, hget⟩ := mem_slot.1 h
  simpa using (List.mem_filter.1 (List.mem_of_getElem? hget)).2

theorem mem_versions_of_mem_slot (h : (v, m) ∈ d.slot k n) : v ∈ d.versions := by
  obtain ⟨ms, hmem, -⟩ := mem_slot.1 h
  exact List.mem_map_of_mem hmem

/-- A slot has one declaration of a version at most. -/
theorem nodup_slot (hd : d.versions.Nodup) : ((d.slot k n).map (·.1)).Nodup := by
  rw [List.Nodup, List.pairwise_map, slot, List.pairwise_filterMap]
  refine (List.pairwise_map.1 hd).imp fun {a b} hab x hx y hy ↦ ?_
  obtain ⟨-, -, rfl⟩ := Option.map_eq_some_iff.1 hx
  obtain ⟨-, -, rfl⟩ := Option.map_eq_some_iff.1 hy
  exact hab

/-- **A slot does not depend on the order of the versions**, but for the order of its own. -/
theorem slot_perm {d' : Declarations} (h : d.Perm d') (k : GroupKey) (n : Nat) :
    (d.slot k n).Perm (d'.slot k n) :=
  h.filterMap _

/-- A further version adds its `n`-th declaration to the slot. -/
theorem slot_concat (input : Version × List Member) :
    slot (d ++ [input]) k n = d.slot k n ++
      ((input.2.filter (·.groupKey = k))[n]?.map (input.1, ·)).toList := by
  rw [slot, List.filterMap_append, List.filterMap_cons, List.filterMap_nil]
  cases (input.2.filter (·.groupKey = k))[n]? <;> rfl

end Declarations

/-! ### Layers -/

namespace MemberGroup

/-- The group of a slot, unless the slot is empty. -/
def ofSlot? (k : GroupKey) (decls : List (Version × Member)) : Option MemberGroup :=
  if decls = [] then none else some ⟨k, decls⟩

theorem ofSlot?_eq_some {k : GroupKey} {decls : List (Version × Member)} {g : MemberGroup} :
    ofSlot? k decls = some g ↔ decls ≠ [] ∧ g = ⟨k, decls⟩ := by
  rw [ofSlot?]
  by_cases h : decls = []
  · simp [h]
  · simp [h, eq_comm]

theorem ofSlot?_eq_none {k : GroupKey} {decls : List (Version × Member)} :
    ofSlot? k decls = none ↔ decls = [] := by
  rw [ofSlot?]
  by_cases h : decls = [] <;> simp [h]

/-- The groups of one key with a further declaration each, from the first group on. Declarations
that are left over open groups of their own. -/
def layer (k : GroupKey) (v : Version) : List Member → List MemberGroup → List MemberGroup
  | [], gs => gs
  | m :: ms, [] => ⟨k, [(v, m)]⟩ :: layer k v ms []
  | m :: ms, g :: gs => { g with decls := g.decls ++ [(v, m)] } :: layer k v ms gs

/-- A layer over slots extends each slot. -/
theorem getElem?_layer {k : GroupKey} {v : Version} {ms : List Member} {gs : List MemberGroup}
    {slots : Nat → List (Version × Member)} (h : ∀ n, gs[n]? = ofSlot? k (slots n)) (n : Nat) :
    (layer k v ms gs)[n]? = ofSlot? k (slots n ++ (ms[n]?.map (v, ·)).toList) := by
  induction ms generalizing gs slots n with
  | nil => simpa [layer] using h n
  | cons m ms ih =>
    cases gs with
    | nil =>
      have hempty : ∀ n, slots n = [] := fun n ↦ ofSlot?_eq_none.1 (h n).symm
      cases n with
      | zero => simp [layer, hempty, ofSlot?]
      | succ n =>
        have hrest : ∀ n, ([] : List MemberGroup)[n]? = ofSlot? k (slots (n + 1)) := fun n ↦ by
          rw [hempty, List.getElem?_nil, ofSlot?, if_pos rfl]
        simpa [layer] using ih hrest n
    | cons g gs =>
      obtain ⟨-, rfl⟩ := ofSlot?_eq_some.1 (h 0).symm
      cases n with
      | zero => simp [layer, ofSlot?]
      | succ n => simpa [layer] using ih (fun n ↦ h (n + 1)) n

/-! ### Placing declarations one by one -/

/-- Placing a declaration does not concern the groups of other keys. -/
theorem filter_place (v : Version) (m : Member) (gs : List MemberGroup) (k : GroupKey) :
    (place v m gs).filter (·.key = k) =
      if m.groupKey = k then place v m (gs.filter (·.key = k)) else gs.filter (·.key = k) := by
  induction gs with
  | nil => by_cases h : m.groupKey = k <;> simp [place, h]
  | cons g gs ih =>
    rw [place]
    by_cases hopen : g.key = m.groupKey ∧ v ∉ g.versions
    · rw [if_pos hopen]
      by_cases hm : m.groupKey = k
      · rw [if_pos hm, List.filter_cons_of_pos (by simp [hopen.1, hm]),
          List.filter_cons_of_pos (by simp [hopen.1, hm]), place, if_pos hopen]
      · rw [if_neg hm, List.filter_cons_of_neg (by simp [hopen.1, hm]),
          List.filter_cons_of_neg (by simp [hopen.1, hm])]
    · rw [if_neg hopen]
      by_cases hg : g.key = k
      · rw [List.filter_cons_of_pos (by simpa using hg),
          List.filter_cons_of_pos (by simpa using hg), ih]
        by_cases hm : m.groupKey = k
        · rw [if_pos hm, if_pos hm, place, if_neg hopen]
        · rw [if_neg hm, if_neg hm]
      · rw [List.filter_cons_of_neg (by simpa using hg),
          List.filter_cons_of_neg (by simpa using hg), ih]

theorem filter_foldl_place (v : Version) (ms : List Member) (gs : List MemberGroup)
    (k : GroupKey) :
    (ms.foldl (fun gs m ↦ place v m gs) gs).filter (·.key = k) =
      (ms.filter (·.groupKey = k)).foldl (fun gs m ↦ place v m gs) (gs.filter (·.key = k)) := by
  induction ms generalizing gs with
  | nil => rfl
  | cons m ms ih =>
    rw [List.foldl_cons, ih, filter_place]
    by_cases hm : m.groupKey = k
    · rw [if_pos hm, List.filter_cons_of_pos (by simpa using hm), List.foldl_cons]
    · rw [if_neg hm, List.filter_cons_of_neg (by simpa using hm)]

/-- Groups that have the version already are passed over. -/
theorem place_append {v : Version} {m : Member} {done gs : List MemberGroup}
    (h : ∀ g ∈ done, v ∈ g.versions) : place v m (done ++ gs) = done ++ place v m gs := by
  induction done with
  | nil => rfl
  | cons g done ih =>
    have hg : ¬ (g.key = m.groupKey ∧ v ∉ g.versions) := fun hc ↦ hc.2 (h g List.mem_cons_self)
    rw [List.cons_append, place, if_neg hg, ih fun g' hg' ↦ h g' (List.mem_cons_of_mem _ hg')]
    rfl

/-- **Placing the declarations of a key one by one adds a layer.** The groups in `done` are those
that have received a declaration already. -/
theorem foldl_place {k : GroupKey} {v : Version} {ms : List Member}
    (hms : ∀ m ∈ ms, m.groupKey = k) {done gs : List MemberGroup}
    (hdone : ∀ g ∈ done, v ∈ g.versions) (hgs : ∀ g ∈ gs, g.key = k ∧ v ∉ g.versions) :
    ms.foldl (fun gs m ↦ place v m gs) (done ++ gs) = done ++ layer k v ms gs := by
  induction ms generalizing done gs with
  | nil => rfl
  | cons m ms ih =>
    have hm : m.groupKey = k := hms m List.mem_cons_self
    have hrest : ∀ m ∈ ms, m.groupKey = k := fun m' h ↦ hms m' (List.mem_cons_of_mem _ h)
    rw [List.foldl_cons, place_append hdone]
    cases gs with
    | nil =>
      have hdone' : ∀ g ∈ done ++ [⟨m.groupKey, [(v, m)]⟩], v ∈ g.versions := by
        intro g hg
        rcases List.mem_append.1 hg with hg | hg
        · exact hdone g hg
        · rw [List.mem_singleton.1 hg]
          exact List.mem_singleton_self v
      have hnone : ∀ g ∈ ([] : List MemberGroup), g.key = k ∧ v ∉ g.versions :=
        fun g hg ↦ absurd hg List.not_mem_nil
      have h := ih hrest hdone' hnone
      rw [List.append_nil, List.append_assoc] at h
      rw [place, h, layer, hm]
      rfl
    | cons g gs =>
      have hopen : g.key = m.groupKey ∧ v ∉ g.versions := by
        obtain ⟨hk, hv⟩ := hgs g List.mem_cons_self
        exact ⟨hk.trans hm.symm, hv⟩
      have hdone' : ∀ g' ∈ done ++ [{ g with decls := g.decls ++ [(v, m)] }], v ∈ g'.versions := by
        intro g' hg'
        rcases List.mem_append.1 hg' with hg' | hg'
        · exact hdone g' hg'
        · rw [List.mem_singleton.1 hg']
          simp [versions]
      have h := ih hrest hdone' fun g' hg' ↦ hgs g' (List.mem_cons_of_mem _ hg')
      rw [List.append_assoc, List.append_assoc] at h
      rw [place, if_pos hopen, layer]
      exact h

end MemberGroup

/-! ### The closed form -/

namespace Declarations

variable {d : Declarations} {k : GroupKey} {n : Nat} {v : Version} {m : Member}

/-- **The groups of a key are its slots**, where every version comes once. -/
theorem groups_filter_key (hd : d.versions.Nodup) (k : GroupKey) (n : Nat) :
    (d.groups.filter (·.key = k))[n]? = MemberGroup.ofSlot? k (d.slot k n) := by
  induction d using List.reverseRecOn generalizing n with
  | nil => rfl
  | append_singleton d input ih =>
    rw [versions, List.map_append, List.nodup_append] at hd
    obtain ⟨hd, -, hnew⟩ := hd
    -- no group of the earlier versions has the new version
    have hgs : ∀ g ∈ (groups d).filter (·.key = k), g.key = k ∧ input.1 ∉ g.versions := by
      intro g hg
      obtain ⟨i, hi⟩ := List.mem_iff_getElem?.1 hg
      rw [ih hd] at hi
      obtain ⟨-, rfl⟩ := MemberGroup.ofSlot?_eq_some.1 hi
      refine ⟨rfl, fun hmem ↦ ?_⟩
      obtain ⟨⟨w, m⟩, hslot, hw⟩ := List.mem_map.1 hmem
      exact hnew _ (mem_versions_of_mem_slot hslot) _ (List.mem_singleton_self _) hw
    have hms : ∀ m ∈ input.2.filter (·.groupKey = k), m.groupKey = k := fun m hm ↦ by
      simpa using (List.mem_filter.1 hm).2
    have hnone : ∀ g ∈ ([] : List MemberGroup), input.1 ∈ g.versions :=
      fun g hg ↦ absurd hg List.not_mem_nil
    have hlayer := MemberGroup.foldl_place hms hnone hgs
    rw [groups, List.foldl_append, List.foldl_cons, List.foldl_nil,
      MemberGroup.filter_foldl_place, ← groups, slot_concat]
    rw [List.nil_append, List.nil_append] at hlayer
    rw [hlayer, MemberGroup.getElem?_layer (ih hd)]

theorem mem_groups (hd : d.versions.Nodup) {g : MemberGroup} :
    g ∈ d.groups ↔ ∃ n, d.slot g.key n ≠ [] ∧ g = ⟨g.key, d.slot g.key n⟩ := by
  have hkey : g ∈ d.groups ↔ g ∈ d.groups.filter (·.key = g.key) := by simp
  rw [hkey, List.mem_iff_getElem?]
  simp only [groups_filter_key hd, MemberGroup.ofSlot?_eq_some]

/-- The group of a slot that is not empty. -/
theorem slot_mem_groups (hd : d.versions.Nodup) (h : d.slot k n ≠ []) :
    (⟨k, d.slot k n⟩ : MemberGroup) ∈ d.groups :=
  (mem_groups hd).2 ⟨n, h, rfl⟩

end Declarations

/-! ### The groups as one version sees them -/

/-- The declaration that a version contributes to a group. -/
def MemberGroup.at? (g : MemberGroup) (v : Version) : Option Member :=
  (g.decls.find? (·.1 = v)).map (·.2)

theorem MemberGroup.at?_eq_some {g : MemberGroup} (hg : g.versions.Nodup) {v : Version}
    {m : Member} : g.at? v = some m ↔ (v, m) ∈ g.decls := by
  rw [at?, Option.map_eq_some_iff]
  constructor
  · rintro ⟨e, he, rfl⟩
    have hv : e.1 = v := by simpa using List.find?_some he
    exact hv ▸ List.mem_of_find?_eq_some he
  · intro h
    obtain ⟨e, he⟩ : ∃ e, g.decls.find? (·.1 = v) = some e :=
      Option.isSome_iff_exists.1 (List.find?_isSome.2 ⟨(v, m), h, decide_eq_true rfl⟩)
    have hv : e.1 = v := by simpa using List.find?_some he
    refine ⟨e, he, ?_⟩
    rw [List.inj_on_of_nodup_map hg (List.mem_of_find?_eq_some he) h hv]

namespace Declarations

variable {d : Declarations} {v : Version} {m : Member}

theorem nodup_versions_of_mem_groups (hd : d.versions.Nodup) {g : MemberGroup}
    (hg : g ∈ d.groups) : g.versions.Nodup := by
  obtain ⟨n, -, hn⟩ := (mem_groups hd).1 hg
  rw [hn]
  exact nodup_slot hd

/-- No group is empty. -/
theorem exists_mem_decls (hd : d.versions.Nodup) {g : MemberGroup} (hg : g ∈ d.groups) :
    ∃ e, e ∈ g.decls := by
  obtain ⟨n, hne, hn⟩ := (mem_groups hd).1 hg
  rw [hn]
  exact List.exists_mem_of_ne_nil _ hne

theorem at?_groups_eq_some (hd : d.versions.Nodup) {g : MemberGroup} (hg : g ∈ d.groups) :
    g.at? v = some m ↔ (v, m) ∈ g.decls :=
  MemberGroup.at?_eq_some (nodup_versions_of_mem_groups hd hg)

/-- A declaration stands in a group of its own key. -/
theorem groupKey_of_mem_decls (hd : d.versions.Nodup) {g : MemberGroup} (hg : g ∈ d.groups)
    (h : (v, m) ∈ g.decls) : m.groupKey = g.key := by
  obtain ⟨n, -, hn⟩ := (mem_groups hd).1 hg
  rw [hn] at h
  exact groupKey_of_mem_slot h

/-- A declaration in a group is one of its version. -/
theorem exists_of_mem_decls (hd : d.versions.Nodup) {g : MemberGroup} (hg : g ∈ d.groups)
    (h : (v, m) ∈ g.decls) : ∃ ms, (v, ms) ∈ d ∧ m ∈ ms := by
  obtain ⟨n, -, hn⟩ := (mem_groups hd).1 hg
  rw [hn] at h
  obtain ⟨ms, hms, hget⟩ := mem_slot.1 h
  exact ⟨ms, hms, (List.mem_filter.1 (List.mem_of_getElem? hget)).1⟩

/-- A version contributes to the `n`-th slot of a key its `n`-th declaration of the key. -/
theorem at?_slot (hd : d.versions.Nodup) {ms : List Member} (hv : (v, ms) ∈ d) (k : GroupKey)
    (n : Nat) : MemberGroup.at? ⟨k, d.slot k n⟩ v = (ms.filter (·.groupKey = k))[n]? := by
  have hnodup : (⟨k, d.slot k n⟩ : MemberGroup).versions.Nodup := nodup_slot hd
  refine Option.ext fun m ↦ ?_
  rw [MemberGroup.at?_eq_some hnodup]
  constructor
  · intro h
    obtain ⟨ms', hv', hget⟩ := mem_slot.1 h
    have hsame : (v, ms') = (v, ms) := List.inj_on_of_nodup_map hd hv' hv rfl
    rwa [← (Prod.mk.inj hsame).2]
  · intro h
    exact mem_slot.2 ⟨ms, hv, h⟩

/-- **What the groups of a key make of the declarations of a version**: the `n`-th group of the key
has the version's `n`-th declaration of it. -/
theorem filter_filterMap_at?_groups (hd : d.versions.Nodup) {ms : List Member} (hv : (v, ms) ∈ d)
    {β : Type} {f : MemberGroup → Member → β} {key : β → GroupKey}
    (hkey : ∀ g a, key (f g a) = a.groupKey) (k : GroupKey) :
    (d.groups.filterMap fun g ↦ (g.at? v).map (f g)).filter (key · = k) =
      (ms.filter (·.groupKey = k)).mapIdx fun n ↦ f ⟨k, d.slot k n⟩ := by
  -- the declarations of a key come from the groups of the key
  have hexchange : (d.groups.filterMap fun g ↦ (g.at? v).map (f g)).filter (key · = k) =
      (d.groups.filter (·.key = k)).filterMap fun g ↦ (g.at? v).map (f g) := by
    rw [List.filter_filterMap, List.filterMap_filter]
    refine List.filterMap_congr fun g hg ↦ ?_
    cases hat : g.at? v with
    | none => simp
    | some a =>
      have ha := groupKey_of_mem_decls hd hg ((at?_groups_eq_some hd hg).1 hat)
      by_cases hk : g.key = k <;> simp [hkey, ha, hk]
  rw [hexchange]
  refine filterMap_eq_of_getElem? fun n ↦ ?_
  rw [groups_filter_key hd, List.getElem?_mapIdx, ← at?_slot hd hv]
  cases h : MemberGroup.ofSlot? k (d.slot k n) with
  | none => rw [MemberGroup.ofSlot?_eq_none.1 h]; rfl
  | some g => rw [(MemberGroup.ofSlot?_eq_some.1 h).2, Option.bind_some]

/-- **The groups hold the members of a version, each once.** -/
theorem filterMap_at?_groups (hd : d.versions.Nodup) {ms : List Member} (hv : (v, ms) ∈ d) :
    (d.groups.filterMap (·.at? v)).Perm ms := by
  refine perm_of_filter_key Member.groupKey fun k ↦ ?_
  have hsame : ∀ l : List Member, l.mapIdx (fun _ a ↦ a) = l := fun l ↦
    List.ext_getElem? fun n ↦ by rw [List.getElem?_mapIdx, Option.map_id']
  have hfilter := filter_filterMap_at?_groups hd hv (f := fun _ a ↦ a) (fun _ _ ↦ rfl) k
  simpa only [Option.map_id', hsame] using hfilter

end Declarations

end ClassWeave
