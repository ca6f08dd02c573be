import ClassWeave.Merge.Hierarchy
import ClassWeave.Proofs.Chain
import ClassWeave.Proofs.Ordered.Map
import Mathlib.Data.List.Find

/-!
# Superclass chains of a hierarchy

The chain of a class in a version holds the classes above it as far as the hierarchy knows them: it
is the set of what `Hierarchy.Reaches`, one known superclass after the other (`mem_chain_iff`). It
is complete exactly if it gets to the root (`isTruncated_eq_false_iff`).

A hierarchy that knows more lengthens the chains at their ends and nowhere else (`chain_prefix`),
and leaves a complete chain alone (`chain_eq_of_complete`). What it knows comes from trees, each of
which tells one superclass in one version (`superOf?_ofTrees`).

Two conditions on a hierarchy concern its versions together. They may be free of contradictions
(`Agrees`), and free of cycles (`Acyclic`): no way up comes back to where it started, even if each
of its steps is taken in another version.
-/

namespace ClassWeave.Hierarchy

variable {h h' : Hierarchy} {v : Version} {a b c : ClassName}

/-! ### What trees tell -/

theorem superOf?_insert (h : Hierarchy) (v w : Version) (a b superclass : ClassName) :
    (h.insert v a superclass).superOf? b w =
      if w = v ∧ b = a then some superclass else h.superOf? b w := by
  simp only [superOf?, insert, OrderedMap.get?_insert, Occurrence.mk.injEq]

theorem ofTrees_concat (trees : List (Version × ClassTree)) (t : Version × ClassTree) :
    ofTrees (trees ++ [t]) = (ofTrees trees).insert t.1 t.2.name t.2.superclass :=
  List.foldl_concat ..

/-- **The last tree of a class in a version tells its superclass.** -/
theorem superOf?_ofTrees (trees : List (Version × ClassTree)) (cls : ClassName) (v : Version) :
    (ofTrees trees).superOf? cls v =
      (trees.reverse.find? fun t ↦ v = t.1 ∧ cls = t.2.name).map (·.2.superclass) := by
  induction trees using List.reverseRecOn with
  | nil => rfl
  | append_singleton trees t ih =>
    rw [ofTrees_concat, superOf?_insert, ih, List.reverse_concat, List.find?_cons]
    by_cases ht : v = t.1 ∧ cls = t.2.name
    · rw [if_pos ht, decide_eq_true ht]
      rfl
    · rw [if_neg ht, decide_eq_false ht]

/-- A search through several lists that can end in one of them only. -/
theorem findSome?_eq_of_forall_ne {α β : Type} {f : α → Option β} {a : α} {l : List α}
    (hother : ∀ b ∈ l, b ≠ a → f b = none) (ha : a ∉ l → f a = none) : l.findSome? f = f a := by
  induction l with
  | nil => exact (ha List.not_mem_nil).symm
  | cons b l ih =>
    have hother' : ∀ b' ∈ l, b' ≠ a → f b' = none := fun b' hb' ↦
      hother b' (List.mem_cons_of_mem _ hb')
    rw [List.findSome?_cons]
    by_cases hb : b = a
    · subst hb
      cases hfound : f b with
      | some x => rfl
      | none => exact (ih hother' fun _ ↦ hfound).trans hfound
    · rw [hother b List.mem_cons_self hb]
      exact ih hother' fun hmem ↦ ha fun h ↦ (List.mem_cons.1 h).elim (hb ∘ Eq.symm) hmem

/-- Where trees stand in groups that bear their names, those of its group tell the superclass of a
class. -/
theorem superOf?_ofTrees_flatMap {classes : List ClassName}
    (told : ClassName → List (Version × ClassTree)) (hname : ∀ a, ∀ t ∈ told a, t.2.name = a)
    (hc : c ∉ classes → told c = []) (v : Version) :
    (ofTrees (classes.flatMap told)).superOf? c v =
      ((told c).reverse.find? (v = ·.1)).map (·.2.superclass) := by
  have hother : ∀ a, a ≠ c → (told a).reverse.find? (fun t ↦ v = t.1 ∧ c = t.2.name) = none := by
    intro a ha
    refine List.find?_eq_none.2 fun t ht ↦ ?_
    simp [hname a t (List.mem_reverse.1 ht), ha.symm]
  have hown : (told c).reverse.find? (fun t ↦ v = t.1 ∧ c = t.2.name) =
      (told c).reverse.find? (v = ·.1) := by
    refine List.find?_congr fun t ht ↦ ?_
    simp [hname c t (List.mem_reverse.1 ht)]
  have hsearch := findSome?_eq_of_forall_ne (l := classes.reverse)
    (f := fun a ↦ (told a).reverse.find? fun t ↦ v = t.1 ∧ c = t.2.name)
    (fun a _ ↦ hother a) fun hc' ↦ by rw [hc (mt List.mem_reverse.2 hc')]; rfl
  rw [superOf?_ofTrees, List.reverse_flatMap, List.find?_flatMap]
  exact congrArg _ (hsearch.trans hown)

/-! ### Versions that agree -/

/-- The versions never contradict each other about the superclass of a class. -/
def Agrees (h : Hierarchy) : Prop :=
  ∀ cls v w a b, h.superOf? cls v = some a → h.superOf? cls w = some b → a = b

theorem agrees_iff : h.Agrees ↔
    ∀ e ∈ h.supers.entries, ∀ e' ∈ h.supers.entries, e.1.cls = e'.1.cls → e.2 = e'.2 := by
  constructor
  · rintro hagree ⟨⟨v, a⟩, b⟩ he ⟨⟨w, a'⟩, b'⟩ he' rfl
    exact hagree a v w b b' (OrderedMap.get?_eq_some_iff.2 he) (OrderedMap.get?_eq_some_iff.2 he')
  · intro hagree cls v w a b ha hb
    exact hagree _ (OrderedMap.get?_eq_some_iff.1 ha) _ (OrderedMap.get?_eq_some_iff.1 hb) rfl

instance (h : Hierarchy) : Decidable h.Agrees := decidable_of_iff _ agrees_iff.symm

/-! ### The class above -/

theorem above?_object (h : Hierarchy) (v : Version) : h.above? v .object = none :=
  if_pos (by decide)

/-- The root has no class above it, and every other class has its superclass there. -/
theorem above?_eq_some_iff :
    h.above? v a = some b ↔ a.isObject = false ∧ h.superOf? a v = some b := by
  rw [above?]
  cases a.isObject <;> simp

theorem superOf?_of_above? (hab : h.above? v a = some b) : h.superOf? a v = some b :=
  (above?_eq_some_iff.1 hab).2

/-- A class with a class above it has an entry. -/
theorem exists_entry_of_above? (hab : h.above? v a = some b) : (⟨v, a⟩, b) ∈ h.supers.entries :=
  OrderedMap.get?_eq_some_iff.1 (superOf?_of_above? hab)

/-! ### Chains -/

/-- A complete chain leads to the root. -/
theorem leadsTo_chain (hc : isTruncated (h.chain v c) = false) :
    Chain.LeadsTo (h.above? v) .object (h.chain v c) where
  isChain := Chain.isChain_walk _ _ _ _
  getLast? := by simpa [isTruncated] using hc

/-- One class is the other, or stands above it, by the superclasses that a version is known to
give. -/
def Reaches (h : Hierarchy) (v : Version) : ClassName → ClassName → Prop :=
  Relation.ReflTransGen fun a b ↦ h.above? v a = some b

/-- Nothing is above the root. -/
theorem eq_object_of_reaches (hc : h.Reaches v .object c) : c = .object := by
  rcases Relation.ReflTransGen.cases_head hc with rfl | ⟨a, hstep, -⟩
  · rfl
  · rw [h.above?_object] at hstep
    cases hstep

/-- A class with a superclass has an entry of its own, so the bound does not end the chain. -/
theorem isWalk_chain (h : Hierarchy) (v : Version) (start : ClassName) :
    Chain.IsWalk (h.above? v) [] start (h.chain v start) := by
  have hkeys : ∀ a b, h.above? v a = some b → a ∈ h.supers.entries.map (·.1.cls) := fun a b hab ↦
    List.mem_map.2 ⟨_, exists_entry_of_above? hab, rfl⟩
  exact Chain.isWalk_walk hkeys (List.length_map _).le

/-- **A chain holds what can be reached**, and nothing else. -/
theorem mem_chain_iff : b ∈ h.chain v a ↔ h.Reaches v a b :=
  ⟨Chain.reaches_of_mem_walk, (isWalk_chain h v a).mem_of_reaches⟩

/-- What stands behind a class on a chain is above it. -/
theorem reaches_of_suffix {l : List ClassName} (hl : a :: l <:+ h.chain v c) (hb : b ∈ a :: l) :
    h.Reaches v a b := by
  have hchain : (a :: l).IsChain fun a b ↦ h.above? v a = some b :=
    (Chain.isChain_walk (h.above? v) h.size [] c).suffix hl
  rcases List.mem_cons.1 hb with rfl | hb
  · exact .refl
  · obtain ⟨before, after, rfl⟩ := List.append_of_mem hb
    rw [← List.cons_append] at hchain
    exact (Chain.transGen_of_isChain hchain List.mem_cons_self).to_reflTransGen

/-- A chain that the root is on ends there. -/
theorem isTruncated_eq_false_iff : isTruncated (h.chain v c) = false ↔ h.Reaches v c .object := by
  constructor
  · intro hc
    exact mem_chain_iff.1 (List.mem_of_getLast? (leadsTo_chain hc).getLast?)
  · intro hobject
    obtain ⟨before, after, hsplit⟩ := List.append_of_mem (mem_chain_iff.2 hobject)
    have hchain : (before ++ .object :: after).IsChain fun a b ↦ h.above? v a = some b :=
      hsplit ▸ Chain.isChain_walk (h.above? v) h.size [] c
    have hafter : after = [] := by
      cases after with
      | nil => rfl
      | cons b after =>
        have hstep := (List.isChain_cons_cons.1 hchain.right_of_append).1
        rw [above?_object] at hstep
        cases hstep
    rw [isTruncated, hsplit, hafter, List.getLast?_concat]
    simp

/-! ### Hierarchies that know more -/

/-- The other hierarchy has every entry of this one. -/
def ContainedIn (h h' : Hierarchy) : Prop :=
  ∀ cls v a, h.superOf? cls v = some a → h'.superOf? cls v = some a

theorem containedIn_iff : h.ContainedIn h' ↔ h.supers.entries ⊆ h'.supers.entries := by
  constructor
  · rintro hsub ⟨⟨v, a⟩, b⟩ he
    exact OrderedMap.get?_eq_some_iff.1 (hsub a v b (OrderedMap.get?_eq_some_iff.2 he))
  · intro hsub cls v a ha
    exact OrderedMap.get?_eq_some_iff.2 (hsub (OrderedMap.get?_eq_some_iff.1 ha))

instance (h h' : Hierarchy) : Decidable (h.ContainedIn h') :=
  decidable_of_iff (∀ e ∈ h.supers.entries, e ∈ h'.supers.entries) containedIn_iff.symm

theorem ContainedIn.size_le (hsub : h.ContainedIn h') : h.size ≤ h'.size :=
  (h.supers.nodup_keys.of_map _ |>.subperm (containedIn_iff.1 hsub)).length_le

theorem ContainedIn.above? (hsub : h.ContainedIn h') (hab : h.above? v a = some b) :
    h'.above? v a = some b := by
  rw [Hierarchy.above?] at hab ⊢
  split at hab
  · cases hab
  · rename_i hobject
    rw [if_neg hobject]
    exact hsub a v b hab

theorem Reaches.of_containedIn (hab : h.Reaches v a b) (hsub : h.ContainedIn h') :
    h'.Reaches v a b :=
  Relation.ReflTransGen.mono (fun _ _ hstep ↦ hsub.above? hstep) a b hab

/-- **Knowing more lengthens a chain at its end.** -/
theorem chain_prefix (hsub : h.ContainedIn h') (v : Version) (c : ClassName) :
    h.chain v c <+: h'.chain v c :=
  Chain.walk_prefix (fun _ _ ↦ hsub.above?) hsub.size_le [] c

/-- **Knowing more does not change a complete chain.** -/
theorem chain_eq_of_complete (hsub : h.ContainedIn h')
    (hc : isTruncated (h.chain v c) = false) : h'.chain v c = h.chain v c := by
  obtain ⟨more, hmore⟩ := chain_prefix hsub v c
  obtain ⟨before, hbefore⟩ := List.getLast?_eq_some_iff.1 (leadsTo_chain hc).getLast?
  cases more with
  | nil => rw [← hmore, List.append_nil]
  | cons b more =>
    -- the longer chain would go on above the root
    have hchain : (h'.chain v c).IsChain fun a b ↦ h'.above? v a = some b :=
      Chain.isChain_walk (h'.above? v) h'.size [] c
    rw [← hmore, hbefore, List.append_assoc] at hchain
    have hstep := (List.isChain_cons_cons.1 hchain.right_of_append).1
    rw [above?_object] at hstep
    cases hstep

/-! ### Cycles -/

/-- Some version gives the class this class above it. -/
def Rises (h : Hierarchy) (a b : ClassName) : Prop := ∃ v, h.above? v a = some b

/-- No class comes to stand above itself, whichever versions the steps are taken in. The root has
nothing above it and is on no cycle. -/
def Acyclic (h : Hierarchy) : Prop := ∀ c, ¬ Relation.TransGen h.Rises c c

/-- Classes that stand higher at each step are on no cycle. -/
theorem acyclic_of_height (height : ClassName → ℕ)
    (hheight : ∀ e ∈ h.supers.entries, e.1.cls.isObject = false → height e.1.cls < height e.2) :
    h.Acyclic := by
  have hrises : ∀ a b, h.Rises a b → height a < height b := by
    rintro a b ⟨v, hab⟩
    refine hheight _ (exists_entry_of_above? hab) ?_
    rw [above?] at hab
    split at hab
    · cases hab
    · exact Bool.eq_false_iff.2 ‹_›
  intro c hc
  have hlt : Relation.TransGen (· < ·) (height c) (height c) := hc.lift height hrises
  rw [Relation.transGen_eq_self] at hlt
  exact Nat.lt_irrefl _ hlt

theorem Reaches.rises (hab : h.Reaches v a b) : Relation.ReflTransGen h.Rises a b :=
  Relation.ReflTransGen.mono (fun _ _ hstep ↦ ⟨v, hstep⟩) a b hab

end ClassWeave.Hierarchy
