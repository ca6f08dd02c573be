import ClassWeave.Proofs.Merge.Hierarchy

/-!
# Climbing to the root

The superclasses of a class are collected one after the other, until the root is there, or the next
superclass is unknown or was collected before. `Hierarchy.Climb` is this loop, without a bound and
with its two outcomes. What a turn keeps is `Hierarchy.Collects`: the classes so far lead from the
start to the current class, none of them is there twice, and the root is not among those that the
climb went on from. Where the loop stops, that leaves one list only (`Hierarchy.IsChainOf`).

The chain of a hierarchy is walked with a bound, which is the number of its entries. The climb ends
with that chain (`Hierarchy.climb_iff`): each class that it goes on from has an entry of its own, so
the bound is never what ends the walk (`isWalk_chain`), and a walk that no bound ends is a climb
(`climb_walk`). Both accounts of a chain, and what becomes of it in a hierarchy that knows more, are
put together in `Hierarchy.chain_finite_and_exact`.
-/

namespace ClassWeave.Hierarchy

variable {h h' : Hierarchy} {v : Version} {start c d : ClassName}
  {classes all all' : List ClassName} {broken broken' : Bool}

/-! ### The loop -/

/-- A climb that has collected classes and come to the last of them: the classes that it has in the
end, and whether it broke off below the root. -/
inductive Climb (h : Hierarchy) (v : Version) :
    List ClassName → ClassName → List ClassName → Bool → Prop where
  | root {classes : List ClassName} {c : ClassName} (hroot : c.isObject = true) :
      Climb h v classes c classes false
  | unknown {classes : List ClassName} {c : ClassName} (hroot : c.isObject = false)
      (hsuper : h.superOf? c v = none) : Climb h v classes c classes true
  | again {classes : List ClassName} {c d : ClassName} (hroot : c.isObject = false)
      (hsuper : h.superOf? c v = some d) (hmem : d ∈ classes) : Climb h v classes c classes true
  | step {classes all : List ClassName} {c d : ClassName} {broken : Bool}
      (hroot : c.isObject = false) (hsuper : h.superOf? c v = some d) (hmem : d ∉ classes)
      (hrest : Climb h v (classes ++ [d]) d all broken) : Climb h v classes c all broken

/-- **A climb has no more than one outcome.** -/
theorem Climb.unique (hclimb : h.Climb v classes c all broken)
    (hclimb' : h.Climb v classes c all' broken') : all = all' ∧ broken = broken' := by
  induction hclimb with
  | root hroot => cases hclimb' <;> simp_all
  | unknown hroot hsuper => cases hclimb' <;> simp_all
  | again hroot hsuper hmem => cases hclimb' <;> simp_all
  | step hroot hsuper hmem hrest ih =>
    cases hclimb' with
    | root hroot' => simp_all
    | unknown hroot' hsuper' => simp_all
    | again hroot' hsuper' hmem' => simp_all
    | step hroot' hsuper' hmem' hrest' =>
      obtain rfl := Option.some.inj (hsuper.symm.trans hsuper')
      exact ih hrest'

/-! ### What it keeps -/

/-- The classes that a climb from a class has collected when it has come to the last of them. -/
structure Collects (h : Hierarchy) (v : Version) (start : ClassName) (classes : List ClassName)
    (c : ClassName) : Prop where
  head? : classes.head? = some start
  getLast? : classes.getLast? = some c
  nodup : classes.Nodup
  supers : classes.IsChain fun a b ↦ h.superOf? a v = some b
  /-- Nothing was collected behind the root. -/
  root_last : ClassName.object ∉ classes.dropLast

/-- The superclass chain of a class in a version: it ends with the root, or where the next class is
not known or would come a second time. -/
structure IsChainOf (h : Hierarchy) (v : Version) (start : ClassName) (classes : List ClassName) :
    Prop where
  head? : classes.head? = some start
  nodup : classes.Nodup
  supers : classes.IsChain fun a b ↦ h.superOf? a v = some b
  root_last : ClassName.object ∉ classes.dropLast
  ends : ∀ c, classes.getLast? = some c → c ≠ .object → ∀ d, h.superOf? c v = some d → d ∈ classes

theorem collects_start (h : Hierarchy) (v : Version) (start : ClassName) :
    h.Collects v start [start] start where
  head? := rfl
  getLast? := rfl
  nodup := List.nodup_singleton start
  supers := List.isChain_singleton start
  root_last := List.not_mem_nil

theorem ne_object_of_isObject (hroot : c.isObject = false) : c ≠ .object := of_decide_eq_false hroot

/-- **A turn of the loop** collects the superclass. -/
theorem Collects.step (hc : h.Collects v start classes c) (hroot : c.isObject = false)
    (hsuper : h.superOf? c v = some d) (hmem : d ∉ classes) :
    h.Collects v start (classes ++ [d]) d where
  head? := by
    rw [List.head?_append, hc.head?]
    rfl
  getLast? := List.getLast?_concat
  nodup := by
    rw [← List.concat_eq_append]
    exact hc.nodup.concat hmem
  supers := by
    refine List.isChain_append.2 ⟨hc.supers, List.isChain_singleton d, fun a ha b hb ↦ ?_⟩
    obtain rfl : c = a := Option.some.inj (hc.getLast?.symm.trans ha)
    obtain rfl : d = b := Option.some.inj hb
    exact hsuper
  root_last := by
    rw [List.dropLast_concat]
    intro hobject
    obtain ⟨front, hfront⟩ := List.getLast?_eq_some_iff.1 hc.getLast?
    have hfinal := hc.root_last
    rw [hfront, List.dropLast_concat] at hfinal
    rw [hfront] at hobject
    rcases List.mem_append.1 hobject with hbefore | hlast
    · exact hfinal hbefore
    · exact ne_object_of_isObject hroot (List.mem_singleton.1 hlast).symm

/-- Where the climb stops, it has collected the chain. -/
theorem Collects.isChainOf (hc : h.Collects v start classes c)
    (hends : c ≠ .object → ∀ d, h.superOf? c v = some d → d ∈ classes) :
    h.IsChainOf v start classes where
  head? := hc.head?
  nodup := hc.nodup
  supers := hc.supers
  root_last := hc.root_last
  ends a ha := by
    obtain rfl : c = a := Option.some.inj (hc.getLast?.symm.trans ha)
    exact hends

/-- **What a climb ends with** is the chain, and it broke off exactly if the root is not there. -/
theorem Climb.isChainOf (hclimb : h.Climb v classes c all broken)
    (hc : h.Collects v start classes c) :
    h.IsChainOf v start all ∧ (broken = false ↔ all.getLast? = some .object) := by
  induction hclimb with
  | root hroot =>
    obtain rfl := of_decide_eq_true hroot
    exact ⟨hc.isChainOf (absurd rfl), by simp [hc.getLast?]⟩
  | unknown hroot hsuper =>
    refine ⟨hc.isChainOf fun _ d hd ↦ ?_, by simp [hc.getLast?, ne_object_of_isObject hroot]⟩
    rw [hsuper] at hd
    cases hd
  | again hroot hsuper hmem =>
    refine ⟨hc.isChainOf fun _ d hd ↦ ?_, by simp [hc.getLast?, ne_object_of_isObject hroot]⟩
    rw [hsuper] at hd
    cases hd
    exact hmem
  | step hroot hsuper hmem _ ih => exact ih (hc.step hroot hsuper hmem)

/-! ### It ends with the chain of the hierarchy -/

theorem isTruncated_cons {l : List ClassName} (hl : l ≠ []) (c : ClassName) :
    isTruncated (c :: l) = isTruncated l := by
  rw [isTruncated, List.getLast?_cons_of_ne_nil hl, isTruncated]

theorem isTruncated_singleton (c : ClassName) : isTruncated [c] = !c.isObject := by
  simp [isTruncated, ClassName.isObject]

/-- A walk through the hierarchy is a climb. -/
theorem climb_walk {passed cs : List ClassName} (hwalk : Chain.IsWalk (h.above? v) passed c cs) :
    h.Climb v (passed.reverse ++ [c]) c (passed.reverse ++ cs) (isTruncated cs) := by
  induction hwalk with
  | @last passed c hlast =>
    rw [isTruncated_singleton]
    cases hroot : c.isObject with
    | true => exact .root hroot
    | false =>
      refine .unknown hroot (Option.eq_none_iff_forall_ne_some.2 fun d hd ↦ ?_)
      rw [above?_eq_some_iff.2 ⟨hroot, hd⟩] at hlast
      cases hlast
  | again hnew hnext hpassed =>
    obtain ⟨hroot, hsuper⟩ := above?_eq_some_iff.1 hnext
    rw [isTruncated_singleton, hroot]
    refine .again hroot hsuper ?_
    rwa [← List.reverse_cons, List.mem_reverse]
  | step hnew hnext hfresh hrest ih =>
    obtain ⟨hroot, hsuper⟩ := above?_eq_some_iff.1 hnext
    obtain ⟨rest, rfl⟩ := hrest.exists_eq_cons
    rw [isTruncated_cons (List.cons_ne_nil _ rest)]
    rw [List.reverse_cons, List.append_assoc _ [_] (_ :: rest)] at ih
    refine .step hroot hsuper ?_ ih
    rwa [← List.reverse_cons, List.mem_reverse]

/-- **A climb ends with the chain of the hierarchy**, from every class, in every version. -/
theorem climb_iff : h.Climb v [start] start all broken ↔
    all = h.chain v start ∧ broken = isTruncated (h.chain v start) := by
  have hclimb : h.Climb v [start] start (h.chain v start) (isTruncated (h.chain v start)) :=
    climb_walk (isWalk_chain h v start)
  refine ⟨fun hother ↦ hother.unique hclimb, ?_⟩
  rintro ⟨rfl, rfl⟩
  exact hclimb

theorem isChainOf_chain (h : Hierarchy) (v : Version) (start : ClassName) :
    h.IsChainOf v start (h.chain v start) :=
  ((climb_iff.2 ⟨rfl, rfl⟩).isChainOf (collects_start h v start)).1

/-! ### There is one chain -/

/-- Two ways along superclasses from one class do not part. -/
theorem prefix_or_prefix (hall : all.IsChain fun a b ↦ h.superOf? a v = some b)
    (hall' : all'.IsChain fun a b ↦ h.superOf? a v = some b) (hhead : all.head? = all'.head?) :
    all <+: all' ∨ all' <+: all := by
  induction all generalizing all' with
  | nil => exact .inl (List.nil_prefix)
  | cons a all ih =>
    cases all' with
    | nil => exact .inr (List.nil_prefix)
    | cons b all' =>
      obtain rfl : a = b := Option.some.inj hhead
      cases all with
      | nil => exact .inl (List.cons_prefix_cons.2 ⟨rfl, List.nil_prefix⟩)
      | cons c all =>
        cases all' with
        | nil => exact .inr (List.cons_prefix_cons.2 ⟨rfl, List.nil_prefix⟩)
        | cons d all' =>
          obtain ⟨hc, hrest⟩ := List.isChain_cons_cons.1 hall
          obtain ⟨hd, hrest'⟩ := List.isChain_cons_cons.1 hall'
          have hhead' : (c :: all).head? = (d :: all').head? := hc.symm.trans hd
          exact (ih hrest hrest' hhead').imp (fun hle ↦ List.cons_prefix_cons.2 ⟨rfl, hle⟩)
            (fun hle ↦ List.cons_prefix_cons.2 ⟨rfl, hle⟩)

theorem IsChainOf.exists_eq_concat (hall : h.IsChainOf v start all) :
    ∃ front last, all = front ++ [last] := by
  rcases List.eq_nil_or_concat' all with rfl | hconcat
  · cases hall.head?
  · exact hconcat

/-- A chain does not go on where another one ends. -/
theorem IsChainOf.eq_of_prefix (hall : h.IsChainOf v start all) (hall' : h.IsChainOf v start all')
    (hle : all <+: all') : all = all' := by
  obtain ⟨more, rfl⟩ := hle
  cases more with
  | nil => exact (List.append_nil all).symm
  | cons d more =>
    obtain ⟨front, c, rfl⟩ := hall.exists_eq_concat
    have hsupers := hall'.supers
    rw [List.append_assoc, List.singleton_append] at hsupers
    have hsuper : h.superOf? c v = some d :=
      (List.isChain_cons_cons.1 hsupers.right_of_append).1
    have hroot : c ≠ .object := by
      rintro rfl
      refine hall'.root_last ?_
      rw [List.dropLast_append_of_ne_nil (List.cons_ne_nil d more)]
      simp
    have hmem := hall.ends c List.getLast?_concat hroot d hsuper
    exact absurd rfl ((List.nodup_append.1 hall'.nodup).2.2 d hmem d List.mem_cons_self)

/-- **The chain of the hierarchy is the only one.** -/
theorem isChainOf_iff : h.IsChainOf v start all ↔ all = h.chain v start := by
  constructor
  · intro hall
    have hchain := isChainOf_chain h v start
    rcases prefix_or_prefix hall.supers hchain.supers (hall.head?.trans hchain.head?.symm) with
      hle | hle
    · exact hall.eq_of_prefix hchain hle
    · exact (hchain.eq_of_prefix hall hle).symm
  · rintro rfl
    exact isChainOf_chain h v start

/-- Each class of a chain but the last has an entry of its own. -/
theorem length_chain_le (h : Hierarchy) (v : Version) (start : ClassName) :
    (h.chain v start).length ≤ h.size + 1 := by
  have hchain := isChainOf_chain h v start
  have hkeys : (h.chain v start).dropLast ⊆ h.supers.entries.map (·.1.cls) := by
    intro c hc
    obtain ⟨front, last, hconcat⟩ := hchain.exists_eq_concat
    rw [hconcat, List.dropLast_concat] at hc
    obtain ⟨before, after, rfl⟩ := List.append_of_mem hc
    have hsupers := hchain.supers
    rw [hconcat, List.append_assoc, List.cons_append] at hsupers
    obtain ⟨d, rest, hrest⟩ : ∃ d rest, after ++ [last] = d :: rest :=
      List.exists_cons_of_ne_nil (by simp)
    rw [hrest] at hsupers
    have hsuper := (List.isChain_cons_cons.1 hsupers.right_of_append).1
    exact List.mem_map.2 ⟨_, OrderedMap.get?_eq_some_iff.1 hsuper, rfl⟩
  have hlength := ((hchain.nodup.sublist (List.dropLast_sublist _)).subperm hkeys).length_le
  rw [List.length_dropLast, List.length_map] at hlength
  change _ ≤ h.size at hlength
  omega

/-- **Superclass chains are finite and exact.** From every class the climb ends, with the chain and
with a flag that says whether it broke off below the root. The chain is the one list of distinct
classes from the start on in which each next class is the superclass of the one before, the root can
only be last, and the end is the root or a class whose superclass is unknown or already there. In a
hierarchy that knows more, it is the beginning of the chain. -/
theorem chain_finite_and_exact (h : Hierarchy) (v : Version) (start : ClassName) :
    (∀ classes broken, h.Climb v [start] start classes broken ↔
      classes = h.chain v start ∧ broken = isTruncated (h.chain v start)) ∧
    (∀ classes, h.IsChainOf v start classes ↔ classes = h.chain v start) ∧
    (h.chain v start).length ≤ h.size + 1 ∧
    (isTruncated (h.chain v start) = false ↔ (h.chain v start).getLast? = some .object) ∧
    (isTruncated (h.chain v start) = true → ∃ last, (h.chain v start).getLast? = some last ∧
      (h.superOf? last v = none ∨ ∃ d ∈ h.chain v start, h.superOf? last v = some d)) ∧
    ∀ h', h.ContainedIn h' → h.chain v start <+: h'.chain v start := by
  have hchain := isChainOf_chain h v start
  have hflag := ((climb_iff.2 ⟨rfl, rfl⟩).isChainOf (collects_start h v start)).2
  refine ⟨fun _ _ ↦ climb_iff, fun _ ↦ isChainOf_iff, length_chain_le h v start, hflag,
    fun hbroken ↦ ?_, fun h' hsub ↦ chain_prefix hsub v start⟩
  obtain ⟨front, last, hconcat⟩ := hchain.exists_eq_concat
  have hlast : (h.chain v start).getLast? = some last := hconcat ▸ List.getLast?_concat
  have hroot : last ≠ .object := by
    rintro rfl
    rw [hflag.2 hlast] at hbroken
    cases hbroken
  refine ⟨last, hlast, ?_⟩
  cases hsuper : h.superOf? last v with
  | none => exact .inl rfl
  | some d => exact .inr ⟨d, hchain.ends last hlast hroot d hsuper, rfl⟩

/-- Two classes that extend each other, below one of which there is a third one; and what is above
them in another version. -/
def loopedSupers : Hierarchy :=
  ((((empty.insert ⟨"a"⟩ ⟨"x/C"⟩ ⟨"x/P"⟩).insert ⟨"a"⟩ ⟨"x/P"⟩ ⟨"x/Q"⟩).insert ⟨"a"⟩ ⟨"x/Q"⟩
    ⟨"x/P"⟩).insert ⟨"b"⟩ ⟨"x/C"⟩ ⟨"x/P"⟩)

theorem chain_finite_and_exact_loop :
    loopedSupers.Climb ⟨"a"⟩ [⟨"x/C"⟩] ⟨"x/C"⟩ [⟨"x/C"⟩, ⟨"x/P"⟩, ⟨"x/Q"⟩] true ∧
      loopedSupers.ContainedIn (loopedSupers.insert ⟨"b"⟩ ⟨"x/P"⟩ .object) ∧
      [⟨"x/C"⟩, ⟨"x/P"⟩] <+:
        (loopedSupers.insert ⟨"b"⟩ ⟨"x/P"⟩ .object).chain ⟨"b"⟩ ⟨"x/C"⟩ := by
  have hsub : loopedSupers.ContainedIn (loopedSupers.insert ⟨"b"⟩ ⟨"x/P"⟩ .object) := by
    decide +kernel
  have hloop := chain_finite_and_exact loopedSupers ⟨"a"⟩ ⟨"x/C"⟩
  have hmore := (chain_finite_and_exact loopedSupers ⟨"b"⟩ ⟨"x/C"⟩).2.2.2.2.2 _ hsub
  have hchain : loopedSupers.chain ⟨"b"⟩ ⟨"x/C"⟩ = [⟨"x/C"⟩, ⟨"x/P"⟩] := by decide +kernel
  rw [hchain] at hmore
  exact ⟨(hloop.1 _ _).2 (by decide +kernel), hsub, hmore⟩

end ClassWeave.Hierarchy
