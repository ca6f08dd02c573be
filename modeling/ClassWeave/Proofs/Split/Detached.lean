import ClassWeave.Proofs.Link.Construction
import ClassWeave.Proofs.Link.Unredirected
import ClassWeave.Proofs.Split.Directives

/-!
# Constructors without their superclass

When the superclass of a class is removed, its constructors are detached from it: the first call of
a constructor of the superclass goes to the root's instead (`Projector.detachInsns_eq_ok_iff`). No
other instruction changes.

The call is meant to be the one for the object under construction, but nothing looks for the `NEW`
of a call here. A constructor that makes an object of the superclass first, for an argument say, has
that construction changed instead (`Projector.detached_earlierParent`). All other constructors are
detached as they should be (`Construction.Detached.onlySuperCall_iff`). Which call ends which
construction is said by `Construction.Opens`, as for linking. Before the first call no construction
has ended, so its own one is seen without counting (`Construction.exists_opens_iff`).
-/

namespace ClassWeave

namespace Construction

variable {insns insns' before rest : List Insn} {insn : Insn} {c : ClassName} {desc : String}

/-! ### The first call of a constructor -/

/-- A body whose first call of a constructor of a class has become one of the root's. That call has
no arguments. -/
inductive Detached (c : ClassName) : List Insn → List Insn → Prop where
  | untouched {insns : List Insn} (hcalls : ∀ insn ∈ insns, ¬ insn.constructs c = true) :
      Detached c insns insns
  | redirected (before rest : List Insn) (hcalls : ∀ insn ∈ before, ¬ insn.constructs c = true) :
      Detached c (before ++ constructorCall c "()V" :: rest)
        (before ++ constructorCall .object "()V" :: rest)

/-- At most one instruction of a body changes, which called a constructor of a class without ending
a construction, and calls the root's constructor afterwards. -/
def OnlySuperCall (c : ClassName) (insns insns' : List Insn) : Prop :=
  insns' = insns ∨ ∃ n desc, insns[n]? = some (constructorCall c desc) ∧
    insns' = insns.set n (constructorCall .object desc) ∧ ∀ j, ¬ Opens insns c 0 n j

/-- The first call of a constructor of a class makes an object of it: before the call there is a
`NEW` with its `DUP`, and no other `NEW` of the class in between. -/
def BuildsFirst (c : ClassName) (insns : List Insn) : Prop :=
  (∃ insn ∈ insns, insn.constructs c = true) ∧
    ∃ front text middle,
      insns.takeWhile (!·.constructs c) = front ++ .type .new c :: .raw text :: middle ∧
        (Insn.raw text).isRaw "DUP" = true ∧ ∀ insn ∈ middle, ¬ insn.isNew c = true

/-- A segment without calls closes no `NEW`. -/
theorem closes_zero_iff (hcalls : ∀ insn ∈ insns, ¬ insn.constructs c = true) :
    Closes c 0 insns ↔ ∀ insn ∈ insns, ¬ insn.isNew c = true := by
  have hcount : insns.countP (·.constructs c) = 0 := List.countP_eq_zero.2 hcalls
  constructor
  · intro h
    rw [← List.countP_eq_zero, h.total, hcount]
  · intro h
    refine ⟨by rw [hcount, List.countP_eq_zero.2 h], fun tail htail ↦ ?_⟩
    rw [List.countP_eq_zero.2 fun insn hinsn ↦ h insn (htail.subset hinsn)]
    exact Nat.zero_le _

theorem between_append (front segment rest : List Insn) (insn : Insn) :
    between (front ++ insn :: segment ++ rest) front.length (front ++ insn :: segment).length =
      segment := by
  rw [between, List.take_left, List.drop_append, List.drop_eq_nil_of_le (Nat.le_succ _),
    Nat.add_sub_cancel_left]
  rfl

/-- The first call ends the construction whose `NEW` is the last one before it. -/
theorem exists_opens_iff (hcalls : ∀ insn ∈ before, ¬ insn.constructs c = true) :
    (∃ j, Opens (before ++ constructorCall c desc :: rest) c 0 before.length j) ↔
      ∃ front text middle, before = front ++ .type .new c :: .raw text :: middle ∧
        (Insn.raw text).isRaw "DUP" = true ∧ ∀ insn ∈ middle, ¬ insn.isNew c = true := by
  constructor
  · rintro ⟨j, h⟩
    rw [List.append_cons, opens_append (by simp)] at h
    obtain ⟨front, text, middle, rfl, rfl, hraw⟩ := h.exists_eq_append rfl
    have hcloses := h.closes
    rw [between_append, closes_zero_iff fun insn hinsn ↦ hcalls insn (by simp [hinsn])] at hcloses
    exact ⟨front, text, middle, rfl, hraw, fun insn hinsn ↦
      hcloses insn (List.mem_cons_of_mem _ hinsn)⟩
  · rintro ⟨front, text, middle, rfl, hdup, hmiddle⟩
    refine ⟨front.length, by simp, by simp, ⟨text, by simp, hdup⟩, ?_⟩
    rw [between_append, closes_zero_iff fun insn hinsn ↦ hcalls insn (by simp [hinsn])]
    exact List.forall_mem_cons.2 ⟨Bool.false_ne_true, hmiddle⟩

theorem takeWhile_eq_before (hcalls : ∀ insn ∈ before, ¬ insn.constructs c = true) :
    (before ++ constructorCall c desc :: rest).takeWhile (!·.constructs c) = before := by
  rw [List.takeWhile_append_of_pos fun insn hinsn ↦ by simpa using hcalls insn hinsn,
    List.takeWhile_cons_of_neg (by simp [constructs_constructorCall]), List.append_nil]

/-- **Detaching changes no more than the super call**, unless an object of the superclass is built
first. -/
theorem Detached.onlySuperCall_iff (h : Detached c insns insns') (hroot : c ≠ .object) :
    OnlySuperCall c insns insns' ↔ ¬ BuildsFirst c insns := by
  cases h with
  | untouched hcalls =>
    refine iff_of_true (.inl rfl) ?_
    rintro ⟨⟨insn, hinsn, hcall⟩, -⟩
    exact hcalls insn hinsn hcall
  | redirected before rest hcalls =>
    have hcall : (before ++ constructorCall c "()V" :: rest)[before.length]? =
        some (constructorCall c "()V") := by
      simp
    have hset : before ++ constructorCall .object "()V" :: rest =
        (before ++ constructorCall c "()V" :: rest).set before.length
          (constructorCall .object "()V") := by
      simp
    have hbuilds : BuildsFirst c (before ++ constructorCall c "()V" :: rest) ↔
        ∃ j, Opens (before ++ constructorCall c "()V" :: rest) c 0 before.length j := by
      rw [BuildsFirst, takeWhile_eq_before hcalls, exists_opens_iff hcalls]
      exact and_iff_right ⟨_, List.mem_of_getElem? hcall, constructs_constructorCall⟩
    have hdiffer : (before ++ constructorCall .object "()V" :: rest)[before.length]? ≠
        some (constructorCall c "()V") := by
      intro h
      have heq : constructorCall .object "()V" = constructorCall c "()V" := by simpa using h
      cases heq
      exact hroot rfl
    rw [hbuilds, not_exists, OnlySuperCall]
    constructor
    · rintro (hsame | ⟨n, desc, hn, hchanged, hopens⟩)
      · exact absurd (hsame ▸ hcall) hdiffer
      · -- the call is the instruction that differs, so the position is its own
        obtain rfl : n = before.length := by
          by_contra hne
          rw [hchanged, List.getElem?_set_ne hne] at hdiffer
          exact hdiffer hcall
        exact hopens
    · intro hopens
      exact .inr ⟨before.length, "()V", hcall, hset, hopens⟩

end Construction

/-! ### Members -/

/-- The name and the kind of a constructor. -/
def Member.IsConstructor (m : Member) : Prop := m.kind = .method ∧ m.name = constructorName

theorem Member.isConstructor_iff {m : Member} :
    (m.kind = .method && m.name = constructorName) = true ↔ m.IsConstructor := by
  rw [Bool.and_eq_true, decide_eq_true_iff, decide_eq_true_iff, IsConstructor]

theorem Member.withInsns_insns (m : Member) :
    { m with body := m.body.map (·.withInsns m.insns) } = m := by
  have hbody : m.body.map (·.withInsns m.insns) = m.body := by
    rw [Member.insns]
    cases m.body with
    | none => rfl
    | some body => exact congrArg some (Body.withInsns_insns body)
  rw [hbody]

/-- A member before and after a class is detached from its superclass. -/
structure Member.DetachedFrom (superclass : ClassName) (m m' : Member) : Prop where
  other : ¬ m.IsConstructor → m' = m
  frame : m' = { m with body := m.body.map (·.withInsns m'.insns) }
  detached : m.IsConstructor → Construction.Detached superclass m.insns m'.insns

namespace Projector

open Construction

variable {p : Projector} {c : MergedClass} {ds : ClassDirectives} {target : Version}
  {cls superclass : ClassName} {insns insns' : List Insn} {m m' : Member}

theorem detachInsns_constructorCall (rest : List Insn) (desc : String) :
    detachInsns cls superclass (constructorCall superclass desc :: rest) =
      if desc = "()V" then .ok (constructorCall .object desc :: rest)
      else .error (.superConstructorArguments cls superclass desc) := by
  rw [constructorCall, detachInsns, if_pos ⟨rfl, rfl⟩]
  rfl

theorem detachInsns_cons {insn : Insn} {rest : List Insn}
    (h : ¬ insn.constructs superclass = true) :
    detachInsns cls superclass (insn :: rest) =
      (insn :: ·) <$> detachInsns cls superclass rest := by
  cases insn with
  | member use owner name desc =>
    cases use with
    | field access => rfl
    | invoke kind =>
      cases kind with
      | special =>
        have hne : ¬ (owner = superclass ∧ name = constructorName) := by
          simpa [Insn.constructs] using h
        rw [detachInsns, if_neg hne]
      | virtual => rfl
      | static => rfl
      | interface => rfl
  | type use cls => rfl
  | raw text => rfl

theorem detachInsns_append {before : List Insn}
    (hcalls : ∀ insn ∈ before, ¬ insn.constructs superclass = true) (rest : List Insn) :
    detachInsns cls superclass (before ++ rest) =
      (before ++ ·) <$> detachInsns cls superclass rest := by
  induction before with
  | nil => exact (id_map _).symm
  | cons insn before ih =>
    obtain ⟨hinsn, hcalls⟩ := List.forall_mem_cons.1 hcalls
    rw [List.cons_append, detachInsns_cons hinsn, ih hcalls, Functor.map_map]
    rfl

theorem detachInsns_eq_self (hcalls : ∀ insn ∈ insns, ¬ insn.constructs superclass = true) :
    detachInsns cls superclass insns = .ok insns := by
  induction insns with
  | nil => rfl
  | cons insn insns ih =>
    obtain ⟨hinsn, hcalls⟩ := List.forall_mem_cons.1 hcalls
    rw [detachInsns_cons hinsn, ih hcalls]
    rfl

/-- **A body is detached exactly if its first call of the superclass has no arguments.** -/
theorem detachInsns_eq_ok_iff :
    detachInsns cls superclass insns = .ok insns' ↔ Detached superclass insns insns' := by
  constructor
  · intro h
    cases hfind : insns.find? (·.constructs superclass) with
    | none =>
      have hcalls := List.find?_eq_none.1 hfind
      rw [detachInsns_eq_self hcalls] at h
      cases h
      exact .untouched hcalls
    | some insn =>
      obtain ⟨hcall, before, rest, rfl, hcalls⟩ := List.find?_eq_some_iff_append.1 hfind
      obtain ⟨desc, rfl⟩ := constructs_iff.1 hcall
      have hcalls : ∀ insn ∈ before, ¬ insn.constructs superclass = true := by simpa using hcalls
      rw [detachInsns_append hcalls, detachInsns_constructorCall] at h
      obtain ⟨tail, htail, rfl⟩ := Outcome.map_eq_ok.1 h
      split at htail
      · rename_i hdesc
        subst hdesc
        cases htail
        exact .redirected before rest hcalls
      · cases htail
  · rintro (hcalls | ⟨before, rest, hcalls⟩)
    · exact detachInsns_eq_self hcalls
    · rw [detachInsns_append hcalls, detachInsns_constructorCall, if_pos rfl]
      rfl

theorem detachedFrom_of_detachMember (h : detachMember cls superclass m = .ok m') :
    m.DetachedFrom superclass m' := by
  rw [detachMember] at h
  split at h
  · rename_i body hctor hbody
    have hctor := Member.isConstructor_iff.1 hctor
    obtain ⟨insns, hdetach, h⟩ := Outcome.bind_eq_ok.1 h
    obtain rfl := Outcome.pure_eq_ok.1 h
    have hdetached := detachInsns_eq_ok_iff.1 hdetach
    cases body with
    | code maxLocals insns₀ =>
      refine ⟨fun hother ↦ absurd hctor hother, ?_, fun _ ↦ ?_⟩
      · rw [hbody]
        rfl
      · rw [Member.insns, hbody]
        exact hdetached
    | fails fault =>
      refine ⟨fun hother ↦ absurd hctor hother, ?_, fun _ ↦ ?_⟩
      · rw [hbody]
        rfl
      · rw [Member.insns, hbody]
        exact .untouched fun _ hinsn ↦ absurd hinsn List.not_mem_nil
  · rename_i hleft
    cases h
    refine ⟨fun _ ↦ rfl, m.withInsns_insns.symm, fun hctor ↦ ?_⟩
    -- a constructor that is left as it is has no body
    cases hbody : m.body with
    | none =>
      rw [Member.insns, hbody]
      exact .untouched fun _ hinsn ↦ absurd hinsn List.not_mem_nil
    | some body => exact absurd hbody (hleft body (Member.isConstructor_iff.2 hctor))

/-- The members of a class as their directives leave them. -/
def drafted (p : Projector) (c : MergedClass) (ds : ClassDirectives) (target : Version) :
    List Member :=
  c.members.filterMap fun m ↦ (p.projectMember c (ds.forMember m.key) target m).decl

/-- The superclass is removed unless it is the root. -/
theorem superSite_of_remove (cls : ClassName) {directives : List Directive}
    (hremove : ∃ d ∈ directives, d.appliesTo target = true ∧ d.kind = .remove) :
    (superSite cls superclass directives target).1 =
      if superclass = .object then none else some superclass := by
  rw [superSite, any_kind_applicable.2 hremove, Bool.true_and, ClassName.isObject]
  by_cases hroot : superclass = .object
  · rw [if_pos hroot, decide_eq_true hroot]
    rfl
  · rw [if_neg hroot, decide_eq_false hroot]
    rfl

/-- **A class without its superclass goes below the root**, and its members are detached from what
they had above them. A constructor is detached as it should be exactly if it builds no object of the
superclass first. A class that was below the root has nothing to be detached from. -/
theorem project_detaches {projected : ProjectedClass}
    (h : p.project c ds target = .ok (.projected projected))
    (hremove : ∃ d ∈ ds.superclass, d.appliesTo target = true ∧ d.kind = .remove) :
    projected.tree.superclass = .object ∧
      (c.superclassIn target = .object → projected.tree.members = p.drafted c ds target) ∧
      (c.superclassIn target ≠ .object →
        List.Forall₂ (fun m m' : Member ↦ m.DetachedFrom (c.superclassIn target) m' ∧
            (m.IsConstructor → (OnlySuperCall (c.superclassIn target) m.insns m'.insns ↔
              ¬ BuildsFirst (c.superclassIn target) m.insns)))
          (p.drafted c ds target) projected.tree.members) := by
  obtain ⟨remaps, warnings, hsuperclass, -, hmembers⟩ := exists_draft_of_project h
  rw [members_draft] at hmembers
  have hsite : (p.draft c ds target remaps warnings).removedSuper =
      if c.superclassIn target = .object then none else some (c.superclassIn target) :=
    superSite_of_remove c.name hremove
  have hsuper : projected.tree.superclass =
      if (p.draft c ds target remaps warnings).removedSuper.isSome then .object
      else c.superclassIn target := hsuperclass
  by_cases hroot : c.superclassIn target = .object
  · rw [if_pos hroot] at hsite
    rw [hsite] at hmembers hsuper
    exact ⟨hsuper.trans hroot, fun _ ↦ (Except.ok.inj hmembers).symm, fun h ↦ absurd hroot h⟩
  · rw [if_neg hroot] at hsite
    rw [hsite] at hmembers hsuper
    refine ⟨hsuper, fun h ↦ absurd h hroot, fun _ ↦ ?_⟩
    refine (Outcome.mapM_eq_ok.1 hmembers).imp fun m m' hdetach ↦ ?_
    have hdetached := detachedFrom_of_detachMember hdetach
    exact ⟨hdetached, fun hctor ↦ (hdetached.detached hctor).onlySuperCall_iff hroot⟩

/-- A class with one constructor, which has the given body. -/
def constructedBy (superclass : ClassName) (insns : List Insn) : ClassTree where
  name := ⟨"x/C"⟩
  access := .publicAccess
  superclass := superclass
  members := [{ name := constructorName, desc := "()V", kind := .method, access := .publicAccess
                body := some (.code 1 insns) }]

/-- The one version of such a class below `x/P`. -/
def childOfP (insns : List Insn) : MergedClass :=
  .universal (constructedBy ⟨"x/P"⟩ insns) (.ofList [⟨"a"⟩])

/-- The superclass is removed. -/
def orphaned : ClassDirectives := { superclass := [.remove [⟨"a"⟩]] }

/-- A constructor that calls one of a class for its own object and makes an object of `x/P` then. -/
def laterParent (super : ClassName) : List Insn :=
  [.raw "ALOAD 0", constructorCall super "()V", .type .new ⟨"x/P"⟩, .raw "DUP",
    constructorCall ⟨"x/P"⟩ "()V", .raw "POP", .raw "RETURN"]

theorem project_detaches_laterParent :
    ∃ projected, (childOfP (laterParent ⟨"x/P"⟩)).split ⟨"a"⟩ orphaned =
        .ok (.projected projected) ∧
      projected.tree.superclass = .object ∧
      OnlySuperCall ⟨"x/P"⟩ (laterParent ⟨"x/P"⟩) projected.tree.insns := by
  have hsplit : (childOfP (laterParent ⟨"x/P"⟩)).split ⟨"a"⟩ orphaned =
      .ok (.projected ⟨constructedBy .object (laterParent .object), [], [], []⟩) := by
    decide +kernel
  have hdrafted : (alone (childOfP (laterParent ⟨"x/P"⟩))).drafted
      (childOfP (laterParent ⟨"x/P"⟩)) orphaned ⟨"a"⟩ =
      (constructedBy ⟨"x/P"⟩ (laterParent ⟨"x/P"⟩)).members := by decide +kernel
  obtain ⟨hsuper, -, hmembers⟩ := project_detaches hsplit
    ⟨_, List.mem_singleton_self _, by decide +kernel, rfl⟩
  have hmembers := hmembers (by decide)
  rw [hdrafted] at hmembers
  obtain ⟨-, honly⟩ := (List.forall₂_cons.1 hmembers).1
  refine ⟨_, hsplit, hsuper, (honly ⟨rfl, rfl⟩).2 ?_⟩
  rintro ⟨-, front, text, middle, hbefore, -⟩
  have hfirst : (laterParent ⟨"x/P"⟩).takeWhile (!·.constructs ⟨"x/P"⟩) = [.raw "ALOAD 0"] := by
    decide +kernel
  have hlength := congrArg List.length (hfirst.symm.trans hbefore)
  simp only [List.length_append, List.length_cons, List.length_nil] at hlength
  omega

/-- A constructor that makes an object with a constructor of a class and hands it on to another
constructor of its own. The `NEW` is one of `x/P`. -/
def earlierParent (callee : ClassName) : List Insn :=
  [.raw "ALOAD 0", .type .new ⟨"x/P"⟩, .raw "DUP", constructorCall callee "()V",
    constructorCall ⟨"x/C"⟩ "(Lx/P;)V", .raw "RETURN"]

/-- **A construction loses its call**, and the constructor of the root is called for an object of
another class. -/
theorem detached_earlierParent :
    (childOfP (earlierParent ⟨"x/P"⟩)).split ⟨"a"⟩ orphaned =
        .ok (.projected ⟨constructedBy .object (earlierParent .object), [], [], []⟩) ∧
      Opens (earlierParent ⟨"x/P"⟩) ⟨"x/P"⟩ 0 3 1 ∧
      ¬ OnlySuperCall ⟨"x/P"⟩ (earlierParent ⟨"x/P"⟩) (earlierParent .object) := by
  have hdetached : Detached ⟨"x/P"⟩ (earlierParent ⟨"x/P"⟩) (earlierParent .object) :=
    .redirected [.raw "ALOAD 0", .type .new ⟨"x/P"⟩, .raw "DUP"] _ (by decide)
  have hcall : constructorCall ⟨"x/P"⟩ "()V" ∈ earlierParent ⟨"x/P"⟩ := by decide
  refine ⟨by decide +kernel, findNew_eq_some_iff.1 (by decide +kernel), ?_⟩
  rw [hdetached.onlySuperCall_iff (by decide), not_not]
  exact ⟨⟨_, hcall, constructs_constructorCall⟩, [.raw "ALOAD 0"], "DUP", [], by decide,
    by decide +kernel, List.forall_mem_nil _⟩

end Projector

end ClassWeave
