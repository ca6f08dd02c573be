import ClassWeave.Link.Basic
import ClassWeave.Proofs.Outcome

/-!
# Linking without redirects

The linker carries the instructions done along with it, because a redirected constructor call
reaches back to its `NEW`. Where no call site is redirected nothing reaches back: each instruction
is looked at by itself (`Linker.rewrite`), so linking cannot fail, and what is left to do is to
rename types (`Linker.link_eq_renameTypes`). Without type remaps too, linking is a map over the
instructions of a tree (`Linker.link_eq_ok`, `Linker.insns_rewriteTree`).
-/

namespace ClassWeave

/-- The instructions of a member. -/
def Member.insns (m : Member) : List Insn := (m.body.map Body.insns).getD []

/-- The instructions of all members. -/
def ClassTree.insns (t : ClassTree) : List Insn := t.members.flatMap Member.insns

/-! ### Renaming nothing -/

theorem Descriptor.mapClasses_eq_none {f : ClassName → Option ClassName} (hf : ∀ c, f c = none)
    (desc : String) : mapClasses f desc = none := by
  simp only [mapClasses, hf, Option.map_none, Option.isSome_none, List.any_eq_true,
    Bool.false_eq_true, and_false, exists_false, if_false]

theorem Body.withInsns_insns (b : Body) : b.withInsns b.insns = b := by
  cases b <;> rfl

/-- Where each instruction is replaced by one, the member has the replacements. -/
theorem Member.insns_map (m : Member) (f : Insn → Insn) :
    ({ m with body := m.body.map fun b ↦ b.withInsns (b.insns.map f) } : Member).insns =
      m.insns.map f := by
  obtain ⟨name, desc, kind, isStatic, isSynthetic, access, body⟩ := m
  cases body with
  | none => rfl
  | some b => cases b <;> rfl

namespace RedirectTable

theorem counted_eq_self {α : Type} {f : α → Option α} {a : α} (h : f a = none) :
    counted f a = (a, 0) := by
  rw [counted, h]

theorem countedAll_eq_self {α : Type} {f : α → α × Nat} (h : ∀ a, f a = (a, 0)) (l : List α) :
    countedAll f l = (l, 0) := by
  induction l with
  | nil => rfl
  | cons a l ih =>
    obtain ⟨hl, hzero⟩ := Prod.mk.inj ih
    rw [countedAll, List.map_cons, List.map_cons, List.foldr_cons, h, hl, hzero]

section NoTypes

variable {t : RedirectTable} (ht : ∀ c, t.typeFor? c = none)

include ht

theorem renameDesc?_eq_none (desc : String) : t.renameDesc? desc = none :=
  Descriptor.mapClasses_eq_none ht desc

theorem renameClass?_eq_none (c : ClassName) : t.renameClass? c = none := by
  rw [renameClass?, renameDesc?_eq_none ht]
  split
  · rfl
  · exact ht c

theorem renameInsn?_eq_none (insn : Insn) : t.renameInsn? insn = none := by
  cases insn with
  | member use owner name desc =>
    rw [renameInsn?, renameClass?_eq_none ht, renameDesc?_eq_none ht]
  | type use cls => rw [renameInsn?, renameClass?_eq_none ht]; rfl
  | raw text => rfl

theorem renameMember_eq_self (m : Member) : t.renameMember m = (m, 0) := by
  have hinsns := countedAll_eq_self fun insn ↦ counted_eq_self (renameInsn?_eq_none ht insn)
  obtain ⟨name, desc, kind, isStatic, isSynthetic, access, body⟩ := m
  cases body with
  | none => simp only [renameMember, counted_eq_self (renameDesc?_eq_none ht _)]
  | some b =>
    simp only [renameMember, counted_eq_self (renameDesc?_eq_none ht _), hinsns,
      Body.withInsns_insns]

/-- **Without type remaps no type is renamed.** -/
theorem renameTypes_eq_self (tree : ClassTree) : t.renameTypes tree = (tree, 0) := by
  have hclasses := countedAll_eq_self fun c ↦ counted_eq_self (renameClass?_eq_none ht c)
  simp only [renameTypes, counted_eq_self (renameClass?_eq_none ht _), hclasses,
    countedAll_eq_self (renameMember_eq_self ht)]

end NoTypes

end RedirectTable

namespace Linker

variable {l : Linker}

/-! ### Redirecting nothing -/

theorem get?_eq_none_of_empty (hredirects : l.redirects = .empty) (s : CallSite) :
    l.redirects.get? s = none := by
  rw [hredirects]
  rfl

theorem redirectOn?_eq_none (hsites : ∀ s, l.redirects.get? s = none) (s : CallSite)
    (cs : List ClassName) : l.redirectOn? s cs = none := by
  induction cs with
  | nil => rfl
  | cons c cs ih =>
    rw [redirectOn?, hsites]
    simp only [ih]
    exact ite_self _

theorem redirectFor?_eq_none (hsites : ∀ s, l.redirects.get? s = none) (insn : Insn) :
    l.redirectFor? insn = none := by
  rw [redirectFor?]
  cases insn.site? with
  | none => rfl
  | some s => exact redirectOn?_eq_none hsites s _

/-! ### One instruction after the other -/

/-- A bridge call turns into a cast. -/
theorem exists_of_bridgeCast? {insn cast : Insn} (h : l.bridgeCast? insn = some cast) :
    ∃ cls, cast = .type .checkCast cls := by
  unfold bridgeCast? at h
  split at h
  · simp only [Option.bind_eq_bind, Option.bind_eq_some_iff, Option.ite_none_right_eq_some] at h
    obtain ⟨_, -, _, -, -, _, -, cls, -, hcast⟩ := h
    exact ⟨cls, (Option.some.inj hcast).symm⟩
  · cases h

/-- What linking makes of an instruction that is not redirected. -/
def rewrite (l : Linker) (insn : Insn) : Insn :=
  (l.bridgeCast? insn).getD ((l.demangle? insn).getD insn)

/-- The number of changes that this counts as. -/
def changes (l : Linker) (insn : Insn) : Nat :=
  if (l.bridgeCast? insn).isSome || (l.demangle? insn).isSome then 1 else 0

/-- The number of changes in a list of instructions. -/
def changesIn (l : Linker) (insns : List Insn) : Nat := (insns.map l.changes).foldr (· + ·) 0

def rewriteMember (l : Linker) (m : Member) : Member :=
  { m with body := m.body.map fun b ↦ b.withInsns (b.insns.map l.rewrite) }

def rewriteTree (l : Linker) (t : ClassTree) : ClassTree :=
  { t with members := t.members.map l.rewriteMember }

theorem insns_rewriteMember (l : Linker) (m : Member) :
    (l.rewriteMember m).insns = m.insns.map l.rewrite := m.insns_map l.rewrite

/-- **The instructions of a linked tree are those of the tree, each rewritten.** -/
theorem insns_rewriteTree (l : Linker) (t : ClassTree) :
    (l.rewriteTree t).insns = t.insns.map l.rewrite := by
  rw [ClassTree.insns, rewriteTree, List.flatMap_map, ClassTree.insns, List.map_flatMap]
  exact congrArg (List.flatMap · t.members) (funext l.insns_rewriteMember)

/-- **Without redirects each instruction is rewritten by itself.** -/
theorem linkFrom_eq_ok (hsites : ∀ s, l.redirects.get? s = none) (cls : ClassName) (member : String)
    (done insns : List Insn) :
    l.linkFrom cls member done insns =
      .ok (done ++ insns.map l.rewrite, l.changesIn insns) := by
  induction insns generalizing done with
  | nil => rw [List.map_nil, List.append_nil]; rfl
  | cons insn insns ih =>
    rw [linkFrom, changesIn, List.map_cons, List.map_cons, List.foldr_cons, rewrite, changes]
    cases l.bridgeCast? insn with
    | some cast =>
      simp only [ih, List.append_assoc]
      rw [Nat.add_comm]
      rfl
    | none =>
      simp only [redirectFor?_eq_none hsites, ih, List.append_assoc]
      rw [Nat.add_comm]
      rfl

theorem linkMember_eq_ok (hsites : ∀ s, l.redirects.get? s = none) (cls : ClassName)
    (m : Member) : l.linkMember cls m = .ok (l.rewriteMember m, l.changesIn m.insns) := by
  obtain ⟨name, desc, kind, isStatic, isSynthetic, access, body⟩ := m
  cases body with
  | none => rfl
  | some b => exact Outcome.bind_eq_ok.2 ⟨_, linkFrom_eq_ok hsites cls name [] b.insns, rfl⟩

/-- **Linking without redirects succeeds**: each instruction is rewritten by itself, and then the
types are renamed. -/
theorem link_eq_renameTypes (hsites : ∀ s, l.redirects.get? s = none) (t : ClassTree) :
    l.link t = .ok ((l.redirects.renameTypes (l.rewriteTree t)).1,
      (t.members.map fun m ↦ l.changesIn m.insns).foldr (· + ·) 0 +
        (l.redirects.renameTypes (l.rewriteTree t)).2) := by
  have hmembers : t.members.mapM (l.linkMember t.name) =
      .ok (t.members.map fun m ↦ (l.rewriteMember m, l.changesIn m.insns)) := by
    rw [Outcome.mapM_eq_ok, List.forall₂_map_right_iff, List.forall₂_same]
    exact fun m _ ↦ linkMember_eq_ok hsites t.name m
  rw [link]
  refine Outcome.bind_eq_ok.2 ⟨_, hmembers, ?_⟩
  rw [List.map_map, List.map_map]
  rfl

/-- Without type remaps it ends there. -/
theorem link_eq_ok (hredirects : l.redirects = .empty) (t : ClassTree) :
    l.link t = .ok (l.rewriteTree t,
      (t.members.map fun m ↦ l.changesIn m.insns).foldr (· + ·) 0) := by
  have htypes : ∀ c, l.redirects.typeFor? c = none := by
    rw [hredirects]
    exact fun _ ↦ rfl
  rw [link_eq_renameTypes (get?_eq_none_of_empty hredirects),
    RedirectTable.renameTypes_eq_self htypes]
  rfl

end Linker

end ClassWeave
