import ClassWeave.Proofs.Chain
import ClassWeave.Proofs.Link.Step

/-!
# Linking with redirects

A body is linked in one pass. Each instruction is looked up once, and what a redirect puts in its
place is not looked up again. So whatever stands in a linked body either is not redirected or was
put there by a redirect (`linkFrom_settled`, `settled_of_link`), and a replacement that is itself a
redirected site stays as it is.

A pooled table keeps the first redirect of each site (`get?_addAll`), so it has one for every site
that any class redirects.

The pass is not a map over the instructions: a redirected constructor call takes its `NEW` along,
which stands among the instructions done. The invariant is therefore about the instructions done,
each taken by itself, and holds no matter which of them a construction drops or exchanges
(`mem_of_applyRedirect`).
-/

namespace ClassWeave

/-! ### The pooled redirects -/

namespace RedirectTable

/-- A site keeps the redirect that it has. -/
theorem get?_add (t : RedirectTable) (r : Redirect) (s : CallSite) :
    (t.add r).get? s = (t.get? s).or (if r.site = s then some r.replacement else none) := by
  rw [add]
  split
  · rename_i kept hkept
    by_cases hs : r.site = s
    · rw [← hs, hkept]
      rfl
    · rw [if_neg hs, Option.or_none]
  · rename_i hnone
    show (t.sites.insert r.site r.replacement).get? s = _
    rw [OrderedMap.get?_insert]
    by_cases hs : s = r.site
    · rw [if_pos hs, if_pos hs.symm, hs, hnone]
      rfl
    · rw [if_neg hs, if_neg (Ne.symm hs), Option.or_none]
      rfl

/-- **The first redirect of a site counts.** -/
theorem get?_addAll (t : RedirectTable) (rs : List Redirect) (s : CallSite) :
    (t.addAll rs).get? s = (t.get? s).or ((rs.find? (·.site = s)).map (·.replacement)) := by
  induction rs generalizing t with
  | nil => exact (Option.or_none).symm
  | cons r rs ih =>
    show ((t.add r).addAll rs).get? s = _
    rw [ih, get?_add, Option.or_assoc, List.find?_cons]
    by_cases hs : r.site = s
    · rw [if_pos hs, decide_eq_true hs]
      rfl
    · rw [if_neg hs, decide_eq_false hs, Option.none_or]

/-- Type remaps leave the redirects alone. -/
theorem get?_addTypes (t : RedirectTable) (rs : List TypeRemap) (s : CallSite) :
    (t.addTypes rs).get? s = t.get? s := by
  induction rs generalizing t with
  | nil => rfl
  | cons r rs ih =>
    refine (ih (t.addType r)).trans ?_
    rw [addType]
    split
    · rfl
    · rfl

/-- Redirects leave the type remaps alone. -/
theorem typeFor?_addAll (t : RedirectTable) (rs : List Redirect) (c : ClassName) :
    (t.addAll rs).typeFor? c = t.typeFor? c := by
  induction rs generalizing t with
  | nil => rfl
  | cons r rs ih =>
    refine (ih (t.add r)).trans ?_
    rw [add]
    split
    · rfl
    · rfl

end RedirectTable

namespace Linker

variable {l : Linker} {insn : Insn} {s : CallSite}

/-! ### Looking a redirect up -/

/-- An instruction that names no member is not redirected. -/
theorem redirectFor?_of_site? (h : insn.site? = none) : l.redirectFor? insn = none := by
  rw [redirectFor?, h]
  rfl

/-- A redirect is looked up on the owner of the site first. -/
theorem exists_redirectFor?_eq (hsite : insn.site? = some s) :
    ∃ rest, l.redirectFor? insn = l.redirectOn? s (s.owner :: rest) := by
  have hlist : ∃ rest, (if s.name = constructorName then [s.owner] else l.ownerChain s.owner) =
      s.owner :: rest := by
    split
    · exact ⟨[], rfl⟩
    · exact Chain.exists_walk_eq_cons _ _ _ _
  obtain ⟨rest, hlist⟩ := hlist
  refine ⟨rest, ?_⟩
  rw [redirectFor?, hsite, ← hlist]
  rfl

/-- **A site that is not redirected has no redirect of its own.** -/
theorem get?_eq_none_of_redirectFor? (hsite : insn.site? = some s)
    (h : l.redirectFor? insn = none) : l.redirects.get? s = none := by
  obtain ⟨rest, hlookup⟩ := exists_redirectFor?_eq (l := l) hsite
  rw [hlookup, redirectOn?] at h
  cases hget : l.redirects.get? s with
  | none => rfl
  | some replacement =>
    simp only [hget] at h
    cases h

/-- **A site that has a redirect of its own is redirected by it.** -/
theorem redirectFor?_of_get? {replacement : Insn} (hsite : insn.site? = some s)
    (h : l.redirects.get? s = some replacement) : l.redirectFor? insn = some (s, replacement) := by
  obtain ⟨rest, hlookup⟩ := exists_redirectFor?_eq (l := l) hsite
  rw [hlookup, redirectOn?]
  simp only [h]

/-! ### What a redirect puts in place -/

/-- A redirect of one of the instructions put this one in its place: the replacement, or the
constructor call that the replacement is made into. -/
def Places (l : Linker) (insns : List Insn) (insn : Insn) : Prop :=
  ∃ before ∈ insns, ∃ site replacement,
    l.redirectFor? ((l.demangle? before).getD before) = some (site, replacement) ∧
      (insn = replacement ∨ (Construction.asConstructorCall? replacement).map (·.2) = some insn)

/-- An instruction that linking is done with: it is not redirected, or stands in for one that is. -/
def Settled (l : Linker) (insns : List Insn) (insn : Insn) : Prop :=
  l.redirectFor? insn = none ∨ l.Places insns insn

theorem Settled.mono {insns insns' : List Insn} (hsub : ∀ insn ∈ insns, insn ∈ insns')
    (h : l.Settled insns insn) : l.Settled insns' insn := by
  rcases h with h | ⟨before, hbefore, h⟩
  · exact .inl h
  · exact .inr ⟨before, hsub before hbefore, h⟩

theorem settled_type (l : Linker) (insns : List Insn) (use : TypeUse) (cls : ClassName) :
    l.Settled insns (.type use cls) :=
  .inl (redirectFor?_of_site? rfl)

/-- The cast of a result names a type, as every cast does. -/
theorem exists_of_returnCast? {replacement cast : Insn}
    (h : returnCast? s replacement = some cast) : ∃ cls, cast = .type .checkCast cls := by
  simp only [returnCast?, Option.bind_eq_bind, Option.bind_eq_some_iff,
    Option.ite_none_left_eq_some] at h
  obtain ⟨_, -, _, -, -, cls, -, heq⟩ := h
  exact ⟨cls, (Option.some.inj heq).symm⟩

/-- **What stands there after a redirect** stood there before, is what it put in place, or names no
member. -/
theorem mem_of_applyRedirect {done done' : List Insn} {replacement : Insn} {next : Option Insn}
    {n : Nat} (h : applyRedirect done s replacement next = some (done', n)) (hinsn : insn ∈ done') :
    insn ∈ done ∨ insn = replacement ∨
      (Construction.asConstructorCall? replacement).map (·.2) = some insn ∨
      ∃ use cls, insn = .type use cls := by
  rw [applyRedirect] at h
  split at h
  · -- a construction: its `NEW`, at an unknown place among those done, changes or goes
    obtain ⟨adapted, hadapt, heq⟩ := Option.map_eq_some_iff.1 h
    obtain ⟨rfl, -⟩ := Prod.mk.inj heq
    obtain ⟨j, -, rfl⟩ := Option.map_eq_some_iff.1 hadapt
    cases hcall : Construction.asConstructorCall? replacement with
    | some call =>
      obtain ⟨owner, call⟩ := call
      simp only [hcall, List.mem_append, List.mem_singleton] at hinsn
      rcases hinsn with hinsn | rfl
      · rcases List.mem_or_eq_of_mem_set hinsn with hinsn | rfl
        · exact .inl hinsn
        · exact .inr (.inr (.inr ⟨.new, owner, rfl⟩))
      · exact .inr (.inr (.inl rfl))
    | none =>
      simp only [hcall] at hinsn
      have hmem : insn ∈ done ++ [replacement] := by
        rcases List.mem_append.1 hinsn with hinsn | hinsn
        · exact List.mem_of_mem_take hinsn
        · exact List.mem_of_mem_drop hinsn
      rcases List.mem_append.1 hmem with hmem | hmem
      · exact .inl hmem
      · exact .inr (.inl (List.mem_singleton.1 hmem))
  · -- a call or an access: at most a cast of the result comes on top
    have hmem : insn ∈ done ∨ insn = replacement ∨
        some insn = returnCast? s replacement := by
      split at h
      · rename_i cast hcast
        split at h
        · cases h
          simp only [List.mem_append, List.mem_singleton] at hinsn
          exact hinsn.imp_right .inl
        · cases h
          simp only [List.mem_append, List.mem_cons, List.not_mem_nil, or_false] at hinsn
          exact hinsn.imp_right (.imp_right fun hinsn ↦ (congrArg some hinsn).trans hcast.symm)
      · cases h
        simp only [List.mem_append, List.mem_singleton] at hinsn
        exact hinsn.imp_right .inl
    refine hmem.imp_right (.imp_right fun hcast ↦ .inr ?_)
    obtain ⟨cls, rfl⟩ := exists_of_returnCast? hcast.symm
    exact ⟨.checkCast, cls, rfl⟩

/-! ### One instruction after the other -/

/-- **What a step leaves is settled**, if what was done is. -/
theorem settled_of_advance {insns done done' : List Insn} {next : Option Insn} {n : ℕ}
    (h : l.advance done insn next = .ok (done', n)) (hinsn : insn ∈ insns)
    (hdone : ∀ insn ∈ done, l.Settled insns insn) : ∀ insn ∈ done', l.Settled insns insn := by
  rcases advance_cases h with ⟨cls, -, rfl⟩ | ⟨-, hnone, rfl⟩ |
    ⟨site, replacement, casts, hredirects, happly⟩
  · exact List.forall_mem_append.2
      ⟨hdone, List.forall_mem_singleton.2 (settled_type l insns _ _)⟩
  · exact List.forall_mem_append.2 ⟨hdone, List.forall_mem_singleton.2 (.inl hnone)⟩
  · have hplaces : ∀ {placed}, placed = replacement ∨
        (Construction.asConstructorCall? replacement).map (·.2) = some placed →
        l.Settled insns placed := fun hplaced ↦
      .inr ⟨insn, hinsn, site, replacement, hredirects.2, hplaced⟩
    intro placed hmem
    rcases mem_of_applyRedirect happly hmem with hmem | hplaced | hplaced | ⟨use, c, rfl⟩
    · exact hdone placed hmem
    · exact hplaces (.inl hplaced)
    · exact hplaces (.inr hplaced)
    · exact settled_type l insns use c

/-- **What is done stays settled**, to the end of the body. -/
theorem linkFrom_settled {cls : ClassName} {member : String} {insns done rest out : List Insn}
    {n : Nat} (h : l.linkFrom cls member done rest = .ok (out, n))
    (hdone : ∀ insn ∈ done, l.Settled insns insn) (hrest : ∀ insn ∈ rest, insn ∈ insns) :
    ∀ insn ∈ out, l.Settled insns insn := by
  -- the instructions done are part of the state: a redirect may still change them
  refine (linkFrom_invariant (P := fun done rest ↦
    (∀ insn ∈ done, l.Settled insns insn) ∧ ∀ insn ∈ rest, insn ∈ insns) ?_ h ⟨hdone, hrest⟩).1
  rintro done insn rest done' n ⟨hdone, hrest⟩ hadvance
  obtain ⟨hinsn, hlater⟩ := List.forall_mem_cons.1 hrest
  exact ⟨settled_of_advance hadvance hinsn hdone, hlater⟩

theorem settled_of_linkMember {cls : ClassName} {m m' : Member} {n : Nat}
    (h : l.linkMember cls m = .ok (m', n)) : ∀ insn ∈ m'.insns, l.Settled m.insns insn := by
  rcases linkMember_cases h with ⟨rfl, hnone⟩ | ⟨maxLocals, insns, linked, hbody, hlink, rfl⟩
  · intro insn hinsn
    rw [hnone] at hinsn
    exact absurd hinsn List.not_mem_nil
  · have hinsns : m.insns = insns := by rw [Member.insns, hbody]; rfl
    rw [hinsns]
    exact linkFrom_settled hlink (fun _ h ↦ absurd h List.not_mem_nil) (fun _ h ↦ h)

/-- **Without type remaps, a linked tree is settled**: what is redirected in it was put there by a
redirect. -/
theorem settled_of_link {t t' : ClassTree} {n : Nat} (htypes : ∀ c, l.redirects.typeFor? c = none)
    (h : l.link t = .ok (t', n)) : ∀ insn ∈ t'.insns, l.Settled t.insns insn := by
  obtain ⟨members, hmembers, h⟩ := Outcome.bind_eq_ok.1 h
  rw [RedirectTable.renameTypes_eq_self htypes] at h
  cases Outcome.pure_eq_ok.1 h
  intro insn hinsn
  obtain ⟨m', hm', hinsn⟩ := List.mem_flatMap.1 hinsn
  obtain ⟨⟨m', n'⟩, hmem, rfl⟩ := List.mem_map.1 hm'
  obtain ⟨m, hm, hlink⟩ := Outcome.exists_of_mapM_eq_ok hmembers hmem
  exact (settled_of_linkMember hlink insn hinsn).mono fun before hbefore ↦
    List.mem_flatMap.2 ⟨m, hm, hbefore⟩

end Linker

end ClassWeave
