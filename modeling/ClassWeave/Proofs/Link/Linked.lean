import ClassWeave.Proofs.Link.Loop
import ClassWeave.Proofs.Link.Renaming
import ClassWeave.Proofs.Link.ResultCast

/-!
# What linking leaves alone

A linked tree differs from the tree in the types that are renamed and in the code of its bodies
(`Linker.TreeLinked`). In the code, raw instructions are known to the linker as the `DUP`s of
constructions and as `POP`s behind a call, and the only ones that it drops are the `DUP`s of the
pairs that it drops (`Linker.losesDups_of_linkBody`). Each step adds to what is gone, so the number
of pairs is counted in the body before linking. Linking fails on constructor calls without a `NEW`
only, and the loop over each body ends without leaving it (`Linker.link_ends_in_range`).
-/

namespace ClassWeave

namespace Linker

open Construction (asConstructorCall? adapt compatCall)

variable {l : Linker} {insn replacement : Insn} {done : List Insn} {site : CallSite}

/-! ### Raw instructions -/

/-- The raw instructions of a list. -/
def raws (insns : List Insn) : List Insn := insns.filter fun
  | .raw _ => true
  | _ => false

/-- The raw instructions of the one list, in their order, without so many `DUP`s, are those of the
other. -/
structure LosesDups (k : ℕ) (a b : List Insn) : Prop where
  sublist : (raws b).Sublist (raws a)
  others : (raws b).filter (!·.isRaw "DUP") = (raws a).filter (!·.isRaw "DUP")
  length : (raws b).length + k = (raws a).length

theorem raws_append (a b : List Insn) : raws (a ++ b) = raws a ++ raws b := List.filter_append _ _

theorem losesDups_of_eq {a b : List Insn} (h : raws b = raws a) : LosesDups 0 a b :=
  ⟨h ▸ List.Sublist.refl _, by rw [h], by rw [h, Nat.add_zero]⟩

theorem LosesDups.trans {a b c : List Insn} {k k' : ℕ} (h : LosesDups k a b)
    (h' : LosesDups k' b c) : LosesDups (k + k') a c where
  sublist := h'.sublist.trans h.sublist
  others := h'.others.trans h.others
  length := by
    have hlength := h.length
    have hlength' := h'.length
    omega

theorem LosesDups.append_right {a b : List Insn} {k : ℕ} (h : LosesDups k a b) (c : List Insn) :
    LosesDups k (a ++ c) (b ++ c) := by
  constructor
  · rw [raws_append, raws_append]
    exact h.sublist.append_right _
  · rw [raws_append, raws_append, List.filter_append, List.filter_append, h.others]
  · have hlength := h.length
    rw [raws_append, raws_append, List.length_append, List.length_append]
    omega

/-- A `DUP` is dropped. -/
theorem losesDups_of_dup {a b c : List Insn} {text : String}
    (hdup : (Insn.raw text).isRaw "DUP" = true) (ha : raws a = raws b ++ .raw text :: raws c) :
    LosesDups 1 a (b ++ c) := by
  constructor
  · rw [ha, raws_append]
    exact (List.sublist_cons_self _ _).append_left _
  · rw [ha, raws_append, List.filter_append, List.filter_append, List.filter_cons_of_neg]
    simpa using hdup
  · rw [ha, raws_append, List.length_append, List.length_append, List.length_cons]
    omega

/-- The instruction is a constructor call that is redirected to something else, so its pair goes. -/
def dropsPair (l : Linker) (insn : Insn) : Bool :=
  (l.bridgeCast? insn).isNone &&
    (l.redirectFor? ((l.demangle? insn).getD insn)).any fun r ↦
      r.1.isConstruction && (asConstructorCall? r.2).isNone

/-- Under its declared name, an instruction is the same as before but for the name. -/
theorem exists_of_demangle? {insn' : Insn} (h : l.demangle? insn = some insn') :
    ∃ use owner name name' desc, insn = .member use owner name desc ∧
      insn' = .member use owner name' desc := by
  cases insn with
  | member use owner name desc =>
    simp only [demangle?, Option.bind_eq_bind, Option.bind_eq_some_iff,
      Option.ite_none_right_eq_some] at h
    obtain ⟨_, -, m, -, -, heq⟩ := h
    exact ⟨use, owner, name, m.declaredName, desc, rfl, (Option.some.inj heq).symm⟩
  | type use cls => cases h
  | raw text => cases h

theorem raws_declared (l : Linker) (insn : Insn) :
    raws [(l.demangle? insn).getD insn] = raws [insn] := by
  cases hdemangle : l.demangle? insn with
  | none => rfl
  | some declared =>
    obtain ⟨use, owner, name, name', desc, rfl, rfl⟩ := exists_of_demangle? hdemangle
    rfl

/-- Only the call of a bridge becomes a cast. -/
theorem exists_eq_member_of_bridgeCast? {cast : Insn} (h : l.bridgeCast? insn = some cast) :
    ∃ use owner name desc, insn = .member use owner name desc := by
  cases insn with
  | member use owner name desc => exact ⟨use, owner, name, desc, rfl⟩
  | type use cls => cases h
  | raw text => cases h

theorem exists_eq_member_of_site? (h : insn.site?.isSome = true) :
    ∃ use owner name desc, insn = .member use owner name desc := by
  cases insn with
  | member use owner name desc => exact ⟨use, owner, name, desc, rfl⟩
  | type use cls => cases h
  | raw text => cases h

/-- The replacement of a constructor call drops the `DUP` of the pair that it drops. -/
theorem losesDups_of_adapt (hmember : replacement.site?.isSome = true) {c : ClassName}
    {done' : List Insn} (h : adapt done replacement c = some done') :
    LosesDups (if (asConstructorCall? replacement).isNone then 1 else 0) done done' := by
  obtain ⟨j, hj, -⟩ := Option.map_eq_some_iff.1 h
  have hopens := Construction.findNew_eq_some_iff.1 hj
  obtain ⟨front, text, middle, rfl, rfl, hdup⟩ := hopens.exists_eq_append hmember
  rw [hopens.adapt_eq] at h
  obtain rfl := Option.some.inj h
  obtain ⟨use, owner, name, desc, rfl⟩ := exists_eq_member_of_site? hmember
  rw [Construction.adaptedPair]
  cases hcall : asConstructorCall? (.member use owner name desc) with
  | some call =>
    obtain ⟨_, call⟩ := call
    obtain ⟨_, desc', -, rfl⟩ := Construction.asConstructorCall?_eq_some_iff.1 hcall
    exact losesDups_of_eq (by simp [raws, Construction.constructorCall])
  | none =>
    rw [List.append_assoc]
    exact losesDups_of_dup hdup (by simp [raws])

/-- Any other replacement drops nothing. -/
theorem losesDups_of_applyRedirect (hmember : replacement.site?.isSome = true)
    {done' : List Insn} {next : Option Insn} {n : ℕ}
    (h : applyRedirect done site replacement next = some (done', n)) :
    LosesDups (if site.isConstruction && (asConstructorCall? replacement).isNone then 1 else 0)
      done done' := by
  rw [applyRedirect] at h
  by_cases hsite : site.isConstruction = true
  · rw [if_pos hsite] at h
    obtain ⟨adapted, hadapt, heq⟩ := Option.map_eq_some_iff.1 h
    obtain ⟨rfl, -⟩ := Prod.mk.inj heq
    rw [hsite, Bool.true_and]
    exact losesDups_of_adapt hmember hadapt
  · rw [if_neg hsite] at h
    rw [Bool.eq_false_iff.2 hsite, Bool.false_and]
    obtain ⟨use, owner, name, desc, rfl⟩ := exists_eq_member_of_site? hmember
    refine losesDups_of_eq ?_
    split at h
    · rename_i cast hcast
      obtain ⟨_, rfl⟩ := exists_of_returnCast? hcast
      split at h
      · cases h
        simp [raws]
      · cases h
        simp [raws]
    · cases h
      simp [raws]

/-- **A step drops the `DUP` of a pair or nothing raw.** -/
theorem losesDups_of_advance (hmembers : l.RedirectsToMembers) {done' : List Insn}
    {next : Option Insn} {n : ℕ} (h : l.advance done insn next = .ok (done', n)) :
    LosesDups (if l.dropsPair insn then 1 else 0) (done ++ [insn]) done' := by
  rw [dropsPair]
  rcases advance_cases h with ⟨cls, hbridge, rfl⟩ | ⟨hbridge, hnone, rfl⟩ |
    ⟨site, replacement, casts, hredirects, happly⟩
  · obtain ⟨use, owner, name, desc, rfl⟩ := exists_eq_member_of_bridgeCast? hbridge
    rw [hbridge]
    exact losesDups_of_eq (by rw [raws_append, raws_append]; rfl)
  · rw [hbridge, hnone]
    exact losesDups_of_eq (by rw [raws_append, raws_append, raws_declared])
  · obtain ⟨use, owner, name, desc, rfl⟩ := hredirects.exists_eq_member
    have hmember := hmembers _ _ (get?_of_redirectFor? hredirects.2)
    have hdone : LosesDups 0 (done ++ [.member use owner name desc]) done :=
      losesDups_of_eq (by rw [raws_append]; exact (List.append_nil _).symm)
    rw [hredirects.1, hredirects.2]
    simpa only [Nat.zero_add, Option.isNone_none, Bool.true_and, Option.any_some] using
      hdone.trans (losesDups_of_applyRedirect hmember happly)

/-- **Linking drops the `DUP`s of the pairs that it drops**, and no other raw instruction. -/
theorem losesDups_of_linkBody (hmembers : l.RedirectsToMembers) {cls : ClassName}
    {member : String} {insns linked : List Insn} {n : ℕ}
    (h : l.linkBody cls member insns = .ok (linked, n)) :
    LosesDups (insns.countP l.dropsPair) insns linked := by
  -- the pairs of the rest are still to be dropped
  have hlinked := linkFrom_invariant (P := fun done rest ↦ ∃ k,
    k + rest.countP l.dropsPair = insns.countP l.dropsPair ∧ LosesDups k insns (done ++ rest)) ?_ h
    ⟨0, Nat.zero_add _, losesDups_of_eq rfl⟩
  · obtain ⟨k, hk, hloses⟩ := hlinked
    rw [List.countP_nil, Nat.add_zero] at hk
    rwa [hk, List.append_nil] at hloses
  · rintro done insn rest done' n ⟨k, hk, hloses⟩ hadvance
    refine ⟨_, ?_, hloses.trans (List.append_cons done insn rest ▸
      (losesDups_of_advance hmembers hadvance).append_right rest)⟩
    rw [← hk, List.countP_cons]
    omega

/-! ### The whole tree -/

/-- A body whose instructions were linked: of the raw ones there, the `DUP`s of the pairs that were
dropped are gone. -/
inductive BodyLinked (l : Linker) : Option Body → Option Body → Prop where
  | none : BodyLinked l none none
  | fails (fault : Fault) : BodyLinked l (some (.fails fault)) (some (.fails fault))
  | code (maxLocals : UInt16) {insns linked : List Insn}
      (h : LosesDups (insns.countP l.dropsPair) insns linked) :
      BodyLinked l (some (.code maxLocals insns)) (some (.code maxLocals linked))

/-- A linked member differs in its descriptor and in its body only. -/
structure MemberLinked (l : Linker) (m m' : Member) : Prop where
  rest : m' = { m with desc := m'.desc, body := m'.body }
  body : l.BodyLinked m.body m'.body

/-- A linked tree differs in its superclass, its interfaces and its members only, and has as many
members, in the same order. -/
structure TreeLinked (l : Linker) (t t' : ClassTree) : Prop where
  rest : t' = { t with
    superclass := t'.superclass, interfaces := t'.interfaces, members := t'.members }
  members : List.Forall₂ l.MemberLinked t.members t'.members

/-- Renaming types leaves raw instructions alone. -/
theorem raws_map_renamedInsn (t : RedirectTable) (insns : List Insn) :
    raws (insns.map t.renamedInsn) = raws insns := by
  induction insns with
  | nil => rfl
  | cons insn insns ih =>
    have hinsn : raws [t.renamedInsn insn] = raws [insn] := by
      cases insn with
      | member use owner name desc =>
        rw [RedirectTable.renamedInsn_member]
        rfl
      | type use cls =>
        rw [RedirectTable.renamedInsn_type]
        rfl
      | raw text => rfl
    rw [List.map_cons, ← List.singleton_append, raws_append, hinsn, ih, ← raws_append]
    rfl

theorem bodyLinked_map_renamedInsn {maxLocals : UInt16} {insns linked : List Insn}
    (h : LosesDups (insns.countP l.dropsPair) insns linked) :
    l.BodyLinked (some (.code maxLocals insns))
      (some (.code maxLocals (linked.map l.redirects.renamedInsn))) :=
  .code maxLocals (h.trans (losesDups_of_eq (raws_map_renamedInsn _ linked)))

theorem memberLinked_of_linkMember (hmembers : l.RedirectsToMembers) {cls : ClassName}
    {m m' : Member} {n : ℕ} (h : l.linkMember cls m = .ok (m', n)) :
    l.MemberLinked m (l.redirects.renameMember m').1 := by
  rw [RedirectTable.renameMember_fst]
  rcases linkMember_cases h with ⟨rfl, hnone⟩ | ⟨maxLocals, insns, linked, hbody, hlink, rfl⟩
  · refine ⟨rfl, ?_⟩
    cases hbody : m'.body with
    | none => exact .none
    | some b =>
      cases b with
      | fails fault => exact .fails fault
      | code maxLocals insns =>
        rw [Member.insns, hbody] at hnone
        obtain rfl : insns = [] := hnone
        exact bodyLinked_map_renamedInsn (losesDups_of_eq rfl)
  · refine ⟨rfl, ?_⟩
    rw [hbody]
    exact bodyLinked_map_renamedInsn (losesDups_of_linkBody hmembers hlink)

theorem treeLinked_of_link (hmembers : l.RedirectsToMembers) {t t' : ClassTree} {n : ℕ}
    (h : l.link t = .ok (t', n)) : l.TreeLinked t t' := by
  obtain ⟨members, ht', hlinked⟩ := exists_of_link_eq_ok h
  rw [ht', RedirectTable.renameTypes_fst]
  refine ⟨rfl, ?_⟩
  rw [List.forall₂_map_right_iff]
  exact hlinked.imp fun m m' ⟨_, hlink⟩ ↦ memberLinked_of_linkMember hmembers hlink

theorem linkMember_eq_error {cls : ClassName} {m : Member} {e : SplitError}
    (h : l.linkMember cls m = .error e) : l.linkBody cls m.name m.insns = .error e := by
  obtain ⟨name, desc, kind, isStatic, isSynthetic, access, body⟩ := m
  cases body with
  | none => cases h
  | some b =>
    rcases Outcome.bind_eq_error.1 h with h | ⟨r, -, h⟩
    · exact h
    · cases h

/-- **Linking fails only on a constructor call without its `NEW`.** -/
theorem exists_of_link_eq_error (hmembers : l.RedirectsToMembers) {t : ClassTree} {e : SplitError}
    (h : l.link t = .error e) : ∃ m ∈ t.members, ∃ site : CallSite,
      e = .unmatchedConstructor t.name m.name site.text := by
  have hlinked : t.members.mapM (l.linkMember t.name) = .error e := by
    rcases Outcome.bind_eq_error.1 h with h | ⟨members, -, h⟩
    · exact h
    · cases h
  obtain ⟨m, hm, hfails⟩ := Outcome.exists_of_mapM_eq_error hlinked
  obtain ⟨examined, out, hends⟩ := exists_endsInRange hmembers t.name m.name m.insns
  have houtcome := hends.outcome
  rw [linkMember_eq_error hfails] at houtcome
  cases out with
  | ok r => cases houtcome
  | error site => exact ⟨m, hm, site, Except.error.inj houtcome⟩

/-- What linking makes of an instruction where nothing is redirected. -/
inductive Rewritten (l : Linker) : Insn → Insn → Prop where
  | kept (insn : Insn) : Rewritten l insn insn
  | renamed (use : MemberUse) (owner : ClassName) (name name' desc : String) :
      Rewritten l (.member use owner name desc) (.member use owner name' desc)
  | cast {insn : Insn} {cls : ClassName} (h : l.bridgeCast? insn = some (.type .checkCast cls)) :
      Rewritten l insn (.type .checkCast cls)

theorem rewritten_rewrite (l : Linker) (insn : Insn) : l.Rewritten insn (l.rewrite insn) := by
  rw [rewrite]
  cases hbridge : l.bridgeCast? insn with
  | some cast =>
    obtain ⟨cls, rfl⟩ := exists_of_bridgeCast? hbridge
    exact .cast hbridge
  | none =>
    cases hdemangle : l.demangle? insn with
    | none => exact .kept insn
    | some declared =>
      obtain ⟨use, owner, name, name', desc, rfl, rfl⟩ := exists_of_demangle? hdemangle
      exact .renamed use owner name name' desc

/-- **Linking ends, and touches only what it may.** -/
theorem link_ends_in_range (l : Linker) (hmembers : l.RedirectsToMembers) (t : ClassTree) :
    (∀ m ∈ t.members, ∃ examined out, l.EndsInRange t.name m.name m.insns examined out) ∧
    (∀ e, l.link t = .error e → ∃ m ∈ t.members, ∃ site : CallSite,
      e = .unmatchedConstructor t.name m.name site.text) ∧
    (∀ t' n, l.link t = .ok (t', n) → l.TreeLinked t t') ∧
    ((∀ s, l.redirects.get? s = none) → (∀ c, l.redirects.typeFor? c = none) →
      ∃ t' n, l.link t = .ok (t', n) ∧
        List.Forall₂ (fun m m' : Member ↦ List.Forall₂ l.Rewritten m.insns m'.insns)
          t.members t'.members) := by
  refine ⟨fun m _ ↦ exists_endsInRange hmembers t.name m.name m.insns,
    fun e h ↦ exists_of_link_eq_error hmembers h, fun t' n h ↦ treeLinked_of_link hmembers h,
    fun hsites htypes ↦ ?_⟩
  refine ⟨_, _, link_eq_renameTypes hsites t, ?_⟩
  rw [RedirectTable.renameTypes_eq_self htypes]
  show List.Forall₂ _ t.members (t.members.map l.rewriteMember)
  rw [List.forall₂_map_right_iff, List.forall₂_same]
  intro m _
  rw [insns_rewriteMember, List.forall₂_map_right_iff, List.forall₂_same]
  exact fun insn _ ↦ rewritten_rewrite l insn

/-- A pair goes and a cast comes: the loop moves back by two and forth by two. -/
theorem link_ends_in_range_titledBody :
    titleLinker.RedirectsToMembers ∧
      (∃ r, titleLinker.EndsInRange (callerOf titledBody).name "use" titledBody titledBody (.ok r)) ∧
      titleLinker.TreeLinked (callerOf titledBody) (callerOf
        [compatCall "title" "()Ljava/lang/Object;", .type .checkCast ⟨"java/lang/String"⟩,
          compatCall "make" "(Ljava/lang/String;)Lx/B;", .raw "POP"]) ∧
      titledBody.countP titleLinker.dropsPair = 1 := by
  have hmembers : titleLinker.RedirectsToMembers := by
    have hvalues : ∀ insn ∈ titleLinker.redirects.sites.values, insn.site?.isSome = true := by
      decide +kernel
    exact fun s replacement h ↦ hvalues replacement (OrderedMap.mem_values.2 ⟨s, h⟩)
  have hlink : titleLinker.link (callerOf titledBody) = .ok (callerOf
      [compatCall "title" "()Ljava/lang/Object;", .type .checkCast ⟨"java/lang/String"⟩,
        compatCall "make" "(Ljava/lang/String;)Lx/B;", .raw "POP"], 3) := by decide +kernel
  obtain ⟨hloop, -, hlinked, -⟩ := link_ends_in_range titleLinker hmembers (callerOf titledBody)
  obtain ⟨examined, out, hends⟩ := hloop _ List.mem_cons_self
  refine ⟨hmembers, ?_, hlinked _ _ hlink, by decide +kernel⟩
  have hbody : (titleLinker.linkBody ⟨"x/User"⟩ "use" titledBody).isOk = true := by decide +kernel
  cases out with
  | ok r =>
    have hall : examined = titledBody := hends.complete r rfl
    exact ⟨r, hall ▸ hends⟩
  | error site =>
    have hfails : titleLinker.linkBody ⟨"x/User"⟩ "use" titledBody = .error _ := hends.outcome
    rw [hfails] at hbody
    cases hbody

end Linker

end ClassWeave
