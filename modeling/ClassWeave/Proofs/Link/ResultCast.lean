import ClassWeave.Proofs.Link.Construction
import ClassWeave.Proofs.Link.MergeOnly
import ClassWeave.Proofs.Link.Redirected

/-!
# The type that a redirect leaves

What a redirect puts in place may leave another type than its call site promised. A cast behind it
makes up for that, at calls and at fields that are read (`Linker.link_casts_results`). A redirected
constructor call promises an object of its class all the same, but what is called in its place is
never followed by a cast (`Linker.uncast_construction`).

Where a cast stands is not said by a position, since constructions that are redirected further on
take their `NEW`s along. Linking is seen in two steps instead: each instruction becomes what it
becomes by itself (`Linker.laidAll`), and constructions rework what was there before
(`Construction.Reworked`). They do so to the `NEW`s and `DUP`s only, so a replacement keeps its cast
(`Linker.exists_of_linkBody_append`).
-/

namespace ClassWeave

/-! ### Types -/

/-- A descriptor of a class or of an array, and the name by which a cast calls this type. -/
inductive Descriptor.NamesType : String → ClassName → Prop where
  | array {desc : String} {element : List Char} (h : desc.toList = '[' :: element) :
      NamesType desc (.ofText desc)
  | object {desc : String} {name : List Char} (h : desc.toList = 'L' :: (name ++ [';'])) :
      NamesType desc (.ofText (.ofList name))

/-- A class names its own type. -/
theorem Descriptor.NamesType.descriptor {c : ClassName} (h : c.DotFree) :
    NamesType c.descriptor c := by
  have hnames := NamesType.object (toList_descriptor c)
  rwa [String.ofList_toList, ClassName.ofText_text h] at hnames

/-- The type that a call site promises to what comes after it. A constructor call promises an object
of its class. -/
inductive CallSite.Promises : CallSite → String → Prop where
  | result {owner : ClassName} {name desc type : String} (hname : name ≠ constructorName)
      (htype : Descriptor.returnType desc = .ok type) : Promises ⟨owner, name, desc, .call⟩ type
  | value (owner : ClassName) (name desc : String) : Promises ⟨owner, name, desc, .get⟩ desc
  | object (owner : ClassName) (desc : String) :
      Promises ⟨owner, constructorName, desc, .call⟩ owner.descriptor

/-- The type that an instruction leaves. A constructor returns nothing and leaves its object. -/
inductive Insn.Leaves : Insn → String → Prop where
  | result {kind : InvokeKind} {owner : ClassName} {name desc type : String}
      (hname : name ≠ constructorName) (htype : Descriptor.returnType desc = .ok type) :
      Leaves (.member (.invoke kind) owner name desc) type
  | value {access : FieldAccess} (owner : ClassName) (name desc : String)
      (hget : access.isGet = true) : Leaves (.member (.field access) owner name desc) desc
  | object {kind : InvokeKind} (owner : ClassName) {desc : String}
      (hvoid : Descriptor.returnType desc = .ok "V") :
      Leaves (.member (.invoke kind) owner constructorName desc) owner.descriptor

/-- An instruction that is no part of a construction. -/
structure Insn.Stays (insn : Insn) : Prop where
  ne_new : ∀ cls, insn ≠ .type .new cls
  ne_dup : ¬ insn.isRaw "DUP" = true

theorem Insn.stays_member (use : MemberUse) (owner : ClassName) (name desc : String) :
    (member use owner name desc).Stays :=
  ⟨fun _ h ↦ (nomatch h), fun h ↦ (nomatch h)⟩

theorem Insn.stays_checkCast (cls : ClassName) : (type .checkCast cls).Stays :=
  ⟨fun _ h ↦ (nomatch h), fun h ↦ (nomatch h)⟩

namespace Construction

variable {a b c d out : List Insn}

/-! ### What constructions do to the instructions done -/

/-- Some `NEW`s of a list have another class, and some of them and of the `DUP`s are gone. -/
inductive Reworked : List Insn → List Insn → Prop where
  | nil : Reworked [] []
  | keep {a b : List Insn} (insn : Insn) (h : Reworked a b) : Reworked (insn :: a) (insn :: b)
  | retarget {a b : List Insn} (cls cls' : ClassName) (h : Reworked a b) :
      Reworked (.type .new cls :: a) (.type .new cls' :: b)
  | dropNew {a b : List Insn} (cls : ClassName) (h : Reworked a b) :
      Reworked (.type .new cls :: a) b
  | dropDup {a b : List Insn} {insn : Insn} (hdup : insn.isRaw "DUP" = true) (h : Reworked a b) :
      Reworked (insn :: a) b

namespace Reworked

theorem refl (a : List Insn) : Reworked a a := by
  induction a with
  | nil => exact .nil
  | cons insn a ih => exact .keep insn ih

theorem append (h : Reworked a b) (h' : Reworked c d) : Reworked (a ++ c) (b ++ d) := by
  induction h with
  | nil => exact h'
  | keep insn _ ih => exact .keep insn ih
  | retarget cls cls' _ ih => exact .retarget cls cls' ih
  | dropNew cls _ ih => exact .dropNew cls ih
  | dropDup hdup _ ih => exact .dropDup hdup ih

theorem trans (h : Reworked a b) (h' : Reworked b c) : Reworked a c := by
  induction h generalizing c with
  | nil => exact h'
  | keep insn _ ih =>
    cases h' with
    | keep _ h' => exact .keep insn (ih h')
    | retarget cls cls' h' => exact .retarget cls cls' (ih h')
    | dropNew cls h' => exact .dropNew cls (ih h')
    | dropDup hdup h' => exact .dropDup hdup (ih h')
  | retarget cls cls' _ ih =>
    cases h' with
    | keep _ h' => exact .retarget cls cls' (ih h')
    | retarget _ cls'' h' => exact .retarget cls cls'' (ih h')
    | dropNew _ h' => exact .dropNew cls (ih h')
    | dropDup hdup h' => cases hdup
  | dropNew cls _ ih => exact .dropNew cls (ih h')
  | dropDup hdup _ ih => exact .dropDup hdup (ih h')

theorem exists_of_append (h : Reworked (a ++ b) out) :
    ∃ front back, out = front ++ back ∧ Reworked a front ∧ Reworked b back := by
  induction a generalizing out with
  | nil => exact ⟨[], out, rfl, .nil, h⟩
  | cons insn a ih =>
    cases h with
    | keep _ h =>
      obtain ⟨front, back, rfl, ha, hb⟩ := ih h
      exact ⟨insn :: front, back, rfl, .keep insn ha, hb⟩
    | retarget cls cls' h =>
      obtain ⟨front, back, rfl, ha, hb⟩ := ih h
      exact ⟨.type .new cls' :: front, back, rfl, .retarget cls cls' ha, hb⟩
    | dropNew cls h =>
      obtain ⟨front, back, rfl, ha, hb⟩ := ih h
      exact ⟨front, back, rfl, .dropNew cls ha, hb⟩
    | dropDup hdup h =>
      obtain ⟨front, back, rfl, ha, hb⟩ := ih h
      exact ⟨front, back, rfl, .dropDup hdup ha, hb⟩

theorem eq_self (h : Reworked a out) (hstays : ∀ insn ∈ a, insn.Stays) : out = a := by
  induction h with
  | nil => rfl
  | keep insn _ ih => rw [ih fun insn hinsn ↦ hstays insn (List.mem_cons_of_mem _ hinsn)]
  | retarget cls cls' _ _ => exact absurd rfl ((hstays _ List.mem_cons_self).ne_new cls)
  | dropNew cls _ _ => exact absurd rfl ((hstays _ List.mem_cons_self).ne_new cls)
  | dropDup hdup _ _ => exact absurd hdup (hstays _ List.mem_cons_self).ne_dup

end Reworked

/-- What stands in the place of a constructor call that goes to a replacement. -/
def placed (replacement : Insn) : Insn :=
  ((asConstructorCall? replacement).map (·.2)).getD replacement

theorem stays_placed (use : MemberUse) (owner : ClassName) (name desc : String) :
    (placed (.member use owner name desc)).Stays := by
  rw [placed]
  cases hcall : asConstructorCall? (.member use owner name desc) with
  | none => exact Insn.stays_member use owner name desc
  | some call =>
    obtain ⟨owner', call⟩ := call
    obtain ⟨_, desc', -, rfl⟩ := asConstructorCall?_eq_some_iff.1 hcall
    exact Insn.stays_member (.invoke .special) owner' constructorName desc'

/-- **Adapting a construction reworks the instructions done.** -/
theorem reworked_of_adapt {done done' : List Insn} {replacement : Insn} {cls : ClassName}
    (h : adapt done replacement cls = some done') :
    Reworked (done ++ [placed replacement]) done' := by
  obtain ⟨j, hj, h⟩ := Option.map_eq_some_iff.1 h
  obtain ⟨hlt, hnew, ⟨text, hdup, hraw⟩, -⟩ := findNew_eq_some_iff.1 hj
  cases hcall : asConstructorCall? replacement with
  | some call =>
    obtain ⟨owner, call⟩ := call
    simp only [hcall] at h
    subst h
    rw [placed, hcall]
    refine .append ?_ (.refl [call])
    rw [List.getElem?_append_left hlt] at hnew
    obtain ⟨_, hnew⟩ := List.getElem?_eq_some_iff.1 hnew
    conv_lhs => rw [← List.take_append_drop j done, List.drop_eq_getElem_cons hlt, hnew]
    rw [List.set_eq_take_append_cons_drop, if_pos hlt]
    exact .append (.refl _) (.retarget cls owner (.refl _))
  | none =>
    simp only [hcall] at h
    subst h
    rw [placed, hcall]
    -- the `DUP` may be the replacement itself, so the list is taken as a whole
    show Reworked (done ++ [replacement]) _
    obtain ⟨hlt', hnew⟩ := List.getElem?_eq_some_iff.1 hnew
    obtain ⟨hlt'', hdup⟩ := List.getElem?_eq_some_iff.1 hdup
    conv_lhs => rw [← List.take_append_drop j (done ++ [replacement]),
      List.drop_eq_getElem_cons hlt', List.drop_eq_getElem_cons hlt'', hnew, hdup]
    exact .append (.refl _) (.dropNew cls (.dropDup hraw (.refl _)))

end Construction

namespace Linker

open Construction (Reworked placed constructorCall compatCall)

variable {l : Linker} {insn replacement : Insn} {site : CallSite} {cls : ClassName}

/-! ### What each instruction becomes by itself -/

/-- What a redirect puts in the place of an instruction, with the one behind it known. -/
def redirected (site : CallSite) (replacement : Insn) (next : Option Insn) : List Insn :=
  if site.isConstruction then [placed replacement]
  else if next.any (·.isRaw "POP") then [replacement]
  else replacement :: (returnCast? site replacement).toList

/-- What linking makes of an instruction, with the one behind it known. -/
def laid (l : Linker) (insn : Insn) (next : Option Insn) : List Insn :=
  match l.bridgeCast? insn with
  | some cast => [cast]
  | none =>
    let declared := (l.demangle? insn).getD insn
    match l.redirectFor? declared with
    | none => [declared]
    | some (site, replacement) => redirected site replacement next

/-- What linking makes of the instructions of a body, each by itself. -/
def laidAll (l : Linker) : List Insn → List Insn
  | [] => []
  | insn :: rest => l.laid insn rest.head? ++ l.laidAll rest

theorem reworked_of_applyRedirect {done done' : List Insn} {next : Option Insn} {n : ℕ}
    (h : applyRedirect done site replacement next = some (done', n)) :
    Reworked (done ++ redirected site replacement next) done' := by
  rw [applyRedirect] at h
  rw [redirected]
  by_cases hsite : site.isConstruction = true
  · rw [if_pos hsite] at h
    rw [if_pos hsite]
    obtain ⟨adapted, hadapt, heq⟩ := Option.map_eq_some_iff.1 h
    obtain ⟨rfl, -⟩ := Prod.mk.inj heq
    exact Construction.reworked_of_adapt hadapt
  · rw [if_neg hsite] at h
    rw [if_neg hsite]
    cases hcast : returnCast? site replacement with
    | none =>
      simp only [hcast] at h
      cases h
      rw [Option.toList_none, ite_self]
      exact .refl _
    | some cast =>
      simp only [hcast] at h
      by_cases hpop : next.any (·.isRaw "POP") = true
      · rw [if_pos hpop] at h
        rw [if_pos hpop]
        cases h
        exact .refl _
      · rw [if_neg hpop] at h
        rw [if_neg hpop]
        cases h
        exact .refl _

/-- **A step adds what its instruction becomes**, and reworks what was there before. -/
theorem reworked_of_advance {done done' : List Insn} {next : Option Insn} {n : ℕ}
    (h : l.advance done insn next = .ok (done', n)) :
    Reworked (done ++ l.laid insn next) done' := by
  rw [laid]
  rcases advance_cases h with ⟨cls, hbridge, rfl⟩ | ⟨hbridge, hnone, rfl⟩ |
    ⟨site, replacement, casts, ⟨hbridge, hredirect⟩, happly⟩
  · rw [hbridge]
    exact .refl _
  · simp only [hbridge, hnone]
    exact .refl _
  · simp only [hbridge, hredirect]
    exact reworked_of_applyRedirect happly

/-- **A linked body is what its instructions become**, reworked by its constructions. -/
theorem reworked_of_linkFrom {member : String} {done rest out : List Insn} {n : ℕ}
    (h : l.linkFrom cls member done rest = .ok (out, n)) :
    Reworked (done ++ l.laidAll rest) out := by
  have hout := linkFrom_invariant
    (P := fun front back ↦ Reworked (done ++ l.laidAll rest) (front ++ l.laidAll back)) ?_ h
    (.refl _)
  · rwa [laidAll, List.append_nil] at hout
  · intro front insn back front' k hfront hadvance
    rw [laidAll, ← List.append_assoc] at hfront
    exact hfront.trans ((reworked_of_advance hadvance).append (.refl _))

/-! ### A site and what is around it -/

/-- Only instructions that name a member are redirected. -/
theorem Redirects.exists_eq_member (h : l.Redirects insn site replacement) :
    ∃ use owner name desc, insn = .member use owner name desc := by
  have hredirect := h.2
  cases insn with
  | member use owner name desc => exact ⟨use, owner, name, desc, rfl⟩
  | type use cls =>
    rw [redirectFor?_of_site? rfl] at hredirect
    cases hredirect
  | raw text =>
    rw [redirectFor?_of_site? rfl] at hredirect
    cases hredirect

theorem laid_of_redirects (h : l.Redirects insn site replacement) (next : Option Insn) :
    l.laid insn next = redirected site replacement next := by
  rw [laid, h.1]
  simp only [h.2]

/-- Of the instruction behind it, an instruction only has to know whether it is a `POP`. -/
theorem laid_congr {next next' : Option Insn}
    (h : next.any (·.isRaw "POP") = next'.any (·.isRaw "POP")) :
    l.laid insn next = l.laid insn next' := by
  simp only [laid, redirected, h]

theorem laidAll_append_cons {before : List Insn} (hpop : insn.isRaw "POP" = false)
    (after : List Insn) : l.laidAll (before ++ insn :: after) =
      l.laidAll before ++ (l.laid insn after.head? ++ l.laidAll after) := by
  induction before with
  | nil => rfl
  | cons first before ih =>
    have hnext : ((before ++ insn :: after).head?).any (·.isRaw "POP") =
        before.head?.any (·.isRaw "POP") := by
      cases before with
      | nil => exact hpop
      | cons _ _ => rfl
    rw [List.cons_append, laidAll, laidAll, ih, laid_congr hnext, List.append_assoc]

/-- A `POP` is left alone. -/
theorem laidAll_of_pop {after : List Insn} (h : after.head?.any (·.isRaw "POP") = true) :
    ∃ text rest, after = .raw text :: rest ∧ l.laidAll after = .raw text :: l.laidAll rest := by
  cases after with
  | nil => cases h
  | cons insn rest =>
    cases insn with
    | raw text =>
      refine ⟨text, rest, rfl, ?_⟩
      rw [laidAll, laid]
      have hredirect : l.redirectFor? (.raw text) = none := redirectFor?_of_site? rfl
      simp only [bridgeCast?, demangle?, Option.getD_none, hredirect, List.singleton_append]
    | member use owner name desc => cases h
    | type use cls => cases h

/-- **What a redirect puts in place stays together in a linked body**, between what the instructions
around it have become, if constructions leave it alone. -/
theorem exists_of_linkBody_append {member : String} {before after out : List Insn} {n : ℕ}
    (hredirects : l.Redirects insn site replacement)
    (h : l.linkBody cls member (before ++ insn :: after) = .ok (out, n))
    (hstays : ∀ placed ∈ redirected site replacement after.head?, placed.Stays) :
    ∃ front back, out = front ++ redirected site replacement after.head? ++ back ∧
      Reworked (l.laidAll before) front ∧ Reworked (l.laidAll after) back := by
  obtain ⟨use, owner, name, desc, rfl⟩ := hredirects.exists_eq_member
  have hreworked := reworked_of_linkFrom h
  rw [List.nil_append, laidAll_append_cons rfl, laid_of_redirects hredirects] at hreworked
  obtain ⟨front, tail, rfl, hfront, htail⟩ := hreworked.exists_of_append
  obtain ⟨middle, back, rfl, hmiddle, hback⟩ := htail.exists_of_append
  refine ⟨front, back, ?_, hfront, hback⟩
  rw [hmiddle.eq_self hstays, List.append_assoc]

/-! ### The cast of a result -/

variable {expected produced : String}

theorem castClass?_of_namesType (h : Descriptor.NamesType expected cls) :
    castClass? expected = some cls := by
  rw [castClass?]
  cases h with
  | array h => rw [h, List.head?_cons, if_pos rfl]
  | object h =>
    have hlast (name : List Char) :
        Descriptor.objectName? ('L' :: (name ++ [';'])) = some name := by
      rw [Descriptor.objectName?, List.getLast?_concat, if_pos rfl, List.dropLast_concat]
    rw [h, List.head?_cons, if_neg (by decide), Descriptor.objectType?, h, hlast, Option.map_some]

/-- A type that a cast can name is not the one of a method without a result. -/
theorem ne_void_of_namesType (h : Descriptor.NamesType expected cls) : expected ≠ "V" := by
  rintro rfl
  cases h with
  | array h => cases h
  | object h => cases h

/-- A replacement of another type is followed by the cast, except in a construction. -/
theorem returnCast?_eq_some (hsite : ¬ site.isConstruction = true)
    (hexpected : site.Promises expected) (hproduced : replacement.Leaves produced)
    (hne : expected ≠ produced) (hnames : Descriptor.NamesType expected cls) :
    returnCast? site replacement = some (.type .checkCast cls) := by
  have hexpected : expectedType? site = some expected := by
    cases hexpected with
    | result hname htype => rw [expectedType?, htype]; rfl
    | value owner name desc => rfl
    | object owner desc => exact absurd rfl hsite
  have hproduced : ∃ result, producedType? replacement = some result ∧ expected ≠ result := by
    cases hproduced with
    | result hname htype => exact ⟨_, by rw [producedType?, htype]; rfl, hne⟩
    | value owner name desc hget => exact ⟨_, by rw [producedType?, if_pos hget], hne⟩
    | object owner hvoid =>
      exact ⟨"V", by rw [producedType?, hvoid]; rfl, ne_void_of_namesType hnames⟩
  obtain ⟨result, hresult, hne⟩ := hproduced
  rw [returnCast?, hexpected, hresult]
  simp only [Option.bind_eq_bind, Option.bind_some, if_neg hne, castClass?_of_namesType hnames]

/-- In a linked body, each redirected site whose replacement leaves another type than the class or
array type that it promised has become the replacement and a cast to that type, between what the
instructions around it have become. There is no cast where the next instruction drops the result,
and none for a constructor call. -/
def CastsResults (l : Linker) (insns out : List Insn) : Prop :=
  ∀ ⦃before after : List Insn⦄ ⦃insn replacement : Insn⦄ ⦃site : CallSite⦄
    ⦃expected produced : String⦄ ⦃cls : ClassName⦄, insns = before ++ insn :: after →
    l.Redirects insn site replacement → site.Promises expected → replacement.Leaves produced →
    expected ≠ produced → Descriptor.NamesType expected cls →
    ∃ front back, Reworked (l.laidAll before) front ∧ Reworked (l.laidAll after) back ∧
      out = front ++
        (if site.isConstruction then [placed replacement]
          else if after.head?.any (·.isRaw "POP") then [replacement]
          else [replacement, .type .checkCast cls]) ++ back ∧
      (after.head?.any (·.isRaw "POP") = true → back.head? = after.head?)

/-- What a redirect of such a site puts in place. -/
theorem redirected_eq (hexpected : site.Promises expected) (hproduced : replacement.Leaves produced)
    (hne : expected ≠ produced) (hnames : Descriptor.NamesType expected cls) (next : Option Insn) :
    redirected site replacement next =
      if site.isConstruction then [placed replacement]
      else if next.any (·.isRaw "POP") then [replacement]
      else [replacement, .type .checkCast cls] := by
  rw [redirected]
  split
  · rfl
  · rename_i hsite
    rw [returnCast?_eq_some hsite hexpected hproduced hne hnames, Option.toList_some]

/-- Constructions leave it alone. -/
theorem stays_of_mem_redirected (hproduced : replacement.Leaves produced) {next : Option Insn}
    (hinsn : insn ∈ redirected site replacement next) : insn.Stays := by
  have hmember : ∃ use owner name desc, replacement = .member use owner name desc := by
    cases hproduced <;> exact ⟨_, _, _, _, rfl⟩
  obtain ⟨use, owner, name, desc, rfl⟩ := hmember
  rw [redirected] at hinsn
  split at hinsn
  · rw [List.mem_singleton.1 hinsn]
    exact Construction.stays_placed use owner name desc
  · split at hinsn
    · rw [List.mem_singleton.1 hinsn]
      exact Insn.stays_member use owner name desc
    · rcases List.mem_cons.1 hinsn with rfl | hinsn
      · exact Insn.stays_member use owner name desc
      · obtain ⟨cls, rfl⟩ := exists_of_returnCast? (Option.mem_toList.1 hinsn)
        exact Insn.stays_checkCast cls

theorem castsResults_of_linkBody {member : String} {insns out : List Insn} {n : ℕ}
    (h : l.linkBody cls member insns = .ok (out, n)) : l.CastsResults insns out := by
  rintro before after insn replacement site expected produced cls' rfl hredirects hexpected
    hproduced hne hnames
  obtain ⟨front, back, rfl, hfront, hback⟩ :=
    exists_of_linkBody_append hredirects h fun placed ↦ stays_of_mem_redirected hproduced
  refine ⟨front, back, hfront, hback, ?_, fun hpop ↦ ?_⟩
  · rw [redirected_eq hexpected hproduced hne hnames]
  · obtain ⟨text, rest, rfl, hlaid⟩ := laidAll_of_pop hpop
    rw [hlaid] at hback
    cases hback with
    | keep _ _ => rfl
    | dropDup hdup _ =>
      have hpop : (Text.trim text).toUpper = "POP" := of_decide_eq_true hpop
      have hdup : (Text.trim text).toUpper = "DUP" := of_decide_eq_true hdup
      rw [hpop] at hdup
      exact absurd hdup (by decide)

/-- A body without instructions has no sites. -/
theorem castsResults_nil (l : Linker) (out : List Insn) : l.CastsResults [] out := by
  intro before after insn replacement site expected produced cls h
  exact absurd h.symm (List.append_ne_nil_of_right_ne_nil _ (List.cons_ne_nil _ _))

theorem castsResults_of_linkMember {m m' : Member} {n : ℕ} (h : l.linkMember cls m = .ok (m', n)) :
    l.CastsResults m.insns m'.insns := by
  rcases linkMember_cases h with ⟨rfl, hnone⟩ | ⟨maxLocals, insns, linked, hbody, hlink, rfl⟩
  · rw [hnone]
    exact castsResults_nil l _
  · have hinsns : m.insns = insns := by rw [Member.insns, hbody]; rfl
    rw [hinsns]
    exact castsResults_of_linkBody hlink

/-- **A redirect makes up for the type that it leaves**, at every call and every field that is read,
before the types are renamed. A constructor call gets no cast. -/
theorem link_casts_results {t t' : ClassTree} {n : ℕ} (h : l.link t = .ok (t', n)) :
    ∃ members, t' = (l.redirects.renameTypes { t with members := members }).1 ∧
      List.Forall₂ (fun m m' : Member ↦ l.CastsResults m.insns m'.insns) t.members members := by
  obtain ⟨linked, hlinked, h⟩ := Outcome.bind_eq_ok.1 h
  obtain ⟨rfl, -⟩ := Prod.mk.inj (Outcome.pure_eq_ok.1 h)
  refine ⟨linked.map (·.1), rfl, ?_⟩
  rw [List.forall₂_map_right_iff]
  exact (Outcome.mapM_eq_ok.1 hlinked).imp fun m r hlink ↦ castsResults_of_linkMember hlink

def getTitle : Insn := .member (.field .getStatic) ⟨"x/Lib"⟩ "title" "Ljava/lang/String;"

/-- An object of `x/B` is made of a title that now has to be asked for, and is dropped. -/
def titledBody : List Insn :=
  [.type .new ⟨"x/B"⟩, .raw "DUP"] ++
    getTitle :: [constructorCall ⟨"x/B"⟩ "(Ljava/lang/String;)V", .raw "POP"]

/-- The linker of a target in which `x/Compat` has a title of any type and a factory for `x/B`. -/
def titleLinker : Linker where
  index := .empty
  redirects := .ofList
    [⟨⟨⟨"x/Lib"⟩, "title", "Ljava/lang/String;", .get⟩, compatCall "title" "()Ljava/lang/Object;"⟩,
      ⟨⟨⟨"x/B"⟩, constructorName, "(Ljava/lang/String;)V", .call⟩,
        compatCall "make" "(Ljava/lang/String;)Lx/B;"⟩]
  target := ⟨"b"⟩

theorem link_casts_results_titledBody :
    ∃ t' front back, titleLinker.link (callerOf titledBody) = .ok (t', 3) ∧
      Reworked [.type .new ⟨"x/B"⟩, .raw "DUP"] front ∧
      Reworked [compatCall "make" "(Ljava/lang/String;)Lx/B;", .raw "POP"] back ∧
      t'.insns = front ++ [compatCall "title" "()Ljava/lang/Object;",
        .type .checkCast ⟨"java/lang/String"⟩] ++ back := by
  have hlink : titleLinker.link (callerOf titledBody) = .ok (callerOf
      [compatCall "title" "()Ljava/lang/Object;", .type .checkCast ⟨"java/lang/String"⟩,
        compatCall "make" "(Ljava/lang/String;)Lx/B;", .raw "POP"], 3) := by decide +kernel
  obtain ⟨members, hrenamed, hmembers⟩ := link_casts_results hlink
  have htypes : ∀ c, titleLinker.redirects.typeFor? c = none := fun _ ↦ rfl
  rw [RedirectTable.renameTypes_eq_self htypes] at hrenamed
  obtain ⟨m', rest, hcasts, hrest, rfl⟩ := List.forall₂_cons_left_iff.1 hmembers
  obtain rfl := List.forall₂_nil_left_iff.1 hrest
  have hredirects : titleLinker.Redirects getTitle
      ⟨⟨"x/Lib"⟩, "title", "Ljava/lang/String;", .get⟩
      (compatCall "title" "()Ljava/lang/Object;") := by decide +kernel
  have hnames : Descriptor.NamesType "Ljava/lang/String;" ⟨"java/lang/String"⟩ :=
    Descriptor.NamesType.descriptor (c := ⟨"java/lang/String"⟩) (by decide +kernel)
  obtain ⟨front, back, hfront, hback, hout, -⟩ := hcasts rfl hredirects (.value _ _ _)
    (.result (by decide) rfl) (by decide) hnames
  have hbefore : titleLinker.laidAll [.type .new ⟨"x/B"⟩, .raw "DUP"] =
      [.type .new ⟨"x/B"⟩, .raw "DUP"] := by decide +kernel
  have hafter : titleLinker.laidAll [constructorCall ⟨"x/B"⟩ "(Ljava/lang/String;)V", .raw "POP"] =
      [compatCall "make" "(Ljava/lang/String;)Lx/B;", .raw "POP"] := by decide +kernel
  refine ⟨_, front, back, hlink, hbefore ▸ hfront, hafter ▸ hback, ?_⟩
  rw [hrenamed]
  show [m'].flatMap Member.insns = _
  rw [List.flatMap_singleton]
  exact hout

/-- The linker of a target in which `x/Compat` has a factory for objects of `x/B` that returns them
as any objects. -/
def objectLinker : Linker where
  index := .empty
  redirects := .ofList
    [⟨⟨⟨"x/B"⟩, constructorName, "()V", .call⟩, compatCall "make" "()Ljava/lang/Object;"⟩]
  target := ⟨"b"⟩

/-- An object of `x/B` is promised and run, but what runs is any object. -/
theorem uncast_construction :
    let call : Insn := constructorCall ⟨"x/B"⟩ "()V"
    let run : Insn := .member (.invoke .virtual) ⟨"x/B"⟩ "run" "()V"
    let make : Insn := compatCall "make" "()Ljava/lang/Object;"
    let site : CallSite := ⟨⟨"x/B"⟩, constructorName, "()V", .call⟩
    objectLinker.Redirects call site make ∧ site.Promises "Lx/B;" ∧
      make.Leaves "Ljava/lang/Object;" ∧ Descriptor.NamesType "Lx/B;" ⟨"x/B"⟩ ∧
      objectLinker.link (callerOf [.type .new ⟨"x/B"⟩, .raw "DUP", call, run]) =
        .ok (callerOf [make, run], 1) := by
  refine ⟨by decide +kernel, .object ⟨"x/B"⟩ "()V", .result (by decide) rfl,
    Descriptor.NamesType.descriptor (c := ⟨"x/B"⟩) (by decide +kernel), by decide +kernel⟩

end Linker

end ClassWeave
