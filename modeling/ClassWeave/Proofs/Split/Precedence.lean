import ClassWeave.Proofs.Outcome
import ClassWeave.Split.Projection

/-!
# Which directive decides

The directives of a member that name the target are tried kind by kind, and those of one kind as
they stand: sorting them is stable, so `applicable` is the four lists `applicableOfKind` one after
the other (`applicable_eq_append`). A directive either decides or fails with one warning
(`Projector.Fails`), and the failing ones in front of it add their warnings and nothing else
(`Projector.settle_append_of_fails`).

So the fate of a member can be told without an order over the kinds. `Projector.Decides` says it by
cases: removed; else replaced by the first replacement whose pointer resolves; else kept as its
first stub; else kept with the body that the first modification to succeed gives it; else kept as
the target declares it, if it does and the member is no bridge. `Projector.projectMember_eq_iff` is
that every member of every class has the one outcome that these cases give it. Directives of
different kinds may therefore stand in any order (`Projector.projectMember_congr`); those of one
kind may not.

Two things hold of every outcome. A member that is kept is the declared one with some body
(`Projector.exists_emit_of_decl`, `MergedMember.key_emit`). What takes the place of a call site is
the use of one member: of the one that a replacement binds, or of the stub
(`MergedMember.replacements_eq`, `MergedMember.stubRedirects_eq`,
`Projector.exists_accessInsn_of_mem_redirects`).
-/

namespace ClassWeave

variable {ds : List Directive} {target : Version}

/-! ### The order in which directives are tried -/

/-- The test by which directives are sorted is transitive. -/
theorem Directive.rank_le_trans (a b c : Directive) (hab : decide (a.kind.rank ≤ b.kind.rank) = true)
    (hbc : decide (b.kind.rank ≤ c.kind.rank) = true) :
    decide (a.kind.rank ≤ c.kind.rank) = true :=
  decide_eq_true (Nat.le_trans (of_decide_eq_true hab) (of_decide_eq_true hbc))

/-- The test by which directives are sorted is total. -/
theorem Directive.rank_le_total (a b : Directive) :
    (decide (a.kind.rank ≤ b.kind.rank) || decide (b.kind.rank ≤ a.kind.rank)) = true := by
  rw [Bool.or_eq_true, decide_eq_true_iff, decide_eq_true_iff]
  exact Nat.le_total _ _

theorem mem_applicable {d : Directive} :
    d ∈ applicable ds target ↔ d ∈ ds ∧ d.appliesTo target = true := by
  rw [applicable, List.mem_mergeSort, List.mem_filter]

theorem pairwise_applicable (ds : List Directive) (target : Version) :
    (applicable ds target).Pairwise fun a b ↦ a.kind.rank ≤ b.kind.rank :=
  (List.pairwise_mergeSort Directive.rank_le_trans Directive.rank_le_total _).imp of_decide_eq_true

/-- The directives of a kind that name a version, as they stand. -/
def applicableOfKind (ds : List Directive) (target : Version) (k : DirectiveKind) :
    List Directive :=
  ds.filter fun d ↦ d.kind = k && d.appliesTo target

theorem mem_applicableOfKind {d : Directive} {k : DirectiveKind} :
    d ∈ applicableOfKind ds target k ↔ d ∈ ds ∧ d.kind = k ∧ d.appliesTo target = true := by
  rw [applicableOfKind, List.mem_filter, Bool.and_eq_true, decide_eq_true_iff]

theorem kind_of_mem_applicableOfKind {d : Directive} {k : DirectiveKind}
    (h : d ∈ applicableOfKind ds target k) : d.kind = k :=
  (mem_applicableOfKind.1 h).2.1

/-- Putting directives in the order of their kinds leaves those of one kind as they stand. -/
theorem filter_kind_applicable (ds : List Directive) (target : Version) (k : DirectiveKind) :
    (applicable ds target).filter (·.kind = k) = applicableOfKind ds target k := by
  have hfilter : (ds.filter (·.appliesTo target)).filter (·.kind = k) =
      applicableOfKind ds target k := List.filter_filter ..
  have hordered : (applicableOfKind ds target k).Pairwise
      fun a b ↦ decide (a.kind.rank ≤ b.kind.rank) = true := by
    refine List.pairwise_of_forall_mem_list fun a ha b hb ↦ decide_eq_true (Nat.le_of_eq ?_)
    rw [kind_of_mem_applicableOfKind ha, kind_of_mem_applicableOfKind hb]
  have hsub : (applicableOfKind ds target k).Sublist (applicable ds target) :=
    List.sublist_mergeSort Directive.rank_le_trans Directive.rank_le_total hordered
      (hfilter ▸ List.filter_sublist)
  have hperm : ((applicable ds target).filter (·.kind = k)).Perm (applicableOfKind ds target k) :=
    hfilter ▸ (List.mergeSort_perm _ _).filter _
  have hkind : (applicableOfKind ds target k).filter (·.kind = k) = applicableOfKind ds target k :=
    List.filter_eq_self.2 fun d hd ↦ decide_eq_true (kind_of_mem_applicableOfKind hd)
  have hsame := hsub.filter fun d ↦ decide (d.kind = k)
  rw [hkind] at hsame
  exact (hsame.eq_of_length hperm.length_eq.symm).symm

/-- Directives in the order of their kinds are the removals, the replacements, the stubs and the
modifications among them. -/
theorem eq_append_of_pairwise {l : List Directive}
    (h : l.Pairwise fun a b ↦ a.kind.rank ≤ b.kind.rank) :
    l = l.filter (·.kind = .remove) ++ (l.filter (·.kind = .replace) ++
      (l.filter (·.kind = .stub) ++ l.filter (·.kind = .modify))) := by
  induction l with
  | nil => rfl
  | cons d l ih =>
    obtain ⟨hfirst, hl⟩ := List.pairwise_cons.1 h
    -- no directive of a kind that is tried earlier follows
    have hnone : ∀ k : DirectiveKind, k.rank < d.kind.rank → l.filter (·.kind = k) = [] := by
      refine fun k hk ↦ List.filter_eq_nil_iff.2 fun d' hd' hkind ↦ ?_
      have hle := hfirst d' hd'
      rw [of_decide_eq_true hkind] at hle
      exact Nat.not_le_of_lt hk hle
    specialize ih hl
    cases hkind : d.kind with
    | remove => simpa [hkind] using ih
    | replace =>
      rw [hkind] at hnone
      have hremove := hnone .remove (by decide)
      rw [hremove] at ih
      simpa [hkind, hremove] using ih
    | stub =>
      rw [hkind] at hnone
      have hremove := hnone .remove (by decide)
      have hreplace := hnone .replace (by decide)
      rw [hremove, hreplace] at ih
      simpa [hkind, hremove, hreplace] using ih
    | modify =>
      rw [hkind] at hnone
      have hremove := hnone .remove (by decide)
      have hreplace := hnone .replace (by decide)
      have hstub := hnone .stub (by decide)
      rw [hremove, hreplace, hstub] at ih
      simpa [hkind, hremove, hreplace, hstub] using ih

theorem applicable_eq_append (ds : List Directive) (target : Version) :
    applicable ds target = applicableOfKind ds target .remove ++
      (applicableOfKind ds target .replace ++
        (applicableOfKind ds target .stub ++ applicableOfKind ds target .modify)) := by
  simpa only [filter_kind_applicable] using eq_append_of_pairwise (pairwise_applicable ds target)

namespace Projector

variable {p : Projector} {c : MergedClass} {m : MergedMember}

/-! ### Directives that decide and directives that fail -/

/-- The pointer of a replacement resolves. -/
def BindsTo (p : Projector) (target : Version) (d : Directive) (b : Binding) : Prop :=
  ∃ r, d.target = some r ∧ r.resolve target p.lookup = .ok b

/-- A replacement has no pointer, or one that does not resolve. -/
inductive Unbound (p : Projector) (target : Version) (d : Directive) : String → Prop where
  | unnamed (h : d.target = none) : Unbound p target d "no ref to replace with"
  | unresolved {r : Ref} {e : ResolveError} (h : d.target = some r)
      (he : r.resolve target p.lookup = .error e) : Unbound p target d e.message

theorem bindReplacement_eq_ok_iff {d : Directive} {b : Binding} :
    p.bindReplacement d target = .ok b ↔ p.BindsTo target d b := by
  rw [bindReplacement, BindsTo]
  cases d.target with
  | none => simp
  | some r => cases hr : r.resolve target p.lookup <;> simp [hr]

theorem bindReplacement_eq_error_iff {d : Directive} {reason : String} :
    p.bindReplacement d target = .error reason ↔ p.Unbound target d reason := by
  constructor
  · intro h
    rw [bindReplacement] at h
    split at h
    · cases h
      exact .unnamed ‹_›
    · split at h
      · cases h
      · cases h
        exact .unresolved ‹_› ‹_›
  · rintro (h | ⟨h, he⟩)
    · rw [bindReplacement, h]
    · simp only [bindReplacement, h, he]

/-- The pointer of a modification names a hook, which makes a body of the one that the target
declares. -/
def PatchesTo (p : Projector) (c : MergedClass) (m : MergedMember) (target : Version)
    (d : Directive) (body : Body) : Prop :=
  ∃ r hook old, d.target = some r ∧ p.hooks.get? r.owner r.member = some hook ∧
    m.bodies.get? target = some old ∧ hook old old.maxLocals m.physicalName c = .ok body

/-- A modification has no pointer, or one that names no hook, or the target declares no body for the
hook, or the hook refuses it. -/
inductive Unpatched (p : Projector) (c : MergedClass) (m : MergedMember) (target : Version)
    (d : Directive) : String → Prop where
  | unnamed (h : d.target = none) : Unpatched p c m target d "no ref naming a patch hook"
  | unregistered {r : Ref} (h : d.target = some r)
      (hhook : p.hooks.get? r.owner r.member = none) :
      Unpatched p c m target d ("no patch hook registered for " ++ r.owner.text ++ "." ++ r.member)
  | bodiless {r : Ref} {hook : Hook} (h : d.target = some r)
      (hhook : p.hooks.get? r.owner r.member = some hook) (hbody : m.bodies.get? target = none) :
      Unpatched p c m target d ("no body to patch for version " ++ target.id)
  | refused {r : Ref} {hook : Hook} {old : Body} {e : HookError} (h : d.target = some r)
      (hhook : p.hooks.get? r.owner r.member = some hook)
      (hbody : m.bodies.get? target = some old)
      (he : hook old old.maxLocals m.physicalName c = .error e) :
      Unpatched p c m target d e.message

theorem modify_eq_ok_iff {d : Directive} {body : Body} :
    p.modify c m d target = .ok body ↔ p.PatchesTo c m target d body := by
  rw [modify, PatchesTo]
  cases d.target with
  | none => simp
  | some r =>
    cases hhook : p.hooks.get? r.owner r.member with
    | none => simp [hhook]
    | some hook =>
      cases hold : m.bodies.get? target with
      | none => simp [hhook]
      | some old => cases hnew : hook old old.maxLocals m.physicalName c <;> simp [hhook, hnew]

theorem modify_eq_error_iff {d : Directive} {reason : String} :
    p.modify c m d target = .error reason ↔ p.Unpatched c m target d reason := by
  constructor
  · intro h
    rw [modify] at h
    split at h
    · cases h
      exact .unnamed ‹_›
    · split at h
      · cases h
        exact .unregistered ‹_› ‹_›
      · cases h
        exact .bodiless ‹_› ‹_› ‹_›
      · split at h
        · cases h
        · cases h
          exact .refused ‹_› ‹_› ‹_› ‹_›
  · rintro (h | ⟨h, hhook⟩ | ⟨h, hhook, hbody⟩ | ⟨h, hhook, hbody, he⟩)
    · rw [modify, h]
    · simp only [modify, h, hhook]
    · simp only [modify, h, hhook, hbody]
    · simp only [modify, h, hhook, hbody, he]

/-- A replacement or a modification that cannot be carried out, and the warning of it. -/
inductive Fails (p : Projector) (c : MergedClass) (m : MergedMember) (target : Version)
    (d : Directive) : SplitWarning → Prop where
  | replace {reason : String} (hkind : d.kind = .replace) (h : p.Unbound target d reason) :
      Fails p c m target d (.directiveFailed c.name m.declaredName .replace reason)
  | modify {reason : String} (hkind : d.kind = .modify) (h : p.Unpatched c m target d reason) :
      Fails p c m target d (.directiveFailed c.name m.declaredName .modify reason)

theorem fails_or_bindsTo {d : Directive} (hkind : d.kind = .replace) :
    (∃ w, p.Fails c m target d w) ∨ ∃ b, p.BindsTo target d b := by
  cases h : p.bindReplacement d target with
  | error reason => exact .inl ⟨_, .replace hkind (bindReplacement_eq_error_iff.1 h)⟩
  | ok b => exact .inr ⟨b, bindReplacement_eq_ok_iff.1 h⟩

theorem fails_or_patchesTo {d : Directive} (hkind : d.kind = .modify) :
    (∃ w, p.Fails c m target d w) ∨ ∃ body, p.PatchesTo c m target d body := by
  cases h : p.modify c m d target with
  | error reason => exact .inl ⟨_, .modify hkind (modify_eq_error_iff.1 h)⟩
  | ok body => exact .inr ⟨body, modify_eq_ok_iff.1 h⟩

theorem not_fails_of_bindsTo {d : Directive} {b : Binding} {w : SplitWarning}
    (hkind : d.kind = .replace) (h : p.BindsTo target d b) : ¬ p.Fails c m target d w := by
  rintro (⟨-, hfails⟩ | ⟨hkind', -⟩)
  · have herror := bindReplacement_eq_error_iff.2 hfails
    rw [bindReplacement_eq_ok_iff.2 h] at herror
    cases herror
  · rw [hkind] at hkind'
    cases hkind'

/-- A directive that fails leaves it to the later ones and adds its warning. -/
theorem settle_cons_of_fails {d : Directive} {w : SplitWarning} (h : p.Fails c m target d w)
    (rest : List Directive) :
    p.settle c m target (d :: rest) = (p.settle c m target rest).after w := by
  cases h with
  | replace hkind h => simp only [settle, hkind, bindReplacement_eq_error_iff.2 h]
  | modify hkind h => simp only [settle, hkind, modify_eq_error_iff.2 h]

/-- Directives that fail leave it to the later ones and add their warnings, in their order. -/
theorem settle_append_of_fails {earlier : List Directive} {ws : List SplitWarning}
    (h : List.Forall₂ (p.Fails c m target) earlier ws) {rest : List Directive}
    {o : MemberOutcome} (hrest : p.settle c m target rest = o) :
    p.settle c m target (earlier ++ rest) = { o with warnings := ws ++ o.warnings } := by
  induction h with
  | nil => exact hrest
  | cons hd _ ih => rw [List.cons_append, settle_cons_of_fails hd, ih]; rfl

theorem settle_of_remove {d : Directive} (hkind : d.kind = .remove) (rest : List Directive) :
    p.settle c m target (d :: rest) = ⟨none, [], []⟩ := by
  rw [settle, hkind]

theorem settle_of_bindsTo {d : Directive} {b : Binding} (hkind : d.kind = .replace)
    (h : p.BindsTo target d b) (rest : List Directive) :
    p.settle c m target (d :: rest) = ⟨none, m.replacements c.name b, []⟩ := by
  rw [settle, hkind]
  simp only [bindReplacement_eq_ok_iff.2 h]

theorem settle_of_stub {d : Directive} (hkind : d.kind = .stub) (rest : List Directive) :
    p.settle c m target (d :: rest) = m.stubbed c.name d target := by
  rw [settle, hkind]

theorem settle_of_patchesTo {d : Directive} {body : Body} (hkind : d.kind = .modify)
    (h : p.PatchesTo c m target d body) (rest : List Directive) :
    p.settle c m target (d :: rest) = ⟨some (m.emit target (some body)), [], []⟩ := by
  rw [settle, hkind]
  simp only [modify_eq_ok_iff.2 h]

end Projector

/-! ### Members and call sites -/

/-- How an instruction uses a member of a kind, told by whether it gets the value of a field. -/
def MemberKind.siteUse (k : MemberKind) (get : Bool) : SiteUse :=
  match k with
  | .method => .call
  | .field => if get then .get else .put

/-- The instruction for a bound member names that member. -/
theorem Binding.site?_accessInsn (b : Binding) (get : Bool) :
    (b.accessInsn get).site? = some ⟨b.owner, b.name, b.desc, b.kind.siteUse get⟩ := by
  rw [accessInsn]
  cases b.kind with
  | method => rfl
  | field => cases get <;> cases b.isStatic <;> rfl

namespace MergedMember

/-- A member is emitted under its declared name. -/
@[simp]
theorem key_emit (m : MergedMember) (target : Version) (body : Option Body) :
    (m.emit target body).key = m.declaredKey := rfl

@[simp]
theorem body_emit (m : MergedMember) (target : Version) (body : Option Body) :
    (m.emit target body).body = body := rfl

/-- The member as a pointer to it binds it. -/
def binding (m : MergedMember) (cls : ClassName) : Binding :=
  ⟨cls, m.declaredName, m.physicalName, m.desc, m.kind, m.isStatic⟩

/-- Whether a use of the member gets a value, for each of its uses: a field is read and written, and
what a method gives is told by its descriptor. -/
def accesses (m : MergedMember) : List Bool :=
  match m.kind with
  | .method => [!Descriptor.returnsVoid m.desc]
  | .field => [true, false]

/-- The sites at which code uses a member of a class under its declared name. -/
def sites (m : MergedMember) (cls : ClassName) : List CallSite :=
  let site (usage : SiteUse) : CallSite := ⟨cls, m.declaredName, m.desc, usage⟩
  match m.kind with
  | .method => [site .call]
  | .field => [site .get, site .put]

/-- **Each use of a replaced member becomes a use of the bound one**, which gets a value if the
other one did. -/
theorem replacements_eq (m : MergedMember) (cls : ClassName) (b : Binding) :
    m.replacements cls b = m.accesses.map fun get ↦
      ⟨⟨cls, m.declaredName, m.desc, m.kind.siteUse get⟩, b.accessInsn get⟩ := by
  rw [replacements, accesses]
  cases m.kind with
  | method => rfl
  | field => rfl

/-- Replacing a member redirects each of its sites. -/
theorem map_site_replacements (m : MergedMember) (cls : ClassName) (b : Binding) :
    (m.replacements cls b).map (·.site) = m.sites cls := by
  rw [replacements, sites]
  cases m.kind with
  | method => rfl
  | field => rfl

/-- The sites that a stub serves cannot be told without a descriptor. -/
theorem stubRedirects_of_empty {m : MergedMember} {r : Ref} (hdesc : r.desc.isEmpty = true)
    (cls : ClassName) :
    m.stubRedirects cls r = .error ("cannot derive a descriptor for " ++ r.text) :=
  if_pos hdesc

/-- **Each use of what a stub stands for becomes a use of the stub.** A method that stands for a
field is called where the field is read, or where it is written if the method gives nothing. A field
is taken to stand for a field, whatever its pointer says. -/
theorem stubRedirects_eq {m : MergedMember} {r : Ref} (hdesc : ¬ r.desc.isEmpty = true)
    (cls : ClassName) : m.stubRedirects cls r = .ok (m.accesses.map fun get ↦
      ⟨⟨r.owner, r.member, r.desc, (if m.isField then .field else r.kind).siteUse get⟩,
        (m.binding cls).accessInsn get⟩) := by
  rw [stubRedirects, if_neg hdesc, accesses, isField, Ref.kind]
  simp only [binding, Binding.accessInsn]
  cases m.kind with
  | method =>
    cases r.isField with
    | true => cases Descriptor.returnsVoid m.desc <;> rfl
    | false => rfl
  | field => rfl

end MergedMember

/-! ### Stubs -/

namespace MergedMember

/-- The body of a stub, and the warning of one that the target lacks. A field has no body, a method
that of the target or a placeholder that fails. -/
inductive StubBody (cls : ClassName) (m : MergedMember) (target : Version) :
    Option Body → List SplitWarning → Prop where
  | field (hkind : m.kind = .field) : StubBody cls m target none []
  | declared {body : Body} (hkind : m.kind = .method) (h : m.bodies.get? target = some body) :
      StubBody cls m target (some body) []
  | missing (hkind : m.kind = .method) (h : m.bodies.get? target = none) :
      StubBody cls m target (some (.fails (.unimplemented cls m.declaredName target)))
        [.missingStubBody cls m.declaredName target]

theorem StubBody.stubBody_eq {cls : ClassName} {m : MergedMember} {body : Option Body}
    {ws : List SplitWarning} (h : StubBody cls m target body ws) :
    m.stubBody target cls = (body, ws) := by
  cases h with
  | field hkind => rw [stubBody, hkind]
  | declared hkind h => rw [stubBody, hkind, h]
  | missing hkind h => rw [stubBody, hkind, h]

theorem exists_stubBody (cls : ClassName) (m : MergedMember) (target : Version) :
    ∃ body ws, StubBody cls m target body ws := by
  cases hkind : m.kind with
  | field => exact ⟨_, _, .field hkind⟩
  | method =>
    cases h : m.bodies.get? target with
    | none => exact ⟨_, _, .missing hkind h⟩
    | some body => exact ⟨_, _, .declared hkind h⟩

/-- The redirects to a stub, and the warning of those that cannot be derived. A stub that stands for
no other member has none; one that stands for another needs its descriptor. -/
inductive StubSites (cls : ClassName) (m : MergedMember) (d : Directive) :
    List Redirect → List SplitWarning → Prop where
  | unnamed (h : d.target = none) : StubSites cls m d [] []
  | derived {r : Ref} {rs : List Redirect} (h : d.target = some r)
      (hrs : m.stubRedirects cls r = .ok rs) : StubSites cls m d rs []
  | underivable {r : Ref} (h : d.target = some r) (hdesc : r.desc.isEmpty = true) :
      StubSites cls m d [] [.directiveFailed cls m.declaredName .stub
        ("cannot derive a descriptor for " ++ r.text)]

theorem exists_stubSites (cls : ClassName) (m : MergedMember) (d : Directive) :
    ∃ rs ws, StubSites cls m d rs ws := by
  cases h : d.target with
  | none => exact ⟨_, _, .unnamed h⟩
  | some r =>
    by_cases hdesc : r.desc.isEmpty = true
    · exact ⟨_, _, .underivable h hdesc⟩
    · exact ⟨_, _, .derived h (stubRedirects_eq hdesc cls)⟩

theorem stubbed_eq {cls : ClassName} {m : MergedMember} {d : Directive} {body : Option Body}
    {missing failed : List SplitWarning} {rs : List Redirect} (hkind : d.kind = .stub)
    (hbody : StubBody cls m target body missing) (hsites : StubSites cls m d rs failed) :
    m.stubbed cls d target = ⟨some (m.emit target body), rs, missing ++ failed⟩ := by
  rw [stubbed, hbody.stubBody_eq]
  cases hsites with
  | unnamed h => rw [h]; rfl
  | derived h hrs => rw [h, Option.map_some, hrs]
  | underivable h hdesc => rw [h, Option.map_some, stubRedirects_of_empty hdesc, hkind]

end MergedMember

namespace Projector

variable {p : Projector} {c : MergedClass} {m : MergedMember}

/-! ### The outcome of a member -/

/-- What becomes of a member under the directives of each kind that name the target. -/
inductive Decides (p : Projector) (c : MergedClass) (m : MergedMember) (target : Version)
    (chosen : DirectiveKind → List Directive) : MemberOutcome → Prop where
  | removed (hremove : chosen .remove ≠ []) : Decides p c m target chosen ⟨none, [], []⟩
  /-- The first replacement whose pointer resolves. -/
  | replaced {earlier later : List Directive} {d : Directive} {b : Binding}
      {ws : List SplitWarning} (hremove : chosen .remove = [])
      (hreplace : chosen .replace = earlier ++ d :: later)
      (hearlier : List.Forall₂ (p.Fails c m target) earlier ws) (hd : p.BindsTo target d b) :
      Decides p c m target chosen ⟨none, m.replacements c.name b, ws⟩
  /-- The first stub, where no replacement resolves. -/
  | stubbed {later : List Directive} {d : Directive} {body : Option Body} {rs : List Redirect}
      {ws missing failed : List SplitWarning} (hremove : chosen .remove = [])
      (hreplace : List.Forall₂ (p.Fails c m target) (chosen .replace) ws)
      (hstub : chosen .stub = d :: later)
      (hbody : MergedMember.StubBody c.name m target body missing)
      (hsites : MergedMember.StubSites c.name m d rs failed) :
      Decides p c m target chosen ⟨some (m.emit target body), rs, ws ++ (missing ++ failed)⟩
  /-- The first modification that gives a body, where nothing of an earlier kind decides. -/
  | modified {earlier later : List Directive} {d : Directive} {body : Body}
      {ws ws' : List SplitWarning} (hremove : chosen .remove = [])
      (hreplace : List.Forall₂ (p.Fails c m target) (chosen .replace) ws)
      (hstub : chosen .stub = []) (hmodify : chosen .modify = earlier ++ d :: later)
      (hearlier : List.Forall₂ (p.Fails c m target) earlier ws')
      (hd : p.PatchesTo c m target d body) :
      Decides p c m target chosen ⟨some (m.emit target (some body)), [], ws ++ ws'⟩
  /-- Nothing decides, and the target declares the member. -/
  | kept {ws ws' : List SplitWarning} (hremove : chosen .remove = [])
      (hreplace : List.Forall₂ (p.Fails c m target) (chosen .replace) ws)
      (hstub : chosen .stub = [])
      (hmodify : List.Forall₂ (p.Fails c m target) (chosen .modify) ws')
      (hdeclared : target ∈ m.declaredVersions) (hbridge : m.isBridge = false) :
      Decides p c m target chosen ⟨some (m.emit target (m.bodies.get? target)), [], ws ++ ws'⟩
  /-- Nothing decides, and the target has no such member of its own. -/
  | leftOut {ws ws' : List SplitWarning} (hremove : chosen .remove = [])
      (hreplace : List.Forall₂ (p.Fails c m target) (chosen .replace) ws)
      (hstub : chosen .stub = [])
      (hmodify : List.Forall₂ (p.Fails c m target) (chosen .modify) ws')
      (habsent : target ∉ m.declaredVersions ∨ m.isBridge = true) :
      Decides p c m target chosen ⟨none, [], ws ++ ws'⟩

/-- Some case applies. -/
theorem exists_decides (p : Projector) (c : MergedClass) (m : MergedMember) (ds : List Directive)
    (target : Version) : ∃ o, p.Decides c m target (applicableOfKind ds target) o := by
  by_cases hremove : applicableOfKind ds target .remove = []
  swap
  · exact ⟨_, .removed hremove⟩
  -- each kind is looked at only once those before it are known not to decide
  rcases Outcome.forall₂_or_first (R := p.Fails c m target)
    fun _ hd ↦ fails_or_bindsTo (kind_of_mem_applicableOfKind hd) with
    ⟨ws, hreplace⟩ | ⟨earlier, d, later, ws, hreplace, hearlier, b, hd⟩
  swap
  · exact ⟨_, .replaced hremove hreplace hearlier hd⟩
  cases hstub : applicableOfKind ds target .stub with
  | cons d later =>
    obtain ⟨_, _, hbody⟩ := MergedMember.exists_stubBody c.name m target
    obtain ⟨_, _, hsites⟩ := MergedMember.exists_stubSites c.name m d
    exact ⟨_, .stubbed hremove hreplace hstub hbody hsites⟩
  | nil =>
    rcases Outcome.forall₂_or_first (R := p.Fails c m target)
      fun _ hd ↦ fails_or_patchesTo (kind_of_mem_applicableOfKind hd) with
      ⟨ws', hmodify⟩ | ⟨earlier, d, later, ws', hmodify, hearlier, body, hd⟩
    · by_cases hdeclared : target ∈ m.declaredVersions ∧ m.isBridge = false
      · exact ⟨_, .kept hremove hreplace hstub hmodify hdeclared.1 hdeclared.2⟩
      · refine ⟨_, .leftOut hremove hreplace hstub hmodify ?_⟩
        rwa [not_and_or, Bool.not_eq_false] at hdeclared
    · exact ⟨_, .modified hremove hreplace hstub hmodify hearlier hd⟩

theorem undirected_of_declared (hdeclared : target ∈ m.declaredVersions)
    (hbridge : m.isBridge = false) :
    m.undirected target = ⟨some (m.emit target (m.bodies.get? target)), [], []⟩ := by
  rw [MergedMember.undirected, if_neg]
  simpa [MergedMember.inVersion, hbridge] using hdeclared

theorem undirected_of_absent (habsent : target ∉ m.declaredVersions ∨ m.isBridge = true) :
    m.undirected target = ⟨none, [], []⟩ := by
  rw [MergedMember.undirected, if_pos]
  simpa [MergedMember.inVersion, or_comm] using habsent

/-- Where nothing decides, each replacement and each modification gives its warning. -/
theorem settle_of_undecided {replaces modifies : List Directive} {ws ws' : List SplitWarning}
    (hreplace : List.Forall₂ (p.Fails c m target) replaces ws)
    (hmodify : List.Forall₂ (p.Fails c m target) modifies ws') {decl : Option Member}
    (h : m.undirected target = ⟨decl, [], []⟩) :
    p.settle c m target (replaces ++ modifies) = ⟨decl, [], ws ++ ws'⟩ := by
  have hfails := List.rel_append hreplace hmodify
  have hundecided : p.settle c m target [] = ⟨decl, [], []⟩ := h
  simpa using settle_append_of_fails hfails hundecided

/-- The outcome that a case gives is that of the directives tried in turn. -/
theorem Decides.projectMember_eq {o : MemberOutcome}
    (h : p.Decides c m target (applicableOfKind ds target) o) :
    p.projectMember c ds target m = o := by
  rw [projectMember, applicable_eq_append]
  have hkind {k : DirectiveKind} {l : List Directive} {d : Directive}
      (hchosen : applicableOfKind ds target k = l) (hd : d ∈ l) : d.kind = k :=
    kind_of_mem_applicableOfKind (hchosen ▸ hd)
  cases h with
  | removed hremove =>
    obtain ⟨d, later, hremove⟩ := List.exists_cons_of_ne_nil hremove
    rw [hremove, List.cons_append]
    exact settle_of_remove (hkind hremove List.mem_cons_self) _
  | replaced hremove hreplace hearlier hd =>
    rw [hremove, List.nil_append, hreplace, List.append_assoc, List.cons_append]
    have hkind := hkind hreplace (List.mem_append_right _ List.mem_cons_self)
    simpa using settle_append_of_fails hearlier (settle_of_bindsTo hkind hd _)
  | stubbed hremove hreplace hstub hbody hsites =>
    rw [hremove, List.nil_append, hstub, List.cons_append]
    have hkind := hkind hstub List.mem_cons_self
    exact settle_append_of_fails hreplace
      ((settle_of_stub hkind _).trans (MergedMember.stubbed_eq hkind hbody hsites))
  | modified hremove hreplace hstub hmodify hearlier hd =>
    rw [hremove, List.nil_append, hstub, List.nil_append, hmodify]
    have hkind := hkind hmodify (List.mem_append_right _ List.mem_cons_self)
    simpa using settle_append_of_fails hreplace
      (settle_append_of_fails hearlier (settle_of_patchesTo hkind hd _))
  | kept hremove hreplace hstub hmodify hdeclared hbridge =>
    rw [hremove, List.nil_append, hstub, List.nil_append]
    exact settle_of_undecided hreplace hmodify (undirected_of_declared hdeclared hbridge)
  | leftOut hremove hreplace hstub hmodify habsent =>
    rw [hremove, List.nil_append, hstub, List.nil_append]
    exact settle_of_undecided hreplace hmodify (undirected_of_absent habsent)

/-- **The directives of each kind that name the target decide** what becomes of a member: it has the
outcome of the one case that applies to them. -/
theorem projectMember_eq_iff {o : MemberOutcome} :
    p.projectMember c ds target m = o ↔ p.Decides c m target (applicableOfKind ds target) o := by
  refine ⟨fun h ↦ ?_, Decides.projectMember_eq⟩
  obtain ⟨o', ho'⟩ := exists_decides p c m ds target
  exact (ho'.projectMember_eq.symm.trans h) ▸ ho'

/-- **A member that is kept is the declared one**, with some body, whatever decides. -/
theorem exists_emit_of_decl {d : Member} (h : (p.projectMember c ds target m).decl = some d) :
    ∃ body, d = m.emit target body := by
  obtain ⟨o, ho⟩ := exists_decides p c m ds target
  rw [ho.projectMember_eq] at h
  cases ho with
  | removed | replaced | leftOut => cases h
  | stubbed | modified | kept => exact ⟨_, (Option.some.inj h).symm⟩

/-- **What takes the place of a call site is the use of a member**, whatever decides. It is the
member itself if that is kept. -/
theorem exists_accessInsn_of_mem_redirects {x : Redirect}
    (hx : x ∈ (p.projectMember c ds target m).redirects) :
    ∃ (b : Binding) (get : Bool), x.replacement = b.accessInsn get ∧
      ((p.projectMember c ds target m).decl = none ∨ b = m.binding c.name) := by
  obtain ⟨o, ho⟩ := exists_decides p c m ds target
  rw [ho.projectMember_eq] at hx ⊢
  cases ho with
  | removed | modified | kept | leftOut => exact absurd hx List.not_mem_nil
  | @replaced _ _ _ b =>
    rw [MergedMember.replacements_eq] at hx
    obtain ⟨get, -, rfl⟩ := List.mem_map.1 hx
    exact ⟨b, get, rfl, .inl rfl⟩
  | stubbed _ _ _ _ hsites =>
    cases hsites with
    | unnamed | underivable => exact absurd hx List.not_mem_nil
    | @derived r _ _ hrs =>
      have hdesc : ¬ r.desc.isEmpty = true := fun hempty ↦ by
        rw [MergedMember.stubRedirects_of_empty hempty] at hrs
        cases hrs
      rw [MergedMember.stubRedirects_eq hdesc] at hrs
      rw [← Except.ok.inj hrs] at hx
      obtain ⟨get, -, rfl⟩ := List.mem_map.1 hx
      exact ⟨m.binding c.name, get, rfl, .inr rfl⟩

/-- Directives may be reordered across kinds, and those of other versions left out. -/
theorem projectMember_congr {ds' : List Directive}
    (h : applicableOfKind ds' target = applicableOfKind ds target) :
    p.projectMember c ds' target m = p.projectMember c ds target m := by
  rw [projectMember, projectMember, applicable_eq_append, h, ← applicable_eq_append]

end Projector

end ClassWeave
