import ClassWeave.Proofs.Link.ResultCast
import ClassWeave.Proofs.Split.Directives
import ClassWeave.Proofs.Split.Receivers
import ClassWeave.Proofs.Split.RoundTrip

/-!
# Static stubs in the place of methods

A static stub with nothing written on it stands for the method of its own name on the class of its
first parameter. Reading, projecting and linking each do one thing about it:

* the pointer that is read names that class and the descriptor without the first parameter
  (`ClassTree.readDirectives_of_hasOnlyStub`);
* the projection records the one redirect from calls of the method to calls of the stub, and nothing
  for any other member (`Projector.redirects_of_hasOnlyStub`);
* a call that is redirected in a linked body has become the call of the stub and nothing else: the
  two return the same type, which is what decides on a cast (`Linker.placesAlone_of_returnCast?`).

The receiver of the one call is the first argument of the other, so they take the same operands as
well, and one can stand for the other in any code (`Projector.project_defaultStub`).
-/

namespace ClassWeave

open Descriptor (parameterTypes returnType methodDesc)

/-! ### Reading the stub -/

/-- A member is the only one of its key, and a stub without a pointer on it is all that a tree
asks for. -/
structure ClassTree.HasOnlyStub (t : ClassTree) (s : Member) (versions : List Version) : Prop where
  unique : t.members.filter (·.key = s.key) = [s]
  onMember : s.directives = [.stub versions {} false]
  onOthers : ∀ m ∈ t.members, m ≠ s → m.directives = []
  onClass : t.directives = []
  onSuperclass : t.superDirectives = []
  onInterfaces : ∀ e ∈ t.interfaceDirectives.entries, e.2 = []

/-- The directive of a stub that stands for a method of the receiver's class. -/
def receiverStub (versions : List Version) (receiver : ClassName) (name : String)
    (params : List String) (ret : String) : Directive :=
  ⟨.stub, .ofList versions, some ⟨receiver, name, methodDesc params ret, false⟩, true⟩

section Stub

variable {t : ClassTree} {s : Member} {stubbed : List Version} {receiver : ClassName}
  {params : List String} {ret : String} {versions : VersionSet} {v : Version}

theorem DirectiveNote.read_defaultStub {cls : ClassName} (hkind : s.kind = .method)
    (hreceiver : receiver.DotFree)
    (hparams : parameterTypes s.desc = .ok (receiver.descriptor :: params))
    (hret : returnType s.desc = .ok ret) :
    DirectiveNote.read cls (some s) (.stub stubbed {} false) =
      .ok (receiverStub stubbed receiver s.name params ret) := by
  have hfirst : Descriptor.objectType? receiver.descriptor = some receiver := by
    rw [Descriptor.objectType?_descriptor, ClassName.ofText_text hreceiver]
  have hresolved : RefNote.resolved? cls s false false {} =
      some (⟨receiver, s.name, methodDesc params ret, false⟩, true) :=
    RefNote.resolved?_of_receiver hkind rfl rfl hparams hret hfirst
  rw [read, RefNote.target?, hresolved]
  rfl

namespace ClassTree

/-- No other member has the key of the stub. -/
theorem HasOnlyStub.eq_of_key_eq (h : t.HasOnlyStub s stubbed) {m : Member} (hm : m ∈ t.members)
    (hkey : m.key = s.key) : m = s := by
  have hmem : m ∈ t.members.filter (·.key = s.key) := List.mem_filter.2 ⟨hm, decide_eq_true hkey⟩
  rw [h.unique] at hmem
  exact List.mem_singleton.1 hmem

/-- The stub is the only member that has directives. -/
theorem HasOnlyStub.filter_directives (h : t.HasOnlyStub s stubbed) :
    t.members.filter (!·.directives.isEmpty) = [s] := by
  rw [← h.unique]
  refine List.filter_congr fun m hm ↦ ?_
  by_cases hkey : m.key = s.key
  · rw [h.eq_of_key_eq hm hkey, h.onMember]
    simp
  · rw [h.onOthers m hm fun heq ↦ hkey (heq ▸ rfl)]
    simp [hkey]

/-- **The directives of the tree are that of the stub.** -/
theorem readDirectives_of_hasOnlyStub (h : t.HasOnlyStub s stubbed) {d : Directive}
    (hd : DirectiveNote.read t.name (some s) (.stub stubbed {} false) = .ok d) :
    ∃ ds, t.readDirectives = .ok ds ∧ ds.cls = [] ∧ ds.superclass = [] ∧
      ds.members = .ofList [(s.key, [d])] := by
  have hmembers : t.memberDirectives = .ok (.ofList [(s.key, [d])]) := by
    rw [memberDirectives, h.filter_directives, List.mapM_cons, h.onMember, List.mapM_cons, hd]
    rfl
  have hinterfaces : (t.interfaceDirectives.entries.mapM fun e ↦ do
      return (e.1, ← e.2.mapM (DirectiveNote.read t.name none))) =
        .ok (t.interfaceDirectives.entries.map fun e ↦ (e.1, [])) := by
    rw [Outcome.mapM_eq_ok, List.forall₂_map_right_iff, List.forall₂_same]
    intro e he
    rw [h.onInterfaces e he]
    rfl
  refine ⟨_, Outcome.bind_eq_ok.2 ⟨[], ?_, Outcome.bind_eq_ok.2 ⟨[], ?_, Outcome.bind_eq_ok.2
    ⟨_, hinterfaces, Outcome.bind_eq_ok.2 ⟨_, hmembers, rfl⟩⟩⟩⟩, rfl, rfl, rfl⟩
  · rw [h.onClass]
    rfl
  · rw [h.onSuperclass]
    rfl

end ClassTree

/-! ### Projecting the stub -/

theorem ClassDirectives.forMember_of_singleton {ds : ClassDirectives} {k : MemberKey}
    {directives : List Directive} (hds : ds.members = .ofList [(k, directives)]) (k' : MemberKey) :
    ds.forMember k' = if k' = k then directives else [] := by
  have hget : (OrderedMap.ofList [(k, directives)]).get? k' =
      if k' = k then some directives else none := OrderedMap.get?_insert ..
  rw [forMember, hds, hget]
  split
  · rfl
  · rfl

theorem applicableOfKind_singleton {d : Directive} (happlies : d.appliesTo v = true)
    (k : DirectiveKind) : applicableOfKind [d] v k = if d.kind = k then [d] else [] := by
  rw [applicableOfKind, List.filter_singleton, happlies, Bool.and_true, Bool.cond_decide]

/-- A stub that stands for a method is called in its place. -/
theorem MergedMember.stubRedirects_of_call {m : MergedMember} {r : Ref} (hkind : m.kind = .method)
    (hfield : r.isField = false) (hdesc : r.desc ≠ "") (cls : ClassName) :
    m.stubRedirects cls r = .ok [⟨⟨r.owner, r.member, r.desc, .call⟩,
      .member (.invoke (Binding.invokeKind m.isStatic m.declaredName)) cls m.declaredName
        m.desc⟩] := by
  rw [stubRedirects_eq fun hempty ↦ hdesc (String.isEmpty_iff.1 hempty), accesses, hkind,
    List.map_singleton, isField, Ref.kind, hfield, binding, hkind]
  rfl

namespace Projector

/-- A class that its directives keep is projected, if nothing is asked about its superclass. -/
theorem exists_project {c : MergedClass} {ds : ClassDirectives} (p : Projector)
    (hv : v ∈ c.versions) (hkept : ¬ DropClass ds.cls v) (hsuper : ds.superclass = []) :
    ∃ projected, p.project c ds v = .ok (.projected projected) := by
  have hfate : ∃ remaps warnings, ClassFate.ofDirectives c.name ds.cls v = .kept remaps warnings :=
    ClassFate.exists_kept_iff.2 hkept
  obtain ⟨remaps, warnings, hfate⟩ := hfate
  have hremoved : (p.draft c ds v remaps warnings).removedSuper = none := by
    rw [draft, hsuper, superSite_nil]
  rw [project, if_neg (not_not.2 hv)]
  simp only [hfate, hremoved, detach]
  exact ⟨_, rfl⟩

/-- A member with a stub for the target redirects what the stub's pointer gives. -/
theorem redirects_projectMember_of_stub {c : MergedClass} {m : MergedMember} {d : Directive}
    (hkind : d.kind = .stub) (happlies : d.appliesTo v = true) {r : Ref}
    (htarget : d.target = some r) {rs : List Redirect} (hrs : m.stubRedirects c.name r = .ok rs)
    (p : Projector) : (p.projectMember c [d] v m).redirects = rs := by
  have hchosen := applicableOfKind_singleton happlies
  have hother {k : DirectiveKind} (hk : DirectiveKind.stub ≠ k) : applicableOfKind [d] v k = [] :=
    (hchosen k).trans (if_neg (hkind ▸ hk))
  obtain ⟨body, missing, hbody⟩ := m.exists_stubBody c.name v
  have hreplace : List.Forall₂ (p.Fails c m v) (applicableOfKind [d] v .replace) [] := by
    rw [hother (by decide)]
    exact .nil
  have hdecides := Decides.stubbed (hother (by decide)) hreplace
    ((hchosen .stub).trans (if_pos hkind)) hbody (.derived htarget hrs)
  rw [hdecides.projectMember_eq]

/-- **The redirects are those of the stub.** -/
theorem redirects_of_hasOnlyStub (h : t.HasOnlyStub s stubbed) {ds : ClassDirectives}
    {d : Directive} (hds : ds.members = .ofList [(s.key, [d])]) (hkind : d.kind = .stub)
    (happlies : d.appliesTo v = true) {r : Ref} (htarget : d.target = some r) {rs : List Redirect}
    (hrs : (MergedMember.universal versions s).stubRedirects t.name r = .ok rs) (p : Projector)
    {projected : ProjectedClass}
    (hproject : p.project (.universal t versions) ds v = .ok (.projected projected)) :
    projected.redirects = rs := by
  let redirects (m : Member) : List Redirect :=
    (p.projectMember (.universal t versions) (ds.forMember m.key) v
      (.universal versions m)).redirects
  have hredirects : projected.redirects = t.members.flatMap redirects :=
    (redirects_of_project hproject).trans (List.flatMap_map _ _ _)
  have hother : ∀ m : Member, ¬ decide (m.key = s.key) = true → redirects m = [] := by
    intro m hm
    show (p.projectMember _ (ds.forMember m.key) v _).redirects = []
    rw [ClassDirectives.forMember_of_singleton hds, if_neg fun hkey ↦ hm (decide_eq_true hkey),
      projectMember_nil]
    exact (undirected_quiet _ v).1
  have hstub : redirects s = rs := by
    show (p.projectMember _ (ds.forMember s.key) v _).redirects = rs
    rw [ClassDirectives.forMember_of_singleton hds, if_pos rfl]
    exact redirects_projectMember_of_stub hkind happlies htarget hrs p
  -- the stub is the only member of its key, and the others have no directives
  obtain ⟨front, back, hmembers, hfront, -, hback⟩ := List.filter_eq_cons_iff.1 h.unique
  rw [hredirects, hmembers, List.flatMap_append, List.flatMap_cons, hstub,
    List.flatMap_eq_nil_iff.2 fun m hm ↦ hother m (hfront m hm),
    List.flatMap_eq_nil_iff.2 fun m hm ↦ hother m (List.filter_eq_nil_iff.1 hback m hm),
    List.nil_append, List.append_nil]

end Projector

end Stub

/-! ### Linking -/

namespace Linker

open Construction (Reworked)

variable {l : Linker} {site : CallSite} {replacement : Insn}

/-- In a linked body, each instruction that a redirect replaces has become the replacement and
nothing else, between what the instructions around it have become. -/
def PlacesAlone (l : Linker) (site : CallSite) (replacement : Insn) : Prop :=
  ∀ ⦃cls : ClassName⦄ ⦃member : String⦄ ⦃before after out : List Insn⦄ ⦃insn : Insn⦄ ⦃n : ℕ⦄,
    l.Redirects insn site replacement →
    l.linkBody cls member (before ++ insn :: after) = .ok (out, n) →
    ∃ front back, Reworked (l.laidAll before) front ∧ Reworked (l.laidAll after) back ∧
      out = front ++ replacement :: back

/-- **No cast is added behind a replacement of the type that the site promised.** -/
theorem placesAlone_of_returnCast? (hsite : site.isConstruction = false)
    (hcast : returnCast? site replacement = none) (hstays : replacement.Stays) :
    l.PlacesAlone site replacement := by
  intro cls member before after out insn n hredirects hlink
  have halone : redirected site replacement after.head? = [replacement] := by
    rw [redirected, hsite, if_neg Bool.false_ne_true, hcast, Option.toList_none, ite_self]
  have hstays : ∀ placed ∈ redirected site replacement after.head?, placed.Stays := by
    rw [halone]
    exact List.forall_mem_singleton.2 hstays
  obtain ⟨front, back, rfl, hfront, hback⟩ := exists_of_linkBody_append hredirects hlink hstays
  exact ⟨front, back, hfront, hback, by rw [halone, List.append_assoc, List.singleton_append]⟩

theorem redirects_of_get? {call : Insn} (hsite : call.site? = some site)
    (hget : l.redirects.get? site = some replacement) (hbridge : l.bridgeCast? call = none)
    (hdeclared : l.demangle? call = none) : l.Redirects call site replacement := by
  refine ⟨hbridge, ?_⟩
  rw [hdeclared]
  exact redirectFor?_of_get? hsite hget

end Linker

/-- A call that can stand in the place of each instance call of a site: it takes from the operand
stack what they take and leaves there what they leave, and linking puts it where they were, with
nothing else. -/
structure Insn.StandsFor (insn : Insn) (site : CallSite) (effect : StackEffect) : Prop where
  callEffect?_eq : insn.callEffect? = some effect
  callEffect?_instance : ∀ kind ≠ InvokeKind.static,
    (member (.invoke kind) site.owner site.name site.desc).callEffect? = some effect
  /-- The redirect applies to the calls that a body makes under the names of the target. -/
  redirects : ∀ (l : Linker) (kind : InvokeKind),
    l.redirects.get? site = some insn →
    l.bridgeCast? (member (.invoke kind) site.owner site.name site.desc) = none →
    l.demangle? (member (.invoke kind) site.owner site.name site.desc) = none →
    l.Redirects (member (.invoke kind) site.owner site.name site.desc) site insn
  applies : ∀ done next, Linker.applyRedirect done site insn next = some (done ++ [insn], 0)
  alone : ∀ l : Linker, l.PlacesAlone site insn

/-- **The call of a static method stands for the instance calls of a method of its first
parameter's class**, if that takes the other parameters and returns the same. -/
theorem Insn.standsFor_invokeStatic {cls owner : ClassName} {name desc siteDesc ret : String}
    {params : List String} (hname : name ≠ constructorName)
    (hparams : parameterTypes desc = .ok (owner.descriptor :: params))
    (hret : returnType desc = .ok ret) (hsiteParams : parameterTypes siteDesc = .ok params)
    (hsiteRet : returnType siteDesc = .ok ret) :
    (member (.invoke .static) cls name desc).StandsFor ⟨owner, name, siteDesc, .call⟩
      ⟨owner.descriptor :: params, StackEffect.pushed ret⟩ := by
  have hconstruction : CallSite.isConstruction ⟨owner, name, siteDesc, .call⟩ = false := by
    rw [CallSite.isConstruction, decide_eq_false hname, Bool.false_and]
  have hcast : Linker.returnCast? ⟨owner, name, siteDesc, .call⟩
      (member (.invoke .static) cls name desc) = none := by
    simp [Linker.returnCast?, Linker.expectedType?, Linker.producedType?, hret, hsiteRet,
      Except.toOption]
  constructor
  case callEffect?_eq => exact callEffect?_invoke .static cls name hparams hret
  case callEffect?_instance =>
    intro kind hkind
    rw [callEffect?_invoke kind owner name hsiteParams hsiteRet, if_neg hkind]
  case redirects => exact fun l kind ↦ Linker.redirects_of_get? rfl
  case applies =>
    intro done next
    rw [Linker.applyRedirect, hconstruction, if_neg Bool.false_ne_true, hcast]
  case alone =>
    exact fun l ↦ Linker.placesAlone_of_returnCast? hconstruction hcast (stays_member ..)

/-! ### The stub as a whole -/

namespace Projector

/-- **A static stub with nothing written on it is a drop-in for the method of its name on the class
of its first parameter.** Its class is read and projected for each version that the stub names, and
records one redirect, from the calls of that method to the call of the stub. The instance calls take
just the parameters of the stub, the receiver for the first one, and leave just what it leaves, and
where linking redirects one, the call of the stub comes without a cast. -/
theorem project_defaultStub {t : ClassTree} {s : Member} {stubbed : List Version}
    {receiver : ClassName} {params : List String} {versions : VersionSet} {v : Version}
    (hs : t.HasOnlyStub s stubbed) (hkind : s.kind = .method) (hstatic : s.isStatic = true)
    (hname : s.name ≠ constructorName) (hreceiver : receiver.DotFree)
    (hparams : parameterTypes s.desc = .ok (receiver.descriptor :: params))
    (hstubbed : v ∈ stubbed) (hv : v ∈ versions) (p : Projector) :
    ∃ ds projected ret, t.readDirectives = .ok ds ∧
      p.project (.universal t versions) ds v = .ok (.projected projected) ∧
      returnType s.desc = .ok ret ∧
      projected.redirects = [⟨⟨receiver, s.name, methodDesc params ret, .call⟩,
        .member (.invoke .static) t.name s.name s.desc⟩] ∧
      (Insn.member (.invoke .static) t.name s.name s.desc).StandsFor
        ⟨receiver, s.name, methodDesc params ret, .call⟩
        ⟨receiver.descriptor :: params, StackEffect.pushed ret⟩ := by
  obtain ⟨ret, hret, -⟩ := Descriptor.exists_methodDesc hparams
  obtain ⟨hsiteParams, hsiteRet⟩ := Descriptor.parameterTypes_methodDesc hparams
    (List.sublist_cons_self receiver.descriptor params) ret
  obtain ⟨ds, hds, hcls, hsuper, hmembers⟩ := ClassTree.readDirectives_of_hasOnlyStub hs
    (DirectiveNote.read_defaultStub hkind hreceiver hparams hret)
  have hkept : ¬ DropClass ds.cls v := by simp [DropClass, hcls]
  obtain ⟨projected, hproject⟩ := p.exists_project (c := .universal t versions) hv hkept hsuper
  have happlies : (receiverStub stubbed receiver s.name params ret).appliesTo v = true :=
    decide_eq_true (OrderedSet.mem_ofList.2 hstubbed)
  have hsites : (MergedMember.universal versions s).stubRedirects t.name
      ⟨receiver, s.name, methodDesc params ret, false⟩ =
        .ok [⟨⟨receiver, s.name, methodDesc params ret, .call⟩,
          .member (.invoke .static) t.name s.name s.desc⟩] := by
    have hinvoke : Binding.invokeKind (MergedMember.universal versions s).isStatic s.name =
        .static := Binding.invokeKind_eq_static_iff.2 hstatic
    rw [MergedMember.stubRedirects_of_call hkind rfl (Descriptor.methodDesc_ne_empty params ret)]
    exact hinvoke ▸ rfl
  exact ⟨ds, projected, ret, hds, hproject, hret,
    redirects_of_hasOnlyStub hs hmembers rfl happlies rfl hsites p hproject,
    Insn.standsFor_invokeStatic hname hparams hret hsiteParams hsiteRet⟩

/-- A stub of `put`, a method of `x/A` with a primitive, an array and an object parameter. -/
def putStub : Member where
  name := "put"
  desc := "(Lx/A;I[JLx/B;)Z"
  kind := .method
  isStatic := true
  access := .publicAccess
  directives := [.stub [⟨"b"⟩] {} false]

def putCompat : ClassTree where
  name := ⟨"x/Compat"⟩
  access := .publicAccess
  members := [{ name := "put", desc := "(I)Z", kind := .method, access := .publicAccess }, putStub]

theorem project_defaultStub_put :
    ∃ ds projected, putCompat.readDirectives = .ok ds ∧
      (sizeProjector true).project (.universal putCompat (.ofList [⟨"a"⟩, ⟨"b"⟩])) ds ⟨"b"⟩ =
        .ok (.projected projected) ∧
      projected.redirects = [⟨⟨⟨"x/A"⟩, "put", "(I[JLx/B;)Z", .call⟩,
        .member (.invoke .static) ⟨"x/Compat"⟩ "put" "(Lx/A;I[JLx/B;)Z"⟩] ∧
      (Insn.member (.invoke .static) ⟨"x/Compat"⟩ "put" "(Lx/A;I[JLx/B;)Z").StandsFor
        ⟨⟨"x/A"⟩, "put", "(I[JLx/B;)Z", .call⟩ ⟨["Lx/A;", "I", "[J", "Lx/B;"], some "Z"⟩ := by
  have hs : putCompat.HasOnlyStub putStub [⟨"b"⟩] :=
    ⟨by decide +kernel, rfl, by decide +kernel, rfl, rfl, nofun⟩
  have hreceiver : ClassName.DotFree ⟨"x/A"⟩ := by decide
  have hparams : parameterTypes putStub.desc =
      .ok (ClassName.descriptor ⟨"x/A"⟩ :: ["I", "[J", "Lx/B;"]) := by decide +kernel
  have hv : ⟨"b"⟩ ∈ (.ofList [⟨"a"⟩, ⟨"b"⟩] : VersionSet) := by decide
  obtain ⟨ds, projected, ret, hds, hproject, hret, hredirects, hstands⟩ :=
    project_defaultStub hs rfl rfl (by decide) hreceiver hparams List.mem_cons_self hv
      (sizeProjector true)
  have hboolean : returnType putStub.desc = .ok "Z" := by decide +kernel
  obtain rfl := Except.ok.inj (hret.symm.trans hboolean)
  have hsite : methodDesc ["I", "[J", "Lx/B;"] "Z" = "(I[JLx/B;)Z" := by decide +kernel
  rw [hsite] at hredirects hstands
  exact ⟨ds, projected, hds, hproject, hredirects, hstands⟩

end Projector

end ClassWeave
