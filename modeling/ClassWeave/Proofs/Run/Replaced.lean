import ClassWeave.Proofs.Link.Loop
import ClassWeave.Proofs.Link.Redirected
import ClassWeave.Proofs.Run.Written
import ClassWeave.Proofs.Split.Directives

/-!
# Call sites of replaced members

The redirects of all projected classes are pooled, and of those of one site the first is on record
(`get?_pool`). What a site is redirected to is the use of a member, so the loop over a body stays in
range in every run (`redirectsToMembers_linker`).

A member that a directive replaces is left out of its class, and each of its call sites is on record
(`isSome_get?_of_replaced`). Linking then leaves such a site nowhere but
where it put it itself: in a written tree an instruction names a replaced member only if it stands
in for another instruction, of a member whose replacement is replaced as well
(`replaced_site_placed`). Where replacements form a chain that does happen, since a linked
instruction is not looked up again: `replaced_site_chainStore` is a run that leaves a call of a
member which it drops.
-/

namespace ClassWeave

variable {σ : Type}

namespace SplitRun

variable {r : SplitRun} {hooks : HookRegistry} {input : Source} {output : Output σ} {s : σ}
  {l : Loaded} {c d : ClassName} {merged : MergedClass} {m : MergedMember}
  {projected : ProjectedClass} {t : ClassTree} {insn : Insn} {site : CallSite}

/-! ### What is pooled -/

/-- **The first redirect of a site is on record**, in the order of the classes. -/
theorem get?_pool (p : Projected) (site : CallSite) :
    (pool p).get? site =
      ((p.classes.values.flatMap (·.redirects)).find? (·.site = site)).map (·.replacement) := by
  have hfold : ∀ (cs : List ProjectedClass) (t : RedirectTable),
      (cs.foldl (fun t c ↦ (t.addAll c.redirects).addTypes c.typeRemaps) t).get? site =
        (t.get? site).or
          (((cs.flatMap (·.redirects)).find? (·.site = site)).map (·.replacement)) := by
    intro cs
    induction cs with
    | nil => exact fun t ↦ (Option.or_none).symm
    | cons c cs ih =>
      intro t
      rw [List.foldl_cons, ih, RedirectTable.get?_addTypes, RedirectTable.get?_addAll,
        Option.or_assoc, List.flatMap_cons, List.find?_append, Option.map_or]
  exact (hfold _ _).trans Option.none_or

/-- Each redirected site of a projected class is on record. -/
theorem isSome_get?_pool {p : Projected} (hget : p.classes.get? c = some projected)
    (hsite : site ∈ projected.redirects.map (·.site)) : ((pool p).get? site).isSome = true := by
  obtain ⟨redirect, hredirect, rfl⟩ := List.mem_map.1 hsite
  rw [get?_pool, Option.isSome_map, List.find?_isSome]
  exact ⟨redirect, List.mem_flatMap.2 ⟨projected, OrderedMap.mem_values.2 ⟨c, hget⟩, hredirect⟩,
    decide_eq_true rfl⟩

/-- What is on record is a redirect of some projected class. -/
theorem exists_redirect_of_get?_pool {p : Projected} {replacement : Insn}
    (h : (pool p).get? site = some replacement) :
    ∃ c projected, p.classes.get? c = some projected ∧
      ⟨site, replacement⟩ ∈ projected.redirects := by
  rw [get?_pool] at h
  obtain ⟨redirect, hfind, rfl⟩ := Option.map_eq_some_iff.1 h
  obtain rfl : redirect.site = site := by simpa using List.find?_some hfind
  obtain ⟨projected, hprojected, hmem⟩ := List.mem_flatMap.1 (List.mem_of_find?_eq_some hfind)
  obtain ⟨c, hget⟩ := OrderedMap.mem_values.1 hprojected
  exact ⟨c, projected, hget, hmem⟩

/-- **A run redirects to members only.** -/
theorem redirectsToMembers_linker (r : SplitRun) (hooks : HookRegistry) (l : Loaded) :
    (r.linker hooks l).RedirectsToMembers := by
  intro site replacement h
  obtain ⟨c, projected, hget, hredirect⟩ := exists_redirect_of_get?_pool h
  obtain ⟨merged, -, hproject⟩ := projectClass_eq_ok.1 (projectClass_of_get?_projections hget)
  rw [Projector.redirects_of_project hproject] at hredirect
  obtain ⟨m, -, hredirect⟩ := List.mem_flatMap.1 hredirect
  obtain ⟨b, get, hinsn, -⟩ := Projector.exists_accessInsn_of_mem_redirects hredirect
  rw [show replacement = b.accessInsn get from hinsn, b.site?_accessInsn]
  rfl

/-- Where no class stands in for another one, none is on record. -/
theorem typeFor?_pool {p : Projected}
    (h : ∀ c projected, p.classes.get? c = some projected → projected.typeRemaps = []) :
    (pool p).typeFor? d = none := by
  have hfold : ∀ (cs : List ProjectedClass) (t : RedirectTable),
      (∀ c ∈ cs, c.typeRemaps = []) →
      (cs.foldl (fun t c ↦ (t.addAll c.redirects).addTypes c.typeRemaps) t).typeFor? d =
        t.typeFor? d := by
    intro cs
    induction cs with
    | nil => exact fun _ _ ↦ rfl
    | cons c cs ih =>
      intro t h
      rw [List.foldl_cons, ih _ fun c hc ↦ h c (List.mem_cons_of_mem _ hc),
        h c List.mem_cons_self]
      exact RedirectTable.typeFor?_addAll t _ d
  refine hfold _ _ fun projected hprojected ↦ ?_
  obtain ⟨c, hget⟩ := OrderedMap.mem_values.1 hprojected
  exact h c projected hget

/-- **The sites of a replaced member are on record.** -/
theorem isSome_get?_of_replaced (hmerged : l.index.get? c = some merged)
    (hget : (r.projections hooks l).classes.get? c = some projected) (hm : m ∈ merged.members)
    (hreplaced : (projector hooks l).Replaced ((directivesOf l c).forMember m.key) r.target)
    (hsite : site ∈ m.sites merged.name) :
    ((r.linker hooks l).redirects.get? site).isSome = true := by
  obtain ⟨merged', hmerged', hproject⟩ :=
    projectClass_eq_ok.1 (projectClass_of_get?_projections hget)
  obtain rfl : merged = merged' := Option.some.inj (hmerged.symm.trans hmerged')
  obtain ⟨b, warnings, hmember⟩ := Projector.projectMember_of_replaced hreplaced merged m
  refine isSome_get?_pool hget ?_
  rw [Projector.redirects_of_project hproject, List.map_flatMap]
  refine List.mem_flatMap.2 ⟨m, hm, ?_⟩
  rw [hmember, m.map_site_replacements]
  exact hsite

/-! ### What is left of them -/

/-- **A call of a replaced member that is written stands in for another instruction.** -/
theorem replaced_site_placed (hl : load input (.ofList r.versions) = .ok l)
    (htypes : ∀ c projected, (r.projections hooks l).classes.get? c = some projected →
      projected.typeRemaps = [])
    (hmerged : l.index.get? c = some merged)
    (hget : (r.projections hooks l).classes.get? c = some projected) (hm : m ∈ merged.members)
    (hreplaced : (projector hooks l).Replaced ((directivesOf l c).forMember m.key) r.target)
    (hwritten : (d, t) ∈ r.written hooks input output s) (hinsn : insn ∈ t.insns)
    (hsite : insn.site? = some site) (hmember : site ∈ m.sites merged.name) :
    ∃ user, (r.projections hooks l).classes.get? d = some user ∧
      (r.linker hooks l).Places user.tree.insns insn := by
  obtain ⟨l', hl', user, huser, hfinish⟩ := finished_of_mem_written hwritten
  obtain rfl : l = l' := Except.ok.inj (hl.symm.trans hl')
  obtain ⟨⟨n, hlink⟩, -⟩ := finishTree_eq_ok.1 hfinish
  refine ⟨user, huser, ?_⟩
  have htable : ∀ c, (r.linker hooks l).redirects.typeFor? c = none := fun _ ↦ typeFor?_pool htypes
  refine (Linker.settled_of_link htable hlink insn hinsn).resolve_left fun hnone ↦ ?_
  have hrecord := isSome_get?_of_replaced hmerged hget hm hreplaced hmember
  rw [Linker.get?_eq_none_of_redirectFor? hsite hnone] at hrecord
  cases hrecord

/-! ### A chain of replacements -/

/-- A class with one static method, on which there may be directives. -/
def chainClass (cls method : String) (insns : List Insn) (notes : List DirectiveNote) :
    ClassTree where
  name := ⟨cls⟩
  access := .publicAccess
  members := [
    { name := method, desc := "()V", kind := .method, isStatic := true, access := .publicAccess
      body := some (.code 0 insns), directives := notes }]

def chainCall (cls method : String) : Insn := .member (.invoke .static) ⟨cls⟩ method "()V"

def chainSecond : ClassTree :=
  chainClass "x/B" "second" [] [.replace [⟨"a"⟩] ⟨"x/C", "third", ""⟩ false]

/-- `x/A.first` is replaced by `x/B.second`, and that by `x/C.third`. -/
def chainStore : MemoryStore :=
  MemoryStore.empty
    |>.insert none
      (chainClass "x/A" "first" [] [.replace [⟨"a"⟩] ⟨"x/B", "second", ""⟩ false])
    |>.insert none chainSecond
    |>.insert none (chainClass "x/C" "third" [] [])
    |>.insert none (chainClass "x/User" "use" [chainCall "x/A" "first"] [])

def chainSplit : SplitRun := { versions := [⟨"a"⟩, ⟨"b"⟩], target := ⟨"a"⟩ }

/-- The redirect of a method to another one. -/
def chainRedirect (cls method cls' method' : String) : Redirect :=
  ⟨⟨⟨cls⟩, method, "()V", .call⟩, chainCall cls' method'⟩

theorem projections_chainStore :
    chainSplit.projections .empty (chainSplit.loadedFrom chainStore) = collect [
      (⟨"x/A"⟩, .ok (.projected
        ⟨⟨⟨"x/A"⟩, .publicAccess, .object, [], [], none, [], [], .empty⟩,
          [chainRedirect "x/A" "first" "x/B" "second"], [], []⟩)),
      (⟨"x/B"⟩, .ok (.projected
        ⟨⟨⟨"x/B"⟩, .publicAccess, .object, [], [], none, [], [], .empty⟩,
          [chainRedirect "x/B" "second" "x/C" "third"], [], []⟩)),
      (⟨"x/C"⟩, .ok (.projected ⟨chainClass "x/C" "third" [] [], [], [], []⟩)),
      (⟨"x/User"⟩, .ok (.projected
        ⟨chainClass "x/User" "use" [chainCall "x/A" "first"] [], [], [], []⟩))] := by
  rw [projections_eq fun _ ↦ .refl _]
  exact congrArg collect (by decide +kernel)

theorem typeRemaps_chainStore {c : ClassName} {projected : ProjectedClass}
    (h : (chainSplit.projections .empty (chainSplit.loadedFrom chainStore)).classes.get? c =
      some projected) : projected.typeRemaps = [] := by
  have hall : ∀ e ∈ (chainSplit.projections .empty
      (chainSplit.loadedFrom chainStore)).classes.entries, e.2.typeRemaps = [] := by
    rw [projections_chainStore]
    decide
  exact hall _ (OrderedMap.get?_eq_some_iff.1 h)

theorem get?_chainStore : (chainSplit.loadedFrom chainStore).index.get? ⟨"x/B"⟩ =
    some (.universal chainSecond (.ofList chainSplit.versions)) := by
  decide

theorem exists_projected_chainStore : ∃ projected, (chainSplit.projections .empty
    (chainSplit.loadedFrom chainStore)).classes.get? ⟨"x/B"⟩ = some projected := by
  refine Option.isSome_iff_exists.1 ?_
  rw [projections_chainStore]
  decide

/-- The call site that the chain leads through. -/
theorem exists_replaced_chainStore :
    ∃ m ∈ (MergedClass.universal chainSecond (.ofList chainSplit.versions)).members,
      (projector .empty (chainSplit.loadedFrom chainStore)).Replaced
          ((directivesOf (chainSplit.loadedFrom chainStore) ⟨"x/B"⟩).forMember m.key)
          chainSplit.target ∧
        ⟨⟨"x/B"⟩, "second", "()V", .call⟩ ∈ m.sites ⟨"x/B"⟩ := by
  decide

theorem written_chainStore :
    (⟨"x/User"⟩, chainClass "x/User" "use" [chainCall "x/B" "second"] []) ∈
      chainSplit.written .empty chainStore.source MemoryStore.output .empty := by
  rw [written_eq _ _ _ (load_source _ chainStore) (by decide), linker,
    projections_chainStore]
  decide

theorem replaced_site_placed_chainStore : ∃ user,
    (chainSplit.projections .empty (chainSplit.loadedFrom chainStore)).classes.get? ⟨"x/User"⟩ =
        some user ∧
      (chainSplit.linker .empty (chainSplit.loadedFrom chainStore)).Places user.tree.insns
        (chainCall "x/B" "second") := by
  obtain ⟨projected, hget⟩ := exists_projected_chainStore
  obtain ⟨m, hm, hreplaced, hsite⟩ := exists_replaced_chainStore
  exact replaced_site_placed (load_source _ chainStore) (fun _ _ ↦ typeRemaps_chainStore)
    get?_chainStore hget hm hreplaced written_chainStore (List.mem_singleton_self _) rfl hsite

/-- **A run leaves a call of a member that it replaces**, where replacements form a chain. -/
theorem replaced_site_chainStore :
    (∀ c projected, (chainSplit.projections .empty
        (chainSplit.loadedFrom chainStore)).classes.get? c = some projected →
          projected.typeRemaps = []) ∧
      ∃ merged projected,
        (chainSplit.loadedFrom chainStore).index.get? ⟨"x/B"⟩ = some merged ∧
        (chainSplit.projections .empty (chainSplit.loadedFrom chainStore)).classes.get? ⟨"x/B"⟩ =
          some projected ∧
        ∃ m ∈ merged.members,
          (projector .empty (chainSplit.loadedFrom chainStore)).Replaced
              ((directivesOf (chainSplit.loadedFrom chainStore) ⟨"x/B"⟩).forMember m.key)
              chainSplit.target ∧
            ∃ e ∈ chainSplit.written .empty chainStore.source MemoryStore.output .empty,
              ∃ insn ∈ e.2.insns, ∃ site ∈ m.sites merged.name, insn.site? = some site := by
  obtain ⟨projected, hget⟩ := exists_projected_chainStore
  obtain ⟨m, hm, hreplaced, hsite⟩ := exists_replaced_chainStore
  exact ⟨fun _ _ ↦ typeRemaps_chainStore, _, projected, get?_chainStore, hget, m, hm, hreplaced,
    _, written_chainStore, chainCall "x/B" "second", List.mem_singleton_self _, _, hsite, rfl⟩

end SplitRun

end ClassWeave
