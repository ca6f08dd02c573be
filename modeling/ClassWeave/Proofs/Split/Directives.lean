import ClassWeave.Proofs.Ordered.Map
import ClassWeave.Proofs.Split.Precedence

/-!
# What directives decide

Two consequences of the order in which the directives of a site are tried, said without it. A class
that the target has is left out exactly if one of them removes it or stubs on it name other versions
only (`Projector.project_eq_removed_iff`). A member that nothing removes is replaced as soon as one
replacement can be carried out, whatever else is asked for: removals alone are tried before
replacements, and a replacement that fails gives way to the next one
(`Projector.projectMember_of_replaced`).

Directives leave members out and change bodies. They bring in no member and give none another name:
what a projected class declares are members of the merged class, under their declared names and in
their order (`Projector.keys_sublist_of_project`).
-/

namespace ClassWeave

variable {ds : List Directive} {target : Version}

/-! ### On a class -/

/-- Directives on a class that leave it out of a version: one removes it, or there are stubs and
none of them is for the version. -/
def DropClass (ds : List Directive) (target : Version) : Prop :=
  (∃ d ∈ ds, d.appliesTo target = true ∧ d.kind = .remove) ∨
    (∃ d ∈ ds, d.kind = .stub) ∧ ∀ d ∈ ds, d.appliesTo target = true → d.kind ≠ .stub

instance (ds : List Directive) (target : Version) : Decidable (DropClass ds target) :=
  inferInstanceAs (Decidable (_ ∨ _))

theorem any_kind_applicable {k : DirectiveKind} :
    (applicable ds target).any (·.kind = k) = true ↔
      ∃ d ∈ ds, d.appliesTo target = true ∧ d.kind = k := by
  simp only [List.any_eq_true, mem_applicable, decide_eq_true_iff, and_assoc]

/-- A class is kept exactly if its directives do not drop it. -/
theorem ClassFate.exists_kept_iff {cls : ClassName} :
    (∃ remaps warnings, ofDirectives cls ds target = .kept remaps warnings) ↔
      ¬ DropClass ds target := by
  have hnone : ((applicable ds target).filter (·.kind = .stub)).isEmpty = true ↔
      ∀ d ∈ ds, d.appliesTo target = true → d.kind ≠ .stub := by
    simp only [List.isEmpty_iff, List.filter_eq_nil_iff, mem_applicable, decide_eq_true_iff,
      and_imp, ne_eq]
  have hunused : (((applicable ds target).filter (·.kind = .stub)).isEmpty &&
      ds.any (·.kind = .stub)) = true ↔
      (∃ d ∈ ds, d.kind = .stub) ∧ ∀ d ∈ ds, d.appliesTo target = true → d.kind ≠ .stub := by
    rw [Bool.and_eq_true, hnone, and_comm]
    simp only [List.any_eq_true, decide_eq_true_iff]
  rw [DropClass, ← any_kind_applicable, ← hunused, ofDirectives]
  split
  · rename_i hremove
    refine iff_of_false ?_ (not_not.2 (.inl hremove))
    rintro ⟨_, _, h⟩
    cases h
  · rename_i hremove
    dsimp only
    split
    · rename_i hstubs
      refine iff_of_false ?_ (not_not.2 (.inr hstubs))
      rintro ⟨_, _, h⟩
      cases h
    · rename_i hstubs
      exact iff_of_true ⟨_, _, rfl⟩ (not_or.2 ⟨hremove, hstubs⟩)

namespace Projector

variable {p : Projector} {c : MergedClass}

/-- **A class is removed exactly if the target lacks it or its directives drop it.** -/
theorem project_eq_removed_iff {ds : ClassDirectives} :
    p.project c ds target = .ok .removed ↔ target ∉ c.versions ∨ DropClass ds.cls target := by
  have hkept : (∃ remaps warnings, ClassFate.ofDirectives c.name ds.cls target =
      .kept remaps warnings) ↔ ¬ DropClass ds.cls target := ClassFate.exists_kept_iff
  rw [project]
  by_cases hv : target ∈ c.versions
  · rw [if_neg (not_not.2 hv)]
    cases hfate : ClassFate.ofDirectives c.name ds.cls target with
    | removed => simpa [hfate, hv] using hkept
    | unused warnings => simpa [hfate, hv] using hkept
    | kept remaps warnings =>
      refine iff_of_false (fun hremoved ↦ ?_) ?_
      · obtain ⟨_, -, hprojected⟩ := Outcome.bind_eq_ok.1 hremoved
        cases Outcome.pure_eq_ok.1 hprojected
      · rw [not_or, not_not]
        exact ⟨hv, hkept.1 ⟨remaps, warnings, hfate⟩⟩
  · rw [if_pos hv]
    exact iff_of_true rfl (.inl hv)

/-- **A projection is what its directives leave of the class**, with its members detached. -/
theorem exists_draft_of_project {ds : ClassDirectives} {projected : ProjectedClass}
    (h : p.project c ds target = .ok (.projected projected)) :
    ∃ remaps warnings,
      projected.tree.superclass = (p.draft c ds target remaps warnings).inheritance.superclass ∧
      projected.redirects = (p.draft c ds target remaps warnings).redirects ∧
      detach c.name (p.draft c ds target remaps warnings).removedSuper
        (p.draft c ds target remaps warnings).members = .ok projected.tree.members := by
  rw [project] at h
  split at h
  · cases h
  · split at h
    · cases h
    · cases h
    · rename_i remaps warnings _
      obtain ⟨members, hmembers, h⟩ := Outcome.bind_eq_ok.1 h
      cases Outcome.pure_eq_ok.1 h
      exact ⟨remaps, warnings, rfl, rfl, hmembers⟩

theorem members_draft {ds : ClassDirectives} (remaps : List TypeRemap)
    (warnings : List SplitWarning) : (p.draft c ds target remaps warnings).members =
      c.members.filterMap fun m ↦ (p.projectMember c (ds.forMember m.key) target m).decl := by
  rw [draft]
  exact List.filterMap_map

theorem redirects_draft {ds : ClassDirectives} (remaps : List TypeRemap)
    (warnings : List SplitWarning) : (p.draft c ds target remaps warnings).redirects =
      c.members.flatMap fun m ↦ (p.projectMember c (ds.forMember m.key) target m).redirects := by
  rw [draft]
  exact List.flatMap_map _ _ _

/-- A projected class redirects what its members redirect. -/
theorem redirects_of_project {ds : ClassDirectives} {projected : ProjectedClass}
    (h : p.project c ds target = .ok (.projected projected)) :
    projected.redirects =
      c.members.flatMap fun m ↦ (p.projectMember c (ds.forMember m.key) target m).redirects := by
  obtain ⟨remaps, warnings, -, hredirects, -⟩ := exists_draft_of_project h
  exact hredirects.trans (redirects_draft remaps warnings)

/-- Detaching changes bodies only. -/
theorem key_of_detachMember {cls superclass : ClassName} {d d' : Member}
    (h : detachMember cls superclass d = .ok d') : d.key = d'.key := by
  rw [detachMember] at h
  split at h
  · obtain ⟨insns, -, h⟩ := Outcome.bind_eq_ok.1 h
    rw [← Outcome.pure_eq_ok.1 h]
    rfl
  · rw [Except.ok.inj h]

theorem keys_of_detach {cls : ClassName} {removedSuper : Option ClassName} {ms ms' : List Member}
    (h : detach cls removedSuper ms = .ok ms') : ms.map Member.key = ms'.map Member.key := by
  cases removedSuper with
  | none => rw [Except.ok.inj h]
  | some superclass =>
    have hkeys := (Outcome.mapM_eq_ok.1 h).imp fun _ _ ↦ key_of_detachMember
    rw [← List.forall₂_eq_eq_eq, List.forall₂_map_left_iff, List.forall₂_map_right_iff]
    exact hkeys

/-- **A projected class declares members of the merged class only**, under their declared names and
in their order. -/
theorem keys_sublist_of_project {ds : ClassDirectives} {projected : ProjectedClass}
    (h : p.project c ds target = .ok (.projected projected)) :
    (projected.tree.members.map Member.key).Sublist
      (c.members.map MergedMember.declaredKey) := by
  obtain ⟨remaps, warnings, -, -, hdetach⟩ := exists_draft_of_project h
  rw [← keys_of_detach hdetach, members_draft]
  refine OrderedMap.keys_filterMap_sublist (fun m d hdecl ↦ ?_) c.members
  obtain ⟨body, rfl⟩ := exists_emit_of_decl hdecl
  exact m.key_emit target body

/-! ### On a member -/

/-- Directives on a member that replace it: none removes it, and the pointer of one replacement can
be resolved. -/
def Replaced (p : Projector) (ds : List Directive) (target : Version) : Prop :=
  (∀ d ∈ ds, d.appliesTo target = true → d.kind ≠ .remove) ∧
    ∃ d ∈ ds, d.appliesTo target = true ∧ d.kind = .replace ∧
      ∃ b, p.bindReplacement d target = .ok b

instance (p : Projector) (ds : List Directive) (target : Version) :
    Decidable (p.Replaced ds target) :=
  decidable_of_iff ((∀ d ∈ ds, d.appliesTo target = true → d.kind ≠ .remove) ∧
    ∃ d ∈ ds, d.appliesTo target = true ∧ d.kind = .replace ∧
      (p.bindReplacement d target).toOption.isSome = true) <| by
    simp only [Outcome.isSome_toOption_iff, Replaced]

/-- **A replaced member is left out, and its call sites are redirected.** -/
theorem projectMember_of_replaced (h : p.Replaced ds target) (c : MergedClass) (m : MergedMember) :
    ∃ b warnings, p.projectMember c ds target m =
      ⟨none, m.replacements c.name b, warnings⟩ := by
  obtain ⟨hremove, d, hd, happlies, hkind, b, hb⟩ := h
  have hnone : applicableOfKind ds target .remove = [] := by
    refine List.eq_nil_iff_forall_not_mem.2 fun d' hd' ↦ ?_
    obtain ⟨hd', hkind', happlies'⟩ := mem_applicableOfKind.1 hd'
    exact hremove d' hd' happlies' hkind'
  rcases Outcome.forall₂_or_first (R := p.Fails c m target)
    fun _ hd ↦ fails_or_bindsTo (kind_of_mem_applicableOfKind hd) with
    ⟨ws, hfails⟩ | ⟨earlier, d', later, ws, hreplace, hearlier, b', hb'⟩
  · obtain ⟨w, hw⟩ := Outcome.exists_of_forall₂ hfails
      (mem_applicableOfKind.2 ⟨hd, hkind, happlies⟩)
    exact absurd hw (not_fails_of_bindsTo hkind (bindReplacement_eq_ok_iff.1 hb))
  · exact ⟨b', ws, (Decides.replaced hnone hreplace hearlier hb').projectMember_eq⟩

end Projector

end ClassWeave
