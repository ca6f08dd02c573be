import ClassWeave.Merge.Inheritance
import ClassWeave.Proofs.Descriptor
import ClassWeave.Proofs.Link.Unredirected
import ClassWeave.Proofs.Ordered.Map

/-!
# Stand-ins in the place of classes

Renaming types puts a stand-in in the place of each class that has one, wherever a tree names a
class. On a tree with well-formed descriptors this is a substitution in the trees of types that the
descriptors are the texts of (`ClassTree.Renamed`, `RedirectTable.renamed_renameTypes`): each class
is renamed once, a stand-in is not looked up again, and nothing else changes.

What a reference names is told by texts, and the same texts are renamed in the same way wherever
they stand. So a reference to a member of another tree names that member after linking as well, as
long as its owner keeps its name and the index leaves the reference alone
(`Linker.renaming_exact_and_consistent`). The index does more than rename: the call of a bridge goes
away altogether (`Linker.bridge_call_names_nothing`).
-/

namespace ClassWeave

open Descriptor (FieldType Signature TypeName)

/-! ### Well-formed trees -/

/-- A text that is the descriptor of a signature. -/
def Descriptor.IsWellFormed (desc : String) : Prop := ∃ s : Signature, s.WellFormed ∧ desc = s.text

/-- A name that stands for a class or for an array type. -/
def ClassName.IsTypeName (c : ClassName) : Prop := ∃ n : TypeName, n.WellFormed ∧ c.text = n.text

/-- The descriptor or the type that an instruction names, if any, is well formed. -/
def Insn.DescriptorWellFormed : Insn → Prop
  | member _ _ _ desc => Descriptor.IsWellFormed desc
  | type _ cls => cls.IsTypeName
  | raw _ => True

/-- The owner of the member that an instruction names. -/
def Insn.owner? : Insn → Option ClassName
  | member _ owner _ _ => some owner
  | type _ _ | raw _ => none

/-- A tree whose descriptors are well formed, those of array types among its operands too. -/
structure ClassTree.DescriptorsWellFormed (t : ClassTree) : Prop where
  signatures : ∀ m ∈ t.members, Descriptor.IsWellFormed m.desc
  insns : ∀ insn ∈ t.insns, insn.DescriptorWellFormed

/-- A tree that also names its classes by well-formed names. It is not the tree of an array type. -/
structure ClassTree.WellFormed (t : ClassTree) : Prop extends t.DescriptorsWellFormed where
  name : (TypeName.cls t.name).WellFormed
  superclass : t.superclass.IsTypeName
  interfaces : ∀ c ∈ t.interfaces, c.IsTypeName
  owners : ∀ insn ∈ t.insns, ∀ c, insn.owner? = some c → c.IsTypeName

/-! ### Substitution in a tree -/

/-- A descriptor with the classes of its signature renamed. -/
inductive Descriptor.Renamed (f : ClassName → Option ClassName) : String → String → Prop where
  | intro (s : Signature) (h : s.WellFormed) : Renamed f s.text (s.rename f).text

/-- A class with its stand-in, or an array type with that of its elements. -/
inductive ClassName.Renamed (f : ClassName → Option ClassName) : ClassName → ClassName → Prop where
  | intro (n : TypeName) (h : n.WellFormed) : Renamed f ⟨n.text⟩ ⟨(n.rename f).text⟩

inductive Insn.Renamed (f : ClassName → Option ClassName) : Insn → Insn → Prop where
  | member (use : MemberUse) (name : String) {owner owner' : ClassName} {desc desc' : String}
      (howner : owner.Renamed f owner') (hdesc : Descriptor.Renamed f desc desc') :
      Renamed f (.member use owner name desc) (.member use owner' name desc')
  | type (use : TypeUse) {cls cls' : ClassName} (h : cls.Renamed f cls') :
      Renamed f (.type use cls) (.type use cls')
  | raw (text : String) : Renamed f (.raw text) (.raw text)

inductive Body.Renamed (f : ClassName → Option ClassName) : Option Body → Option Body → Prop where
  | none : Renamed f none none
  | fails (fault : Fault) : Renamed f (some (.fails fault)) (some (.fails fault))
  | code (maxLocals : UInt16) {insns insns' : List Insn}
      (h : List.Forall₂ (Insn.Renamed f) insns insns') :
      Renamed f (some (.code maxLocals insns)) (some (.code maxLocals insns'))

/-- A member that differs in its descriptor and its body only, and there by a renaming. -/
structure Member.Renamed (f : ClassName → Option ClassName) (m m' : Member) : Prop where
  rest : m' = { m with desc := m'.desc, body := m'.body }
  desc : Descriptor.Renamed f m.desc m'.desc
  body : Body.Renamed f m.body m'.body

/-- A tree with its classes renamed. The tree itself keeps its name. -/
structure ClassTree.Renamed (f : ClassName → Option ClassName) (t t' : ClassTree) : Prop where
  rest : t' = { t with
    superclass := t'.superclass, interfaces := t'.interfaces, members := t'.members }
  superclass : t.superclass.Renamed f t'.superclass
  interfaces : List.Forall₂ (ClassName.Renamed f) t.interfaces t'.interfaces
  members : List.Forall₂ (Member.Renamed f) t.members t'.members

/-! ### What renaming makes of each part -/

/-- The characters of a type come from its letters and from the names of classes. -/
theorem Descriptor.FieldType.dot_not_mem_chars {f : ClassName → Option ClassName} {t : FieldType}
    (h : t.WellFormed) (hf : ∀ c d, f c = some d → d.DotFree) : '.' ∉ (t.rename f).chars := by
  induction t with
  | primitive letter =>
    intro hdot
    obtain rfl := List.mem_singleton.1 hdot
    exact absurd h (by decide)
  | object cls =>
    have hcls : cls.WellFormed := h
    have hdots : ((f cls).getD cls).DotFree := by
      cases hd : f cls with
      | none => exact hcls.dotFree
      | some d => exact hf cls d hd
    intro hdot
    rw [rename, chars, List.mem_cons, List.mem_append, List.mem_singleton] at hdot
    rcases hdot with hdot | hdot | hdot
    · exact absurd hdot (by decide)
    · exact hdots hdot
    · exact absurd hdot (by decide)
  | array element ih =>
    intro hdot
    rcases List.mem_cons.1 hdot with hdot | hdot
    · exact absurd hdot (by decide)
    · exact ih h hdot

namespace RedirectTable

variable {t : RedirectTable}

/-- A class, or an array type, with the stand-in in it. -/
def renamedClass (t : RedirectTable) (c : ClassName) : ClassName := (t.renameClass? c).getD c

def renamedDesc (t : RedirectTable) (desc : String) : String := (t.renameDesc? desc).getD desc

def renamedInsn (t : RedirectTable) (insn : Insn) : Insn := (t.renameInsn? insn).getD insn

theorem counted_fst {α : Type} (f : α → Option α) (a : α) : (counted f a).1 = (f a).getD a := by
  rw [counted]
  cases f a with
  | none => rfl
  | some b => rfl

theorem renamedInsn_member (t : RedirectTable) (use : MemberUse) (owner : ClassName)
    (name desc : String) : t.renamedInsn (.member use owner name desc) =
      .member use (t.renamedClass owner) name (t.renamedDesc desc) := by
  rw [renamedInsn, renameInsn?, renamedClass, renamedDesc]
  cases t.renameClass? owner with
  | none =>
    cases t.renameDesc? desc with
    | none => rfl
    | some desc' => rfl
  | some owner' => rfl

theorem renamedInsn_type (t : RedirectTable) (use : TypeUse) (cls : ClassName) :
    t.renamedInsn (.type use cls) = .type use (t.renamedClass cls) := by
  rw [renamedInsn, renameInsn?, renamedClass]
  cases t.renameClass? cls with
  | none => rfl
  | some cls' => rfl

theorem renameMember_fst (t : RedirectTable) (m : Member) :
    (t.renameMember m).1 = { m with
      desc := t.renamedDesc m.desc
      body := m.body.map fun b ↦ b.withInsns (b.insns.map t.renamedInsn) } := by
  obtain ⟨name, desc, kind, isStatic, isSynthetic, access, body⟩ := m
  cases body with
  | none => simp only [renameMember, counted_fst, Option.map_none, renamedDesc]
  | some b =>
    have hinsns : (countedAll (counted t.renameInsn?) b.insns).1 = b.insns.map t.renamedInsn :=
      List.map_congr_left fun insn _ ↦ counted_fst t.renameInsn? insn
    simp only [renameMember, counted_fst, Option.map_some, renamedDesc, hinsns]

theorem renameTypes_fst (t : RedirectTable) (tree : ClassTree) :
    (t.renameTypes tree).1 = { tree with
      superclass := t.renamedClass tree.superclass
      interfaces := tree.interfaces.map t.renamedClass
      members := tree.members.map fun m ↦ (t.renameMember m).1 } := by
  have hinterfaces : (countedAll (counted t.renameClass?) tree.interfaces).1 =
      tree.interfaces.map t.renamedClass :=
    List.map_congr_left fun c _ ↦ counted_fst t.renameClass? c
  simp only [renameTypes, counted_fst, hinterfaces]
  rfl

theorem insns_renameMember (t : RedirectTable) (m : Member) :
    (t.renameMember m).1.insns = m.insns.map t.renamedInsn := by
  rw [renameMember_fst]
  exact m.insns_map t.renamedInsn

/-! ### Renaming is substitution -/

theorem renamed_renamedDesc {desc : String} (h : Descriptor.IsWellFormed desc) :
    Descriptor.Renamed t.typeFor? desc (t.renamedDesc desc) := by
  obtain ⟨s, hs, rfl⟩ := h
  rw [renamedDesc, renameDesc?, Descriptor.getD_mapClasses_text hs]
  exact .intro s hs

/-- A name that does not begin like an array type is the name of a class. -/
theorem renamedClass_of_head? {c : ClassName} (h : c.text.toList.head? ≠ some '[') :
    t.renamedClass c = (t.typeFor? c).getD c := by
  rw [renamedClass, renameClass?, if_neg h]

section Proper

variable (ht : ∀ c d, t.typeFor? c = some d → d.WellFormed)

include ht

theorem renamedClass_array {element : FieldType} (h : element.WellFormed) :
    t.renamedClass ⟨(TypeName.array element).text⟩ =
      ⟨(TypeName.array (element.rename t.typeFor?)).text⟩ := by
  have hs : (Signature.field (.array element)).WellFormed := List.forall_mem_singleton.2 h
  have hrename : t.renamedDesc (TypeName.array element).text =
      (TypeName.array (element.rename t.typeFor?)).text := by
    rw [renamedDesc, renameDesc?, TypeName.text_array, TypeName.text_array]
    exact Descriptor.getD_mapClasses_text hs
  have hhead : (TypeName.array element).text.toList.head? = some '[' := by
    rw [TypeName.text, String.toList_ofList]
    rfl
  have hfree : (⟨(TypeName.array (element.rename t.typeFor?)).text⟩ : ClassName).DotFree := by
    rw [ClassName.DotFree, TypeName.text, String.toList_ofList]
    exact Descriptor.FieldType.dot_not_mem_chars (t := .array element) h
      fun c d hd ↦ (ht c d hd).dotFree
  rw [renamedClass, renameClass?, if_pos hhead]
  rw [renamedDesc] at hrename
  cases hdesc : t.renameDesc? (TypeName.array element).text with
  | none =>
    rw [hdesc, Option.getD_none] at hrename
    rw [Option.map_none, Option.getD_none, hrename]
  | some desc =>
    rw [hdesc, Option.getD_some] at hrename
    rw [Option.map_some, Option.getD_some, hrename, ClassName.ofText_text hfree]

theorem renamed_renamedClass {c : ClassName} (h : c.IsTypeName) :
    c.Renamed t.typeFor? (t.renamedClass c) := by
  obtain ⟨n, hn, htext⟩ := h
  obtain rfl : c = ⟨n.text⟩ := congrArg ClassName.mk htext
  cases n with
  | cls c =>
    have hrenamed := renamedClass_of_head? (t := t) hn.2
    show ClassName.Renamed _ _ (t.renamedClass c)
    rw [hrenamed]
    exact .intro (.cls c) hn
  | array element =>
    rw [renamedClass_array ht hn]
    exact .intro (.array element) hn

theorem renamed_renamedInsns {tree : ClassTree} (h : tree.WellFormed) {insns : List Insn}
    (hinsns : insns ⊆ tree.insns) :
    List.Forall₂ (Insn.Renamed t.typeFor?) insns (insns.map t.renamedInsn) := by
  rw [List.forall₂_map_right_iff, List.forall₂_same]
  intro insn hinsn
  have hinsn := hinsns hinsn
  cases insn with
  | member use owner name desc =>
    rw [renamedInsn_member]
    exact .member use name (renamed_renamedClass ht (h.owners _ hinsn owner rfl))
      (renamed_renamedDesc (h.insns _ hinsn))
  | type use cls =>
    rw [renamedInsn_type]
    exact .type use (renamed_renamedClass ht (h.insns _ hinsn))
  | raw text => exact .raw text

theorem renamed_renameMember {tree : ClassTree} (h : tree.WellFormed) {m : Member}
    (hm : m ∈ tree.members) : m.Renamed t.typeFor? (t.renameMember m).1 := by
  have hinsns := renamed_renamedInsns ht h fun insn hinsn ↦ List.mem_flatMap.2 ⟨m, hm, hinsn⟩
  have hdesc := renamed_renamedDesc (t := t) (h.signatures m hm)
  rw [renameMember_fst]
  obtain ⟨name, desc, kind, isStatic, isSynthetic, access, body⟩ := m
  refine ⟨rfl, hdesc, ?_⟩
  cases body with
  | none => exact .none
  | some b =>
    cases b with
    | code maxLocals insns => exact .code maxLocals hinsns
    | fails fault => exact .fails fault

/-- **Renaming the types of a well-formed tree is substitution**, wherever it names a class. -/
theorem renamed_renameTypes {tree : ClassTree} (h : tree.WellFormed) :
    tree.Renamed t.typeFor? (t.renameTypes tree).1 := by
  rw [renameTypes_fst]
  refine ⟨rfl, renamed_renamedClass ht h.superclass, ?_, ?_⟩
  · rw [List.forall₂_map_right_iff, List.forall₂_same]
    exact fun c hc ↦ renamed_renamedClass ht (h.interfaces c hc)
  · rw [List.forall₂_map_right_iff, List.forall₂_same]
    exact fun m hm ↦ renamed_renameMember ht h hm

end Proper

end RedirectTable

/-! ### References between trees -/

/-- An instruction names a member of a tree by the name of the tree and by the name, the descriptor
and the kind of the member. -/
def Insn.NamesMember (insn : Insn) (t : ClassTree) (m : Member) : Prop :=
  ∃ use, insn = .member use t.name m.name m.desc ∧ use.kind = m.kind

/-- The instruction at a position in the body of the member at another one. -/
def ClassTree.insnAt? (t : ClassTree) (i p : ℕ) : Option Insn :=
  t.members[i]?.bind fun m ↦ m.insns[p]?

/-- An instruction of one tree, told by its place, names a member of the other, told by its. -/
def ClassTree.RefersTo (t u : ClassTree) (i p j : ℕ) : Prop :=
  ∃ insn m, t.insnAt? i p = some insn ∧ u.members[j]? = some m ∧ insn.NamesMember u m

namespace Linker

variable {l : Linker} {t u : ClassTree} {insn : Insn} {i p j : ℕ}

/-- The tree that linking makes of another one where no call site is redirected. -/
def renamedTree (l : Linker) (t : ClassTree) : ClassTree :=
  (l.redirects.renameTypes (l.rewriteTree t)).1

theorem name_renamedTree (l : Linker) (t : ClassTree) : (l.renamedTree t).name = t.name := by
  rw [renamedTree, RedirectTable.renameTypes_fst]
  rfl

/-- A member of a linked tree is the one at its place, rewritten and renamed. -/
theorem members_renamedTree (l : Linker) (t : ClassTree) (i : ℕ) :
    (l.renamedTree t).members[i]? =
      t.members[i]?.map fun m ↦ (l.redirects.renameMember (l.rewriteMember m)).1 := by
  rw [renamedTree, RedirectTable.renameTypes_fst, rewriteTree, List.map_map, List.getElem?_map]
  rfl

/-- So is an instruction. -/
theorem insnAt?_renamedTree (l : Linker) (t : ClassTree) (i p : ℕ) :
    (l.renamedTree t).insnAt? i p =
      (t.insnAt? i p).map fun insn ↦ l.redirects.renamedInsn (l.rewrite insn) := by
  rw [ClassTree.insnAt?, members_renamedTree, ClassTree.insnAt?]
  cases t.members[i]? with
  | none => rfl
  | some m =>
    rw [Option.map_some, Option.bind_some, RedirectTable.insns_renameMember, insns_rewriteMember,
      List.map_map, List.getElem?_map, Option.bind_some]
    rfl

/-- **A reference names the same member as before**, if it keeps its owner and the index leaves it
alone. -/
theorem refersTo_renamedTree (hu : (TypeName.cls u.name).WellFormed)
    (howner : l.redirects.typeFor? u.name = none) (hinsn : t.insnAt? i p = some insn)
    (hself : l.rewrite insn = insn) (h : t.RefersTo u i p j) :
    (l.renamedTree t).RefersTo (l.renamedTree u) i p j := by
  obtain ⟨insn', m, hinsn', hm, use, rfl, hkind⟩ := h
  obtain rfl : insn = _ := Option.some.inj (hinsn.symm.trans hinsn')
  have howner' : l.redirects.renamedClass u.name = u.name := by
    rw [RedirectTable.renamedClass_of_head? hu.2, howner, Option.getD_none]
  have hget : (l.renamedTree t).insnAt? i p =
      some (.member use u.name m.name (l.redirects.renamedDesc m.desc)) := by
    rw [insnAt?_renamedTree, hinsn, Option.map_some, hself, RedirectTable.renamedInsn_member,
      howner']
  have hmember : (l.renamedTree u).members[j]? =
      some (l.redirects.renameMember (l.rewriteMember m)).1 := by
    rw [members_renamedTree, hm, Option.map_some]
  refine ⟨_, _, hget, hmember, use, ?_, ?_⟩
  · rw [name_renamedTree, RedirectTable.renameMember_fst]
    rfl
  · rw [RedirectTable.renameMember_fst]
    exact hkind

/-- **Type remaps are an exact and consistent substitution.** -/
theorem renaming_exact_and_consistent (l : Linker)
    (hproper : ∀ c d, l.redirects.typeFor? c = some d → d.WellFormed) :
    (∀ t : ClassTree, t.WellFormed →
      t.Renamed l.redirects.typeFor? (l.redirects.renameTypes t).1) ∧
    ((∀ s, l.redirects.get? s = none) → ∀ t u : ClassTree, u.WellFormed →
      l.redirects.typeFor? u.name = none →
      ∃ t' u' n k, l.link t = .ok (t', n) ∧ l.link u = .ok (u', k) ∧
        ∀ i p j insn, t.insnAt? i p = some insn → l.bridgeCast? insn = none →
          l.demangle? insn = none → t.RefersTo u i p j → t'.RefersTo u' i p j) := by
  refine ⟨fun t ht ↦ RedirectTable.renamed_renameTypes hproper ht,
    fun hsites t u hu howner ↦ ⟨l.renamedTree t, l.renamedTree u, _, _,
      link_eq_renameTypes hsites t, link_eq_renameTypes hsites u, ?_⟩⟩
  intro i p j insn hinsn hbridge hmangled hrefers
  have hself : l.rewrite insn = insn := by
    rw [rewrite, hbridge, hmangled]
    rfl
  exact refersTo_renamedTree hu.name howner hinsn hself hrefers

/-- A class with one method, over arrays of `x/Old`. -/
def listingLibrary : ClassTree where
  name := ⟨"x/Lib"⟩
  access := .publicAccess
  superclass := ⟨"x/Old"⟩
  members := [{ name := "list", desc := "(I[[Lx/Old;)Lx/New;", kind := .method
                access := .publicAccess }]

/-- The method is called with an array that is cloned for it. -/
def listingCaller : ClassTree where
  name := ⟨"x/User"⟩
  access := .publicAccess
  members := [{ name := "use", desc := "()V", kind := .method, access := .publicAccess
                body := some <| .code 1
                  [.member (.invoke .virtual) ⟨"[[Lx/Old;"⟩ "clone" "()Ljava/lang/Object;",
                    .type .checkCast ⟨"[[Lx/Old;"⟩,
                    .member (.invoke .virtual) ⟨"x/Lib"⟩ "list" "(I[[Lx/Old;)Lx/New;"] }]

theorem wellFormed_listingLibrary : listingLibrary.WellFormed where
  signatures := List.forall_mem_singleton.2 ⟨.method [.primitive 'I',
    .array (.array (.object ⟨"x/Old"⟩))] (some (.object ⟨"x/New"⟩)), by decide, by decide⟩
  insns := fun _ h ↦ absurd h List.not_mem_nil
  name := by decide
  superclass := ⟨.cls ⟨"x/Old"⟩, by decide, rfl⟩
  interfaces := fun _ h ↦ absurd h List.not_mem_nil
  owners := fun _ h ↦ absurd h List.not_mem_nil

theorem wellFormed_listingCaller : listingCaller.WellFormed where
  signatures := List.forall_mem_singleton.2 ⟨.method [] none, by decide, by decide⟩
  insns := by
    refine List.forall_mem_cons.2 ⟨⟨.method [] (some (.object .object)), by decide, by decide⟩,
      List.forall_mem_cons.2 ⟨⟨.array (.array (.object ⟨"x/Old"⟩)), by decide, by decide⟩,
        List.forall_mem_singleton.2 ⟨.method [.primitive 'I',
          .array (.array (.object ⟨"x/Old"⟩))] (some (.object ⟨"x/New"⟩)), by decide, by decide⟩⟩⟩
  name := by decide
  superclass := ⟨.cls .object, by decide, rfl⟩
  interfaces := fun _ h ↦ absurd h List.not_mem_nil
  owners := by
    refine List.forall_mem_cons.2 ⟨?_, List.forall_mem_cons.2 ⟨?_, List.forall_mem_singleton.2 ?_⟩⟩
    · rintro c ⟨⟩
      exact ⟨.array (.array (.object ⟨"x/Old"⟩)), by decide, by decide⟩
    · rintro c ⟨⟩
    · rintro c ⟨⟩
      exact ⟨.cls ⟨"x/Lib"⟩, by decide, rfl⟩

/-- A linker without redirects, in which the stand-in of one class has a stand-in itself. -/
def standInLinker : Linker where
  index := .empty
  redirects := RedirectTable.empty.addTypes [⟨⟨"x/Old"⟩, ⟨"x/New"⟩⟩, ⟨⟨"x/New"⟩, ⟨"x/Newer"⟩⟩]
  target := ⟨"a"⟩

theorem renaming_exact_and_consistent_listing :
    (∀ c d, standInLinker.redirects.typeFor? c = some d → d.WellFormed) ∧
      (∀ s, standInLinker.redirects.get? s = none) ∧ listingCaller.WellFormed ∧
      listingLibrary.WellFormed ∧ standInLinker.redirects.typeFor? listingLibrary.name = none ∧
      listingCaller.RefersTo listingLibrary 0 2 0 ∧
      listingCaller.Renamed standInLinker.redirects.typeFor?
        (standInLinker.redirects.renameTypes listingCaller).1 ∧
      ∃ t' u' n k, standInLinker.link listingCaller = .ok (t', n) ∧
        standInLinker.link listingLibrary = .ok (u', k) ∧ t'.RefersTo u' 0 2 0 ∧
        t'.insnAt? 0 2 =
          some (.member (.invoke .virtual) ⟨"x/Lib"⟩ "list" "(I[[Lx/New;)Lx/Newer;") := by
  have hproper : ∀ c d, standInLinker.redirects.typeFor? c = some d → d.WellFormed := by
    have hvalues : ∀ d ∈ standInLinker.redirects.types.values, d.WellFormed := by decide +kernel
    exact fun c d hd ↦ hvalues d (OrderedMap.mem_values.2 ⟨c, hd⟩)
  have hsites : ∀ s, standInLinker.redirects.get? s = none := fun _ ↦ rfl
  have howner : standInLinker.redirects.typeFor? listingLibrary.name = none := by decide +kernel
  have hrefers : listingCaller.RefersTo listingLibrary 0 2 0 :=
    ⟨_, _, rfl, rfl, .invoke .virtual, rfl, rfl⟩
  obtain ⟨hexact, hconsistent⟩ := renaming_exact_and_consistent standInLinker hproper
  obtain ⟨t', u', n, k, ht', hu', hkept⟩ :=
    hconsistent hsites listingCaller listingLibrary wellFormed_listingLibrary howner
  refine ⟨hproper, hsites, wellFormed_listingCaller, wellFormed_listingLibrary, howner, hrefers,
    hexact listingCaller wellFormed_listingCaller, t', u', n, k, ht', hu',
    hkept 0 2 0 _ rfl rfl rfl hrefers, ?_⟩
  have hinsn : (standInLinker.link listingCaller).toOption.bind (·.1.insnAt? 0 2) =
      some (.member (.invoke .virtual) ⟨"x/Lib"⟩ "list" "(I[[Lx/New;)Lx/Newer;") := by
    decide +kernel
  rwa [ht'] at hinsn

/-- A class that calls a method of its own with the name of a bridge. -/
def bridgeNamesake : ClassTree where
  name := ⟨"x/C"⟩
  access := .publicAccess
  members := [{ name := "mv$castTo$x_P", desc := "()Lx/P;", kind := .method
                access := .publicAccess },
    { name := "run", desc := "()V", kind := .method, access := .publicAccess
      body := some (.code 1 [.member (.invoke .virtual) ⟨"x/C"⟩ "mv$castTo$x_P" "()Lx/P;"]) }]

theorem wellFormed_bridgeNamesake : bridgeNamesake.WellFormed where
  signatures := by
    refine List.forall_mem_cons.2 ⟨?_, List.forall_mem_singleton.2 ?_⟩
    · exact ⟨.method [] (some (.object ⟨"x/P"⟩)), by decide, by decide⟩
    · exact ⟨.method [] none, by decide, by decide⟩
  insns := List.forall_mem_singleton.2
    ⟨.method [] (some (.object ⟨"x/P"⟩)), by decide, by decide⟩
  name := by decide
  superclass := ⟨.cls .object, by decide, rfl⟩
  interfaces := fun _ h ↦ absurd h List.not_mem_nil
  owners := by
    refine List.forall_mem_singleton.2 ?_
    rintro c ⟨⟩
    exact ⟨.cls ⟨"x/C"⟩, by decide, rfl⟩

/-- The linker of a target in which the merged class has a bridge to `x/P`. -/
def bridgeLinker : Linker where
  index := .ofList [{ MergedClass.universal bridgeNamesake (.ofList [⟨"a"⟩]) with
    members := [.bridge ⟨"x/P"⟩ (.ofList [⟨"a"⟩])] }]
  redirects := .empty
  target := ⟨"a"⟩

/-- The call of a bridge names nothing after linking, although no name was changed. -/
theorem bridge_call_names_nothing :
    (∀ c d, bridgeLinker.redirects.typeFor? c = some d → d.WellFormed) ∧
      (∀ s, bridgeLinker.redirects.get? s = none) ∧ bridgeNamesake.WellFormed ∧
      bridgeLinker.redirects.typeFor? bridgeNamesake.name = none ∧
      bridgeNamesake.insnAt? 1 0 =
        some (.member (.invoke .virtual) ⟨"x/C"⟩ "mv$castTo$x_P" "()Lx/P;") ∧
      bridgeLinker.demangle? (.member (.invoke .virtual) ⟨"x/C"⟩ "mv$castTo$x_P" "()Lx/P;") =
        none ∧
      bridgeNamesake.RefersTo bridgeNamesake 1 0 0 ∧
      ∃ t' n, bridgeLinker.link bridgeNamesake = .ok (t', n) ∧ ¬ t'.RefersTo t' 1 0 0 := by
  refine ⟨fun c d hd ↦ (nomatch hd), fun _ ↦ rfl, wellFormed_bridgeNamesake, rfl, rfl,
    by decide +kernel, ⟨_, _, rfl, rfl, .invoke .virtual, rfl, rfl⟩, _, _,
    link_eq_ok rfl bridgeNamesake, ?_⟩
  rintro ⟨insn, m, hinsn, -, use, rfl, -⟩
  have hcast : (bridgeLinker.rewriteTree bridgeNamesake).insnAt? 1 0 =
      some (.type .checkCast ⟨"x/P"⟩) := by decide +kernel
  rw [hcast] at hinsn
  cases hinsn

end Linker

end ClassWeave
