import ClassWeave.Proofs.Json.Record
import ClassWeave.Tree.Shape

/-!
# Reading back class trees

Each type of the trees has a writer and a reader, and the reader inverts the writer: that is
`ofJson?_toJson` of the type. A field that the writer leaves out is one whose value the reader
supplies; the two have to agree field by field, and the lemmas of the first group say that they do,
one for each rule of leaving out. A tagged value comes back under its own tag, whatever other names
its fields have.

The value of a tree also nests only so many containers as a reader of texts goes into
(`plain_toJson`). Together: **a tree is read back from what is written for it**, on one line or
laid out over lines (`ClassTree.read_written`).
-/

namespace ClassWeave

namespace Json

/-! ### Fields that are left out -/

section Fields

variable {α κ : Type} [Ord κ] {d : Nat} {f : Json → Option α} {g : α → Json} {key : String → κ}
  {text : κ → String}

@[simp]
theorem elim_flag (b : Bool) : (flag b).elim (some false) bool? = some b := by
  cases b <;> rfl

@[simp]
theorem elim_text (s : String) : (Json.text s).elim (some "") string? = some s := by
  rw [Json.text]
  split
  · have hempty : s = "" := String.isEmpty_iff.1 ‹_›
    rw [hempty]
    rfl
  · rfl

theorem elim_filled (h : ∀ a, f (g a) = some a) (l : List α) :
    (filled g l).elim (some []) (list? f) = some l := by
  cases l with
  | nil => rfl
  | cons a l => exact list?_ofList h (a :: l)

theorem elim_nullable (h : ∀ a, f (g a) = some a) (hnull : ∀ a, g a ≠ .null) (o : Option α) :
    (o.map g).elim (some none) (nullable? f) = some o := by
  cases o with
  | none => rfl
  | some a =>
    show nullable? f (g a) = some (some a)
    rw [nullable?, h]
    · rfl
    · exact hnull a

theorem elim_map [Std.TransOrd κ] [Std.LawfulEqOrd κ] [DecidableEq κ]
    (hkey : ∀ k, key (text k) = k) (h : ∀ a, f (g a) = some a) (m : OrderedMap κ α) :
    (if m.isEmpty then none else some (ofMap text g m)).elim (some .empty) (map? key f) =
      some m := by
  split
  · have hempty : m = .empty := OrderedMap.ext (List.isEmpty_iff.1 ‹_›)
    rw [hempty]
    rfl
  · exact map?_ofMap hkey h m

@[simp]
theorem plainField_flag (b : Bool) : PlainField d (flag b) := by
  cases b with
  | false => exact plainField_none
  | true => exact plainField_some.2 (.bool true)

@[simp]
theorem plainField_text (s : String) : PlainField d (Json.text s) := by
  rw [Json.text]
  split
  · exact plainField_none
  · exact plainField_some.2 (.str s)

theorem plainField_filled (h : ∀ a, Plain d (g a)) (l : List α) :
    PlainField (d + 1) (filled g l) := by
  rw [filled]
  split
  · exact plainField_none
  · exact plainField_some.2 (plain_ofList h l)

theorem plainField_nullable (h : ∀ a, Plain d (g a)) (o : Option α) :
    PlainField d (o.map g) := by
  cases o with
  | none => exact plainField_none
  | some a => exact plainField_some.2 (h a)

theorem plainField_map (h : ∀ a, Plain d (g a)) (m : OrderedMap κ α) :
    PlainField (d + 1) (if m.isEmpty then none else some (ofMap text g m)) := by
  split
  · exact plainField_none
  · exact plainField_some.2 (plain_ofMap h m)

end Fields

/-! ### Names and words -/

@[simp]
theorem string?_str (s : String) : string? (.str s) = some s := rfl

@[simp]
theorem plain_str {d : Nat} (s : String) : Plain d (.str s) := .str s

@[simp]
theorem versions?_versions (vs : List Version) : versions? (versions vs) = some vs :=
  list?_ofList (g := Version.toJson) (fun _ ↦ rfl) vs

@[simp]
theorem plain_versions {d : Nat} (vs : List Version) : Plain (d + 1) (versions vs) :=
  plain_ofList (fun v ↦ .str v.id) vs

end Json

open Json

@[simp]
theorem Version.ofJson?_toJson (v : Version) : ofJson? v.toJson = some v := rfl

@[simp]
theorem ClassName.ofJson?_toJson (c : ClassName) : ofJson? c.toJson = some c := rfl

@[simp]
theorem Visibility.ofJson?_toJson (v : Visibility) : ofJson? v.toJson = some v := by
  cases v <;> decide

@[simp]
theorem MemberKind.ofJson?_toJson (k : MemberKind) : ofJson? k.toJson = some k := by
  cases k <;> decide

@[simp]
theorem FieldAccess.ofJson?_toJson (a : FieldAccess) : ofJson? a.toJson = some a := by
  cases a <;> decide

@[simp]
theorem InvokeKind.ofJson?_toJson (k : InvokeKind) : ofJson? k.toJson = some k := by
  cases k <;> decide

@[simp]
theorem TypeUse.ofJson?_toJson (u : TypeUse) : ofJson? u.toJson = some u := by
  cases u <;> decide

/-! ### Code -/

section Code

variable {d : Nat}

theorem Insn.plain_toJson (i : Insn) : Plain (d + 1) i.toJson := by
  rcases i with ⟨access | kind, owner, name, desc⟩ | ⟨use, cls⟩ | text <;>
    refine plain_record ?_ <;>
    simp [FieldAccess.toJson, InvokeKind.toJson, TypeUse.toJson, ClassName.toJson]

theorem Insn.ofJson?_toJson (numbered : Bool) (i : Insn) : ofJson? numbered i.toJson = some i := by
  have hplain := i.plain_toJson (d := 0)
  rcases i with ⟨access | kind, owner, name, desc⟩ | ⟨use, cls⟩ | text <;>
    rw [toJson] at hplain ⊢ <;>
    simp [ofJson?, tagged?_record hplain, record?_record, List.lookup_cons, memberOfFields?]

theorem Fault.plain_toJson (f : Fault) : Plain (d + 2) f.toJson := by
  cases f <;> refine plain_record ?_ <;> simp [ClassName.toJson, Version.toJson]

theorem Fault.ofJson?_toJson (numbered : Bool) (f : Fault) :
    ofJson? numbered f.toJson = some f := by
  have hplain := f.plain_toJson (d := 0)
  cases f <;> rw [toJson] at hplain ⊢ <;>
    simp [ofJson?, tagged?_record hplain, record?_record, List.lookup_cons]

theorem fitsNumeral_toNat (n : UInt16) : FitsNumeral n.toNat := by
  have hlow : (0 : Int) ≤ n.toNat := Int.natCast_nonneg _
  have hhigh : n.toNat < UInt64.size := Nat.lt_trans n.toNat_lt (by decide)
  exact ⟨Int.le_trans (by decide) hlow, Int.ofNat_lt.2 hhigh⟩

theorem Body.plain_toJson (b : Body) : Plain (d + 3) b.toJson := by
  cases b <;> refine plain_record ?_ <;>
    simp [plain_ofList Insn.plain_toJson, Fault.plain_toJson, Json.nat, Plain.int,
      fitsNumeral_toNat]

@[simp]
theorem Body.maxLocals?_nat (n : UInt16) : maxLocals? (.nat n.toNat) = some n := by
  have hread : Json.nat? (.nat n.toNat) = some n.toNat := rfl
  rw [maxLocals?, hread]
  simp [n.toNat_lt]

theorem Body.ofJson?_toJson (b : Body) : ofJson? b.toJson = some b := by
  have hplain := b.plain_toJson (d := 0)
  cases b <;> rw [toJson] at hplain ⊢ <;>
    simp [ofJson?, tagged?_record hplain, record?_record, List.lookup_cons,
      list?_ofList (Insn.ofJson?_toJson true), Fault.ofJson?_toJson]

end Code

/-! ### Notes -/

section Notes

variable {d : Nat}

theorem AccessNote.plain_toJson (n : AccessNote) : Plain (d + 2) n.toJson := by
  refine plain_record ?_
  simp

theorem AccessNote.ofJson?_toJson (n : AccessNote) : ofJson? n.toJson = some n := by
  simp [toJson, ofJson?, record?_record, List.lookup_cons]

theorem InheritanceNote.plain_toJson (n : InheritanceNote) : Plain (d + 2) n.toJson := by
  refine plain_record ?_
  simp [plain_ofList plain_str]

theorem InheritanceNote.ofJson?_toJson (n : InheritanceNote) : ofJson? n.toJson = some n := by
  simp [toJson, ofJson?, record?_record, List.lookup_cons, list?_ofList string?_str]

theorem ClassNote.plain_toJson (n : ClassNote) : Plain (d + 4) n.toJson := by
  refine plain_record ?_
  simp [plainField_filled AccessNote.plain_toJson, plainField_filled InheritanceNote.plain_toJson]

theorem ClassNote.ofJson?_toJson (n : ClassNote) : ofJson? n.toJson = some n := by
  simp [toJson, ofJson?, record?_record, List.lookup_cons, elim_filled AccessNote.ofJson?_toJson,
    elim_filled InheritanceNote.ofJson?_toJson]

theorem MemberNote.plain_toJson (n : MemberNote) : Plain (d + 4) n.toJson := by
  refine plain_record ?_
  simp [plainField_filled AccessNote.plain_toJson]

theorem MemberNote.ofJson?_toJson (n : MemberNote) : ofJson? n.toJson = some n := by
  simp [toJson, ofJson?, record?_record, List.lookup_cons, elim_filled AccessNote.ofJson?_toJson]

theorem RefNote.plain_toJson (r : RefNote) : Plain (d + 1) r.toJson := by
  refine plain_record ?_
  simp

theorem RefNote.ofJson?_toJson (r : RefNote) : ofJson? r.toJson = some r := by
  simp [toJson, ofJson?, record?_record, List.lookup_cons]

/-- A pointer that is left out is the one that the reader supplies. -/
@[simp]
theorem DirectiveNote.elim_refField (r : RefNote) :
    (refField r).elim (some {}) RefNote.ofJson? = some r := by
  rw [refField]
  split
  · have hempty : r.isEmpty = true := ‹_›
    obtain ⟨value, member, desc⟩ := r
    simp only [RefNote.isEmpty, Bool.and_eq_true, String.isEmpty_iff] at hempty
    obtain ⟨⟨rfl, rfl⟩, rfl⟩ := hempty
    rfl
  · exact RefNote.ofJson?_toJson r

@[simp]
theorem DirectiveNote.plainField_refField (r : RefNote) : PlainField (d + 1) (refField r) := by
  rw [refField]
  split
  · exact plainField_none
  · exact plainField_some.2 r.plain_toJson

theorem DirectiveNote.plain_toJson (n : DirectiveNote) : Plain (d + 2) n.toJson := by
  cases n <;> refine plain_record ?_ <;> simp [RefNote.plain_toJson]

theorem DirectiveNote.ofJson?_toJson (n : DirectiveNote) : ofJson? n.toJson = some n := by
  have hplain := n.plain_toJson (d := 0)
  cases n <;> rw [toJson] at hplain ⊢ <;>
    simp [ofJson?, tagged?_record hplain, record?_record, List.lookup_cons, RefNote.ofJson?_toJson]

end Notes

/-! ### Members and trees -/

section Tree

variable {d : Nat}

theorem Version.mk_id (v : Version) : mk v.id = v := rfl

theorem ClassName.mk_text (c : ClassName) : mk c.text = c := rfl

theorem ClassName.plain_toJson (c : ClassName) : Plain d c.toJson := .str c.text

theorem Body.toJson_ne_null (b : Body) : b.toJson ≠ .null := by
  cases b <;> exact nofun

theorem Member.plain_toJson (m : Member) : Plain (d + 5) m.toJson := by
  refine plain_record ?_
  simp [MemberKind.toJson, Visibility.toJson, plainField_nullable Body.plain_toJson,
    plainField_map Body.plain_toJson, plainField_nullable plain_str,
    plainField_nullable MemberNote.plain_toJson, plainField_filled DirectiveNote.plain_toJson]

theorem Member.ofJson?_toJson (m : Member) : ofJson? m.toJson = some m := by
  simp [toJson, ofJson?, record?_record, List.lookup_cons,
    elim_nullable Body.ofJson?_toJson Body.toJson_ne_null,
    elim_map Version.mk_id Body.ofJson?_toJson, elim_nullable string?_str (fun _ ↦ nofun),
    elim_nullable MemberNote.ofJson?_toJson (fun _ ↦ nofun),
    elim_filled DirectiveNote.ofJson?_toJson]

theorem ClassTree.plain_toJson (t : ClassTree) : Plain (d + 7) t.toJson := by
  refine plain_record ?_
  simp [ClassName.toJson, Visibility.toJson, plain_ofList ClassName.plain_toJson,
    plain_ofList Member.plain_toJson,
    plainField_nullable ClassNote.plain_toJson, plainField_filled DirectiveNote.plain_toJson,
    plainField_map (plain_ofList DirectiveNote.plain_toJson)]

theorem ClassTree.ofJson?_toJson (t : ClassTree) : ofJson? t.toJson = some t := by
  simp [toJson, ofJson?, record?_record, List.lookup_cons,
    list?_ofList ClassName.ofJson?_toJson, list?_ofList Member.ofJson?_toJson,
    elim_nullable ClassNote.ofJson?_toJson (fun _ ↦ nofun),
    elim_filled DirectiveNote.ofJson?_toJson,
    elim_map ClassName.mk_text (list?_ofList DirectiveNote.ofJson?_toJson)]

/-- **Every tree is read back from what is written for it**, laid out over lines or not. -/
theorem ClassTree.read_written (t : ClassTree) :
    read t.toJson.pretty = .ok t ∧ read t.toJson.compact = .ok t := by
  have hplain : Plain 7 t.toJson := t.plain_toJson (d := 0)
  rw [read, read, read?_pretty hplain (by decide), read?_compact hplain (by decide),
    Option.bind_eq_bind, Option.bind_some, ofJson?_toJson]
  exact ⟨rfl, rfl⟩

end Tree

end ClassWeave
