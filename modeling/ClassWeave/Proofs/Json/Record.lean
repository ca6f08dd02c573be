import ClassWeave.Json.Record
import ClassWeave.Proofs.Json.Text
import ClassWeave.Proofs.Ordered.Map

/-!
# Reading back records, tagged values, lists and maps

A written record has each of its names once, so the reader of records finds under a name what the
writer put there: the field's value, or nothing where the writer left the field out
(`record?_record`). A tag in front of the other fields is found too (`tagged?_record`).

Nesting is counted here as well: `Plain` of a container from `Plain` of what it holds.
-/

namespace ClassWeave.Json

/-! ### Sound values -/

theorem areSound_iff {items : List Json} :
    areSound items = true ↔ ∀ j ∈ items, j.isSound = true := by
  induction items with
  | nil => simp [areSound]
  | cons j items ih => simp [areSound, ih]

theorem fieldsAreSound_iff {fields : List (String × Json)} :
    fieldsAreSound fields = true ↔ ∀ f ∈ fields, f.2.isSound = true := by
  induction fields with
  | nil => simp [fieldsAreSound]
  | cons f fields ih =>
    obtain ⟨name, j⟩ := f
    simp only [fieldsAreSound, Bool.and_eq_true, ih, List.forall_mem_cons]

theorem Plain.isSound {d : Nat} {j : Json} (h : Plain d j) : j.isSound = true := by
  induction h with
  | null => rfl
  | bool b => rfl
  | int hn => rfl
  | str s => rfl
  | arr h ih => exact areSound_iff.2 ih
  | obj h ih => exact fieldsAreSound_iff.2 ih

theorem Plain.mono {d e : Nat} {j : Json} (h : Plain d j) (hde : d ≤ e) : Plain e j := by
  induction h generalizing e with
  | null => exact .null
  | bool b => exact .bool b
  | int hn => exact .int hn
  | str s => exact .str s
  | arr h ih =>
    obtain ⟨e, rfl⟩ := Nat.exists_eq_add_of_le' (Nat.le_trans (Nat.le_add_left 1 _) hde)
    exact .arr fun j hj ↦ ih j hj (Nat.le_of_succ_le_succ hde)
  | obj h ih =>
    obtain ⟨e, rfl⟩ := Nat.exists_eq_add_of_le' (Nat.le_trans (Nat.le_add_left 1 _) hde)
    exact .obj fun f hf ↦ ih f hf (Nat.le_of_succ_le_succ hde)

/-! ### Records -/

section Record

variable {fields : List (String × Option Json)} {names : List String}

/-- The fields that a written record has. -/
def present (fields : List (String × Option Json)) : List (String × Json) :=
  fields.filterMap fun f ↦ f.2.map fun v ↦ (f.1, v)

theorem record_eq : record fields = .obj (present fields) := rfl

/-- What a writer put into a record. -/
def written (fields : List (String × Option Json)) : Fields :=
  ⟨fun name ↦ (fields.lookup name).join⟩

theorem names_present_sublist : ((present fields).map (·.1)).Sublist (fields.map (·.1)) := by
  induction fields with
  | nil => exact .slnil
  | cons f fields ih =>
    obtain ⟨name, _ | j⟩ := f
    · exact ih.cons name
    · exact ih.cons_cons name

theorem lookup_present (hnodup : (fields.map (·.1)).Nodup) (name : String) :
    (present fields).lookup name = (fields.lookup name).join := by
  induction fields with
  | nil => rfl
  | cons f fields ih =>
    obtain ⟨first, value⟩ := f
    obtain ⟨hfirst, hnodup⟩ := List.nodup_cons.1 hnodup
    have hrest := ih hnodup
    cases value with
    | some j =>
      have hpresent : present ((first, some j) :: fields) = (first, j) :: present fields := rfl
      rw [hpresent, List.lookup_cons, List.lookup_cons, hrest]
      cases name == first <;> rfl
    | none =>
      have hpresent : present ((first, none) :: fields) = present fields := rfl
      rw [hpresent, List.lookup_cons, hrest]
      cases hname : name == first with
      | false => rfl
      | true =>
        rw [eq_of_beq hname, List.lookup_eq_none_iff.2 fun f hf ↦ ?_]
        · rfl
        · simpa using fun h ↦ hfirst (List.mem_map.2 ⟨f, hf, h.symm⟩)

/-- **A written record is read as what was put into it.** -/
theorem record?_record (hnames : fields.map (·.1) = names) (hnodup : names.Nodup) :
    record? names (record fields) = some (written fields) := by
  subst hnames
  have hknown : known (fields.map (·.1)) (present fields) = true :=
    decide_eq_true ((names_present_sublist.nodup hnodup).filter _)
  have hread : record? (fields.map (·.1)) (.obj (present fields)) =
      some ⟨((present fields).lookup ·)⟩ := if_pos hknown
  rw [record_eq, hread, written, funext (lookup_present hnodup)]

@[simp]
theorem required_written {α : Type} {name : String} {f : Json → Option α} :
    (written fields).required name f = (fields.lookup name).join.bind f := rfl

@[simp]
theorem defaulted_written {α : Type} {name : String} {f : Json → Option α} {default : α} :
    (written fields).defaulted name f default =
      (fields.lookup name).join.elim (some default) f := by
  simp only [Fields.defaulted, written]
  cases (fields.lookup name).join <;> rfl

/-- The value of a field, if there is one, nests at most `d` containers. -/
def PlainField (d : Nat) (value : Option Json) : Prop := ∀ j ∈ value, Plain d j

theorem plainField_none {d : Nat} : PlainField d none := fun _ h ↦ nomatch h

@[simp]
theorem plainField_some {d : Nat} {j : Json} : PlainField d (some j) ↔ Plain d j := by
  simp [PlainField]

theorem plain_record {d : Nat} (h : ∀ f ∈ fields, PlainField d f.2) :
    Plain (d + 1) (record fields) := by
  refine .obj fun f hf ↦ ?_
  obtain ⟨⟨name, value⟩, hmem, hf⟩ := List.mem_filterMap.1 hf
  obtain ⟨j, hj, rfl⟩ := Option.map_eq_some_iff.1 hf
  exact h _ hmem j hj

/-- **The tag of a written record is found**, and the other fields are left. -/
theorem tagged?_record {key tag : String} {tags : List String} {numbered : Bool} {d : Nat}
    (hplain : Plain d (record ((key, some (.str tag)) :: fields)))
    (hkey : key ∉ fields.map (·.1)) (htag : tag ∈ tags) :
    tagged? key tags numbered (record ((key, some (.str tag)) :: fields)) =
      some (tag, record fields) := by
  have hfresh : ∀ f ∈ present fields, f.1 ≠ key := by
    rintro f hf rfl
    exact hkey (names_present_sublist.subset (List.mem_map_of_mem hf))
  have hnone : (present fields).filter (·.1 == key) = [] :=
    List.filter_eq_nil_iff.2 fun f hf ↦ by simpa using hfresh f hf
  have hall : (present fields).filter (·.1 != key) = present fields :=
    List.filter_eq_self.2 fun f hf ↦ by simpa using hfresh f hf
  have hrecord : record ((key, some (.str tag)) :: fields) =
      .obj ((key, .str tag) :: present fields) := rfl
  have hsound := hplain.isSound
  rw [hrecord] at hsound ⊢
  rw [tagged?, if_pos hsound]
  simp [hnone, hall, tag?, htag, record_eq]

end Record

/-! ### Lists and maps -/

section Items

variable {α : Type}

theorem list?_ofList {f : Json → Option α} {g : α → Json} (h : ∀ a, f (g a) = some a) (l : List α) :
    list? f (ofList g l) = some l := by
  rw [list?, ofList, items?]
  show (l.map g).mapM f = some l
  induction l with
  | nil => rfl
  | cons a l ih => simp [h, ih]

theorem plain_ofList {d : Nat} {g : α → Json} (h : ∀ a, Plain d (g a)) (l : List α) :
    Plain (d + 1) (ofList g l) := by
  refine .arr fun j hj ↦ ?_
  obtain ⟨a, -, rfl⟩ := List.mem_map.1 hj
  exact h a

variable {κ : Type} [Ord κ] [Std.TransOrd κ] [Std.LawfulEqOrd κ] [DecidableEq κ]

theorem map?_ofMap {key : String → κ} {text : κ → String} (hkey : ∀ k, key (text k) = k)
    {f : Json → Option α} {g : α → Json} (h : ∀ a, f (g a) = some a) (m : OrderedMap κ α) :
    map? key f (ofMap text g m) = some m := by
  have hentries : ∀ l : List (κ × α),
      (l.map fun e ↦ (text e.1, g e.2)).mapM (fun e ↦ (f e.2).map fun v ↦ (key e.1, v)) =
        some l := by
    intro l
    induction l with
    | nil => rfl
    | cons e l ih => simp [h, hkey, ih]
  have hsame : OrderedMap.ofList m.entries = m := OrderedMap.ofList_eq_of_mem_iff fun _ ↦ Iff.rfl
  simp [map?, ofMap, fields?, hentries, hsame]

omit [Std.TransOrd κ] [Std.LawfulEqOrd κ] [DecidableEq κ] in
theorem plain_ofMap {d : Nat} {text : κ → String} {g : α → Json} (h : ∀ a, Plain d (g a))
    (m : OrderedMap κ α) : Plain (d + 1) (ofMap text g m) := by
  refine .obj fun f hf ↦ ?_
  obtain ⟨e, -, rfl⟩ := List.mem_map.1 hf
  exact h e.2

end Items

end ClassWeave.Json
