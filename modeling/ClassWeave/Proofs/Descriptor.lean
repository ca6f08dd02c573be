import ClassWeave.Descriptor
import ClassWeave.Proofs.Names

/-!
# Descriptors as trees

The functions on descriptors look for an `L` and the next semicolon and read no types. Here a
descriptor is the text of a tree: of a field type, or of the parameters and the result of a method
(`Descriptor.Signature`). A class name has no semicolon and no other part of a type has an `L`, so
on such texts a scan finds the classes of the tree, in their order (`referencedClasses_text`), and a
renaming of what it finds is a renaming in the tree (`getD_mapClasses_text`).

Where a class is named by itself, an array type may stand as well, as its descriptor
(`Descriptor.TypeName`).

The scan is given a number of steps. It needs no more of them than the text has characters, which
is said once (`mentions_eq_scan`); after that it is read off the front of a text, letter by letter
and name by name (`scan_cons_of_ne`, `scan_object`).
-/

namespace ClassWeave

/-- A class name that can be a part of a descriptor, which it does not end. -/
structure ClassName.WellFormed (c : ClassName) : Prop where
  ne_empty : c.text ≠ ""
  dotFree : c.DotFree
  unended : ';' ∉ c.text.toList

instance (c : ClassName) : Decidable c.WellFormed :=
  decidable_of_iff (c.text ≠ "" ∧ c.DotFree ∧ ';' ∉ c.text.toList)
    ⟨fun ⟨hne, hdots, hended⟩ ↦ ⟨hne, hdots, hended⟩,
      fun h ↦ ⟨h.ne_empty, h.dotFree, h.unended⟩⟩

namespace Descriptor

/-! ### Types -/

/-- The type of a field, a parameter or a result. -/
inductive FieldType where
  | primitive (letter : Char)
  | object (cls : ClassName)
  | array (element : FieldType)
  deriving DecidableEq, Repr

namespace FieldType

/-- The type as a descriptor writes it. -/
def chars : FieldType → List Char
  | primitive letter => [letter]
  | object cls => 'L' :: (cls.text.toList ++ [';'])
  | array element => '[' :: element.chars

/-- The class of an object type, or of the elements of an array type of any depth. -/
def cls? : FieldType → Option ClassName
  | primitive _ => none
  | object cls => some cls
  | array element => element.cls?

def WellFormed : FieldType → Prop
  | primitive letter => isPrimitive letter = true
  | object cls => cls.WellFormed
  | array element => element.WellFormed

/-- The type with its class renamed, if `f` has a name for it. -/
def rename (f : ClassName → Option ClassName) : FieldType → FieldType
  | primitive letter => primitive letter
  | object cls => object ((f cls).getD cls)
  | array element => array (element.rename f)

instance decidableWellFormed : (t : FieldType) → Decidable t.WellFormed
  | primitive letter => inferInstanceAs (Decidable (isPrimitive letter = true))
  | object cls => inferInstanceAs (Decidable cls.WellFormed)
  | array element => decidableWellFormed element

end FieldType

/-- What a descriptor tells: the type of a field, or the parameters of a method and its result, if
it has one. -/
inductive Signature where
  | field (type : FieldType)
  | method (params : List FieldType) (result : Option FieldType)
  deriving DecidableEq, Repr

namespace Signature

/-- The types of a signature, in the order in which a descriptor writes them. -/
def types : Signature → List FieldType
  | field type => [type]
  | method params result => params ++ result.toList

def chars : Signature → List Char
  | field type => type.chars
  | method params result =>
    '(' :: (params.flatMap FieldType.chars ++ ')' :: result.elim ['V'] FieldType.chars)

/-- The descriptor of a signature. -/
def text (s : Signature) : String := .ofList s.chars

def WellFormed (s : Signature) : Prop := ∀ t ∈ s.types, t.WellFormed

instance (s : Signature) : Decidable s.WellFormed := inferInstanceAs (Decidable (∀ t ∈ s.types, _))

/-- Every class of a signature, one for each time that it occurs. -/
def classes (s : Signature) : List ClassName := s.types.filterMap FieldType.cls?

def rename (f : ClassName → Option ClassName) : Signature → Signature
  | field type => field (type.rename f)
  | method params result => method (params.map (·.rename f)) (result.map (·.rename f))

end Signature

/-- What stands where a class is named by itself. -/
inductive TypeName where
  | cls (c : ClassName)
  | array (element : FieldType)
  deriving DecidableEq, Repr

namespace TypeName

/-- A class by its name, an array type by its descriptor. -/
def text : TypeName → String
  | cls c => c.text
  | array element => .ofList (FieldType.array element).chars

def WellFormed : TypeName → Prop
  | cls c => c.WellFormed ∧ c.text.toList.head? ≠ some '['
  | array element => element.WellFormed

instance : (n : TypeName) → Decidable n.WellFormed
  | cls c => inferInstanceAs (Decidable (c.WellFormed ∧ _))
  | array element => inferInstanceAs (Decidable element.WellFormed)

def rename (f : ClassName → Option ClassName) : TypeName → TypeName
  | cls c => cls ((f c).getD c)
  | array element => array (element.rename f)

theorem text_array (element : FieldType) :
    (array element).text = (Signature.field (.array element)).text := rfl

end TypeName

/-! ### Scanning -/

/-- The names that a scan finds in a text, with what is before each and after all of them. -/
def scan (cs : List Char) : List (List Char × List Char) × List Char := mentions cs.length cs

/-- The result of a scan whose text has one more character in front. -/
def behind (c : Char) : List (List Char × List Char) × List Char →
    List (List Char × List Char) × List Char
  | ([], tail) => ([], c :: tail)
  | ((before, name) :: more, tail) => ((c :: before, name) :: more, tail)

theorem mentions_nil (n : ℕ) : mentions n [] = ([], []) := by
  cases n with
  | zero => rfl
  | succ n => rfl

/-- More steps than characters find nothing more. -/
theorem mentions_congr {n n' : ℕ} {cs : List Char} (h : cs.length ≤ n) (h' : cs.length ≤ n') :
    mentions n cs = mentions n' cs := by
  induction n generalizing n' cs with
  | zero => rw [List.length_eq_zero_iff.1 (Nat.le_zero.1 h), mentions_nil, mentions_nil]
  | succ n ih =>
    cases n' with
    | zero => rw [List.length_eq_zero_iff.1 (Nat.le_zero.1 h'), mentions_nil, mentions_nil]
    | succ n' =>
      rw [mentions, mentions]
      cases hname : cs.dropWhile (· ≠ 'L') with
      | nil => rfl
      | cons _ r =>
        dsimp only
        cases hrest : r.dropWhile (· ≠ ';') with
        | nil => rfl
        | cons _ rest =>
          have hr := (List.dropWhile_suffix (l := cs) (· ≠ 'L')).length_le
          have hlt := (List.dropWhile_suffix (l := r) (· ≠ ';')).length_le
          rw [hname, List.length_cons] at hr
          rw [hrest, List.length_cons] at hlt
          have hlength : rest.length ≤ n ∧ rest.length ≤ n' := by omega
          dsimp only
          rw [ih hlength.1 hlength.2]

theorem mentions_eq_scan {n : ℕ} {cs : List Char} (h : cs.length ≤ n) : mentions n cs = scan cs :=
  mentions_congr h (Nat.le_refl _)

theorem scan_nil : scan [] = ([], []) := rfl

/-- A letter that begins no name is passed. -/
theorem scan_cons_of_ne {c : Char} (h : c ≠ 'L') (cs : List Char) :
    scan (c :: cs) = behind c (scan cs) := by
  have hc : decide (c ≠ 'L') = true := decide_eq_true h
  rw [← mentions_eq_scan (Nat.le_succ cs.length), scan, List.length_cons, mentions, mentions,
    List.dropWhile_cons_of_pos (p := fun x ↦ decide (x ≠ 'L')) hc,
    List.takeWhile_cons_of_pos (p := fun x ↦ decide (x ≠ 'L')) hc]
  cases cs.dropWhile (· ≠ 'L') with
  | nil => rfl
  | cons _ r =>
    dsimp only
    cases r.dropWhile (· ≠ ';') with
    | nil => rfl
    | cons _ rest => rfl

/-- A name up to its semicolon is found. -/
theorem scan_object {name : List Char} (h : ';' ∉ name) (cs : List Char) :
    scan ('L' :: (name ++ ';' :: cs)) = (([], name) :: (scan cs).1, (scan cs).2) := by
  have hname : ∀ c ∈ name, decide (c ≠ ';') = true := fun c hc ↦
    decide_eq_true fun heq ↦ h (heq ▸ hc)
  have hL : ¬ decide ('L' ≠ 'L') = true := by decide
  have hend : ¬ decide (';' ≠ ';') = true := by decide
  have hlength : cs.length ≤ (name ++ ';' :: cs).length := by
    rw [List.length_append, List.length_cons]
    omega
  rw [scan, List.length_cons, mentions,
    List.dropWhile_cons_of_neg (p := fun x ↦ decide (x ≠ 'L')) hL,
    List.takeWhile_cons_of_neg (p := fun x ↦ decide (x ≠ 'L')) hL]
  dsimp only
  rw [List.dropWhile_append_of_pos hname,
    List.dropWhile_cons_of_neg (p := fun x ↦ decide (x ≠ ';')) hend,
    List.takeWhile_append_of_pos hname,
    List.takeWhile_cons_of_neg (p := fun x ↦ decide (x ≠ ';')) hend, List.append_nil]
  dsimp only
  rw [mentions_eq_scan hlength]

/-- The names that a scan has found. -/
def found (r : List (List Char × List Char) × List Char) : List (List Char) := r.1.map (·.2)

/-- The text of a scan with each name that was found in another spelling. -/
def respelled (g : List Char → List Char) (r : List (List Char × List Char) × List Char) :
    List Char :=
  r.1.flatMap (fun m ↦ m.1 ++ 'L' :: (g m.2 ++ [';'])) ++ r.2

theorem found_behind (c : Char) (r : List (List Char × List Char) × List Char) :
    found (behind c r) = found r := by
  obtain ⟨found, tail⟩ := r
  cases found with
  | nil => rfl
  | cons m more => rfl

theorem respelled_behind (g : List Char → List Char) (c : Char)
    (r : List (List Char × List Char) × List Char) :
    respelled g (behind c r) = c :: respelled g r := by
  obtain ⟨found, tail⟩ := r
  cases found with
  | nil => rfl
  | cons m more => rfl

/-! ### Scanning the text of a type -/

variable {f : ClassName → Option ClassName} {t : FieldType} {ts : List FieldType} {s : Signature}
  {c : ClassName}

/-- How the name of a class is spelled when `f` renames it. -/
def spelling (f : ClassName → Option ClassName) (name : List Char) : List Char :=
  ((f (.ofText (.ofList name))).map (·.text.toList)).getD name

theorem spelling_text (h : c.DotFree) :
    spelling f c.text.toList = ((f c).getD c).text.toList := by
  rw [spelling, String.ofList_toList, ClassName.ofText_text h]
  cases f c with
  | none => rfl
  | some d => rfl

theorem ne_L_of_isPrimitive {letter : Char} (h : isPrimitive letter = true) : letter ≠ 'L' := by
  rintro rfl
  exact absurd h (by decide)

/-- A scan of a type finds its class. -/
theorem found_scan_fieldType (h : t.WellFormed) (rest : List Char) :
    found (scan (t.chars ++ rest)) = t.cls?.toList.map (·.text.toList) ++ found (scan rest) := by
  induction t with
  | primitive letter =>
    show found (scan (letter :: rest)) = found (scan rest)
    rw [scan_cons_of_ne (ne_L_of_isPrimitive h), found_behind]
  | object cls =>
    have hcls : cls.WellFormed := h
    rw [FieldType.chars, List.cons_append, List.append_assoc, List.singleton_append,
      scan_object hcls.unended]
    rfl
  | array element ih =>
    rw [FieldType.chars, List.cons_append, scan_cons_of_ne (by decide), found_behind, ih h]
    rfl

/-- Respelling its class renames a type. -/
theorem respelled_scan_fieldType (h : t.WellFormed) (rest : List Char) :
    respelled (spelling f) (scan (t.chars ++ rest)) =
      (t.rename f).chars ++ respelled (spelling f) (scan rest) := by
  induction t with
  | primitive letter =>
    show respelled _ (scan (letter :: rest)) = letter :: respelled _ (scan rest)
    rw [scan_cons_of_ne (ne_L_of_isPrimitive h), respelled_behind]
  | object cls =>
    have hcls : cls.WellFormed := h
    rw [FieldType.chars, List.cons_append, List.append_assoc, List.singleton_append,
      scan_object hcls.unended, FieldType.rename, FieldType.chars, ← spelling_text hcls.dotFree]
    simp only [respelled, List.flatMap_cons, List.nil_append, List.append_assoc, List.cons_append]
  | array element ih =>
    rw [FieldType.chars, List.cons_append, scan_cons_of_ne (by decide), respelled_behind, ih h]
    rfl

theorem found_scan_fieldTypes (h : ∀ t ∈ ts, t.WellFormed) (rest : List Char) :
    found (scan (ts.flatMap FieldType.chars ++ rest)) =
      (ts.filterMap FieldType.cls?).map (·.text.toList) ++ found (scan rest) := by
  induction ts with
  | nil => rfl
  | cons t ts ih =>
    obtain ⟨ht, hts⟩ := List.forall_mem_cons.1 h
    rw [List.flatMap_cons, List.append_assoc, found_scan_fieldType ht, ih hts, ← List.append_assoc,
      ← List.map_append, List.filterMap_cons]
    cases t.cls? with
    | none => rfl
    | some c => rfl

theorem respelled_scan_fieldTypes (h : ∀ t ∈ ts, t.WellFormed) (rest : List Char) :
    respelled (spelling f) (scan (ts.flatMap FieldType.chars ++ rest)) =
      (ts.map (·.rename f)).flatMap FieldType.chars ++ respelled (spelling f) (scan rest) := by
  induction ts with
  | nil => rfl
  | cons t ts ih =>
    obtain ⟨ht, hts⟩ := List.forall_mem_cons.1 h
    rw [List.flatMap_cons, List.append_assoc, respelled_scan_fieldType ht, ih hts, List.map_cons,
      List.flatMap_cons, List.append_assoc]

theorem found_scan_signature (h : s.WellFormed) :
    found (scan s.chars) = s.classes.map (·.text.toList) := by
  have halone : ∀ {t : FieldType}, t.WellFormed →
      found (scan t.chars) = t.cls?.toList.map (·.text.toList) := fun ht ↦ by
    simpa only [List.append_nil, scan_nil, found, List.map_nil] using found_scan_fieldType ht []
  cases s with
  | field type =>
    obtain ⟨htype, -⟩ := List.forall_mem_cons.1 h
    rw [Signature.chars, halone htype, Signature.classes, Signature.types, List.filterMap_cons]
    cases type.cls? with
    | none => rfl
    | some c => rfl
  | method params result =>
    obtain ⟨hparams, hresult⟩ := List.forall_mem_append.1 h
    rw [Signature.chars, scan_cons_of_ne (by decide), found_behind, found_scan_fieldTypes hparams,
      scan_cons_of_ne (by decide), found_behind, Signature.classes, Signature.types,
      List.filterMap_append, List.map_append]
    cases result with
    | none => rfl
    | some type =>
      rw [Option.elim_some, halone (hresult type List.mem_cons_self), Option.toList_some,
        List.filterMap_cons]
      cases type.cls? with
      | none => rfl
      | some c => rfl

theorem respelled_scan_signature (h : s.WellFormed) :
    respelled (spelling f) (scan s.chars) = (s.rename f).chars := by
  have halone : ∀ {t : FieldType}, t.WellFormed →
      respelled (spelling f) (scan t.chars) = (t.rename f).chars := fun ht ↦ by
    simpa only [List.append_nil, scan_nil, respelled, List.flatMap_nil] using
      respelled_scan_fieldType (f := f) ht []
  cases s with
  | field type =>
    obtain ⟨htype, -⟩ := List.forall_mem_cons.1 h
    exact halone htype
  | method params result =>
    obtain ⟨hparams, hresult⟩ := List.forall_mem_append.1 h
    rw [Signature.chars, scan_cons_of_ne (by decide), respelled_behind,
      respelled_scan_fieldTypes hparams, scan_cons_of_ne (by decide), respelled_behind]
    cases result with
    | none => rfl
    | some type =>
      rw [Option.elim_some, halone (hresult type List.mem_cons_self)]
      rfl

/-! ### Object types -/

theorem returnType_nullary (ret : String) : returnType ("()" ++ ret) = .ok ret := by
  have hchars : splitChars? ("()" ++ ret).toList = some ([], ret.toList) := by
    rw [String.toList_append]
    rfl
  rw [returnType, splitMethod, hchars]
  show Except.ok (String.ofList ret.toList) = _
  rw [String.ofList_toList]

theorem toList_descriptor (c : ClassName) :
    c.descriptor.toList = 'L' :: (c.text.toList ++ [';']) := by
  rw [ClassName.descriptor, String.toList_append, String.toList_append]
  rfl

theorem objectType?_descriptor (c : ClassName) :
    objectType? c.descriptor = some (.ofText c.text) := by
  rw [objectType?, toList_descriptor, objectName?, List.getLast?_concat, if_pos rfl,
    List.dropLast_concat]
  show some (ClassName.ofText (.ofList c.text.toList)) = _
  rw [String.ofList_toList]

/-- The text of an object type ends with a semicolon. -/
theorem objectName?_eq_none {cs : List Char} (h : ';' ∉ cs) : objectName? cs = none := by
  rw [objectName?.eq_def]
  split
  · rw [if_neg fun hlast ↦ h (List.mem_cons_of_mem _ (List.mem_of_getLast? hlast))]
  · rfl

/-- The name of a class stands for no array. -/
theorem elementClass?_text (h : c.WellFormed) : elementClass? c.text = none := by
  have hsuffix := List.dropWhile_suffix (l := c.text.toList) (· = '[')
  rw [elementClass?, objectType?, String.toList_ofList,
    objectName?_eq_none fun hmem ↦ h.unended (hsuffix.subset hmem)]
  rfl

/-- The class of a type is that of its elements, whatever brackets are before them. -/
theorem elementClass?_fieldType (h : t.WellFormed) : elementClass? (.ofList t.chars) = t.cls? := by
  rw [elementClass?, String.toList_ofList]
  induction t with
  | primitive letter =>
    have hsuffix := List.dropWhile_suffix (l := [letter]) (· = '[')
    rw [FieldType.chars, objectType?, String.toList_ofList, objectName?_eq_none]
    · rfl
    · intro hmem
      obtain rfl := List.mem_singleton.1 (hsuffix.subset hmem)
      exact absurd h (by decide)
  | object cls =>
    have hcls : cls.WellFormed := h
    have hletter : ¬ decide ('L' = '[') = true := by decide
    rw [FieldType.chars, List.dropWhile_cons_of_neg (p := fun x ↦ decide (x = '[')) hletter,
      ← toList_descriptor, String.ofList_toList, objectType?_descriptor,
      ClassName.ofText_text hcls.dotFree]
    rfl
  | array element ih =>
    have hbracket : decide ('[' = '[') = true := by decide
    rw [FieldType.chars, List.dropWhile_cons_of_pos (p := fun x ↦ decide (x = '[')) hbracket, ih h]
    rfl

/-! ### Descriptors -/

theorem FieldType.dotFree_of_cls? (h : t.WellFormed) (hc : t.cls? = some c) : c.DotFree := by
  induction t with
  | primitive letter => cases hc
  | object cls =>
    cases hc
    exact ClassName.WellFormed.dotFree h
  | array element ih => exact ih h hc

theorem referencedClasses_ofList (cs : List Char) :
    referencedClasses (.ofList cs) = (scan cs).1.map fun m ↦ .ofText (.ofList m.2) := by
  rw [referencedClasses, String.toList_ofList, String.length_ofList, scan]

/-- **The classes of a descriptor are those of its signature**, in the same order. -/
theorem referencedClasses_text (h : s.WellFormed) : referencedClasses s.text = s.classes := by
  have hread : referencedClasses s.text =
      (found (scan s.chars)).map fun name ↦ .ofText (.ofList name) := by
    rw [Signature.text, referencedClasses_ofList, found, List.map_map]
    rfl
  rw [hread, found_scan_signature h, List.map_map]
  refine (List.map_congr_left fun c hc ↦ ?_).trans (List.map_id _)
  obtain ⟨t, ht, hc⟩ := List.mem_filterMap.1 hc
  show ClassName.ofText (.ofList c.text.toList) = c
  rw [String.ofList_toList, ClassName.ofText_text (FieldType.dotFree_of_cls? (h t ht) hc)]

theorem FieldType.rename_eq_self (h : ∀ c, t.cls? = some c → f c = none) : t.rename f = t := by
  induction t with
  | primitive letter => rfl
  | object cls => rw [rename, h cls rfl, Option.getD_none]
  | array element ih => rw [rename, ih h]

theorem Signature.rename_eq_self (h : ∀ c ∈ s.classes, f c = none) : s.rename f = s := by
  have htypes : ∀ t ∈ s.types, t.rename f = t := fun t ht ↦
    FieldType.rename_eq_self fun c hc ↦ h c (List.mem_filterMap.2 ⟨t, ht, hc⟩)
  cases s with
  | field type => rw [rename, htypes type List.mem_cons_self]
  | method params result =>
    obtain ⟨hparams, hresult⟩ := List.forall_mem_append.1 htypes
    rw [rename, (List.map_congr_left hparams).trans (List.map_id _)]
    cases result with
    | none => rfl
    | some type => rw [Option.map_some, hresult type List.mem_cons_self]

theorem mapClasses_ofList (f : ClassName → Option ClassName) (cs : List Char) :
    mapClasses f (.ofList cs) =
      if (referencedClasses (.ofList cs)).any (fun c ↦ (f c).isSome) then
        some (.ofList (respelled (spelling f) (scan cs)))
      else none := by
  rw [mapClasses, referencedClasses_ofList, List.any_map, String.toList_ofList,
    String.length_ofList]
  simp only [Option.isSome_map]
  rfl

/-- **Renaming in a descriptor is renaming in its signature**, once for each class. -/
theorem getD_mapClasses_text (h : s.WellFormed) :
    (mapClasses f s.text).getD s.text = (s.rename f).text := by
  rw [Signature.text, mapClasses_ofList, ← Signature.text, referencedClasses_text h]
  split
  · rw [Option.getD_some, respelled_scan_signature h, Signature.text]
  · rename_i hnone
    rw [Option.getD_none, Signature.rename_eq_self]
    intro c hc
    have hc : ¬ (f c).isSome = true := fun hsome ↦ hnone (List.any_eq_true.2 ⟨c, hc, hsome⟩)
    exact Option.not_isSome_iff_eq_none.1 hc

end Descriptor

end ClassWeave
