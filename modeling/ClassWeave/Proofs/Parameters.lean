import ClassWeave.Proofs.Descriptor
import ClassWeave.Proofs.Outcome
import Mathlib.Data.List.TakeWhile

/-!
# Reading parameter lists

Parameters are read one after the other, each up to where it ends by itself: a letter, or the
semicolon after a class name. So what is read is a list of types, and a text is read exactly if it
is that of such a list (`takeTypes_eq_ok_iff`); it is no text of another list, since reading gives
one answer. The class names may be any text without a semicolon (`FieldType.Readable`), which is
less than a well-formed type asks for.

A list of parameters ends at the first closing parenthesis, wherever that stands. What is behind it
is the return type and is not looked at (`parameterTypes_eq_ok_iff`), and methods that differ there
alone are those that have one parameter part (`parameterPart_eq_iff`). A method without its first
parameter is again a method, of the other parameters and of the same return type
(`withoutFirstParameter_eq_ok`, `parameterTypes_methodDesc`).
-/

namespace ClassWeave.Descriptor

variable {c : Char} {cs front back name params ret rest : List Char} {desc : String}

/-! ### Texts with an end mark -/

theorem takeWhile_ne_append (h : c ∉ front) (back : List Char) :
    (front ++ c :: back).takeWhile (· ≠ c) = front := by
  have hfront : ∀ a ∈ front, decide (a ≠ c) = true := fun a ha ↦
    decide_eq_true fun heq ↦ h (heq ▸ ha)
  rw [List.takeWhile_append_of_pos hfront, List.takeWhile_cons_of_neg (by simp), List.append_nil]

theorem dropWhile_ne_append (h : c ∉ front) (back : List Char) :
    (front ++ c :: back).dropWhile (· ≠ c) = c :: back := by
  have hfront : ∀ a ∈ front, decide (a ≠ c) = true := fun a ha ↦
    decide_eq_true fun heq ↦ h (heq ▸ ha)
  rw [List.dropWhile_append_of_pos hfront, List.dropWhile_cons_of_neg (by simp)]

/-- A text is cut at its first end mark, if it has one. -/
theorem cut_cases (c : Char) (cs : List Char) :
    cs.dropWhile (· ≠ c) = [] ∨ ∃ front back, c ∉ front ∧ cs = front ++ c :: back := by
  by_cases hmem : c ∈ cs
  · obtain ⟨front, back, rfl, hfront⟩ := List.eq_append_cons_of_mem hmem
    exact .inr ⟨front, back, hfront, rfl⟩
  · refine .inl (List.dropWhile_eq_nil_iff.2 fun a ha ↦ decide_eq_true ?_)
    rintro rfl
    exact hmem ha

/-- **A method descriptor is cut at its first closing parenthesis.** -/
theorem splitChars?_eq_some_iff :
    splitChars? cs = some (params, ret) ↔ cs = '(' :: (params ++ ')' :: ret) ∧ ')' ∉ params := by
  constructor
  · intro h
    rw [splitChars?.eq_def] at h
    split at h
    · rename_i r
      rcases cut_cases ')' r with hnone | ⟨front, back, hfront, rfl⟩
      · rw [hnone] at h
        cases h
      · rw [dropWhile_ne_append hfront, takeWhile_ne_append hfront] at h
        cases h
        exact ⟨rfl, hfront⟩
    · cases h
  · rintro ⟨rfl, hparams⟩
    rw [splitChars?, dropWhile_ne_append hparams, takeWhile_ne_append hparams]

/-! ### One type -/

/-- A type that is read as it is written. -/
def FieldType.Readable : FieldType → Prop
  | primitive letter => isPrimitive letter = true
  | object cls => ';' ∉ cls.text.toList
  | array element => element.Readable

theorem FieldType.chars_ne_nil (t : FieldType) : t.chars ≠ [] := by
  cases t <;> exact List.cons_ne_nil _ _

theorem takeElement?_object (h : ';' ∉ name) (rest : List Char) :
    takeElement? ('L' :: (name ++ ';' :: rest)) = some ('L' :: (name ++ [';']), rest) := by
  rw [takeElement?, dropWhile_ne_append h, takeWhile_ne_append h]

theorem takeElement?_primitive (h : isPrimitive c = true) (rest : List Char) :
    takeElement? (c :: rest) = some ([c], rest) := by
  have hL : c ≠ 'L' := by
    rintro rfl
    exact absurd h (by decide)
  rw [takeElement?.eq_2 c rest hL, if_pos h]

/-- What is read without brackets is a letter or a class. -/
theorem exists_of_takeElement? {element : List Char} (h : takeElement? cs = some (element, rest)) :
    ∃ t : FieldType, t.Readable ∧ element = t.chars ∧ cs = t.chars ++ rest := by
  rw [takeElement?.eq_def] at h
  split at h
  · rename_i r
    rcases cut_cases ';' r with hnone | ⟨name, back, hname, rfl⟩
    · rw [hnone] at h
      cases h
    · rw [dropWhile_ne_append hname, takeWhile_ne_append hname] at h
      cases h
      refine ⟨.object ⟨.ofList name⟩, ?_, ?_, ?_⟩
      · rwa [FieldType.Readable, String.toList_ofList]
      · rw [FieldType.chars, String.toList_ofList]
      · rw [FieldType.chars, String.toList_ofList, List.cons_append, List.append_assoc]
        rfl
  · rename_i letter r _
    split at h
    · cases h
      exact ⟨.primitive letter, ‹_›, rfl, rfl⟩
    · cases h
  · cases h

/-- A bracket is a part of the type behind it. -/
theorem takeType_bracket {type : List Char} :
    takeType ('[' :: cs) = .ok (type, rest) ↔
      ∃ element, takeType cs = .ok (element, rest) ∧ type = '[' :: element := by
  rw [takeType, takeType, List.takeWhile_cons_of_pos (by decide),
    List.dropWhile_cons_of_pos (by decide)]
  cases cs.dropWhile (· = '[') with
  | nil => simp
  | cons c r =>
    dsimp only
    cases takeElement? (c :: r) with
    | none => simp
    | some taken => simp [and_comm, eq_comm]

theorem takeType_of_ne (h : c ≠ '[') : takeType (c :: cs) =
    match takeElement? (c :: cs) with
    | some taken => .ok taken
    | none => .error (c :: cs) := by
  rw [takeType, List.takeWhile_cons_of_neg (by simpa using h),
    List.dropWhile_cons_of_neg (by simpa using h)]
  dsimp only
  cases takeElement? (c :: cs) <;> rfl

/-- **A type is read off the front of a text exactly if the text begins with it.** -/
theorem takeType_eq_ok_iff {type : List Char} : takeType cs = .ok (type, rest) ↔
    ∃ t : FieldType, t.Readable ∧ type = t.chars ∧ cs = t.chars ++ rest := by
  constructor
  · intro h
    induction cs generalizing type with
    | nil => cases h
    | cons c cs ih =>
      by_cases hc : c = '['
      · subst hc
        obtain ⟨element, helement, rfl⟩ := takeType_bracket.1 h
        obtain ⟨t, ht, rfl, rfl⟩ := ih helement
        exact ⟨.array t, ht, rfl, rfl⟩
      · rw [takeType_of_ne hc] at h
        cases htaken : takeElement? (c :: cs) with
        | none =>
          rw [htaken] at h
          cases h
        | some taken =>
          rw [htaken] at h
          cases h
          exact exists_of_takeElement? htaken
  · rintro ⟨t, ht, rfl, rfl⟩
    induction t with
    | primitive letter =>
      have hprimitive : isPrimitive letter = true := ht
      have hletter : letter ≠ '[' := by
        rintro rfl
        exact absurd hprimitive (by decide)
      rw [FieldType.chars, List.singleton_append, takeType_of_ne hletter,
        takeElement?_primitive hprimitive]
    | object cls =>
      rw [FieldType.chars, List.cons_append, List.append_assoc, List.singleton_append,
        takeType_of_ne (by decide), takeElement?_object ht]
    | array element ih => exact takeType_bracket.2 ⟨_, ih ht, rfl⟩

/-! ### A list of types -/

/-- Reading a type makes a text shorter. -/
theorem FieldType.length_lt_append (t : FieldType) (rest : List Char) :
    rest.length < (t.chars ++ rest).length := by
  have hpos := List.length_pos_of_ne_nil t.chars_ne_nil
  rw [List.length_append]
  omega

theorem takeTypes_nil (fuel : ℕ) : takeTypes fuel [] = .ok [] := by
  cases fuel <;> rfl

theorem takeTypes_nil_eq_ok_iff {fuel : ℕ} {types : List (List Char)} :
    takeTypes fuel [] = .ok types ↔ ∃ ts : List FieldType, (∀ t ∈ ts, t.Readable) ∧
      types = ts.map FieldType.chars ∧ [] = ts.flatMap FieldType.chars := by
  rw [takeTypes_nil]
  constructor
  · intro h
    cases h
    exact ⟨[], fun _ ht ↦ absurd ht List.not_mem_nil, rfl, rfl⟩
  · rintro ⟨ts, -, rfl, hts⟩
    cases ts with
    | nil => rfl
    | cons t ts => exact absurd (List.append_eq_nil_iff.1 hts.symm).1 t.chars_ne_nil

theorem takeTypes_cons (fuel : ℕ) (c : Char) (cs : List Char) :
    takeTypes (fuel + 1) (c :: cs) =
      match takeType (c :: cs) with
      | .error fault => .error fault
      | .ok (t, rest) => (t :: ·) <$> takeTypes fuel rest := rfl

/-- **A text is cut into types exactly if it is the text of a list of types.** Each type has a
character at least, so there are steps enough. -/
theorem takeTypes_eq_ok_iff {fuel : ℕ} (hfuel : cs.length ≤ fuel) {types : List (List Char)} :
    takeTypes fuel cs = .ok types ↔ ∃ ts : List FieldType, (∀ t ∈ ts, t.Readable) ∧
      types = ts.map FieldType.chars ∧ cs = ts.flatMap FieldType.chars := by
  induction fuel generalizing cs types with
  | zero =>
    obtain rfl := List.length_eq_zero_iff.1 (Nat.le_zero.1 hfuel)
    exact takeTypes_nil_eq_ok_iff
  | succ fuel ih =>
    cases cs with
    | nil => exact takeTypes_nil_eq_ok_iff
    | cons c cs =>
      rw [takeTypes_cons]
      constructor
      · intro h
        cases htype : takeType (c :: cs) with
        | error fault =>
          rw [htype] at h
          cases h
        | ok taken =>
          obtain ⟨type, rest⟩ := taken
          rw [htype] at h
          obtain ⟨types, hrest, rfl⟩ := Outcome.map_eq_ok.1 h
          obtain ⟨t, ht, rfl, hcs⟩ := takeType_eq_ok_iff.1 htype
          have hlt := t.length_lt_append rest
          rw [← hcs] at hlt
          obtain ⟨ts, hts, rfl, rfl⟩ := (ih (by omega)).1 hrest
          exact ⟨t :: ts, List.forall_mem_cons.2 ⟨ht, hts⟩, rfl, hcs⟩
      · rintro ⟨ts, hts, rfl, hcs⟩
        cases ts with
        | nil => cases hcs
        | cons t ts =>
          obtain ⟨ht, hts⟩ := List.forall_mem_cons.1 hts
          have hlt := t.length_lt_append (ts.flatMap FieldType.chars)
          rw [← List.flatMap_cons, ← hcs] at hlt
          have hfuel : (ts.flatMap FieldType.chars).length ≤ fuel := by omega
          rw [takeType_eq_ok_iff.2 ⟨t, ht, rfl, hcs⟩]
          exact Outcome.map_eq_ok.2 ⟨_, (ih hfuel).2 ⟨ts, hts, rfl, rfl⟩, rfl⟩

/-! ### Methods -/

theorem splitMethod_eq_ok_iff {params ret : String} : splitMethod desc = .ok (params, ret) ↔
    desc.toList = '(' :: (params.toList ++ ')' :: ret.toList) ∧ ')' ∉ params.toList := by
  rw [← splitChars?_eq_some_iff, splitMethod]
  constructor
  · intro h
    split at h
    · cases h
      rwa [String.toList_ofList, String.toList_ofList]
    · cases h
  · intro h
    rw [h]
    dsimp only
    rw [String.ofList_toList, String.ofList_toList]

/-- The parameter part of a method is the list of its parameters with the parentheses. -/
theorem parameterPart_of_splitMethod {params ret : String}
    (h : splitMethod desc = .ok (params, ret)) : parameterPart desc = "(" ++ params ++ ")" := by
  have hsplit := splitChars?_eq_some_iff.2 (splitMethod_eq_ok_iff.1 h)
  rw [← String.toList_inj, parameterPart, hsplit]
  simp

/-- A descriptor that is none of a method is its own parameter part. -/
theorem parameterPart_of_splitMethod_eq_error {e : DescriptorError}
    (h : splitMethod desc = .error e) : parameterPart desc = desc := by
  rw [splitMethod] at h
  rw [parameterPart]
  cases hsplit : splitChars? desc.toList with
  | none => rfl
  | some parts =>
    rw [hsplit] at h
    cases h

/-- **The parameter part of a method is that of the methods with its parameters**, whatever they
return, and of no other descriptor. -/
theorem parameterPart_eq_iff {params ret : String} (h : splitMethod desc = .ok (params, ret))
    {desc' : String} :
    parameterPart desc' = parameterPart desc ↔ ∃ ret', splitMethod desc' = .ok (params, ret') := by
  rw [parameterPart_of_splitMethod h]
  constructor
  · intro hpart
    cases hsplit : splitMethod desc' with
    | ok parts =>
      obtain ⟨params', ret'⟩ := parts
      rw [parameterPart_of_splitMethod hsplit] at hpart
      have hparams : params' = params := by simpa [← String.toList_inj] using hpart
      exact ⟨ret', by rw [hparams]⟩
    | error e =>
      -- the other descriptor would be the parameter part itself, which is a method without a return
      rw [parameterPart_of_splitMethod_eq_error hsplit] at hpart
      have hmethod : splitMethod desc' = .ok (params, "") := by
        refine splitMethod_eq_ok_iff.2 ⟨?_, (splitMethod_eq_ok_iff.1 h).2⟩
        rw [hpart]
        simp
      rw [hmethod] at hsplit
      cases hsplit
  · rintro ⟨ret', hsplit⟩
    exact parameterPart_of_splitMethod hsplit

/-- **The parameters of a method are the types before its first closing parenthesis**, if there are
types only. What is behind it does not matter. -/
theorem parameterTypes_eq_ok_iff {types : List String} : parameterTypes desc = .ok types ↔
    ∃ (ts : List FieldType) (ret : String), (∀ t ∈ ts, t.Readable) ∧
      types = ts.map (fun t ↦ .ofList t.chars) ∧
      splitMethod desc = .ok (.ofList (ts.flatMap FieldType.chars), ret) := by
  simp only [splitMethod_eq_ok_iff, String.toList_ofList]
  rw [parameterTypes]
  constructor
  · intro h
    split at h
    · cases h
    · rename_i params ret hsplit
      split at h
      · rename_i types htypes
        cases h
        obtain ⟨ts, hts, rfl, rfl⟩ := (takeTypes_eq_ok_iff (Nat.le_refl _)).1 htypes
        refine ⟨ts, .ofList ret, hts, List.map_map, ?_⟩
        rw [String.toList_ofList]
        exact splitChars?_eq_some_iff.1 hsplit
      · cases h
  · rintro ⟨ts, ret, hts, rfl, hdesc⟩
    rw [splitChars?_eq_some_iff.2 hdesc]
    dsimp only
    rw [(takeTypes_eq_ok_iff (Nat.le_refl _)).2 ⟨ts, hts, rfl, rfl⟩]
    exact congrArg Except.ok List.map_map

theorem returnType_eq_ok_iff {ret : String} :
    returnType desc = .ok ret ↔ ∃ params, splitMethod desc = .ok (params, ret) := by
  rw [returnType, Outcome.map_eq_ok]
  constructor
  · rintro ⟨⟨params, ret⟩, h, rfl⟩
    exact ⟨params, h⟩
  · rintro ⟨params, h⟩
    exact ⟨_, h, rfl⟩

/-- The descriptor of a method with the given parameter types and return type. -/
def methodDesc (types : List String) (ret : String) : String :=
  "(" ++ String.join types ++ ")" ++ ret

theorem toList_methodDesc (types : List String) (ret : String) :
    (methodDesc types ret).toList = '(' :: (types.flatMap String.toList ++ ')' :: ret.toList) := by
  simp [methodDesc]

theorem methodDesc_ne_empty (types : List String) (ret : String) : methodDesc types ret ≠ "" := by
  intro h
  have hempty := toList_methodDesc types ret
  rw [h] at hempty
  cases hempty

/-- A method whose parameters can be read is made of them and of a return type. -/
theorem exists_methodDesc {types : List String} (h : parameterTypes desc = .ok types) :
    ∃ ret, returnType desc = .ok ret ∧ desc = methodDesc types ret := by
  obtain ⟨ts, ret, -, rfl, hsplit⟩ := parameterTypes_eq_ok_iff.1 h
  refine ⟨ret, returnType_eq_ok_iff.2 ⟨_, hsplit⟩, ?_⟩
  obtain ⟨hdesc, -⟩ := splitMethod_eq_ok_iff.1 hsplit
  rw [← String.toList_inj, hdesc, toList_methodDesc, List.flatMap_map]
  simp only [String.toList_ofList]

/-- **Parameters that can be read in one method can be read in another**, whichever of them it has
and whatever it returns. -/
theorem parameterTypes_methodDesc {types types' : List String}
    (h : parameterTypes desc = .ok types) (hsub : types'.Sublist types) (ret : String) :
    parameterTypes (methodDesc types' ret) = .ok types' ∧
      returnType (methodDesc types' ret) = .ok ret := by
  obtain ⟨ts, ret', hts, rfl, hsplit⟩ := parameterTypes_eq_ok_iff.1 h
  obtain ⟨ts', hsub', rfl⟩ := List.sublist_map_iff.1 hsub
  obtain ⟨-, hclosed⟩ := splitMethod_eq_ok_iff.1 hsplit
  rw [String.toList_ofList] at hclosed
  have hsplit' : splitMethod (methodDesc (ts'.map fun t ↦ .ofList t.chars) ret) =
      .ok (.ofList (ts'.flatMap FieldType.chars), ret) := by
    refine splitMethod_eq_ok_iff.2 ⟨?_, fun hmem ↦ hclosed ?_⟩
    · rw [toList_methodDesc, List.flatMap_map]
      simp only [String.toList_ofList]
    · rw [String.toList_ofList, List.mem_flatMap] at hmem
      obtain ⟨t, ht, hmem⟩ := hmem
      exact List.mem_flatMap.2 ⟨t, hsub'.subset ht, hmem⟩
  exact ⟨parameterTypes_eq_ok_iff.2 ⟨ts', ret, fun t ht ↦ hts t (hsub'.subset ht), rfl, hsplit'⟩,
    returnType_eq_ok_iff.2 ⟨_, hsplit'⟩⟩

theorem withoutFirstParameter_eq_ok {types : List String} {ret : String}
    (hparams : parameterTypes desc = .ok types) (hret : returnType desc = .ok ret) :
    withoutFirstParameter desc = .ok (methodDesc types.tail ret) := by
  rw [withoutFirstParameter, hparams, hret, methodDesc, ← List.drop_one]
  rfl

end ClassWeave.Descriptor
