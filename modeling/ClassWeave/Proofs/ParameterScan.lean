import ClassWeave.Proofs.BytePositions
import ClassWeave.Proofs.Parameters

/-!
# Scanning a parameter list by byte positions

The functions on descriptors take characters off the front of a text. Here the same is done with
one text and a position in it, in bytes, as a scanner does that keeps the text whole: it looks at
the byte at its position, looks for a mark from there on, and cuts the text at the positions that it
has found. Every look and every cut may fail, and so may the number of steps; each of these gives
`none` in the outermost layer of the result (`Descriptor.parameterTypesAt?`).

It never comes to that. A position of the scanner is always the size of a front part of the text
(`Descriptor.skipBrackets?_append`, `Descriptor.typeEnd?_append`, `Descriptor.typesFrom?_append`),
so the scanner gives what the functions on characters give, for every text, and the positions of its
faults are the offsets that they report.

What is accepted is said by the grammar as it is written, in characters: a parameter type is any
number of brackets and a letter or a class name between `L` and `;` (`Descriptor.IsParameter`).
-/

namespace ClassWeave.Descriptor

variable {c : Char} {cs front rest params ret : List Char} {desc : String}

/-! ### The grammar -/

/-- Any number of brackets, and behind them a letter, or any text without `;` between `L`
and `;`. -/
def IsParameter (type : List Char) : Prop :=
  ∃ depth element, type = List.replicate depth '[' ++ element ∧
    ((∃ letter ∈ "BCDFIJSZ".toList, element = [letter]) ∨
      ∃ name, ';' ∉ name ∧ element = 'L' :: (name ++ [';']))

/-- `desc` is a parenthesis, the parameter types one after the other, the other parenthesis, which
is the first one, and anything. -/
structure HasParameters (desc : String) (types : List String) (ret : String) : Prop where
  text : desc = "(" ++ String.join types ++ ")" ++ ret
  closed : ')' ∉ (String.join types).toList
  parameters : ∀ t ∈ types, IsParameter t.toList

theorem isParameter_iff {type : List Char} :
    IsParameter type ↔ ∃ t : FieldType, t.Readable ∧ type = t.chars := by
  constructor
  · rintro ⟨depth, element, rfl, helement⟩
    induction depth with
    | zero =>
      rcases helement with ⟨letter, hletter, rfl⟩ | ⟨name, hname, rfl⟩
      · exact ⟨.primitive letter, List.contains_iff_mem.2 hletter, rfl⟩
      · refine ⟨.object ⟨.ofList name⟩, ?_, ?_⟩
        · rwa [FieldType.Readable, String.toList_ofList]
        · rw [FieldType.chars, String.toList_ofList]
          rfl
    | succ depth ih =>
      obtain ⟨t, ht, htext⟩ := ih
      exact ⟨.array t, ht, congrArg ('[' :: ·) htext⟩
  · rintro ⟨t, ht, rfl⟩
    induction t with
    | primitive letter =>
      exact ⟨0, [letter], rfl, .inl ⟨letter, List.contains_iff_mem.1 ht, rfl⟩⟩
    | object cls => exact ⟨0, _, rfl, .inr ⟨cls.text.toList, ht, rfl⟩⟩
    | array element ih =>
      obtain ⟨depth, inner, htext, hinner⟩ := ih ht
      exact ⟨depth + 1, inner, congrArg ('[' :: ·) htext, hinner⟩

/-- A list of parameter types is the text of a list of types. -/
theorem exists_fieldTypes {types : List String} (h : ∀ t ∈ types, IsParameter t.toList) :
    ∃ ts : List FieldType, (∀ t ∈ ts, t.Readable) ∧ types = ts.map fun t ↦ .ofList t.chars := by
  induction types with
  | nil => exact ⟨[], fun _ ht ↦ absurd ht List.not_mem_nil, rfl⟩
  | cons type types ih =>
    obtain ⟨htype, htypes⟩ := List.forall_mem_cons.1 h
    obtain ⟨t, ht, htext⟩ := isParameter_iff.1 htype
    obtain ⟨ts, hts, rfl⟩ := ih htypes
    refine ⟨t :: ts, List.forall_mem_cons.2 ⟨ht, hts⟩, ?_⟩
    rw [List.map_cons, ← htext, String.ofList_toList]

theorem join_map_chars (ts : List FieldType) :
    String.join (ts.map fun t ↦ .ofList t.chars) = .ofList (ts.flatMap FieldType.chars) := by
  rw [← String.toList_inj, String.toList_join, String.toList_ofList, List.flatMap_map]
  simp only [String.toList_ofList]

theorem HasParameters.splitMethod_eq {types : List String} {ret : String}
    (h : HasParameters desc types ret) : splitMethod desc = .ok (String.join types, ret) := by
  refine splitMethod_eq_ok_iff.2 ⟨?_, h.closed⟩
  rw [h.text, ← methodDesc, toList_methodDesc, String.toList_join]

/-- **The parameter types of a method are read exactly if the grammar gives them.** -/
theorem parameterTypes_eq_ok_iff_hasParameters {types : List String} :
    parameterTypes desc = .ok types ↔ ∃ ret, HasParameters desc types ret := by
  constructor
  · intro h
    obtain ⟨ts, ret, hts, rfl, hsplit⟩ := parameterTypes_eq_ok_iff.1 h
    obtain ⟨ret', hret, hdesc⟩ := exists_methodDesc h
    refine ⟨ret', hdesc, ?_, ?_⟩
    · rw [join_map_chars]
      exact (splitMethod_eq_ok_iff.1 hsplit).2
    · intro _ ht
      obtain ⟨t, htmem, rfl⟩ := List.mem_map.1 ht
      exact isParameter_iff.2 ⟨t, hts t htmem, String.toList_ofList⟩
  · rintro ⟨ret, h⟩
    obtain ⟨ts, hts, rfl⟩ := exists_fieldTypes h.parameters
    refine parameterTypes_eq_ok_iff.2 ⟨ts, ret, hts, rfl, ?_⟩
    rw [← join_map_chars]
    exact h.splitMethod_eq

theorem HasParameters.unique {types types' : List String} {ret ret' : String}
    (h : HasParameters desc types ret) (h' : HasParameters desc types' ret') :
    types' = types ∧ ret' = ret := by
  have htypes := (parameterTypes_eq_ok_iff_hasParameters.2 ⟨_, h'⟩).symm.trans
    (parameterTypes_eq_ok_iff_hasParameters.2 ⟨_, h⟩)
  have hparts := h'.splitMethod_eq.symm.trans h.splitMethod_eq
  cases htypes
  cases hparts
  exact ⟨rfl, rfl⟩

theorem HasParameters.withoutFirstParameter_eq {types : List String} {ret : String}
    (h : HasParameters desc types ret) :
    withoutFirstParameter desc = .ok ("(" ++ String.join types.tail ++ ")" ++ ret) :=
  withoutFirstParameter_eq_ok (parameterTypes_eq_ok_iff_hasParameters.2 ⟨_, h⟩)
    (returnType_eq_ok_iff.2 ⟨_, h.splitMethod_eq⟩)

/-- A descriptor without parentheses and one with other things than types between them are told
apart. -/
theorem parameterTypes_of_not_hasParameters (h : ∀ types ret, ¬HasParameters desc types ret) :
    (splitMethod desc = .error (.notAMethod desc) ∧
        parameterTypes desc = .error (.notAMethod desc)) ∨
      (∃ params ret, splitMethod desc = .ok (params, ret)) ∧
        ∃ offset, parameterTypes desc = .error (.malformed desc offset) := by
  have hfail : ∀ types, parameterTypes desc ≠ .ok types := fun types heq ↦
    (parameterTypes_eq_ok_iff_hasParameters.1 heq).elim (h types)
  rw [parameterTypes] at hfail ⊢
  rw [splitMethod]
  cases hsplit : splitChars? desc.toList with
  | none => exact .inl ⟨rfl, rfl⟩
  | some parts =>
    obtain ⟨params, ret⟩ := parts
    rw [hsplit] at hfail
    refine .inr ⟨⟨_, _, rfl⟩, ?_⟩
    dsimp only at hfail ⊢
    cases htypes : takeTypes params.length params with
    | ok types =>
      rw [htypes] at hfail
      exact absurd rfl (hfail _)
    | error fault => exact ⟨_, rfl⟩

/-! ### The scanner -/

/-- The first position from `i` on where there is no bracket. The inner `none` is for a text that
ends before that. -/
def skipBrackets? (bs : List UInt8) : ℕ → ℕ → Option (Option ℕ)
  | 0, _ => none
  | fuel + 1, i => do
    if (← bs[i]?) = '['.toUInt8 then
      if bs.length ≤ i + 1 then return none else skipBrackets? bs fuel (i + 1)
    else return some i

/-- Where the letter or the class at a position ends. The inner `none` is for a position with
neither. -/
def elementEnd? (cs : List Char) (i : ℕ) : Option (Option ℕ) := do
  let b ← (bytes cs)[i]?
  if b ∈ "BCDFIJSZ".toList.map Char.toUInt8 then return some (i + 1)
  else if b = 'L'.toUInt8 then return (position? ';' (← dropBytes? cs i)).map (i + · + 1)
  else return none

/-- Where the type at a position ends, or the position of the fault: the one given where brackets
end the text, else the one behind the brackets. -/
def typeEnd? (cs : List Char) (start : ℕ) : Option (Except ℕ ℕ) := do
  match ← skipBrackets? (bytes cs) (byteSize cs) start with
  | none => return .error start
  | some i =>
    match ← elementEnd? cs i with
    | none => return .error i
    | some stop => return .ok stop

/-- Cuts a text into types from a position on. -/
def typesFrom? (cs : List Char) : ℕ → ℕ → Option (Except ℕ (List (List Char)))
  | 0, _ => none
  | fuel + 1, start => do
    if byteSize cs ≤ start then return .ok [] else
    match ← typeEnd? cs start with
    | .error fault => return .error fault
    | .ok stop =>
      let type ← sliceBytes? cs start stop
      return (type :: ·) <$> (← typesFrom? cs fuel stop)

theorem skipBrackets?_append {fuel : ℕ} (hfuel : rest.length ≤ fuel) (hne : rest ≠ []) :
    skipBrackets? (bytes (front ++ rest)) fuel (byteSize front) =
      some (match rest.dropWhile (· = '[') with
        | [] => none
        | _ => some (byteSize (front ++ rest.takeWhile (· = '[')))) := by
  induction rest generalizing front fuel with
  | nil => exact absurd rfl hne
  | cons c rest ih =>
    obtain ⟨fuel, rfl⟩ : ∃ n, fuel = n + 1 :=
      ⟨fuel - 1, by rw [List.length_cons] at hfuel; omega⟩
    obtain ⟨b, hb, hascii⟩ := exists_getElem?_bytes front c rest
    rw [skipBrackets?, hb, Option.bind_eq_bind, Option.bind_some]
    by_cases hc : c = '['
    · have hstep : byteSize front + 1 = byteSize (front ++ ['[']) :=
        byteSize_append front ['['] ▸ rfl
      rw [if_pos ((hascii '[' (by decide)).2 hc), length_bytes, hstep, hc,
        List.dropWhile_cons_of_pos (by decide), List.takeWhile_cons_of_pos (by decide),
        List.append_cons, List.append_cons front '[' (rest.takeWhile _)]
      cases rest with
      | nil =>
        rw [List.append_nil, if_pos (Nat.le_refl _)]
        rfl
      | cons d rest =>
        have hlt := byteSize_pos (List.cons_ne_nil d rest)
        rw [if_neg (by rw [byteSize_append (front ++ ['['])]; omega)]
        exact ih (Nat.le_of_succ_le_succ hfuel) (List.cons_ne_nil d rest)
    · rw [if_neg (mt (hascii '[' (by decide)).1 hc), List.dropWhile_cons_of_neg (by simpa using hc),
        List.takeWhile_cons_of_neg (by simpa using hc), List.append_nil]
      rfl

theorem takeElement?_unended (h : ';' ∉ rest) : takeElement? ('L' :: rest) = none := by
  rw [takeElement?, List.dropWhile_eq_nil_iff.2 fun a ha ↦
    decide_eq_true (ne_of_mem_of_not_mem ha h)]

/-- What is searched for from an `L` on is the end of a class name. -/
theorem map_position?_object (front rest : List Char) :
    (position? ';' ('L' :: rest)).map (byteSize front + · + 1) =
      (takeElement? ('L' :: rest)).map fun taken ↦ byteSize (front ++ taken.1) := by
  by_cases hmem : ';' ∈ rest
  · obtain ⟨name, back, rfl, hname⟩ := List.eq_append_cons_of_mem hmem
    have hmark : ';' ∉ 'L' :: name := fun h ↦ hname ((List.mem_cons.1 h).resolve_left (by decide))
    rw [takeElement?_object hname, ← List.cons_append, position?_append hmark, Option.map_some,
      Option.map_some, ← List.cons_append, byteSize_append, byteSize_append, ← Nat.add_assoc]
    rfl
  · have hmark : ';' ∉ 'L' :: rest := fun h ↦ hmem ((List.mem_cons.1 h).resolve_left (by decide))
    rw [takeElement?_unended hmem, position?_eq_none hmark, Option.map_none, Option.map_none]

/-- The letters of the primitive types are ASCII characters. -/
theorem val_le_of_letter (hc : c ∈ "BCDFIJSZ".toList) : c.val.toNat ≤ 127 := by
  have hletters : "BCDFIJSZ".toList.all (·.val.toNat ≤ 127) = true := by decide
  exact of_decide_eq_true (List.all_eq_true.1 hletters c hc)

theorem elementEnd?_append (front : List Char) (c : Char) (rest : List Char) :
    elementEnd? (front ++ c :: rest) (byteSize front) =
      some ((takeElement? (c :: rest)).map fun taken ↦ byteSize (front ++ taken.1)) := by
  obtain ⟨b, hb, hascii⟩ := exists_getElem?_bytes front c rest
  have hprimitive : b ∈ "BCDFIJSZ".toList.map Char.toUInt8 ↔ isPrimitive c = true := by
    rw [isPrimitive, List.contains_iff_mem, List.mem_map]
    constructor
    · rintro ⟨a, ha, hab⟩
      exact (hascii a (val_le_of_letter ha)).1 hab.symm ▸ ha
    · intro hc
      exact ⟨c, hc, ((hascii c (val_le_of_letter hc)).2 rfl).symm⟩
  rw [elementEnd?, hb, Option.bind_eq_bind, Option.bind_some]
  by_cases hletter : isPrimitive c = true
  · have hsize : c.utf8Size = 1 :=
      Char.utf8Size_eq_one_iff.2 (val_le_of_letter (List.contains_iff_mem.1 hletter))
    rw [if_pos (hprimitive.2 hletter), takeElement?_primitive hletter, Option.map_some,
      byteSize_append, byteSize_cons, hsize]
    rfl
  · rw [if_neg (mt hprimitive.1 hletter)]
    by_cases hL : c = 'L'
    · subst hL
      rw [if_pos ((hascii 'L' (by decide)).2 rfl), dropBytes?_append,
        ← map_position?_object]
      rfl
    · rw [if_neg (mt (hascii 'L' (by decide)).1 hL), takeElement?.eq_2 c rest hL, if_neg hletter]
      rfl

theorem typeEnd?_append (front : List Char) (hne : rest ≠ []) :
    typeEnd? (front ++ rest) (byteSize front) = some (match takeType rest with
      | .ok (type, _) => .ok (byteSize (front ++ type))
      | .error fault => .error (byteSize (front ++ rest) - byteSize fault)) := by
  have hfuel : rest.length ≤ byteSize (front ++ rest) := by
    rw [byteSize_append]
    exact Nat.le_add_left_of_le (length_le_byteSize rest)
  have hcut := List.takeWhile_append_dropWhile (p := (· = '[')) (l := rest)
  rw [typeEnd?, skipBrackets?_append hfuel hne, Option.bind_eq_bind, Option.bind_some, takeType]
  generalize rest.takeWhile (· = '[') = brackets at *
  cases hdrop : rest.dropWhile (· = '[') with
  | nil =>
    dsimp only
    rw [byteSize_append, Nat.add_sub_cancel]
    rfl
  | cons c r =>
    rw [hdrop] at hcut
    subst hcut
    dsimp only
    rw [← List.append_assoc, elementEnd?_append]
    cases takeElement? (c :: r) with
    | none =>
      dsimp only
      rw [byteSize_append (front ++ brackets), Nat.add_sub_cancel]
      rfl
    | some taken =>
      dsimp only
      rw [← List.append_assoc]
      rfl

/-- **A scanner at the end of a front part cuts the rest as characters are cut**, and its faults are
where those are. -/
theorem typesFrom?_append {fuel : ℕ} (hfuel : rest.length ≤ fuel) (front : List Char) :
    typesFrom? (front ++ rest) (fuel + 1) (byteSize front) = some (match takeTypes fuel rest with
      | .ok types => .ok types
      | .error fault => .error (byteSize (front ++ rest) - byteSize fault)) := by
  induction fuel generalizing front rest with
  | zero =>
    obtain rfl := List.length_eq_zero_iff.1 (Nat.le_zero.1 hfuel)
    rw [typesFrom?, List.append_nil, if_pos (Nat.le_refl _)]
    rfl
  | succ fuel ih =>
    rw [typesFrom?]
    cases rest with
    | nil =>
      rw [List.append_nil, if_pos (Nat.le_refl _)]
      rfl
    | cons c rest =>
      have hlt := byteSize_pos (List.cons_ne_nil c rest)
      rw [if_neg (by rw [byteSize_append]; omega), typeEnd?_append front (List.cons_ne_nil c rest),
        Option.bind_eq_bind, Option.bind_some, takeTypes_cons]
      cases htype : takeType (c :: rest) with
      | error fault => rfl
      | ok taken =>
        obtain ⟨type, rest'⟩ := taken
        obtain ⟨t, -, rfl, hcs⟩ := takeType_eq_ok_iff.1 htype
        have hshort : rest'.length ≤ fuel := by
          have hlength := t.length_lt_append rest'
          rw [← hcs] at hlength
          omega
        dsimp only
        rw [hcs, ← List.append_assoc, sliceBytes?_append, ih hshort]
        cases takeTypes fuel rest' <;> rfl

/-! ### Methods -/

/-- The parameter list and the return type, cut at byte positions. The inner `none` is for what is
no method. -/
def splitCharsAt? : List Char → Option (Option (List Char × List Char))
  | '(' :: rest =>
    match position? ')' rest with
    | some close => do
      let params ← takeBytes? rest close
      let ret ← dropBytes? rest (close + 1)
      return some (params, ret)
    | none => some none
  | _ => some none

def splitMethodAt? (desc : String) : Option (Except DescriptorError (String × String)) := do
  match ← splitCharsAt? desc.toList with
  | some (params, ret) => return .ok (.ofList params, .ofList ret)
  | none => return .error (.notAMethod desc)

/-- The parameter types, cut at byte positions. Offsets count the opening parenthesis. -/
def parameterTypesAt? (desc : String) : Option (Except DescriptorError (List String)) := do
  match ← splitCharsAt? desc.toList with
  | none => return .error (.notAMethod desc)
  | some (params, _) =>
    match ← typesFrom? params (params.length + 1) 0 with
    | .ok types => return .ok (types.map .ofList)
    | .error fault => return .error (.malformed desc (fault + 1))

/-- The descriptor without its first parameter, with all cuts at byte positions. -/
def withoutFirstParameterAt? (desc : String) : Option (Except DescriptorError String) := do
  match ← parameterTypesAt? desc with
  | .error e => return .error e
  | .ok types =>
    match ← splitMethodAt? desc with
    | .error e => return .error e
    | .ok (_, ret) => return .ok ("(" ++ String.join (types.drop 1) ++ ")" ++ ret)

theorem splitCharsAt?_eq (cs : List Char) : splitCharsAt? cs = some (splitChars? cs) := by
  rw [splitCharsAt?.eq_def]
  split
  · rename_i rest
    by_cases hmem : ')' ∈ rest
    · obtain ⟨params, ret, rfl, hparams⟩ := List.eq_append_cons_of_mem hmem
      have hclose : byteSize params + 1 = byteSize (params ++ [')']) :=
        byteSize_append params [')'] ▸ rfl
      rw [splitChars?_eq_some_iff.2 ⟨rfl, hparams⟩, position?_append hparams]
      dsimp only
      rw [takeBytes?_append, hclose, List.append_cons, dropBytes?_append]
      rfl
    · rw [position?_eq_none hmem, splitChars?, List.dropWhile_eq_nil_iff.2 fun a ha ↦
        decide_eq_true (ne_of_mem_of_not_mem ha hmem)]
  · rename_i hother
    rw [splitChars?.eq_2 _ hother]

theorem splitMethodAt?_eq (desc : String) : splitMethodAt? desc = some (splitMethod desc) := by
  rw [splitMethodAt?, splitCharsAt?_eq, splitMethod]
  cases splitChars? desc.toList <;> rfl

theorem parameterTypesAt?_eq (desc : String) :
    parameterTypesAt? desc = some (parameterTypes desc) := by
  rw [parameterTypesAt?, splitCharsAt?_eq, parameterTypes]
  cases hsplit : splitChars? desc.toList with
  | none => rfl
  | some parts =>
    obtain ⟨params, ret⟩ := parts
    have hscan := typesFrom?_append (Nat.le_refl params.length) []
    rw [List.nil_append, byteSize_nil] at hscan
    dsimp only [Option.bind_eq_bind, Option.bind_some]
    rw [hscan]
    cases takeTypes params.length params <;> rfl

theorem withoutFirstParameterAt?_eq (desc : String) :
    withoutFirstParameterAt? desc = some (withoutFirstParameter desc) := by
  rw [withoutFirstParameterAt?, parameterTypesAt?_eq, splitMethodAt?_eq, withoutFirstParameter,
    returnType]
  cases parameterTypes desc with
  | error e => rfl
  | ok types => cases splitMethod desc <;> rfl

/-- **Parameter types are read by the grammar**: exactly if a descriptor is a list of them between
parentheses, the closing one being the first, and whatever follows. There is one such list, and the
descriptor is split, and written without its first parameter, in accordance with it. Everything else
is refused, as no method or as malformed. The same is done by a scanner of byte positions, none of
whose positions is out of range or inside a character, whatever the text. -/
theorem parameterTypes_reads_grammar (desc : String) :
    (∀ types, parameterTypes desc = .ok types ↔ ∃ ret, HasParameters desc types ret) ∧
    (∀ types ret, HasParameters desc types ret →
      (∀ types' ret', HasParameters desc types' ret' → types' = types ∧ ret' = ret) ∧
      splitMethod desc = .ok (String.join types, ret) ∧
      withoutFirstParameter desc = .ok ("(" ++ String.join types.tail ++ ")" ++ ret)) ∧
    ((∀ types ret, ¬HasParameters desc types ret) →
      (splitMethod desc = .error (.notAMethod desc) ∧
        parameterTypes desc = .error (.notAMethod desc)) ∨
      (∃ params ret, splitMethod desc = .ok (params, ret)) ∧
        ∃ offset, parameterTypes desc = .error (.malformed desc offset)) ∧
    splitMethodAt? desc = some (splitMethod desc) ∧
    parameterTypesAt? desc = some (parameterTypes desc) ∧
    withoutFirstParameterAt? desc = some (withoutFirstParameter desc) := by
  refine ⟨fun types ↦ parameterTypes_eq_ok_iff_hasParameters, fun types ret h ↦ ?_,
    parameterTypes_of_not_hasParameters, splitMethodAt?_eq desc, parameterTypesAt?_eq desc,
    withoutFirstParameterAt?_eq desc⟩
  exact ⟨fun _ _ ↦ h.unique, h.splitMethod_eq, h.withoutFirstParameter_eq⟩

/-- Class names and return types may have characters of several bytes. Brackets alone are no type,
and neither is a name without its end. -/
theorem parameterTypes_reads_grammar_umlaut :
    (HasParameters "([[Lä/Ö;I)Lü" ["[[Lä/Ö;", "I"] "Lü" ∧
      splitMethod "([[Lä/Ö;I)Lü" = .ok ("[[Lä/Ö;I", "Lü") ∧
      withoutFirstParameter "([[Lä/Ö;I)Lü" = .ok "(I)Lü") ∧
    (∀ types ret, ¬HasParameters "(Iä[)V" types ret) ∧
      ∃ offset, parameterTypes "(Iä[)V" = .error (.malformed "(Iä[)V" offset) := by
  have hname : HasParameters "([[Lä/Ö;I)Lü" ["[[Lä/Ö;", "I"] "Lü" := by
    refine ⟨by decide, by decide, fun t ht ↦ isParameter_iff.2 ?_⟩
    rcases List.mem_pair.1 ht with rfl | rfl
    · have hunended : ';' ∉ "ä/Ö".toList := by decide
      exact ⟨.array (.array (.object ⟨"ä/Ö"⟩)), hunended, by decide⟩
    · exact ⟨.primitive 'I', rfl, by decide⟩
  have hfault : ∀ types ret, ¬HasParameters "(Iä[)V" types ret := by
    intro types ret h
    have hread := parameterTypes_eq_ok_iff_hasParameters.2 ⟨ret, h⟩
    rw [show parameterTypes "(Iä[)V" = .error (.malformed "(Iä[)V" 2) by decide] at hread
    cases hread
  obtain ⟨-, hsplit, hwithout⟩ := (parameterTypes_reads_grammar _).2.1 _ _ hname
  refine ⟨⟨hname, hsplit, hwithout⟩, hfault, ?_⟩
  rcases (parameterTypes_reads_grammar _).2.2.1 hfault with ⟨hsplit, -⟩ | ⟨-, hmalformed⟩
  · exact absurd hsplit (by decide)
  · exact hmalformed

end ClassWeave.Descriptor
