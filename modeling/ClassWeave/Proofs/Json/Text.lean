import ClassWeave.Json.Reader
import ClassWeave.Proofs.Json.Numeral
import Mathlib.Data.List.DropRight

/-!
# Reading back written values

`compact` and `pretty` write the same tokens, with white space between them or without. A `Layout`
says where the white space goes, and one printer, `Layout.value`, has both as its cases
(`Layout.value_dense`, `Layout.value_indented`). What it writes is read back whatever the layout,
provided that every part of the value denotes something and that the containers are not nested too
deeply (`Plain`): `Layout.readsBack` says so inside a text, `read?_compact` and `read?_pretty` of
whole texts.

Doubles are left out. They are written exactly, but the reader does not always find the nearest
double of a numeral, and nothing that is stored contains one.
-/

namespace ClassWeave.Json

open Reader (isSpace skipSpace maxDepth)

/-- Values without doubles that nest at most `d` containers and in which every part denotes
something. -/
inductive Plain : Nat → Json → Prop
  | null {d : Nat} : Plain d .null
  | bool {d : Nat} (b : Bool) : Plain d (.bool b)
  | int {d : Nat} {n : Int} (h : FitsNumeral n) : Plain d (.int n)
  | str {d : Nat} (s : String) : Plain d (.str s)
  | arr {d : Nat} {items : List Json} (h : ∀ j ∈ items, Plain d j) : Plain (d + 1) (.arr items)
  | obj {d : Nat} {fields : List (String × Json)} (h : ∀ f ∈ fields, Plain d f.2) :
    Plain (d + 1) (.obj fields)

/-! ### Strings -/

namespace Reader

theorem hex4?_control :
    ∀ n < 0x20, hex4? '0' '0' (Printer.hexDigit (n / 16)) (Printer.hexDigit n) = some n := by
  decide

theorem chars?_backslash {c e : Char} (h : escape? c = some e) (rest : List Char) :
    chars? none ('\\' :: c :: rest) = (chars? none rest).map (push (some e)) := by
  have hc : c ≠ 'u' := by
    rintro rfl
    cases h
  rw [chars?]
  · simp [h]
  · simp [hc]

theorem chars?_control {c : Char} (h : c.toNat < 0x20) (rest : List Char) :
    chars? none ('\\' :: 'u' :: '0' :: '0' :: Printer.hexDigit (c.toNat / 16) ::
      Printer.hexDigit c.toNat :: rest) = (chars? none rest).map (push (some c)) := by
  have hhigh : isHighSurrogate c.toNat = false := by
    simp only [isHighSurrogate, Bool.and_eq_false_iff, decide_eq_false_iff_not]
    omega
  have hlow : isLowSurrogate c.toNat = false := by
    simp only [isLowSurrogate, Bool.and_eq_false_iff, decide_eq_false_iff_not]
    omega
  simp [chars?, hex4?_control c.toNat h, hhigh, hlow]

theorem chars?_self {c : Char} (hquote : c ≠ '"') (hbackslash : c ≠ '\\') (h : ¬c.toNat < 0x20)
    (rest : List Char) : chars? none (c :: rest) = (chars? none rest).map (push (some c)) := by
  rw [chars?]
  · simp [h]
  · simpa using hquote
  · simp [hbackslash]
  · simp [hbackslash]

/-- An escaped character is read as the character. -/
theorem chars?_escaped (c : Char) (rest : List Char) :
    chars? none (Printer.escaped c ++ rest) = (chars? none rest).map (push (some c)) := by
  unfold Printer.escaped
  split
  · exact chars?_backslash (by rw [‹c = _›]; rfl) rest
  rename_i hquote
  split
  · exact chars?_backslash (by rw [‹c = _›]; rfl) rest
  rename_i hbackslash
  -- The other short escapes.
  iterate 5
    split
    · exact chars?_backslash (by rw [‹c = _›]; rfl) rest
  split
  · exact chars?_control ‹_› rest
  · exact chars?_self hquote hbackslash ‹_› rest

theorem chars?_quoted (cs rest : List Char) :
    chars? none (cs.flatMap Printer.escaped ++ '"' :: rest) = some (some cs, rest) := by
  induction cs with
  | nil => simp [chars?]
  | cons c cs ih =>
    rw [List.flatMap_cons, List.append_assoc, chars?_escaped, ih]
    rfl

/-! ### White space -/

theorem skipSpace_append {ws : List Char} (h : ∀ c ∈ ws, isSpace c = true) (cs : List Char) :
    skipSpace (ws ++ cs) = skipSpace cs :=
  List.dropWhile_append_of_pos h

theorem skipSpace_cons {c : Char} (h : isSpace c = false) (cs : List Char) :
    skipSpace (c :: cs) = c :: cs := by
  rw [skipSpace, List.dropWhile_cons, h]
  rfl

variable {fuel depth : Nat} {cs ds r rest : List Char}

/-- The readers do not look at white space in front. -/
theorem value?_congr (h : skipSpace cs = skipSpace ds) :
    value? fuel depth cs = value? fuel depth ds := by
  cases fuel with
  | zero => rw [value?, value?]
  | succ fuel => rw [value?, value?, h]

theorem elements?_congr (h : skipSpace cs = skipSpace ds) :
    elements? fuel depth cs = elements? fuel depth ds := by
  cases fuel with
  | zero => rw [elements?, elements?]
  | succ fuel => rw [elements?, elements?, value?_congr h]

theorem fields?_congr (h : skipSpace cs = skipSpace ds) :
    fields? fuel depth cs = fields? fuel depth ds := by
  cases fuel with
  | zero => rw [fields?, fields?]
  | succ fuel => rw [fields?, fields?, h]

/-! ### Values of each form -/

theorem value?_bracket : value? fuel depth (']' :: r) = none := by
  cases fuel with
  | zero => rw [value?]
  | succ fuel => rw [value?]; rfl

theorem elements?_bracket : elements? fuel depth (']' :: r) = none := by
  cases fuel with
  | zero => rw [elements?]
  | succ fuel => rw [elements?, value?_bracket]

theorem fields?_brace : fields? fuel depth ('\x7d' :: r) = none := by
  cases fuel with
  | zero => rw [fields?]
  | succ fuel => rw [fields?]; rfl

theorem value?_quoted (s : String) :
    value? (fuel + 1) depth (Printer.quoted s ++ rest) = some (.str s, rest) := by
  have htext : Printer.quoted s ++ rest =
      '"' :: (s.toList.flatMap Printer.escaped ++ '"' :: rest) := by
    simp [Printer.quoted]
  rw [htext, value?, skipSpace_cons (by decide)]
  simp [chars?_quoted]

/-- A numeral begins with a minus sign or with a digit. -/
theorem exists_cons_of_read? {p : Json × List Char} (h : Numeral.read? cs = some p) :
    ∃ c r, cs = c :: r ∧ ∀ d : Char, d.isDigit = false → d ≠ '-' → c ≠ d := by
  cases cs with
  | nil => cases h
  | cons c r =>
    refine ⟨c, r, rfl, ?_⟩
    rintro _ hdigit hminus rfl
    have hnone : Numeral.digits? (c :: r) = none := by simp [Numeral.digits?, hdigit]
    have hparts : Numeral.parts? (c :: r) = none := by
      simp [Numeral.parts?, hminus, Numeral.whole?, hnone]
    rw [Numeral.read?, hparts] at h
    cases h

theorem value?_numeral {p : Json × List Char} (h : Numeral.read? cs = some p) :
    value? (fuel + 1) depth cs = some p := by
  obtain ⟨c, r, rfl, hc⟩ := exists_cons_of_read? h
  have hspace : isSpace c = false := by
    simp [isSpace, hc ' ' (by decide) (by decide), hc '\t' (by decide) (by decide),
      hc '\n' (by decide) (by decide), hc '\r' (by decide) (by decide)]
  rw [value?, skipSpace_cons hspace]
  split
  · exact absurd (List.head_eq_of_cons_eq ‹_›) (hc '"' (by decide) (by decide))
  · exact absurd (List.head_eq_of_cons_eq ‹_›) (hc '[' (by decide) (by decide))
  · exact absurd (List.head_eq_of_cons_eq ‹_›) (hc '\x7b' (by decide) (by decide))
  · exact absurd (List.head_eq_of_cons_eq ‹_›) (hc 'n' (by decide) (by decide))
  · exact absurd (List.head_eq_of_cons_eq ‹_›) (hc 't' (by decide) (by decide))
  · exact absurd (List.head_eq_of_cons_eq ‹_›) (hc 'f' (by decide) (by decide))
  · exact h

/-! ### Containers -/

section Containers

variable {name : String} {j : Json} {items : List Json} {fields : List (String × Json)}

theorem elements?_last (hvalue : value? fuel depth cs = some (j, r))
    (hr : skipSpace r = ']' :: rest) : elements? (fuel + 1) depth cs = some ([j], rest) := by
  rw [elements?, hvalue]
  simp only [hr]

theorem elements?_next (hvalue : value? fuel depth cs = some (j, r))
    (hr : skipSpace r = ',' :: ds) (hitems : elements? fuel depth ds = some (items, rest)) :
    elements? (fuel + 1) depth cs = some (j :: items, rest) := by
  rw [elements?, hvalue]
  simp only [hr, hitems, Option.map_some]

theorem fields?_last (hvalue : value? fuel depth cs = some (j, r))
    (hr : skipSpace r = '\x7d' :: rest) :
    fields? (fuel + 1) depth (Printer.quoted name ++ ':' :: cs) =
      some (some [(name, j)], rest) := by
  rw [fields?, Printer.quoted, List.cons_append, skipSpace_cons (by decide), List.append_assoc]
  simp [chars?_quoted, skipSpace_cons, isSpace, hvalue, hr]

theorem fields?_next (hvalue : value? fuel depth cs = some (j, r))
    (hr : skipSpace r = ',' :: ds) (hfields : fields? fuel depth ds = some (some fields, rest)) :
    fields? (fuel + 1) depth (Printer.quoted name ++ ':' :: cs) =
      some (some ((name, j) :: fields), rest) := by
  rw [fields?, Printer.quoted, List.cons_append, skipSpace_cons (by decide), List.append_assoc]
  simp [chars?_quoted, skipSpace_cons, isSpace, hvalue, hr, hfields]

theorem value?_emptyList (hdepth : depth < maxDepth) :
    value? (fuel + 1) depth (['[', ']'] ++ rest) = some (.arr [], rest) := by
  rw [List.cons_append, value?, skipSpace_cons (by decide)]
  simp [skipSpace_cons, isSpace, nested, hdepth]

theorem value?_emptyObject (hdepth : depth < maxDepth) :
    value? (fuel + 1) depth (['\x7b', '\x7d'] ++ rest) = some (.obj [], rest) := by
  rw [List.cons_append, value?, skipSpace_cons (by decide)]
  simp [skipSpace_cons, isSpace, nested, hdepth]

theorem value?_elements (hdepth : depth < maxDepth)
    (h : elements? fuel (depth + 1) r = some (items, rest)) :
    value? (fuel + 1) depth ('[' :: r) = some (.arr items, rest) := by
  have hskip : elements? fuel (depth + 1) (skipSpace r) = some (items, rest) :=
    (elements?_congr (List.dropWhile_idempotent ..)).trans h
  rw [value?, skipSpace_cons (by decide)]
  simp only
  split
  · rw [‹skipSpace r = _›, elements?_bracket] at hskip
    cases hskip
  · rw [hskip, Option.map_some, nested, if_pos hdepth]

theorem value?_fields (hdepth : depth < maxDepth)
    (h : fields? fuel (depth + 1) r = some (some fields, rest)) :
    value? (fuel + 1) depth ('\x7b' :: r) = some (.obj fields, rest) := by
  have hskip : fields? fuel (depth + 1) (skipSpace r) = some (some fields, rest) :=
    (fields?_congr (List.dropWhile_idempotent ..)).trans h
  rw [value?, skipSpace_cons (by decide)]
  simp only
  split
  · rw [‹skipSpace r = _›, fields?_brace] at hskip
    cases hskip
  · rw [hskip, Option.map_some, nested, if_pos hdepth]
    rfl

end Containers

end Reader

/-! ### One printer for all layouts -/

/-- Where white space stands in a text: before each item and before the closing bracket of a
container that is not empty, depending on the level, and behind the colon of a field. -/
structure Layout where
  line : Nat → List Char
  gap : List Char
  isSpace_line : ∀ level, ∀ c ∈ line level, isSpace c = true
  isSpace_gap : ∀ c ∈ gap, isSpace c = true

namespace Layout

/-- No white space at all. -/
def dense : Layout where
  line _ := []
  gap := []
  isSpace_line _ _ h := absurd h List.not_mem_nil
  isSpace_gap _ h := absurd h List.not_mem_nil

/-- One item to a line, indented by its level. -/
def indented : Layout where
  line := Printer.line
  gap := [' ']
  isSpace_line level c h := by
    rcases List.mem_cons.1 h with rfl | h
    · rfl
    · rw [List.eq_of_mem_replicate h]
      rfl
  isSpace_gap c h := by
    rw [List.mem_singleton.1 h]
    rfl

variable (l : Layout)

mutual

/-- A value whose first line is begun already, its further lines at `level`. What is no container,
or an empty one, looks alike in every layout. -/
def value (level : Nat) : Json → List Char
  | .arr [] => ['[', ']']
  | .arr (j :: rest) =>
    '[' :: (l.line (level + 1) ++ items (level + 1) (j :: rest) ++ l.line level ++ [']'])
  | .obj [] => ['\x7b', '\x7d']
  | .obj (f :: rest) =>
    '\x7b' :: (l.line (level + 1) ++ fields (level + 1) (f :: rest) ++ l.line level ++ ['\x7d'])
  | j => Printer.compact j

def items (level : Nat) : List Json → List Char
  | [] => []
  | [j] => value level j
  | j :: k :: rest => value level j ++ ',' :: (l.line level ++ items level (k :: rest))

def fields (level : Nat) : List (String × Json) → List Char
  | [] => []
  | [(name, j)] => Printer.quoted name ++ ':' :: (l.gap ++ value level j)
  | (name, j) :: f :: rest =>
    Printer.quoted name ++ ':' :: (l.gap ++ value level j) ++
      ',' :: (l.line level ++ fields level (f :: rest))

end

mutual

theorem value_dense (level : Nat) : ∀ j : Json, dense.value level j = Printer.compact j
  | .arr [] => rfl
  | .arr (j :: rest) => by
    have hitems := items_dense (level + 1) (j :: rest)
    show '[' :: (dense.items (level + 1) (j :: rest) ++ [] ++ [']']) =
      '[' :: (Printer.compactItems (j :: rest) ++ [']'])
    rw [List.append_nil, hitems]
  | .obj [] => rfl
  | .obj (f :: rest) => by
    have hfields := fields_dense (level + 1) (f :: rest)
    show '\x7b' :: (dense.fields (level + 1) (f :: rest) ++ [] ++ ['\x7d']) =
      '\x7b' :: (Printer.compactFields (f :: rest) ++ ['\x7d'])
    rw [List.append_nil, hfields]
  | .null | .bool _ | .int _ | .decimal _ | .str _ | .invalid => rfl

theorem items_dense (level : Nat) :
    ∀ items : List Json, dense.items level items = Printer.compactItems items
  | [] => rfl
  | [j] => value_dense level j
  | j :: k :: rest => by
    have hrest := items_dense level (k :: rest)
    show dense.value level j ++ ',' :: dense.items level (k :: rest) =
      Printer.compact j ++ ',' :: Printer.compactItems (k :: rest)
    rw [value_dense level j, hrest]

theorem fields_dense (level : Nat) :
    ∀ fields : List (String × Json), dense.fields level fields = Printer.compactFields fields
  | [] => rfl
  | [(name, j)] => congrArg (fun text ↦ Printer.quoted name ++ ':' :: text) (value_dense level j)
  | (name, j) :: f :: rest => by
    have hrest := fields_dense level (f :: rest)
    show Printer.quoted name ++ ':' :: dense.value level j ++
        ',' :: dense.fields level (f :: rest) =
      Printer.quoted name ++ ':' :: Printer.compact j ++
        ',' :: Printer.compactFields (f :: rest)
    rw [value_dense level j, hrest]

end

mutual

theorem value_indented (level : Nat) : ∀ j : Json, indented.value level j = Printer.pretty level j
  | .arr [] => rfl
  | .arr (j :: rest) =>
    congrArg (fun text ↦ '[' :: (Printer.line (level + 1) ++ text ++ Printer.line level ++ [']']))
      (items_indented (level + 1) (j :: rest))
  | .obj [] => rfl
  | .obj (f :: rest) =>
    congrArg
      (fun text ↦ '\x7b' :: (Printer.line (level + 1) ++ text ++ Printer.line level ++ ['\x7d']))
      (fields_indented (level + 1) (f :: rest))
  | .null | .bool true | .bool false | .int _ | .decimal _ | .str _ | .invalid => rfl

theorem items_indented (level : Nat) :
    ∀ items : List Json, indented.items level items = Printer.prettyItems level items
  | [] => rfl
  | [j] => value_indented level j
  | j :: k :: rest => by
    have hrest := items_indented level (k :: rest)
    show indented.value level j ++ ',' :: (Printer.line level ++ indented.items level (k :: rest)) =
      Printer.pretty level j ++ ',' :: (Printer.line level ++ Printer.prettyItems level (k :: rest))
    rw [value_indented level j, hrest]

theorem fields_indented (level : Nat) :
    ∀ fields : List (String × Json),
      indented.fields level fields = Printer.prettyFields level fields
  | [] => rfl
  | [(name, j)] =>
    congrArg (fun text ↦ Printer.quoted name ++ ':' :: ' ' :: text) (value_indented level j)
  | (name, j) :: f :: rest => by
    have hrest := fields_indented level (f :: rest)
    show Printer.quoted name ++ ':' :: ' ' :: indented.value level j ++
        ',' :: (Printer.line level ++ indented.fields level (f :: rest)) =
      Printer.quoted name ++ ':' :: ' ' :: Printer.pretty level j ++
        ',' :: (Printer.line level ++ Printer.prettyFields level (f :: rest))
    rw [value_indented level j, hrest]

end

/-! ### Reading back -/

open Reader (value? elements?)

variable {l}

variable {c : Char} {j : Json} {depth fuel level : Nat} {rest : List Char}

theorem skipSpace_line (hc : isSpace c = false) (level : Nat) :
    skipSpace (l.line level ++ c :: rest) = c :: rest := by
  rw [Reader.skipSpace_append (l.isSpace_line level), Reader.skipSpace_cons hc]

theorem value?_gap (cs : List Char) : value? fuel depth (l.gap ++ cs) = value? fuel depth cs :=
  Reader.value?_congr (Reader.skipSpace_append l.isSpace_gap cs)

theorem elements?_line (level : Nat) (cs : List Char) :
    elements? fuel depth (l.line level ++ cs) = elements? fuel depth cs :=
  Reader.elements?_congr (Reader.skipSpace_append (l.isSpace_line level) cs)

theorem fields?_line (level : Nat) (cs : List Char) :
    Reader.fields? fuel depth (l.line level ++ cs) = Reader.fields? fuel depth cs :=
  Reader.fields?_congr (Reader.skipSpace_append (l.isSpace_line level) cs)

theorem endsNumeral_cons (h : c.isDigit = false ∧ c ≠ '.' ∧ c ≠ 'e' ∧ c ≠ 'E') :
    EndsNumeral (c :: rest) := by
  rintro _ ⟨⟩
  exact h

theorem endsNumeral_line (hc : EndsNumeral (c :: rest)) (level : Nat) :
    EndsNumeral (l.line level ++ c :: rest) := by
  have hspace := l.isSpace_line level
  cases hline : l.line level with
  | nil => exact hc
  | cons a ws =>
    have ha : a = ' ' ∨ a = '\t' ∨ a = '\n' ∨ a = '\r' := by
      simpa [isSpace, or_assoc] using hspace a (hline ▸ List.mem_cons_self)
    refine endsNumeral_cons ?_
    rcases ha with rfl | rfl | rfl | rfl <;> decide

/-- The text of the value is read as the value inside `depth` containers. The reader takes at most
one step for each character, and one more. -/
def ReadsBack (l : Layout) (depth : Nat) (j : Json) : Prop :=
  ∀ ⦃fuel level : Nat⦄ ⦃rest : List Char⦄, (l.value level j).length ≤ fuel → EndsNumeral rest →
    value? (fuel + 1) depth (l.value level j ++ rest) = some (j, rest)

theorem ReadsBack.gap (h : l.ReadsBack depth j) (hfuel : (l.value level j).length ≤ fuel)
    (hrest : EndsNumeral rest) :
    value? (fuel + 1) depth (l.gap ++ (l.value level j ++ rest)) = some (j, rest) :=
  (value?_gap _).trans (h hfuel hrest)

theorem elements?_items {items : List Json} (h : ∀ k ∈ j :: items, l.ReadsBack depth k)
    (hfuel : (l.items level (j :: items)).length ≤ fuel) (rest : List Char) (outer : Nat) :
    elements? (fuel + 2) depth (l.items level (j :: items) ++ (l.line outer ++ ']' :: rest)) =
      some (j :: items, rest) := by
  induction items generalizing j fuel with
  | nil =>
    rw [Layout.items] at hfuel ⊢
    have hends : EndsNumeral (l.line outer ++ ']' :: rest) :=
      endsNumeral_line (endsNumeral_cons (by decide)) outer
    exact Reader.elements?_last (h j List.mem_cons_self hfuel hends) (skipSpace_line rfl outer)
  | cons k items ih =>
    rw [Layout.items] at hfuel ⊢
    simp only [List.length_append, List.length_cons] at hfuel
    obtain ⟨fuel, rfl⟩ : ∃ n, fuel = n + 1 := ⟨fuel - 1, by omega⟩
    have hends : EndsNumeral (',' :: (l.line level ++
        (l.items level (k :: items) ++ (l.line outer ++ ']' :: rest)))) :=
      endsNumeral_cons (by decide)
    have hshort : (l.items level (k :: items)).length ≤ fuel := by omega
    have hrest := ih (fun k hk ↦ h k (List.mem_cons_of_mem _ hk)) hshort
    rw [← elements?_line level] at hrest
    simp only [List.append_assoc, List.cons_append]
    exact Reader.elements?_next (h j List.mem_cons_self (by omega) hends)
      (Reader.skipSpace_cons rfl _) hrest

theorem fields?_fields {name : String} {fields : List (String × Json)}
    (h : ∀ f ∈ (name, j) :: fields, l.ReadsBack depth f.2)
    (hfuel : (l.fields level ((name, j) :: fields)).length ≤ fuel) (rest : List Char)
    (outer : Nat) :
    Reader.fields? (fuel + 2) depth
        (l.fields level ((name, j) :: fields) ++ (l.line outer ++ '\x7d' :: rest)) =
      some (some ((name, j) :: fields), rest) := by
  induction fields generalizing name j fuel with
  | nil =>
    have hj : l.ReadsBack depth j := h _ List.mem_cons_self
    rw [Layout.fields] at hfuel ⊢
    simp only [List.length_append, List.length_cons] at hfuel
    have hends : EndsNumeral (l.line outer ++ '\x7d' :: rest) :=
      endsNumeral_line (endsNumeral_cons (by decide)) outer
    simp only [List.append_assoc, List.cons_append]
    exact Reader.fields?_last (hj.gap (by omega) hends) (skipSpace_line rfl outer)
  | cons f fields ih =>
    obtain ⟨next, k⟩ := f
    have hj : l.ReadsBack depth j := h _ List.mem_cons_self
    rw [Layout.fields] at hfuel ⊢
    simp only [List.length_append, List.length_cons] at hfuel
    obtain ⟨fuel, rfl⟩ : ∃ n, fuel = n + 1 := ⟨fuel - 1, by omega⟩
    have hends : EndsNumeral (',' :: (l.line level ++
        (l.fields level ((next, k) :: fields) ++ (l.line outer ++ '\x7d' :: rest)))) :=
      endsNumeral_cons (by decide)
    have hshort : (l.fields level ((next, k) :: fields)).length ≤ fuel := by omega
    have hrest := ih (fun f hf ↦ h f (List.mem_cons_of_mem _ hf)) hshort
    rw [← fields?_line level] at hrest
    simp only [List.append_assoc, List.cons_append]
    exact Reader.fields?_next (hj.gap (by omega) hends) (Reader.skipSpace_cons rfl _) hrest

/-- **What a printer writes is read back.** -/
theorem readsBack (l : Layout) {d : Nat} (h : Plain d j) (hd : depth + d ≤ maxDepth) :
    l.ReadsBack depth j := by
  induction h generalizing depth with
  | null => exact fun fuel level rest _ _ ↦ rfl
  | bool b => cases b <;> exact fun fuel level rest _ _ ↦ rfl
  | int hn =>
    exact fun fuel level rest _ hrest ↦ Reader.value?_numeral (Numeral.read?_integer hn hrest)
  | str s => exact fun fuel level rest _ _ ↦ Reader.value?_quoted s
  | @arr d items h ih =>
    intro fuel level rest hfuel _
    have hitems : ∀ j ∈ items, l.ReadsBack (depth + 1) j := fun j hj ↦ ih j hj (by omega)
    cases items with
    | nil =>
      rw [value]
      exact Reader.value?_emptyList (by omega)
    | cons j items =>
      rw [value] at hfuel ⊢
      simp only [List.length_append, List.length_cons, List.length_nil] at hfuel
      obtain ⟨fuel, rfl⟩ : ∃ n, fuel = n + 2 := ⟨fuel - 2, by omega⟩
      have hshort : (l.items (level + 1) (j :: items)).length ≤ fuel := by omega
      have helements := elements?_items hitems hshort rest level
      rw [← elements?_line (level + 1)] at helements
      simp only [List.cons_append, List.append_assoc, List.nil_append]
      exact Reader.value?_elements (by omega) helements
  | @obj d fields h ih =>
    intro fuel level rest hfuel _
    have hfields : ∀ f ∈ fields, l.ReadsBack (depth + 1) f.2 := fun f hf ↦ ih f hf (by omega)
    cases fields with
    | nil =>
      rw [value]
      exact Reader.value?_emptyObject (by omega)
    | cons f fields =>
      obtain ⟨name, j⟩ := f
      rw [value] at hfuel ⊢
      simp only [List.length_append, List.length_cons, List.length_nil] at hfuel
      obtain ⟨fuel, rfl⟩ : ∃ n, fuel = n + 2 := ⟨fuel - 2, by omega⟩
      have hshort : (l.fields (level + 1) ((name, j) :: fields)).length ≤ fuel := by omega
      have hread := fields?_fields hfields hshort rest level
      rw [← fields?_line (level + 1)] at hread
      simp only [List.cons_append, List.append_assoc, List.nil_append]
      exact Reader.value?_fields (by omega) hread

end Layout

/-! ### Whole texts -/

theorem read?_value (l : Layout) {d : Nat} {j : Json} (h : Plain d j) (hd : d ≤ maxDepth) :
    read? (.ofList (l.value 0 j)) = some j := by
  have hdepth : 0 + d ≤ maxDepth := by omega
  have hfuel : (l.value 0 j).length ≤ 2 * (l.value 0 j).length + 1 := by omega
  have hends : EndsNumeral [] := by
    rintro _ ⟨⟩
  have hvalue := l.readsBack h hdepth hfuel hends
  rw [List.append_nil] at hvalue
  rw [read?, String.toList_ofList, hvalue]
  rfl

theorem read?_compact {d : Nat} {j : Json} (h : Plain d j) (hd : d ≤ maxDepth) :
    read? j.compact = some j := by
  rw [compact, ← Layout.value_dense 0]
  exact read?_value _ h hd

theorem read?_pretty {d : Nat} {j : Json} (h : Plain d j) (hd : d ≤ maxDepth) :
    read? j.pretty = some j := by
  rw [pretty, ← Layout.value_indented 0]
  exact read?_value _ h hd

end ClassWeave.Json
