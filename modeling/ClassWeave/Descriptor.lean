import ClassWeave.ClassName

/-!
# Type and method descriptors

A field type is any number of `[` followed by one of the letters `BCDFIJSZ` or by `L`, a class name
and `;`. A method descriptor is a list of field types between parentheses, followed by a return
type. The functions here take any text: they read as much of this grammar as they need and report
where it fails.

* `parameterTypes` reads the parameters and stops at the first fault;
* `mentions` finds the classes named anywhere, `mapClasses` renames them.
-/

namespace ClassWeave

inductive DescriptorError where
  | notAMethod (desc : String)
  /-- The offset is in bytes of UTF-8. -/
  | malformed (desc : String) (offset : Nat)
  deriving DecidableEq, Repr

def DescriptorError.message : DescriptorError → String
  | notAMethod desc => "`" ++ desc ++ "` is not a method descriptor"
  | malformed desc offset => "malformed descriptor `" ++ desc ++ "` at offset " ++ toString offset

namespace Descriptor

/-! ### Methods -/

/-- The parameter list and the return type of a method descriptor. -/
def splitChars? : List Char → Option (List Char × List Char)
  | '(' :: r =>
    match r.dropWhile (· ≠ ')') with
    | _ :: ret => some (r.takeWhile (· ≠ ')'), ret)
    | [] => none
  | _ => none

def isMethod (desc : String) : Bool := desc.toList.head? = some '('

def splitMethod (desc : String) : Except DescriptorError (String × String) :=
  match splitChars? desc.toList with
  | some (params, ret) => .ok (.ofList params, .ofList ret)
  | none => .error (.notAMethod desc)

def returnType (desc : String) : Except DescriptorError String := (·.2) <$> splitMethod desc

def returnsVoid (desc : String) : Bool :=
  match returnType desc with
  | .ok ret => ret = "V"
  | .error _ => false

/-- A method descriptor up to its closing parenthesis, any other descriptor as a whole. -/
def parameterPart (desc : String) : String :=
  match splitChars? desc.toList with
  | some (params, _) => .ofList ('(' :: (params ++ [')']))
  | none => desc

/-! ### Parameter types -/

def isPrimitive (c : Char) : Bool := "BCDFIJSZ".toList.contains c

/-- Takes a field type without its brackets off the front. -/
def takeElement? : List Char → Option (List Char × List Char)
  | 'L' :: r =>
    match r.dropWhile (· ≠ ';') with
    | _ :: rest => some ('L' :: (r.takeWhile (· ≠ ';') ++ [';']), rest)
    | [] => none
  | c :: r => if isPrimitive c then some ([c], r) else none
  | [] => none

/-- Takes a field type off the front. A failure gives the text from the fault on: the whole of it
where brackets end the text, else the text after the brackets. -/
def takeType (cs : List Char) : Except (List Char) (List Char × List Char) :=
  let brackets := cs.takeWhile (· = '[')
  match cs.dropWhile (· = '[') with
  | [] => .error cs
  | r =>
    match takeElement? r with
    | some (element, rest) => .ok (brackets ++ element, rest)
    | none => .error r

/-- Cuts a text into field types, with as many steps as it has characters at most. -/
def takeTypes : Nat → List Char → Except (List Char) (List (List Char))
  | _, [] => .ok []
  | 0, cs => .error cs
  | fuel + 1, cs =>
    match takeType cs with
    | .error fault => .error fault
    | .ok (t, rest) => (t :: ·) <$> takeTypes fuel rest

def byteSize (cs : List Char) : Nat := (cs.map Char.utf8Size).foldr (· + ·) 0

/-- The parameter types of a method descriptor. -/
def parameterTypes (desc : String) : Except DescriptorError (List String) :=
  match splitChars? desc.toList with
  | none => .error (.notAMethod desc)
  | some (params, _) =>
    match takeTypes params.length params with
    | .ok types => .ok (types.map .ofList)
    | .error fault => .error (.malformed desc (byteSize params - byteSize fault + 1))

/-- The descriptor without its first parameter. -/
def withoutFirstParameter (desc : String) : Except DescriptorError String := do
  let types ← parameterTypes desc
  let ret ← returnType desc
  return "(" ++ String.join (types.drop 1) ++ ")" ++ ret

/-! ### Classes named in a descriptor -/

/-- The name in the descriptor of an object type. -/
def objectName? : List Char → Option (List Char)
  | 'L' :: r => if r.getLast? = some ';' then some r.dropLast else none
  | _ => none

/-- The class of an object type; arrays and primitive types have none. -/
def objectType? (desc : String) : Option ClassName :=
  (objectName? desc.toList).map fun cs ↦ .ofText (.ofList cs)

/-- The class of an object type, or of the elements of an array type. -/
def elementClass? (desc : String) : Option ClassName :=
  objectType? (.ofList (desc.toList.dropWhile (· = '[')))

/-- The names between an `L` and the next `;`, each with the text before its `L`, and the text after
the last of them. -/
def mentions : Nat → List Char → List (List Char × List Char) × List Char
  | 0, cs => ([], cs)
  | fuel + 1, cs =>
    match cs.dropWhile (· ≠ 'L') with
    | [] => ([], cs)
    | _ :: r =>
      match r.dropWhile (· ≠ ';') with
      | [] => ([], cs)
      | _ :: rest =>
        let (more, tail) := mentions fuel rest
        ((cs.takeWhile (· ≠ 'L'), r.takeWhile (· ≠ ';')) :: more, tail)

/-- Every class named in a descriptor. -/
def referencedClasses (desc : String) : List ClassName :=
  (mentions desc.length desc.toList).1.map fun m ↦ .ofText (.ofList m.2)

/-- Renames the classes of a descriptor; `none` when none of them is renamed. -/
def mapClasses (f : ClassName → Option ClassName) (desc : String) : Option String :=
  let (found, tail) := mentions desc.length desc.toList
  let renamed (m : List Char × List Char) : Option (List Char) :=
    (f (.ofText (.ofList m.2))).map fun c ↦ c.text.toList
  if found.any fun m ↦ (renamed m).isSome then
    some <| .ofList <|
      found.flatMap (fun m ↦ m.1 ++ 'L' :: ((renamed m).getD m.2 ++ [';'])) ++ tail
  else none

end Descriptor

end ClassWeave
