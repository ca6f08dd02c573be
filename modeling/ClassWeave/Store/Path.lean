/-!
# Paths

A path is a text with slashes between its components. Nothing is normalised: joining keeps what is
there, and `components` is what the file tree makes of a path.
-/

namespace ClassWeave.Path

def isAbsolute (p : String) : Bool := p.toList.head? = some '/'

/-- Whether a slash marks the path as that of a directory. -/
def endsInSlash (p : String) : Bool := p.toList.getLast? = some '/'

/-- The text after the last slash. -/
def fileName (p : String) : String :=
  .ofList (p.toList.reverse.takeWhile (· ≠ '/')).reverse

/-- One path after another; an absolute second path stands alone. -/
def join (base rel : String) : String :=
  if isAbsolute rel then rel
  else if base.isEmpty || endsInSlash base then base ++ rel
  else base ++ "/" ++ rel

/-- The pieces of a list between the characters that satisfy a test. -/
def splitOn (p : Char → Bool) : List Char → List (List Char)
  | [] => [[]]
  | c :: cs =>
    if p c then [] :: splitOn p cs
    else
      match splitOn p cs with
      | [] => [[c]]
      | piece :: more => (c :: piece) :: more

/-- The texts between the slashes, without the empty ones. -/
def steps (p : String) : List String :=
  ((splitOn (· = '/') p.toList).map String.ofList).filter (!·.isEmpty)

/-- The steps without those that stay in place. -/
def components (p : String) : List String := (steps p).filter (· ≠ ".")

/-- Removes the slashes, and the components that stay in place, from the end of a reversed path. -/
def trimEnd : List Char → List Char
  | ['/'] => ['/']
  | '/' :: cs => trimEnd cs
  | '.' :: '/' :: cs => trimEnd ('/' :: cs)
  | cs => cs

/-- The path before the last component. -/
def parent (p : String) : String :=
  .ofList (trimEnd ((trimEnd p.toList.reverse).dropWhile (· ≠ '/'))).reverse

def withFileName (p name : String) : String := join (parent p) name

/-- Whether two paths have the same components. -/
def same (p q : String) : Bool := isAbsolute p = isAbsolute q && components p = components q

end ClassWeave.Path
