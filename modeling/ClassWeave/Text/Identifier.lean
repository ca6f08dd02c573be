/-!
# Texts made fit for a name

A name in a class file is safe when it has only letters, digits and underscores of ASCII.
-/

namespace ClassWeave.Text

/-- Whether a character may stand in an identifier. -/
def isIdentifierChar (c : Char) : Bool := c.isAlphanum || c = '_'

/-- The text with every other character replaced by an underscore. -/
def identifier (s : String) : String :=
  .ofList (s.toList.map fun c ↦ if isIdentifierChar c then c else '_')

end ClassWeave.Text
