import SchemaLayout.Ron.Taken

/-!
# Identifiers

The names of fields and of types in a file in RON: a letter or an underscore with letters, digits
and underscores after it. A raw identifier, which is marked by an `r` and a number sign, may hold
dots and signs as well; without the mark, an identifier that such a character follows at once is an
error. What begins like a raw text is no identifier.
-/

namespace SchemaLayout.Ron

/-- Whether a character can begin an identifier. -/
def isIdentifierStart (c : Char) : Bool := c.isAlpha || c = '_'

/-- Whether a character can stand in an identifier. -/
def isIdentifierPart (c : Char) : Bool := c.isAlphanum || c = '_'

/-- Whether a character can stand in a raw identifier. -/
def isRawPart (c : Char) : Bool := isIdentifierPart c || c = '.' || c = '+' || c = '-'

/-- Takes an identifier that is not marked as raw. -/
def plainIdentifier : Reader String
  | [] => none
  | c :: s => do
    if !isIdentifierStart c then none
    let name ← takeRun isIdentifierPart (c :: s)
    if name.rest.head?.any isRawPart then none
    return name.map .ofList

/-- Takes an identifier. -/
def identifier : Reader String
  | 'r' :: '"' :: _ => none
  | 'r' :: '#' :: s => (takeRun isRawPart s).map fun name => ((name.map .ofList).past _).past _
  | ['r'] => none
  | s => plainIdentifier s

end SchemaLayout.Ron
