import SchemaLayout.Text.Quoted

/-!
# Writing RON

A `Document` is what is to be written to a file in RON. It can be written compactly, without any
blanks, or prettily, with one item or field to a line and a comma after each.
-/

namespace SchemaLayout.Ron

/-- What is to be written. -/
inductive Document where
  | bool (value : Bool)
  | int (value : Int)
  | text (value : String)
  | list (items : List Document)
  | record (fields : List (String × Document))

namespace Document

/-- The digits of an integer in base ten, after its sign if it is negative. -/
def intDigits (n : Int) : List Char :=
  if n < 0 then '-' :: Nat.toDigits 10 n.natAbs else Nat.toDigits 10 n.natAbs

/-- The word for a truth value. -/
def boolWord (b : Bool) : List Char := (if b then "true" else "false").toList

mutual

/-- The compact form of a document. -/
def compact : Document → List Char
  | bool b => boolWord b
  | int n => intDigits n
  | text s => Text.quoteInFile s
  | list items => '[' :: compactItems items ++ [']']
  | record fields => '(' :: compactFields fields ++ [')']

/-- Items with commas between them. -/
def compactItems : List Document → List Char
  | [] => []
  | [item] => compact item
  | item :: items => compact item ++ ',' :: compactItems items

/-- Fields with commas between them. -/
def compactFields : List (String × Document) → List Char
  | [] => []
  | [(name, value)] => name.toList ++ ':' :: compact value
  | (name, value) :: fields => name.toList ++ ':' :: compact value ++ ',' :: compactFields fields

end

/-- The beginning of a line at some depth: four spaces for each level. -/
def indent (depth : Nat) : List Char := .replicate (4 * depth) ' '

/-- Lines between an opening and a closing character; no lines stay on one line. -/
def enclose (opening closing : Char) (depth : Nat) (lines : List Char) : List Char :=
  if lines.isEmpty then [opening, closing]
  else opening :: '\n' :: lines ++ indent depth ++ [closing]

mutual

/-- The pretty form of a document that stands at some depth. -/
def pretty (depth : Nat) : Document → List Char
  | bool b => boolWord b
  | int n => intDigits n
  | text s => Text.quoteInFile s
  | list items => enclose '[' ']' depth (prettyItems (depth + 1) items)
  | record fields => enclose '(' ')' depth (prettyFields (depth + 1) fields)

/-- A line for each item. -/
def prettyItems (depth : Nat) : List Document → List Char
  | [] => []
  | item :: items => indent depth ++ pretty depth item ++ ',' :: '\n' :: prettyItems depth items

/-- A line for each field. -/
def prettyFields (depth : Nat) : List (String × Document) → List Char
  | [] => []
  | (name, value) :: fields =>
    indent depth ++ name.toList ++ ':' :: ' ' :: pretty depth value
      ++ ',' :: '\n' :: prettyFields depth fields

end

end Document

end SchemaLayout.Ron
