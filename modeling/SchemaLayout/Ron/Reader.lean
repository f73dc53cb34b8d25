import SchemaLayout.Ron.Identifier
import SchemaLayout.Ron.Number
import SchemaLayout.Ron.Text
import SchemaLayout.Ron.Value

/-!
# Reading RON

A file in RON holds one value, which may be preceded by attributes that switch on extensions of the
format. `value` reads a value of any kind. Values can lie in each other to a depth that is limited
by a budget: a list, a record or a map takes one from the budget, and each thing in it takes
another. The recursion runs along that budget.

`parse` reads a whole file.
-/

namespace SchemaLayout.Ron

/-! ## Values -/

/-- Takes the name of a field, a colon and a value. -/
def field (value : Reader Value) : Reader (String × Value) := fun s => do
  let name ← identifier s
  let colon ← name.next (expectSpaced ':')
  let content ← colon.next value
  return content.map fun v => (name.value, v)

/-- Takes a value, a colon and another value. -/
def entry (value : Reader Value) : Reader (Value × Value) := fun s => do
  let key ← value s
  let colon ← key.next (expectSpaced ':')
  let content ← colon.next value
  return content.map fun v => (key.value, v)

/-- Whether a text begins with the name of a field. -/
def startsField (s : List Char) : Bool :=
  match identifier s with
  | some name => (expectSpaced ':' name.rest).isSome
  | none => false

/-- Takes what follows an opening parenthesis: the fields of a record or the items of a tuple.
Empty parentheses are a record without fields. -/
def parenthesized (name : Option String) (value : Reader Value) : Reader Value := fun s => do
  let blank ← skipBlank s
  if blank.rest.head? = some ')' || startsField blank.rest then
    let fields ← blank.take (separated ')' (field value))
    return fields.map (.record name)
  else
    let items ← blank.take (separated ')' value)
    return items.map fun _ => .other

/-- Takes what follows the word `Some`: a value in parentheses or, with the extension that makes the
word optional, a value by itself. -/
def optional (implicitSome : Bool) (value : Reader Value) : Reader Value := fun s => do
  let blank ← skipBlank s
  match expect '(' blank.rest with
  | some opened =>
    let opened ← opened.skipBlank
    let (_, content) ← (← opened.next value).skipComma
    let closed ← content.next (expect ')')
    return (closed.map fun _ => .other).weaken blank.length_le
  | none =>
    if implicitSome then (blank.take value).map (·.map fun _ => .other) else none

/-- Takes an identifier and what follows it: the rest of a named record or tuple, or nothing. -/
def named (members : Option (Reader Value)) : Reader Value := fun s => do
  let name ← (← identifier s).skipBlank
  match expect '(' name.rest with
  | some opened =>
    (name.combine (fun _ _ => ()) opened).next (parenthesized (some name.value) (← members))
  | none => return name.map fun _ => .other

/-- Takes a value that begins with a word. -/
def word (implicitSome : Bool) (content : Reader Value) (members : Option (Reader Value)) :
    Reader Value := fun s => do
  let letters ← takeRun isIdentifierPart s
  match String.ofList letters.value with
  | "true" => return letters.map fun _ => .bool true
  | "false" => return letters.map fun _ => .bool false
  | "None" | "inf" | "NaN" => return letters.map fun _ => .other
  | "Some" => letters.next (optional implicitSome content)
  | _ => if (identifier s).isSome then named members s else (text s).map (·.map .text)

/-- Takes the word for an infinite number. -/
def infinity : Reader Value := fun s => do
  let letters ← takeRun isIdentifierPart s
  if letters.value = ['i', 'n', 'f'] then return letters.map fun _ => .other else none

/-- Takes a value, given readers for the content of an optional value and, if the budget allows
lists and the like, for their members. -/
def valueWith (implicitSome : Bool) (content : Reader Value) (members : Option (Reader Value)) :
    Reader Value
  | [] => none
  | '(' :: ')' :: s => some ((Taken.one (.record none []) _ s).past _)
  | c :: s => do
    match c with
    | '(' => (parenthesized none (← members) s).map (·.past _)
    | '[' => (separated ']' (← members) s).map fun taken => (taken.map .list).past _
    | '\x7b' =>
      (separated '\x7d' (entry (← members)) s).map fun taken => (taken.map fun _ => .other).past _
    | '"' => (text (c :: s)).map (·.map .text)
    | '\'' => (character (c :: s)).map (·.map fun _ => .other)
    | '.' => floatNumber (c :: s)
    | '-' => ((infinity s).map (·.past _)) <|> number (c :: s)
    | _ =>
      if isIdentifierStart c then word implicitSome content members (c :: s)
      else if c.isDigit || c = '+' then number (c :: s)
      else none

/-- Takes a value within a budget for the depth of what it holds. -/
def value (implicitSome : Bool) (budget : Nat) (s : List Char) : Option (Taken Value s) :=
  match budget with
  | 0 => valueWith implicitSome refuse none s
  | 1 => valueWith implicitSome (value implicitSome 0) (some refuse) s
  | budget + 2 =>
    valueWith implicitSome (value implicitSome (budget + 1)) (some (value implicitSome budget)) s

/-! ## Files -/

/-- An extension of the format. -/
inductive Extension where
  | unwrapNewtypes
  | implicitSome
  | unwrapVariantNewtypes
deriving DecidableEq

/-- The extension of a name. -/
def Extension.ofName? : String → Option Extension
  | "unwrap_newtypes" => some unwrapNewtypes
  | "implicit_some" => some implicitSome
  | "unwrap_variant_newtypes" => some unwrapVariantNewtypes
  | _ => none

/-- Takes the name of an extension. -/
def extension : Reader Extension := fun s => do
  let name ← identifier s
  let extension ← Extension.ofName? name.value
  return name.map fun _ => extension

/-- Takes an attribute with the names of extensions. -/
def extensionAttribute : Reader (List Extension) := fun s => do
  let mark ← expectSpaced '#' s
  let mark ← mark.next (expectSpaced '!')
  let mark ← mark.next (expectSpaced '[')
  let mark ← "enable".toList.foldlM (fun taken c => taken.next (expect c)) mark
  let mark ← mark.next (expectSpaced '(')
  let extensions ← mark.next (separated ')' extension)
  let closed ← extensions.next (expectSpaced ']')
  if extensions.value.isEmpty then none else return closed.map fun _ => extensions.value

/-- The extensions that are switched on at the front of a file, and the text after them. -/
def extensions (s : List Char) : Option (List Extension × List Char) :=
  if s.head? = some '#' then do
    let first ← extensionAttribute s
    let (more, rest) ← extensions first.rest
    return (first.value ++ more, rest)
  else some ([], s)
termination_by s.length
decreasing_by exact first.shorter

/-- How deep the values of a file can lie in each other. -/
def depthBudget : Nat := 128

/-- The value that a file holds, if the file is well formed. -/
def parse (file : String) : Option Value := do
  let blank ← skipBlank file.toList
  let (extensions, rest) ← extensions blank.rest
  let content ← value (extensions.contains .implicitSome) depthBudget rest
  let content ← content.skipBlank
  if content.rest.isEmpty then return content.value else none

end SchemaLayout.Ron
