import SchemaLayout.Ron.Taken

/-!
# Texts and characters

A text in a file stands between double quotes, where a backslash begins an escape, or is a raw text:
an `r`, any number of number signs and a double quote, then everything up to a double quote with as
many number signs after it. A single character stands between single quotes.
-/

namespace SchemaLayout.Ron

/-- The value of a hexadecimal digit. -/
def hexDigit? (c : Char) : Option Nat :=
  if c.isDigit then some (c.toNat - '0'.toNat)
  else if 'a' ≤ c ∧ c ≤ 'f' then some (c.toNat - 'a'.toNat + 10)
  else if 'A' ≤ c ∧ c ≤ 'F' then some (c.toNat - 'A'.toNat + 10)
  else none

/-- The number that hexadecimal digits stand for. -/
def hexValue (digits : List Char) : Nat :=
  digits.foldl (fun n c => 16 * n + (hexDigit? c).getD 0) 0

/-- Takes an escape by code, after its letter: one to six hexadecimal digits in braces, which must
be the code of a character. -/
def codeEscaped : Reader Char := fun s => do
  let opened ← expect '\x7b' s
  let digits ← opened.next (takeRun fun c => (hexDigit? c).isSome)
  let closed ← digits.next (expect '\x7d')
  let code := hexValue digits.value
  if digits.value.length ≤ 6 ∧ code.isValidChar then return closed.map fun _ => .ofNat code
  else none

/-- Takes an escape, after its backslash. -/
def escaped : Reader Char
  | [] => none
  | c :: s =>
    match c with
    | '\'' | '"' | '\\' => some (.one c _ s)
    | 'n' => some (.one '\n' _ s)
    | 'r' => some (.one '\r' _ s)
    | 't' => some (.one '\t' _ s)
    | '0' => some (.one '\x00' _ s)
    | 'x' =>
      match s with
      | a :: b :: t => do
        let code := 16 * (← hexDigit? a) + (← hexDigit? b)
        return ((Taken.one (.ofNat code) b t).past a).past _
      | _ => none
    | 'u' => (codeEscaped s).map (·.past _)
    | _ => none

/-- Takes the rest of a quoted text, after the quote that begins it. -/
def quotedRest : Reader (List Char)
  | [] => none
  | c :: s =>
    if c = '"' then some (.one [] c s)
    else if c = '\\' then do
      let first ← escaped s
      let others ← quotedRest first.rest
      return (first.combine List.cons others).past c
    else (quotedRest s).map fun others => (others.map (c :: ·)).past c
termination_by s => s.length
decreasing_by
  · exact Nat.lt_succ_of_lt first.shorter
  · exact Nat.lt_succ_self _

/-- Takes the rest of a raw text that is closed by a quote with `marks` number signs after it. -/
def rawRest (marks : Nat) : Reader (List Char)
  | [] => none
  | c :: s =>
    if c = '"' ∧ (List.replicate marks '#').isPrefixOf s then
      some ⟨[], s.drop marks, Nat.lt_succ_of_le (List.drop_sublist marks s).length_le⟩
    else (rawRest marks s).map fun others => (others.map (c :: ·)).past c

/-- Takes a raw text, after its first letter. -/
def rawText : Reader (List Char) := fun s => do
  let quote ← expect '"' (s.dropWhile (· = '#'))
  let body ← quote.next (rawRest (s.takeWhile (· = '#')).length)
  return body.weaken (List.dropWhile_sublist _).length_le

/-- Takes a text. -/
def text : Reader String
  | '"' :: s => (quotedRest s).map fun taken => (taken.map .ofList).past _
  | 'r' :: s => (rawText s).map fun taken => (taken.map .ofList).past _
  | _ => none

/-- Takes one character of a text, which may be escaped but is no single quote. -/
def characterBody : Reader Char
  | [] => none
  | c :: s =>
    if c = '\'' then none
    else if c = '\\' then (escaped s).map (·.past c)
    else some (.one c c s)

/-- Takes a single character. -/
def character : Reader Char := fun s => do
  let opened ← expect '\'' s
  let body ← opened.next characterBody
  let closed ← body.next (expect '\'')
  return closed.map fun _ => body.value

end SchemaLayout.Ron
