import SchemaLayout.Ron.Blank

/-!
# Readers

A reader takes something from the front of a text. It says what it has taken and leaves a rest that
is shorter than the text, so that readers can be repeated without counting: `separated` reads a list
of things, and ends because each of them uses up some of the text.
-/

namespace SchemaLayout.Ron

/-- What has been taken from the front of a text `s`. -/
structure Taken (α : Type) (s : List Char) where
  value : α
  rest : List Char
  shorter : rest.length < s.length

/-- Takes something from the front of a text, or fails. -/
abbrev Reader (α : Type) : Type := (s : List Char) → Option (Taken α s)

namespace Taken

variable {α β γ : Type} {s t : List Char}

/-- The first character of a text, taken as a value. -/
def one (value : α) (c : Char) (s : List Char) : Taken α (c :: s) :=
  ⟨value, s, Nat.lt_succ_self _⟩

/-- What has been taken, with another value. -/
def map (f : α → β) (taken : Taken α s) : Taken β s := ⟨f taken.value, taken.rest, taken.shorter⟩

/-- What has been taken from the end of a text has been taken from the text. -/
def weaken (taken : Taken α t) (h : t.length ≤ s.length) : Taken α s :=
  ⟨taken.value, taken.rest, Nat.lt_of_lt_of_le taken.shorter h⟩

/-- What has been taken, together with a character in front of it. -/
def past (c : Char) (taken : Taken α s) : Taken α (c :: s) := taken.weaken (Nat.le_succ _)

/-- Two things that have been taken one after the other. -/
def combine (f : α → β → γ) (first : Taken α s) (second : Taken β first.rest) : Taken γ s :=
  ⟨f first.value second.value, second.rest, Nat.lt_trans second.shorter first.shorter⟩

/-- Takes something after what has been taken, and keeps its value only. -/
def next (first : Taken α s) (reader : Reader β) : Option (Taken β s) :=
  (reader first.rest).map (first.combine fun _ value => value)

/-- Takes the blanks that follow what has been taken. -/
def skipBlank (taken : Taken α s) : Option (Taken α s) :=
  (Ron.skipBlank taken.rest).map fun skipped =>
    ⟨taken.value, skipped.rest, Nat.lt_of_le_of_lt skipped.length_le taken.shorter⟩

end Taken

variable {α : Type}

/-- Takes something after what has been skipped. -/
def Skipped.take {s : List Char} (skipped : Skipped s) (reader : Reader α) : Option (Taken α s) :=
  (reader skipped.rest).map (·.weaken skipped.length_le)

/-- The reader that fails on every text. -/
def refuse : Reader α := fun _ => none

/-- Takes one character. -/
def expect (c : Char) : Reader Unit
  | [] => none
  | d :: s => if d = c then some (.one () d s) else none

/-- Takes one character after blanks, and the blanks that follow it. -/
def expectSpaced (c : Char) : Reader Unit := fun s => do
  let blank ← skipBlank s
  let taken ← blank.take (expect c)
  taken.skipBlank

/-- Takes the longest run of characters of a class, if it is not empty. -/
def takeRun (p : Char → Bool) : Reader (List Char)
  | [] => none
  | c :: s =>
    if p c then
      some ⟨c :: s.takeWhile p, s.dropWhile p,
        Nat.lt_succ_of_le (List.dropWhile_sublist p).length_le⟩
    else none

/-- Takes the blanks that follow what has been taken and at most one comma among them, and tells
whether there was one. -/
def Taken.skipComma {s : List Char} (taken : Taken α s) : Option (Bool × Taken α s) := do
  let taken ← taken.skipBlank
  match expect ',' taken.rest with
  | some comma => return (true, ← (taken.combine (fun value _ => value) comma).skipBlank)
  | none => return (false, taken)

/-- Takes things that are separated by commas up to a closing character, which is taken too; a last
comma may follow the last of them. -/
def separated (close : Char) (element : Reader α) (s : List Char) : Option (Taken (List α) s) := do
  let blank ← skipBlank s
  match expect close blank.rest with
  | some closed => return (closed.map fun _ => []).weaken blank.length_le
  | none =>
    let first ← blank.take element
    let (more, first) ← first.skipComma
    if more then
      let others ← separated close element first.rest
      return first.combine List.cons others
    else
      let closed ← expect close first.rest
      return first.combine (fun value _ => [value]) closed
termination_by s.length
decreasing_by exact first.shorter

end SchemaLayout.Ron
