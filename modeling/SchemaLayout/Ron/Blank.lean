/-!
# Blanks and comments

What may stand between the parts of a file in RON: spaces, tabs and line ends, comments that begin
with two slashes and go on to the end of the line, and comments between a slash with a star and a
star with a slash, which can be nested. `skipBlank` leaves a text from the first other character on;
a slash that begins no comment, and a comment that does not end, are errors.
-/

namespace SchemaLayout.Ron

/-- Whether a character separates without meaning anything. -/
def isBlank (c : Char) : Bool := c = ' ' || c = '\t' || c = '\n' || c = '\r'

/-- Where a text that is being skipped stands. -/
inductive Skipping where
  | blank
  | lineComment
  /-- In a comment that lies in so many others. -/
  | blockComment (depth : Nat)

namespace Skipping

/-- The rest of a text from the first character on that is neither blank nor in a comment. -/
def skip : Skipping → List Char → Option (List Char)
  | blank, [] => some []
  | blank, '/' :: '/' :: s => skip lineComment s
  | blank, '/' :: '*' :: s => skip (blockComment 0) s
  | blank, c :: s => if c = '/' then none else if isBlank c then skip blank s else some (c :: s)
  | lineComment, [] => some []
  | lineComment, c :: s => if c = '\n' then skip blank s else skip lineComment s
  | blockComment _, [] => none
  | blockComment depth, '/' :: '*' :: s => skip (blockComment (depth + 1)) s
  | blockComment 0, '*' :: '/' :: s => skip blank s
  | blockComment (depth + 1), '*' :: '/' :: s => skip (blockComment depth) s
  | blockComment depth, _ :: s => skip (blockComment depth) s

theorem length_le_of_skip {skipping : Skipping} {s t : List Char} (h : skip skipping s = some t) :
    t.length ≤ s.length := by
  fun_induction skip skipping s <;> simp_all <;> grind

end Skipping

/-- What is left of a text `s` after skipping. -/
structure Skipped (s : List Char) where
  rest : List Char
  length_le : rest.length ≤ s.length

/-- Skips blanks and comments. -/
def skipBlank (s : List Char) : Option (Skipped s) :=
  match h : Skipping.skip .blank s with
  | some rest => some ⟨rest, Skipping.length_le_of_skip h⟩
  | none => none

end SchemaLayout.Ron
