import SchemaLayout.Ron.Taken
import SchemaLayout.Ron.Text
import SchemaLayout.Ron.Value

/-!
# Numbers

An integer is written in base ten or, after `0x`, `0b` or `0o`, in another base; underscores may
stand between its digits, and a sign before all of it. It must fit in 64 bits. A number with a
point, with a signed exponent, or too large for an integer is a floating point number, which has no
underscores. The digits `e` and `E` count as digits of an integer when it is decided which of the
two a number is, so that an exponent without a sign makes no floating point number.
-/

namespace SchemaLayout.Ron

/-- Whether a character can stand in an integer of some base. -/
def isIntegerPart (c : Char) : Bool := (hexDigit? c).isSome || c = '_'

/-- Whether a character can stand in a floating point number. -/
def isFloatPart (c : Char) : Bool :=
  c.isDigit || c = 'e' || c = 'E' || c = '.' || c = '+' || c = '-' || c = '_'

/-- The sign at the front of a text, if there is one, and the text after it. -/
def splitSign : List Char → Option Sign × List Char
  | '+' :: s => (some .plus, s)
  | '-' :: s => (some .minus, s)
  | s => (none, s)

theorem length_splitSign_le (s : List Char) : (splitSign s).2.length ≤ s.length := by
  unfold splitSign
  split <;> simp

/-- The base at the front of a text without its sign, and the text after it. -/
def splitBase : List Char → Nat × List Char
  | '0' :: 'x' :: s => (16, s)
  | '0' :: 'b' :: s => (2, s)
  | '0' :: 'o' :: s => (8, s)
  | s => (10, s)

theorem length_splitBase_le (s : List Char) : (splitBase s).2.length ≤ s.length := by
  unfold splitBase
  split <;> simp <;> omega

/-- The greatest magnitude of an integer with a given sign. -/
def maxMagnitude : Option Sign → Nat
  | none => (1 <<< 64) - 1
  | some .plus => (1 <<< 63) - 1
  | some .minus => 1 <<< 63

/-- What a row of digits stands for. -/
inductive Digits where
  | number (n : Nat)
  /-- The number that the digits up to some point stand for is too large. -/
  | tooLarge
  /-- There is a digit that is not one of the base. -/
  | malformed

/-- Reads digits from left to right, up to the first thing that is wrong with them. -/
def Digits.read (base bound : Nat) : Nat → List Char → Digits
  | n, [] => .number n
  | n, c :: digits =>
    if c = '_' then read base bound n digits
    else if bound < n * base then .tooLarge
    else
      match hexDigit? c with
      | some d =>
        if base ≤ d then .malformed
        else if bound < n * base + d then .tooLarge
        else read base bound (n * base + d) digits
      | none => .malformed

/-- Drops the digits at the front of a text. -/
def dropDigits (s : List Char) : List Char := s.dropWhile Char.isDigit

/-- Whether a text is an exponent or empty. -/
def isExponent : List Char → Bool
  | [] => true
  | c :: s =>
    let digits := (splitSign s).2
    (c = 'e' || c = 'E') && !digits.isEmpty && (dropDigits digits).isEmpty

/-- Whether a text is a floating point number: digits with at most one point among or beside them,
then perhaps an exponent. -/
def isFloat (s : List Char) : Bool :=
  let s := (splitSign s).2
  let afterWhole := dropDigits s
  match afterWhole with
  | '.' :: fraction =>
    (s.head?.any Char.isDigit || fraction.head?.any Char.isDigit) &&
      isExponent (dropDigits fraction)
  | _ => s.head?.any Char.isDigit && isExponent afterWhole

/-- Takes a floating point number. -/
def floatNumber : Reader Value := fun s => do
  let run ← takeRun isFloatPart s
  if run.value.contains '_' || !isFloat run.value then none else return run.map fun _ => .other

/-- Whether the text after a sign is taken for a floating point number. -/
def looksLikeFloat (s : List Char) : Bool :=
  (s.takeWhile isIntegerPart).length < (s.takeWhile isFloatPart).length

/-- Takes an integer; one that is too large is read again as a floating point number. -/
def integer : Reader Value := fun s => do
  let digits ← takeRun isIntegerPart (splitBase (splitSign s).2).2
  if digits.value.head? = some '_' then none
  match Digits.read (splitBase (splitSign s).2).1 (maxMagnitude (splitSign s).1) 0 digits.value with
  | .number n =>
    let number := digits.map fun _ => Value.int (splitSign s).1 n
    return (number.weaken (length_splitBase_le _)).weaken (length_splitSign_le s)
  | .tooLarge => floatNumber s
  | .malformed => none

/-- Takes a number that begins with a digit or a sign. -/
def number : Reader Value := fun s =>
  if looksLikeFloat (splitSign s).2 then floatNumber s else integer s

end SchemaLayout.Ron
