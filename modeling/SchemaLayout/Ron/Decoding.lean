import SchemaLayout.Geometry.Coord
import SchemaLayout.Ron.Value

/-!
# Reading things from values

A thing that is stored as a record is read field by field. The fields can stand in any order, and a
field that the thing does not have is passed over; but a field of the thing must not stand twice,
and the name of a type before the record, if there is one, must be that of the thing.
-/

namespace SchemaLayout.Ron

namespace Value

/-- The truth value of a value. -/
def toBool? : Value → Option Bool
  | bool b => some b
  | _ => none

/-- The coordinate of a value. -/
def toCoord? : Value → Option Coord
  | int (some .minus) n => Coord.ofInt? (-n)
  | int _ n => Coord.ofInt? n
  | _ => none

/-- The word of a value, which is written without a sign. -/
def toWord? : Value → Option UInt32
  | int none n => if n < UInt32.size then some (.ofNat n) else none
  | _ => none

/-- The text of a value. -/
def toText? : Value → Option String
  | text s => some s
  | _ => none

/-- The list of a value, if each item can be read. -/
def toList? {α : Type} (read : Value → Option α) : Value → Option (List α)
  | list items => items.mapM read
  | _ => none

/-- The fields of a record that has no name or a given one. -/
def toFields? (name : String) : Value → Option (List (String × Value))
  | record none fields => some fields
  | record (some n) fields => if n = name then some fields else none
  | _ => none

end Value

/-- Reads a field that may be missing, if it does not stand twice. -/
def readField? {α : Type} (fields : List (String × Value)) (key : String)
    (read : Value → Option α) : Option (Option α) :=
  match fields.filter (·.1 = key) with
  | [] => some none
  | [(_, value)] => (read value).map some
  | _ => none

/-- Reads a field that must be there. -/
def readField {α : Type} (fields : List (String × Value)) (key : String)
    (read : Value → Option α) : Option α := do
  ← readField? fields key read

/-- Reads a field that has a default. -/
def readFieldOr {α : Type} (fields : List (String × Value)) (key : String)
    (read : Value → Option α) (default : α) : Option α := do
  return (← readField? fields key read).getD default

end SchemaLayout.Ron
