/-!
# RON values

The values that a file in RON can hold, as far as this library tells them apart: the kinds of
values that settings and descriptions consist of. A value of any other kind can stand in a file
only where it is skipped, so that nothing of it is kept.
-/

namespace SchemaLayout.Ron

/-- A sign written before a number. -/
inductive Sign where
  | plus
  | minus
deriving DecidableEq

/-- What a file in RON holds. -/
inductive Value where
  | bool (value : Bool)
  /-- An integer with the sign that is written before it. -/
  | int (sign : Option Sign) (magnitude : Nat)
  | text (value : String)
  | list (items : List Value)
  /-- Named fields in parentheses, in their order, perhaps after the name of a type. -/
  | record (name : Option String) (fields : List (String × Value))
  /-- A value of another kind. -/
  | other

end SchemaLayout.Ron
