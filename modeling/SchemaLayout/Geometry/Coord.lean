/-!
# Coordinates

`Coord` is the one number type of the geometry: positions, widths, heights and gaps are all
integers of 32 bits. Addition saturates, so that a layout which runs off the plane piles up at its
edge instead of wrapping around.

Everything about a coordinate is said through `toInt`: the order is the order of the integers, and
`toInt_add` is the only fact about addition that is ever needed.
-/

namespace SchemaLayout

/-- A coordinate, length or gap: an integer that fits in 32 bits. -/
@[ext]
structure Coord where
  /-- The integer that the coordinate stands for. -/
  toInt : Int
  lo_le : -2147483648 ≤ toInt
  le_hi : toInt ≤ 2147483647
deriving DecidableEq

namespace Coord

/-- The coordinate nearest to an integer. -/
def clamp (n : Int) : Coord :=
  ⟨max (-2147483648) (min n 2147483647), by omega, by omega⟩

/-- The coordinate that stands for `n`, if `n` fits. -/
def ofInt? (n : Int) : Option Coord :=
  if h : -2147483648 ≤ n ∧ n ≤ 2147483647 then some ⟨n, h.1, h.2⟩ else none

instance (n : Nat) : OfNat Coord n := ⟨clamp n⟩

instance : Inhabited Coord := ⟨0⟩

/-- Addition stops at the edge of the plane. -/
instance : Add Coord := ⟨fun a b => clamp (a.toInt + b.toInt)⟩

instance : LE Coord := ⟨fun a b => a.toInt ≤ b.toInt⟩

instance : LT Coord := ⟨fun a b => a.toInt < b.toInt⟩

instance (a b : Coord) : Decidable (a ≤ b) := Int.decLe ..

instance (a b : Coord) : Decidable (a < b) := Int.decLt ..

instance : Max Coord := maxOfLe

/-! ## The view as integers -/

theorem le_def {a b : Coord} : a ≤ b ↔ a.toInt ≤ b.toInt := Iff.rfl

theorem lt_def {a b : Coord} : a < b ↔ a.toInt < b.toInt := Iff.rfl

@[simp]
theorem toInt_clamp (n : Int) : (clamp n).toInt = max (-2147483648) (min n 2147483647) := rfl

theorem clamp_toInt (a : Coord) : clamp a.toInt = a := by
  have := a.lo_le
  have := a.le_hi
  ext
  simp only [toInt_clamp]
  omega

@[simp]
theorem toInt_add (a b : Coord) :
    (a + b).toInt = max (-2147483648) (min (a.toInt + b.toInt) 2147483647) := rfl

@[simp]
theorem toInt_max (a b : Coord) : (max a b).toInt = max a.toInt b.toInt := by
  show (if a ≤ b then b else a).toInt = _
  split <;> rename_i h <;> rw [le_def] at h <;> omega

theorem ofInt?_eq_some_iff {n : Int} {a : Coord} : ofInt? n = some a ↔ a.toInt = n := by
  unfold ofInt?
  have := a.lo_le
  have := a.le_hi
  split
  · rw [Option.some.injEq, Coord.ext_iff]
    exact eq_comm
  · constructor
    · intro h
      cases h
    · intro h
      omega

end Coord

end SchemaLayout
