import SchemaLayout.Geometry.Interpolation
import SchemaLayout.Proofs.Number.Rounding

/-!
# Exact ends

A point that is moved all the way to another one arrives exactly there. Coordinates, and also the
distances between them, are integers of at most 33 bits, which double precision holds without
rounding; so nothing is lost even where a distance does not fit in a coordinate.
-/

namespace SchemaLayout

namespace Binary64

theorem finite_add (p q : Rat) : finite p + finite q = ofRat (p + q) := by
  show add _ _ = _
  rw [add]

theorem finite_sub (p q : Rat) : finite p - finite q = ofRat (p + -q) := by
  show add _ (neg _) = _
  rw [neg, add]

theorem finite_mul (p q : Rat) : finite p * finite q = ofRat (p * q) := by
  show mul _ _ = _
  rw [mul]

/-- A sum of integers is exact if a significand can hold it. -/
theorem intCast_add {m n : Int} (h : |m + n| < 2 ^ 53) :
    finite m + finite n = finite ((m + n : Int) : Rat) := by
  rw [finite_add, ← Int.cast_add, ofRat_intCast h]

/-- A difference of integers is exact if a significand can hold it. -/
theorem intCast_sub {m n : Int} (h : |m - n| < 2 ^ 53) :
    finite m - finite n = finite ((m - n : Int) : Rat) := by
  rw [finite_sub, ← sub_eq_add_neg, ← Int.cast_sub, ofRat_intCast h]

theorem intCast_mul_one {n : Int} (h : |n| < 2 ^ 53) : finite n * finite 1 = finite n := by
  rw [finite_mul, mul_one, ofRat_intCast h]

theorem toCoord_finite (c : Coord) : toCoord (finite c.toInt) = c := by
  rw [toCoord, truncate_intCast]
  exact c.clamp_toInt

end Binary64

theorem Coord.abs_toInt_le (c : Coord) : |c.toInt| ≤ 2147483648 := by
  have hlo := c.lo_le
  have hhi := c.le_hi
  exact abs_le.mpr ⟨hlo, by omega⟩

/-- A coordinate that is moved all the way arrives where it was to go. -/
theorem Coord.towards_one (a b : Coord) : a.towards b (.finite 1) = b := by
  have ha := abs_le.mp a.abs_toInt_le
  have hb := abs_le.mp b.abs_toInt_le
  have hsmall {n : Int} (h : -4294967296 ≤ n ∧ n ≤ 4294967296) : |n| < 2 ^ 53 :=
    (abs_le.mpr h).trans_lt (by norm_num)
  unfold towards toBinary64
  -- the coordinates, their difference and the sum at the end are all integers of 33 bits
  rw [Binary64.ofInt, Binary64.ofInt, Binary64.ofRat_intCast (hsmall (by omega)),
    Binary64.ofRat_intCast (hsmall (by omega)), Binary64.intCast_sub (hsmall (by omega)),
    Binary64.intCast_mul_one (hsmall (by omega)), Binary64.intCast_add (hsmall (by omega)),
    add_sub_cancel]
  exact Binary64.toCoord_finite b

/-- A point that is moved all the way arrives where it was to go. -/
theorem Point.towards_one (p q : Point) : p.towards q (.finite 1) = q := by
  rw [towards, Coord.towards_one, Coord.towards_one]

end SchemaLayout
