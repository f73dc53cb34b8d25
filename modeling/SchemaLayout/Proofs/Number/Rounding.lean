import Mathlib.Algebra.Order.Field.Power
import Mathlib.Algebra.Order.Ring.Rat
import Mathlib.Data.Rat.Floor
import Mathlib.Tactic.Linarith
import Mathlib.Tactic.NormNum
import SchemaLayout.Number.Binary64

/-!
# Rounding

`floorLog2` computes what its name says, from the lengths of the numerator and the denominator of a
rational. Rounding to the nearest number therefore keeps whatever is a multiple of its own last
place, and in particular every integer below `2 ^ 53`: the arithmetic of coordinates, which are much
smaller than that, is exact where its results are integers.
-/

namespace SchemaLayout

/-! ## The size of a rational -/

theorem two_zpow_pos (e : Int) : (0 : Rat) < 2 ^ e :=
  zpow_pos two_pos e

/-- The lengths of the numerator and the denominator tell the size of a rational up to a factor of
two in either direction. -/
theorem two_zpow_bounds {q : Rat} (hq : 0 < q) :
    (2 : Rat) ^ ((q.num.natAbs.log2 : Int) - q.den.log2 - 1) < q ∧
      q < 2 ^ ((q.num.natAbs.log2 : Int) - q.den.log2 + 1) := by
  have hnum : q.num.natAbs ≠ 0 := Int.natAbs_ne_zero.mpr (Rat.num_pos.mpr hq).ne'
  have hquot : q = (q.num.natAbs : Rat) / q.den := by
    have hcast : ((q.num.natAbs : Int) : Rat) = q.num := by
      rw [Int.natAbs_of_nonneg (Rat.num_pos.mpr hq).le]
    rw [← Int.cast_natCast, hcast, Rat.num_div_den]
  have hden : (0 : Rat) < q.den := Nat.cast_pos.mpr q.den_pos
  have hnum_le : (2 : Rat) ^ q.num.natAbs.log2 ≤ q.num.natAbs := by
    exact_mod_cast Nat.log2_self_le hnum
  have hnum_lt : (q.num.natAbs : Rat) < 2 ^ (q.num.natAbs.log2 + 1) := by
    exact_mod_cast Nat.lt_log2_self
  have hden_le : (2 : Rat) ^ q.den.log2 ≤ q.den := by
    exact_mod_cast Nat.log2_self_le q.den_nz
  have hden_lt : (q.den : Rat) < 2 ^ (q.den.log2 + 1) := by
    exact_mod_cast Nat.lt_log2_self
  generalize q.num.natAbs.log2 = a at *
  generalize q.den.log2 = b at *
  have hlow : (2 : Rat) ^ ((a : Int) - b - 1) * 2 ^ (b + 1) = 2 ^ a := by
    rw [← zpow_natCast, ← zpow_natCast, ← zpow_add₀ two_ne_zero]
    congr 1
    push_cast
    ring
  have hhigh : (2 : Rat) ^ ((a : Int) - b + 1) * 2 ^ b = 2 ^ (a + 1) := by
    rw [← zpow_natCast, ← zpow_natCast, ← zpow_add₀ two_ne_zero]
    congr 1
    push_cast
    ring
  -- `q` is at least `2 ^ a / 2 ^ (b + 1)` and at most `2 ^ (a + 1) / 2 ^ b`
  constructor
  · rw [hquot, lt_div_iff₀ hden]
    calc (2 : Rat) ^ ((a : Int) - b - 1) * q.den
        < 2 ^ ((a : Int) - b - 1) * 2 ^ (b + 1) := by
          exact mul_lt_mul_of_pos_left hden_lt (two_zpow_pos _)
      _ = 2 ^ a := hlow
      _ ≤ q.num.natAbs := hnum_le
  · rw [hquot, div_lt_iff₀ hden]
    calc (q.num.natAbs : Rat) < 2 ^ (a + 1) := hnum_lt
      _ = 2 ^ ((a : Int) - b + 1) * 2 ^ b := hhigh.symm
      _ ≤ 2 ^ ((a : Int) - b + 1) * q.den := by
          exact mul_le_mul_of_nonneg_left hden_le (two_zpow_pos _).le

/-- The power of two of the size of a rational is at most the rational. -/
theorem two_zpow_floorLog2_le {q : Rat} (hq : 0 < q) : (2 : Rat) ^ floorLog2 q ≤ q := by
  unfold floorLog2
  dsimp only
  split <;> rename_i h
  · exact (two_zpow_bounds hq).1.le
  · exact not_lt.mp h

/-- The next power of two is more than the rational. -/
theorem lt_two_zpow_floorLog2_add_one {q : Rat} (hq : 0 < q) :
    q < (2 : Rat) ^ (floorLog2 q + 1) := by
  unfold floorLog2
  dsimp only
  split <;> rename_i h
  · rwa [sub_add_cancel]
  · exact (two_zpow_bounds hq).2

/-- The size of a rational below a power of two is below the exponent of that power. -/
theorem floorLog2_lt {q : Rat} (hq : 0 < q) {e : Int} (h : q < (2 : Rat) ^ e) :
    floorLog2 q < e := by
  rw [← zpow_lt_zpow_iff_right₀ (one_lt_two (α := Rat))]
  exact (two_zpow_floorLog2_le hq).trans_lt h

/-! ## What is kept by rounding -/

theorem ratAbs_eq_abs (q : Rat) : q.abs = |q| := by
  rcases le_total 0 q with h | h
  · rw [Rat.abs_of_nonneg h, abs_of_nonneg h]
  · rw [Rat.abs_of_nonpos h, abs_of_nonpos h]

theorem roundHalfEven_intCast (n : Int) : roundHalfEven n = n := by
  unfold roundHalfEven
  rw [Rat.floor_intCast, sub_self, mul_zero]
  norm_num

theorem truncate_intCast (n : Int) : truncate n = n := by
  unfold truncate
  rw [← Rat.intCast_neg, Rat.floor_intCast, Rat.floor_intCast, neg_neg, ite_self]

/-- A multiple of its own last place is kept. -/
theorem nearest_eq_self {q : Rat} {n : Int} (h : q = n * 2 ^ lastPlace q) : nearest q = q := by
  unfold nearest
  split <;> rename_i hq
  · exact hq.symm
  · have hdiv : q / 2 ^ lastPlace q = n := by
      rw [div_eq_iff (two_zpow_pos _).ne']
      exact h
    rw [hdiv, roundHalfEven_intCast, ← h]

/-- An integer that a significand can hold is kept. -/
theorem nearest_intCast {n : Int} (h : |n| < 2 ^ 53) : nearest n = n := by
  rcases eq_or_ne n 0 with rfl | hn
  · rfl
  · have habs : (n : Rat).abs = ((|n| : Int) : Rat) := by
      rw [ratAbs_eq_abs, Int.cast_abs]
    have hpos : (0 : Rat) < (n : Rat).abs := by
      rw [habs]
      exact_mod_cast abs_pos.mpr hn
    have hlog : floorLog2 (n : Rat).abs < 53 := by
      refine floorLog2_lt hpos ?_
      rw [habs]
      exact_mod_cast h
    -- the last place is that of the units or a finer one, so the integer is a multiple of it
    have hplace : 0 ≤ -lastPlace n := by
      unfold lastPlace
      omega
    obtain ⟨k, hk⟩ := Int.eq_ofNat_of_zero_le hplace
    refine nearest_eq_self (n := n * 2 ^ k) ?_
    have hcancel : (2 : Rat) ^ k * 2 ^ lastPlace n = 1 := by
      rw [← zpow_natCast, ← zpow_add₀ two_ne_zero, ← hk, neg_add_cancel, zpow_zero]
    push_cast
    rw [mul_assoc, hcancel, mul_one]

namespace Binary64

/-- An integer that a significand can hold is exact. -/
theorem ofRat_intCast {n : Int} (h : |n| < 2 ^ 53) : ofRat n = .finite n := by
  have hlarge : (2 : Rat) ^ 53 ≤ overflow := by
    rw [overflow, ← zpow_natCast]
    exact zpow_le_zpow_right₀ one_le_two (by norm_num)
  have habs : |(n : Rat)| < 2 ^ 53 := by exact_mod_cast h
  obtain ⟨hlow, hhigh⟩ := abs_lt.mp habs
  unfold ofRat
  rw [nearest_intCast h, if_neg (by linarith), if_neg (by linarith)]

end Binary64

end SchemaLayout
