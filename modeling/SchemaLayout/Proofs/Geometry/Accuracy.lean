import SchemaLayout.Proofs.Geometry.Monotone

/-!
# Accuracy

The coordinate that is drawn on the way is computed with three roundings and then cut. The first of
them rounds the progress, which is at most one, the second a part of a distance, which is at most
`2 ^ 32`, and the third a sum that is at most `2 ^ 33`; each errs by a `2 ^ 54`th of its bound at
most. Together they are off by less than `2 ^ (-20)`, so that a coordinate is the exact one cut to
an integer unless this is within that distance of an integer, and an integer next to it in any case.
-/

namespace SchemaLayout

namespace Coord

variable {n k : Nat}

/-- Where a coordinate that goes from `a` to `b` in `n` equal steps is after `k` of them, without
any rounding. -/
def exactWay (a b : Coord) (n k : Nat) : Rat := a.toInt + (b.toInt - a.toInt) * k / n

/-- How the coordinate `c` that is drawn between `a` and `b` at a given progress compares with the
exact place between them. -/
structure Approximates (a b : Coord) (progress : Binary64) (exact : Rat) (c : Coord) : Prop where
  /-- It is the number that is computed, without its fraction, and this number is near. -/
  near : ∃ q, a.toBinary64 + (b.toBinary64 - a.toBinary64) * progress = .finite q ∧
    |q - exact| < 2 ^ (-20 : Int) ∧ c.toInt = truncate q
  /-- If no integer is near the exact place, it is that place without its fraction. -/
  eq_truncate : (∀ m : Int, 2 ^ (-20 : Int) ≤ |exact - m|) → c.toInt = truncate exact
  /-- It is never off by more than one. -/
  abs_sub_le : |c.toInt - truncate exact| ≤ 1

/-! ## The three roundings -/

/-- The progress is rounded by a `2 ^ 54`th at most. -/
theorem abs_sub_done_le (hn : 0 < n) (hk : k ≤ n) :
    |(k / n : Rat) - done n k| ≤ 2 ^ (-54 : Int) := by
  have hpos : (0 : Rat) < n := Nat.cast_pos.mpr hn
  have hle : (k : Rat) / n ≤ 1 := by
    rw [div_le_one hpos]
    exact_mod_cast hk
  refine abs_sub_nearest_le_two_zpow (e := 0) (by norm_num) ?_
  rwa [zpow_zero, abs_of_nonneg (div_nonneg (Nat.cast_nonneg k) hpos.le)]

theorem abs_sub_toInt_lt (a b : Coord) : |(b.toInt - a.toInt : Rat)| < 2 ^ 32 := by
  have ha := a.lo_le
  have ha' := a.le_hi
  have hb := b.lo_le
  have hb' := b.le_hi
  have habs : |b.toInt - a.toInt| < 2 ^ 32 := abs_lt.mpr ⟨by omega, by omega⟩
  exact_mod_cast habs

/-- The number that is computed differs from the exact place by less than `2 ^ (-20)`. -/
theorem abs_way_sub_exactWay_lt (a b : Coord) (hn : 0 < n) (hk : k ≤ n) :
    |a.way b (done n k) - exactWay a b n k| < 2 ^ (-20 : Int) := by
  obtain ⟨h0, h1⟩ := done_mem hn hk
  have hdistance := abs_sub_toInt_lt a b
  have hproduct := abs_part_le a b h0 h1
  have hexact : exactWay a b n k = a.toInt + (b.toInt - a.toInt) * (k / n) := by
    rw [exactWay, mul_div_assoc]
  rw [hexact, way]
  generalize (b.toInt - a.toInt : Rat) = distance at *
  -- the error of the progress counts as often as the distance is long
  have hprogress : |distance * (k / n) - distance * done n k| < 2 ^ (-22 : Int) := by
    rw [← mul_sub, abs_mul]
    calc |distance| * |(k / n : Rat) - done n k| ≤ |distance| * 2 ^ (-54 : Int) :=
          mul_le_mul_of_nonneg_left (abs_sub_done_le hn hk) (abs_nonneg distance)
      _ < 2 ^ 32 * 2 ^ (-54 : Int) := mul_lt_mul_of_pos_right hdistance (two_zpow_pos _)
      _ = 2 ^ (-22 : Int) := by norm_num
  have hpart : |distance * done n k - nearest (distance * done n k)| ≤ 2 ^ (-22 : Int) :=
    abs_sub_nearest_le_two_zpow (e := 32) (by norm_num) (by exact_mod_cast hproduct)
  have hbound : |nearest (distance * done n k)| ≤ 2 ^ 32 :=
    (representable_two_pow 32).abs_nearest_le hproduct
  generalize nearest (distance * done n k) = part at *
  have hsum : |a.toInt + part - nearest (a.toInt + part)| ≤ 2 ^ (-21 : Int) := by
    have hsource : |(a.toInt : Rat)| ≤ 2 ^ 31 := by exact_mod_cast a.abs_toInt_le
    refine abs_sub_nearest_le_two_zpow (e := 33) (by norm_num) ?_
    calc |(a.toInt : Rat) + part| ≤ |(a.toInt : Rat)| + |part| := abs_add_le _ _
      _ ≤ 2 ^ 31 + 2 ^ 32 := add_le_add hsource hbound
      _ ≤ 2 ^ (33 : Int) := by norm_num
  calc |nearest (a.toInt + part) - (a.toInt + distance * (k / n))|
      = |distance * (k / n) - distance * done n k + (distance * done n k - part)
          + (a.toInt + part - nearest (a.toInt + part))| := by
        rw [abs_sub_comm]
        congr 1
        ring
    _ ≤ |distance * (k / n) - distance * done n k| + |distance * done n k - part|
          + |a.toInt + part - nearest (a.toInt + part)| := abs_add_three _ _ _
    _ < 2 ^ (-22 : Int) + 2 ^ (-22 : Int) + 2 ^ (-21 : Int) :=
        add_lt_add_of_lt_of_le (add_lt_add_of_lt_of_le hprogress hpart) hsum
    _ = 2 ^ (-20 : Int) := by norm_num

/-! ## What is drawn -/

/-- A coordinate that is drawn after some of `n` equal steps is near to the exact place. -/
theorem approximates_towards (a b : Coord) (hn : 0 < n) (hk : k ≤ n) :
    Approximates a b (.ofRat (k / n)) (exactWay a b n k) (a.towards b (.ofRat (k / n))) := by
  obtain ⟨h0, h1⟩ := done_mem hn hk
  have hnear := abs_way_sub_exactWay_lt a b hn hk
  have hcut : (a.towards b (.ofRat (k / n))).toInt = truncate (a.way b (done n k)) := by
    rw [ofRat_div_eq hn hk, toInt_towards h0 h1]
  refine ⟨⟨_, ?_, hnear, hcut⟩, fun hfar => ?_, ?_⟩
  · rw [ofRat_div_eq hn hk, sum_toBinary64 a b h0 h1]
  · rw [hcut, truncate_eq_of_abs_sub_lt hnear hfar]
  · rw [hcut]
    exact abs_truncate_sub_truncate_le (hnear.le.trans (by norm_num))

end Coord

/-- A point on the way is accurate. After `k` of `n` equal steps each of its coordinates is a number
without its fraction that differs from the exact place by less than `2 ^ (-20)`. So it is the exact
place without its fraction, unless that is as near to an integer, and it is never off by more than
one. -/
theorem Point.towards_accurate (p q : Point) {n k : UInt32} (hn : 1 ≤ n) (hk : k ≤ n) :
    let progress := Binary64.ofRat (k.toNat / n.toNat)
    Coord.Approximates p.x q.x progress (Coord.exactWay p.x q.x n.toNat k.toNat)
        (p.towards q progress).x ∧
      Coord.Approximates p.y q.y progress (Coord.exactWay p.y q.y n.toNat k.toNat)
        (p.towards q progress).y := by
  have hn' : 0 < n.toNat := UInt32.le_iff_toNat_le.mp hn
  have hk' : k.toNat ≤ n.toNat := UInt32.le_iff_toNat_le.mp hk
  dsimp only [Point.towards]
  exact ⟨Coord.approximates_towards p.x q.x hn' hk', Coord.approximates_towards p.y q.y hn' hk'⟩

/-- The first of 49 steps on the way to `(49, -2147483648)` should lead to `1`, but leads only to a
number below it, and what is drawn falls short by one. The other coordinate is the exact one without
its fraction, which is no integer. -/
theorem Point.towards_accurate_fallsShort :
    ∃ p, Point.zero.towards ⟨49, .clamp (-2147483648)⟩
        (.ofRat ((1 : UInt32).toNat / (49 : UInt32).toNat)) = p ∧
      Coord.exactWay 0 49 49 1 = 1 ∧ p.x.toInt = 0 ∧ |p.x.toInt - truncate 1| ≤ 1 ∧
      Coord.exactWay 0 (.clamp (-2147483648)) 49 1 = -2147483648 / 49 ∧
      p.y.toInt = truncate (-2147483648 / 49) := by
  obtain ⟨hx, hy⟩ := Point.towards_accurate .zero ⟨49, .clamp (-2147483648)⟩ (n := 49) (k := 1)
    (by decide) (by decide)
  have hone : Coord.exactWay 0 49 49 1 = 1 := by decide +kernel
  have hfraction : Coord.exactWay 0 (.clamp (-2147483648)) 49 1 = -2147483648 / 49 := by
    decide +kernel
  refine ⟨_, rfl, hone, by decide +kernel, hone ▸ hx.abs_sub_le, hfraction, ?_⟩
  refine hfraction ▸ hy.eq_truncate fun m => ?_
  show (2 : Rat) ^ (-20 : Int) ≤ |Coord.exactWay 0 (.clamp (-2147483648)) 49 1 - m|
  -- the exact place is a forty-ninth of an integer that 49 does not divide
  have hdivides : (1 : Rat) ≤ |((-2147483648 - m * 49 : Int) : Rat)| := by
    exact_mod_cast Int.one_le_abs (by omega)
  have hscale : (-2147483648 / 49 - m : Rat) = ((-2147483648 - m * 49 : Int) : Rat) / 49 := by
    push_cast
    ring
  rw [hfraction, hscale, abs_div, le_div_iff₀ (by norm_num)]
  exact le_trans (by norm_num) hdivides

end SchemaLayout
