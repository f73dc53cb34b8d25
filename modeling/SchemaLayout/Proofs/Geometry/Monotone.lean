import SchemaLayout.Proofs.Geometry.Interpolation
import SchemaLayout.Proofs.Number.Nearest

/-!
# One way

A coordinate that is moved towards another in equal steps never turns back and never goes beyond
it. Every operation on the way keeps the order of what it is applied to, as rounding does, and so
does cutting to whole coordinates: the place on the way is therefore a monotone function of the
progress, and both of its ends are exact.

The numbers on the way are small and their last places are not too fine, so none of them overflows
or is subnormal, and the edge of the plane is never reached by cutting.
-/

namespace SchemaLayout

namespace Coord

variable {a b : Coord} {p : Rat} {n k : Nat}

/-! ## The way -/

/-- The number that is computed at a given progress, before it is cut to a coordinate. -/
def way (a b : Coord) (p : Rat) : Rat :=
  nearest (a.toInt + nearest ((b.toInt - a.toInt) * p))

theorem representable_toInt (c : Coord) : Representable c.toInt :=
  representable_intCast (c.abs_toInt_le.trans (by norm_num))

theorem abs_sub_toInt_le (a b : Coord) : |b.toInt - a.toInt| ≤ 2 ^ 32 := by
  have ha := abs_le.mp a.abs_toInt_le
  have hb := abs_le.mp b.abs_toInt_le
  exact abs_le.mpr ⟨by omega, by omega⟩

/-- Distances of coordinates are exact. -/
theorem representable_sub_toInt (a b : Coord) : Representable (b.toInt - a.toInt) := by
  rw [← Int.cast_sub]
  exact representable_intCast ((abs_sub_toInt_le a b).trans (by norm_num))

theorem way_zero (a b : Coord) : a.way b 0 = a.toInt := by
  rw [way, mul_zero, nearest_zero, add_zero, a.representable_toInt.nearest_eq]

theorem way_one (a b : Coord) : a.way b 1 = b.toInt := by
  rw [way, mul_one, (representable_sub_toInt a b).nearest_eq, add_sub_cancel,
    b.representable_toInt.nearest_eq]

/-- The way to a larger coordinate goes up. -/
theorem monotone_way (h : a ≤ b) : Monotone (a.way b) := by
  have hdistance : (0 : Rat) ≤ b.toInt - a.toInt := sub_nonneg.mpr (by exact_mod_cast le_def.mp h)
  intro p q hle
  exact nearest_mono (add_le_add_right (nearest_mono (mul_le_mul_of_nonneg_left hle hdistance)) _)

/-- The way to a smaller coordinate goes down. -/
theorem antitone_way (h : b ≤ a) : Antitone (a.way b) := by
  have hdistance : (b.toInt - a.toInt : Rat) ≤ 0 :=
    sub_nonpos.mpr (by exact_mod_cast le_def.mp h)
  intro p q hle
  exact nearest_mono (add_le_add_right (nearest_mono (mul_le_mul_of_nonpos_left hle hdistance)) _)

theorem le_total (a b : Coord) : a ≤ b ∨ b ≤ a :=
  Int.le_total ..

/-- The way lies between its ends, whole coordinates being taken. -/
theorem truncate_way_mem (h0 : 0 ≤ p) (h1 : p ≤ 1) :
    (a.toInt ≤ truncate (a.way b p) ∧ truncate (a.way b p) ≤ b.toInt) ∨
      (b.toInt ≤ truncate (a.way b p) ∧ truncate (a.way b p) ≤ a.toInt) := by
  have hsource : truncate (a.way b 0) = a.toInt := by rw [way_zero, truncate_intCast]
  have htarget : truncate (a.way b 1) = b.toInt := by rw [way_one, truncate_intCast]
  rw [← hsource, ← htarget]
  rcases le_total a b with h | h
  · exact .inl ⟨truncate_mono (monotone_way h h0), truncate_mono (monotone_way h h1)⟩
  · exact .inr ⟨truncate_mono (antitone_way h h1), truncate_mono (antitone_way h h0)⟩

/-! ## The numbers that are computed -/

theorem toBinary64_eq (c : Coord) : c.toBinary64 = .finite c.toInt := by
  rw [toBinary64, Binary64.ofInt, Binary64.ofRat_intCast (c.abs_toInt_le.trans_lt (by norm_num))]

theorem sub_toBinary64 (a b : Coord) :
    b.toBinary64 - a.toBinary64 = .finite (b.toInt - a.toInt) := by
  rw [toBinary64_eq, toBinary64_eq,
    Binary64.intCast_sub ((abs_sub_toInt_le a b).trans_lt (by norm_num)), Int.cast_sub]

/-- A part of a distance is not too large. -/
theorem abs_part_le (a b : Coord) (h0 : 0 ≤ p) (h1 : p ≤ 1) :
    |(b.toInt - a.toInt) * p| ≤ 2 ^ 32 := by
  have hdistance : |(b.toInt - a.toInt : Rat)| ≤ 2 ^ 32 := by exact_mod_cast abs_sub_toInt_le a b
  calc |(b.toInt - a.toInt) * p| = |(b.toInt - a.toInt : Rat)| * p := by
        rw [abs_mul, abs_of_nonneg h0]
    _ ≤ |(b.toInt - a.toInt : Rat)| := mul_le_of_le_one_right (abs_nonneg _) h1
    _ ≤ 2 ^ 32 := hdistance

theorem mul_sub_toBinary64 (a b : Coord) (h0 : 0 ≤ p) (h1 : p ≤ 1) :
    (b.toBinary64 - a.toBinary64) * .finite p =
      .finite (nearest ((b.toInt - a.toInt) * p)) := by
  rw [sub_toBinary64, Binary64.finite_mul,
    Binary64.ofRat_eq_finite ((abs_part_le a b h0 h1).trans (by norm_num))]

theorem sum_toBinary64 (a b : Coord) (h0 : 0 ≤ p) (h1 : p ≤ 1) :
    a.toBinary64 + (b.toBinary64 - a.toBinary64) * .finite p = .finite (a.way b p) := by
  have hpart : |nearest ((b.toInt - a.toInt) * p)| ≤ 2 ^ 32 :=
    (representable_two_pow 32).abs_nearest_le (abs_part_le a b h0 h1)
  have hsource : |(a.toInt : Rat)| ≤ 2147483648 := by exact_mod_cast a.abs_toInt_le
  have hsum := (abs_add_le _ _).trans (add_le_add hsource hpart)
  rw [mul_sub_toBinary64 a b h0 h1, toBinary64_eq, Binary64.finite_add,
    Binary64.ofRat_eq_finite (hsum.trans (by norm_num)), way]

/-- Cutting the way to a coordinate drops its fraction and does nothing else. -/
theorem toInt_towards (h0 : 0 ≤ p) (h1 : p ≤ 1) :
    (a.towards b (.finite p)).toInt = truncate (a.way b p) := by
  have hway := truncate_way_mem (a := a) (b := b) h0 h1
  have ha := a.lo_le
  have ha' := a.le_hi
  have hb := b.lo_le
  have hb' := b.le_hi
  rw [towards, sum_toBinary64 a b h0 h1, Binary64.toCoord, toInt_clamp]
  omega

/-! ## Steps -/

/-- The coordinates from `c 0` to `c n` go from `a` to `b`, and neither turn back nor go beyond. -/
structure GoesTo (a b : Coord) (n : Nat) (c : Nat → Coord) : Prop where
  first : c 0 = a
  last : c n = b
  rises : a ≤ b → ∀ j k, j ≤ k → k ≤ n → c j ≤ c k
  falls : b ≤ a → ∀ j k, j ≤ k → k ≤ n → c k ≤ c j
  between : ∀ k ≤ n, (a ≤ c k ∧ c k ≤ b) ∨ (b ≤ c k ∧ c k ≤ a)

/-- The numbers that are computed for the coordinate between `a` and `b` at a given progress are
normal or zero, and the coordinate is the last of them without its fraction. -/
structure Computed (a b : Coord) (progress : Binary64) : Prop where
  played : progress.IsNormal
  distance : (b.toBinary64 - a.toBinary64).IsNormal
  part : ((b.toBinary64 - a.toBinary64) * progress).IsNormal
  sum : (a.toBinary64 + (b.toBinary64 - a.toBinary64) * progress).IsNormal
  uncut : ∃ q, a.toBinary64 + (b.toBinary64 - a.toBinary64) * progress = .finite q ∧
    (a.towards b progress).toInt = truncate q

/-- How much of `n` steps has been done after `k` of them. -/
def done (n k : Nat) : Rat := nearest (k / n)

theorem monotone_done (n : Nat) : Monotone (done n) := by
  intro j k hle
  have hle' : (j : Rat) ≤ k := by exact_mod_cast hle
  exact nearest_mono (div_le_div_of_nonneg_right hle' (Nat.cast_nonneg n))

theorem done_zero (n : Nat) : done n 0 = 0 := by
  rw [done, Nat.cast_zero, zero_div, nearest_zero]

theorem done_self (hn : 0 < n) : done n n = 1 := by
  have hone : nearest ((1 : Int) : Rat) = 1 := nearest_intCast (by norm_num)
  rw [done, div_self (Nat.cast_ne_zero.mpr hn.ne')]
  exact_mod_cast hone

theorem done_mem (hn : 0 < n) (hk : k ≤ n) : 0 ≤ done n k ∧ done n k ≤ 1 := by
  have hlow := monotone_done n (Nat.zero_le k)
  have hhigh := monotone_done n hk
  rw [done_zero] at hlow
  rw [done_self hn] at hhigh
  exact ⟨hlow, hhigh⟩

theorem ofRat_div_eq (hn : 0 < n) (hk : k ≤ n) :
    Binary64.ofRat (k / n) = .finite (done n k) := by
  have hpos : (0 : Rat) < n := Nat.cast_pos.mpr hn
  have hle : (k : Rat) / n ≤ 1 := by
    rw [div_le_one hpos]
    exact_mod_cast hk
  have hnonneg : (0 : Rat) ≤ k / n := div_nonneg (Nat.cast_nonneg k) hpos.le
  refine Binary64.ofRat_eq_finite ?_
  rw [abs_of_nonneg hnonneg]
  exact hle.trans (by norm_num)

/-- A coordinate that is moved in equal steps goes one way and arrives. -/
theorem goesTo_towards (a b : Coord) (hn : 0 < n) :
    GoesTo a b n fun k => a.towards b (.ofRat (k / n)) := by
  have hstep {k : Nat} (hk : k ≤ n) :
      (a.towards b (.ofRat (k / n))).toInt = truncate (a.way b (done n k)) := by
    rw [ofRat_div_eq hn hk, toInt_towards (done_mem hn hk).1 (done_mem hn hk).2]
  refine ⟨?_, ?_, ?_, ?_, ?_⟩
  · exact Coord.ext (by rw [hstep (Nat.zero_le n), done_zero, way_zero, truncate_intCast])
  · exact Coord.ext (by rw [hstep le_rfl, done_self hn, way_one, truncate_intCast])
  · intro h j k hjk hk
    rw [le_def, hstep (hjk.trans hk), hstep hk]
    exact truncate_mono (monotone_way h (monotone_done n hjk))
  · intro h j k hjk hk
    rw [le_def, hstep (hjk.trans hk), hstep hk]
    exact truncate_mono (antitone_way h (monotone_done n hjk))
  · intro k hk
    simp only [le_def, hstep hk]
    exact truncate_way_mem (done_mem hn hk).1 (done_mem hn hk).2

/-- No step is too small for a normal number. -/
theorem done_eq_zero_or_le (hn : 0 < n) (hsize : n ≤ 2 ^ 32) (k : Nat) :
    (k / n : Rat) = 0 ∨ 2 ^ (-32 : Int) ≤ |(k / n : Rat)| := by
  rcases Nat.eq_zero_or_pos k with rfl | hk
  · exact .inl (by rw [Nat.cast_zero, zero_div])
  · have hpos : (0 : Rat) < n := Nat.cast_pos.mpr hn
    have hone : (1 : Rat) ≤ k := by exact_mod_cast hk
    have hn' : (n : Rat) ≤ 2 ^ 32 := by exact_mod_cast hsize
    refine .inr ?_
    rw [abs_of_nonneg (div_nonneg (Nat.cast_nonneg k) hpos.le), le_div_iff₀ hpos]
    calc (2 : Rat) ^ (-32 : Int) * n ≤ 2 ^ (-32 : Int) * 2 ^ 32 :=
          mul_le_mul_of_nonneg_left hn' (two_zpow_pos _).le
      _ = 1 := by norm_num
      _ ≤ k := hone

/-- A part of a distance is nothing or not too small. -/
theorem part_eq_zero_or_le (a b : Coord) (hp : p = 0 ∨ 2 ^ (-32 : Int) ≤ |p|) :
    (b.toInt - a.toInt) * p = 0 ∨ 2 ^ (-32 : Int) ≤ |(b.toInt - a.toInt) * p| := by
  rcases hp with rfl | hp
  · exact .inl (mul_zero _)
  rcases eq_or_ne (b.toInt - a.toInt) 0 with hd | hd
  · exact .inl (by rw [← Int.cast_sub, hd, Int.cast_zero, zero_mul])
  · have hone : (1 : Rat) ≤ |(b.toInt - a.toInt : Rat)| := by exact_mod_cast Int.one_le_abs hd
    rw [abs_mul]
    exact .inr (hp.trans (le_mul_of_one_le_left (abs_nonneg p) hone))

/-- The source and a part of the distance add up to nothing or to what is not too small: both are
multiples of a power of two that is far from the finest one. -/
theorem sum_eq_zero_or_le (a b : Coord) (hp : p = 0 ∨ 2 ^ (-32 : Int) ≤ |p|) :
    (a.toInt + nearest ((b.toInt - a.toInt) * p) : Rat) = 0 ∨
      2 ^ (-84 : Int) ≤ |(a.toInt + nearest ((b.toInt - a.toInt) * p) : Rat)| := by
  have hpart : ∃ m : Int, nearest ((b.toInt - a.toInt) * p) = m * 2 ^ (-84 : Int) := by
    rcases part_eq_zero_or_le a b hp with hzero | hle
    · exact ⟨0, by rw [hzero, nearest_zero, Int.cast_zero, zero_mul]⟩
    · exact exists_nearest_eq_mul (le_lastPlace hle)
  obtain ⟨m, hm⟩ := hpart
  have hsum : (a.toInt + nearest ((b.toInt - a.toInt) * p) : Rat) =
      ((a.toInt * 2 ^ 84 + m : Int) : Rat) * 2 ^ (-84 : Int) := by
    rw [hm]
    push_cast
    rw [add_mul, mul_assoc]
    norm_num
  rw [hsum]
  exact eq_zero_or_two_zpow_le_abs _ _

/-- All numbers that are computed for a step are normal or zero. -/
theorem computed_towards (a b : Coord) (hn : 0 < n) (hsize : n ≤ 2 ^ 32) (hk : k ≤ n) :
    Computed a b (.ofRat (k / n)) := by
  obtain ⟨h0, h1⟩ := done_mem hn hk
  have hquotient := done_eq_zero_or_le hn hsize k
  have hdone : done n k = 0 ∨ 2 ^ (-32 : Int) ≤ |done n k| := by
    rcases hquotient with hzero | hle
    · exact .inl (by rw [done, hzero, nearest_zero])
    · exact .inr ((representable_two_zpow (by norm_num)).le_abs_nearest hle)
  have hdistance : (b.toInt - a.toInt : Rat) = 0 ∨
      2 ^ (0 : Int) ≤ |(b.toInt - a.toInt : Rat)| := by
    have hmultiple := eq_zero_or_two_zpow_le_abs (b.toInt - a.toInt) 0
    rwa [zpow_zero, mul_one, Int.cast_sub] at hmultiple
  have hexact := (representable_sub_toInt a b).nearest_eq
  rw [ofRat_div_eq hn hk]
  refine ⟨?_, ?_, ?_, ?_, ?_⟩
  · exact Binary64.isNormal_nearest (by norm_num) hquotient
  · rw [sub_toBinary64, ← hexact]
    exact Binary64.isNormal_nearest (by norm_num) hdistance
  · rw [mul_sub_toBinary64 a b h0 h1]
    exact Binary64.isNormal_nearest (by norm_num) (part_eq_zero_or_le a b hdone)
  · rw [sum_toBinary64 a b h0 h1]
    exact Binary64.isNormal_nearest (by norm_num) (sum_eq_zero_or_le a b hdone)
  · exact ⟨_, sum_toBinary64 a b h0 h1, toInt_towards h0 h1⟩

end Coord

end SchemaLayout
