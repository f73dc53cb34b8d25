import SchemaLayout.Proofs.Number.Rounding

/-!
# The nearest number

A rational is representable if it is a significand of 53 bits times a power of two that is not
below the finest one. `nearest` finds a representable number, and no representable number is nearer.
That is all there is to know of it here: it follows that rounding keeps representable numbers and
the order of rationals, whichever way ties go, and so never crosses a representable number. How far
it errs is half the place of the last digit, which is bounded by the size of what is rounded.
-/

namespace SchemaLayout

/-- A significand of 53 bits times a power of two. -/
def Representable (r : Rat) : Prop :=
  ∃ m e : Int, |m| ≤ 2 ^ 53 ∧ -1074 ≤ e ∧ r = m * 2 ^ e

/-! ## Multiples of powers of two -/

/-- A multiple of a power of two is one of every smaller power. -/
theorem exists_mul_two_zpow_eq (m : Int) {d e : Int} (h : d ≤ e) :
    ∃ k : Int, (m * 2 ^ e : Rat) = k * 2 ^ d := by
  obtain ⟨j, hj⟩ := Int.eq_ofNat_of_zero_le (sub_nonneg.mpr h)
  refine ⟨m * 2 ^ j, ?_⟩
  push_cast
  rw [mul_assoc, ← zpow_natCast, ← zpow_add₀ two_ne_zero, ← hj, sub_add_cancel]

/-- A multiple of a power of two is zero or not below it. -/
theorem eq_zero_or_two_zpow_le_abs (m e : Int) :
    (m * 2 ^ e : Rat) = 0 ∨ (2 : Rat) ^ e ≤ |(m : Rat) * 2 ^ e| := by
  rcases eq_or_ne m 0 with rfl | hm
  · exact .inl (by rw [Int.cast_zero, zero_mul])
  · have hone : (1 : Rat) ≤ |(m : Rat)| := by exact_mod_cast Int.one_le_abs hm
    rw [abs_mul, abs_of_pos (two_zpow_pos e)]
    exact .inr (le_mul_of_one_le_left (two_zpow_pos e).le hone)

/-! ## The nearest integer -/

/-- Rounding to an integer errs by a half at most. -/
theorem two_mul_abs_sub_roundHalfEven_le (q : Rat) : 2 * |q - roundHalfEven q| ≤ 1 := by
  have hlow := Rat.floor_le q
  have hhigh := Rat.lt_floor_add_one q
  push_cast at hhigh
  unfold roundHalfEven
  split <;> rename_i h
  · have hhalf : 1 ≤ 2 * (q - q.floor) := h.elim le_of_lt fun htie => htie.1.ge
    rw [abs_of_neg] <;> push_cast <;> linarith
  · have hhalf : 2 * (q - q.floor) ≤ 1 := not_lt.mp fun hlt => h (.inl hlt)
    rw [abs_of_nonneg] <;> linarith

/-- No integer is nearer than the one that is rounded to. -/
theorem abs_sub_roundHalfEven_le (q : Rat) (m : Int) : |q - roundHalfEven q| ≤ |q - m| := by
  rcases eq_or_ne m (roundHalfEven q) with rfl | hne
  · exact le_rfl
  · -- two integers are at least one apart, so at most one of them is within a half
    have hapart : (1 : Rat) ≤ |(m : Rat) - roundHalfEven q| := by
      exact_mod_cast Int.one_le_abs (sub_ne_zero.mpr hne)
    have hsum := abs_sub_le (m : Rat) q (roundHalfEven q)
    have hhalf := two_mul_abs_sub_roundHalfEven_le q
    rw [abs_sub_comm (m : Rat) q] at hsum
    linarith

/-- A rational up to an integer is rounded to at most that integer. -/
theorem abs_roundHalfEven_le {q : Rat} {n : Int} (h : |q| ≤ n) : |roundHalfEven q| ≤ n := by
  obtain ⟨hlow, hhigh⟩ := abs_le.mp h
  have htop := abs_sub_roundHalfEven_le q n
  have hbottom := abs_sub_roundHalfEven_le q (-n)
  have habove := neg_abs_le (q - roundHalfEven q)
  have hbelow := le_abs_self (q - roundHalfEven q)
  push_cast at hbottom
  rw [abs_of_nonpos (by linarith : q - (n : Rat) ≤ 0)] at htop
  rw [abs_of_nonneg (by linarith : 0 ≤ q - -(n : Rat))] at hbottom
  have hle : (roundHalfEven q : Rat) ≤ n := by linarith
  have hge : (-n : Rat) ≤ roundHalfEven q := by linarith
  exact abs_le.mpr ⟨by exact_mod_cast hge, by exact_mod_cast hle⟩

/-! ## The nearest representable number -/

theorem nearest_zero : nearest 0 = 0 :=
  if_pos rfl

/-- What is rounded to is a multiple of the last place. -/
theorem nearest_eq_mul (q : Rat) :
    nearest q = roundHalfEven (q / 2 ^ lastPlace q) * 2 ^ lastPlace q := by
  unfold nearest
  split <;> rename_i h
  · subst h
    rw [zero_div, ← Int.cast_zero, roundHalfEven_intCast, Int.cast_zero, zero_mul]
  · rfl

/-- The distance to a multiple of a power of two, counted in this power. -/
theorem abs_sub_mul_two_zpow (q : Rat) (m e : Int) :
    |q - m * 2 ^ e| = |q / 2 ^ e - m| * 2 ^ e := by
  have hpos := two_zpow_pos e
  rw [← abs_of_pos hpos, ← abs_mul, abs_of_pos hpos, sub_mul, div_mul_cancel₀ _ hpos.ne']

/-- No multiple of the last place is nearer. -/
theorem abs_sub_nearest_le_of_multiple (q : Rat) (m : Int) :
    |q - nearest q| ≤ |q - m * 2 ^ lastPlace q| := by
  rw [nearest_eq_mul, abs_sub_mul_two_zpow, abs_sub_mul_two_zpow]
  exact mul_le_mul_of_nonneg_right (abs_sub_roundHalfEven_le _ m) (two_zpow_pos _).le

theorem neg_le_lastPlace (q : Rat) : -1074 ≤ lastPlace q :=
  le_max_right _ _

/-- A number is less than `2 ^ 53` of its last places. -/
theorem abs_lt_two_zpow_lastPlace {q : Rat} (hq : q ≠ 0) : |q| < 2 ^ (lastPlace q + 53) := by
  have hpos : 0 < q.abs := by
    rw [ratAbs_eq_abs]
    exact abs_pos.mpr hq
  have hle : floorLog2 q.abs + 1 ≤ lastPlace q + 53 := by
    unfold lastPlace
    omega
  calc |q| = q.abs := (ratAbs_eq_abs q).symm
    _ < 2 ^ (floorLog2 q.abs + 1) := lt_two_zpow_floorLog2_add_one hpos
    _ ≤ 2 ^ (lastPlace q + 53) := zpow_le_zpow_right₀ one_le_two hle

/-- What is rounded to is representable. -/
theorem representable_nearest (q : Rat) : Representable (nearest q) := by
  refine ⟨roundHalfEven (q / 2 ^ lastPlace q), lastPlace q, ?_, neg_le_lastPlace q,
    nearest_eq_mul q⟩
  have hpos := two_zpow_pos (lastPlace q)
  apply abs_roundHalfEven_le
  rw [abs_div, abs_of_pos hpos, div_le_iff₀ hpos]
  rcases eq_or_ne q 0 with rfl | hq
  · rw [abs_zero]
    positivity
  · refine (abs_lt_two_zpow_lastPlace hq).le.trans_eq ?_
    rw [add_comm, zpow_add₀ two_ne_zero]
    norm_cast

theorem representable_two_zpow {e : Int} (he : -1074 ≤ e) : Representable (2 ^ e) :=
  ⟨1, e, by norm_num, he, by rw [Int.cast_one, one_mul]⟩

theorem representable_two_pow (k : Nat) : Representable (2 ^ k) := by
  rw [← zpow_natCast]
  exact representable_two_zpow (by omega)

theorem representable_intCast {m : Int} (hm : |m| ≤ 2 ^ 53) : Representable m :=
  ⟨m, 0, hm, by norm_num, by rw [zpow_zero, mul_one]⟩

theorem Representable.neg {r : Rat} (hr : Representable r) : Representable (-r) := by
  obtain ⟨m, e, hm, he, rfl⟩ := hr
  exact ⟨-m, e, by rwa [abs_neg], he, by rw [Int.cast_neg, neg_mul]⟩

/-- Above the finest numbers, rounding errs at most by what a number exceeds the power of two of its
size. That power is a multiple of the last place. -/
theorem abs_sub_nearest_le_sub {q : Rat} (hq : q ≠ 0) (hplace : -1074 < lastPlace q) :
    |q - nearest q| ≤ |q| - 2 ^ (lastPlace q + 52) := by
  have hpower : (2 : Rat) ^ (lastPlace q + 52) ≤ |q| := by
    have hlog : lastPlace q + 52 = floorLog2 q.abs := by
      unfold lastPlace at hplace ⊢
      omega
    rw [hlog, ratAbs_eq_abs]
    exact two_zpow_floorLog2_le (abs_pos.mpr hq)
  have hshift : (2 : Rat) ^ (lastPlace q + 52) = ((2 ^ 52 : Int) : Rat) * 2 ^ lastPlace q := by
    rw [add_comm, zpow_add₀ two_ne_zero]
    norm_cast
  rcases le_total 0 q with hsign | hsign
  · rw [abs_of_nonneg hsign] at hpower ⊢
    have hgrid := abs_sub_nearest_le_of_multiple q (2 ^ 52)
    rwa [← hshift, abs_of_nonneg (sub_nonneg.mpr hpower)] at hgrid
  · rw [abs_of_nonpos hsign] at hpower ⊢
    have hgrid := abs_sub_nearest_le_of_multiple q (-2 ^ 52)
    have hbelow : q + 2 ^ (lastPlace q + 52) ≤ 0 := by linarith
    rw [Int.cast_neg, neg_mul, ← hshift, sub_neg_eq_add, abs_of_nonpos hbelow] at hgrid
    linarith

/-- No representable number is nearer than the one that is rounded to. -/
theorem abs_sub_nearest_le (q : Rat) {r : Rat} (hr : Representable r) :
    |q - nearest q| ≤ |q - r| := by
  obtain ⟨m, e, hm, he, rfl⟩ := hr
  rcases eq_or_ne q 0 with rfl | hq
  · rw [nearest_zero, sub_zero, abs_zero]
    exact abs_nonneg _
  rcases le_or_gt (lastPlace q) e with hle | hlt
  · -- on a grid that is no finer, the number is a multiple of the last place
    obtain ⟨k, hk⟩ := exists_mul_two_zpow_eq m hle
    rw [hk]
    exact abs_sub_nearest_le_of_multiple q k
  · -- on a finer grid it is no larger than the power of two of the size of `q`
    have hsmall : |(m : Rat) * 2 ^ e| ≤ 2 ^ (lastPlace q + 52) := by
      have hm' : |(m : Rat)| ≤ 2 ^ (53 : Int) := by exact_mod_cast hm
      calc |(m : Rat) * 2 ^ e| = |(m : Rat)| * 2 ^ e := by
            rw [abs_mul, abs_of_pos (two_zpow_pos e)]
        _ ≤ 2 ^ (53 : Int) * 2 ^ e := mul_le_mul_of_nonneg_right hm' (two_zpow_pos e).le
        _ = 2 ^ (53 + e) := (zpow_add₀ two_ne_zero _ _).symm
        _ ≤ 2 ^ (lastPlace q + 52) := zpow_le_zpow_right₀ one_le_two (by omega)
    calc |q - nearest q| ≤ |q| - 2 ^ (lastPlace q + 52) :=
          abs_sub_nearest_le_sub hq (lt_of_le_of_lt he hlt)
      _ ≤ |q| - |(m : Rat) * 2 ^ e| := sub_le_sub_left hsmall _
      _ ≤ |q - m * 2 ^ e| := abs_sub_abs_le_abs_sub _ _

/-! ## Rounding keeps the order -/

/-- A representable number is kept. -/
theorem Representable.nearest_eq {r : Rat} (hr : Representable r) : nearest r = r := by
  have hle := abs_sub_nearest_le r hr
  rw [sub_self, abs_zero, abs_nonpos_iff, sub_eq_zero] at hle
  exact hle.symm

/-- What is as near to a number as to a smaller one lies above the middle of the two. -/
theorem add_le_two_mul_of_abs_sub_le {q v w : Rat} (hwv : w < v) (h : |q - v| ≤ |q - w|) :
    v + w ≤ 2 * q := by
  by_contra! hmiddle
  have hnear : |q - w| < v - q := abs_lt.mpr ⟨by linarith, by linarith⟩
  have hfar : v - q ≤ |q - v| := by
    rw [abs_sub_comm]
    exact le_abs_self _
  linarith

/-- What is as near to a number as to a larger one lies below the middle of the two. -/
theorem two_mul_le_add_of_abs_sub_le {q v w : Rat} (hvw : v < w) (h : |q - v| ≤ |q - w|) :
    2 * q ≤ v + w := by
  by_contra! hmiddle
  have hnear : |q - w| < q - v := abs_lt.mpr ⟨by linarith, by linarith⟩
  have hfar : q - v ≤ |q - v| := le_abs_self _
  linarith

/-- Rounding keeps the order. If it did not, the smaller number would lie above the middle of the
two results and the larger one below it. -/
theorem nearest_mono : Monotone nearest := by
  intro p q hle
  by_contra! hlt
  have hp := add_le_two_mul_of_abs_sub_le hlt (abs_sub_nearest_le p (representable_nearest q))
  have hq := two_mul_le_add_of_abs_sub_le hlt (abs_sub_nearest_le q (representable_nearest p))
  have heq : p = q := by linarith
  rw [heq] at hlt
  exact lt_irrefl _ hlt

/-- What is at least as large as a representable number is so when it has been rounded. -/
theorem Representable.le_abs_nearest {q r : Rat} (hr : Representable r) (h : r ≤ |q|) :
    r ≤ |nearest q| := by
  rcases le_total 0 q with hsign | hsign
  · rw [abs_of_nonneg hsign] at h
    calc r = nearest r := hr.nearest_eq.symm
      _ ≤ nearest q := nearest_mono h
      _ ≤ |nearest q| := le_abs_self _
  · rw [abs_of_nonpos hsign, le_neg] at h
    calc r = -nearest (-r) := by rw [hr.neg.nearest_eq, neg_neg]
      _ ≤ -nearest q := neg_le_neg (nearest_mono h)
      _ ≤ |nearest q| := neg_le_abs _

/-- What is at most as large as a representable number is so when it has been rounded. -/
theorem Representable.abs_nearest_le {q r : Rat} (hr : Representable r) (h : |q| ≤ r) :
    |nearest q| ≤ r := by
  obtain ⟨hlow, hhigh⟩ := abs_le.mp h
  have htop := nearest_mono hhigh
  have hbottom := nearest_mono hlow
  rw [hr.nearest_eq] at htop
  rw [hr.neg.nearest_eq] at hbottom
  exact abs_le.mpr ⟨hbottom, htop⟩

/-! ## Last places -/

/-- What is not below a power of two has no finer last place than it. -/
theorem le_lastPlace {q : Rat} {e : Int} (h : 2 ^ e ≤ |q|) : e - 52 ≤ lastPlace q := by
  have hpos : 0 < q.abs := by
    rw [ratAbs_eq_abs]
    exact (two_zpow_pos e).trans_le h
  have hlt : (2 : Rat) ^ e < 2 ^ (floorLog2 q.abs + 1) := by
    rw [← ratAbs_eq_abs] at h
    exact h.trans_lt (lt_two_zpow_floorLog2_add_one hpos)
  have hlog := (zpow_lt_zpow_iff_right₀ (one_lt_two (α := Rat))).mp hlt
  unfold lastPlace
  omega

/-- A number is rounded to a multiple of any power of two that is as fine as its last place. -/
theorem exists_nearest_eq_mul {q : Rat} {e : Int} (he : e ≤ lastPlace q) :
    ∃ m : Int, nearest q = m * 2 ^ e := by
  rw [nearest_eq_mul]
  exact exists_mul_two_zpow_eq _ he

/-! ## The size of the error -/

/-- Rounding errs by half a last place at most. -/
theorem two_mul_abs_sub_nearest_le (q : Rat) : 2 * |q - nearest q| ≤ 2 ^ lastPlace q := by
  rw [nearest_eq_mul, abs_sub_mul_two_zpow, ← mul_assoc]
  exact mul_le_of_le_one_left (two_zpow_pos _).le (two_mul_abs_sub_roundHalfEven_le _)

/-- What is less than a power of two has a last place that is 53 bits below it, or a finer one. -/
theorem lastPlace_le {q : Rat} {e : Int} (hq : q ≠ 0) (he : -1021 ≤ e) (h : |q| < 2 ^ e) :
    lastPlace q ≤ e - 53 := by
  rw [← ratAbs_eq_abs] at h
  have hpos : 0 < q.abs := by
    rw [ratAbs_eq_abs]
    exact abs_pos.mpr hq
  have hlog := floorLog2_lt hpos h
  unfold lastPlace
  omega

/-- Rounding what is at most a power of two errs by no more than a `2 ^ 54`th of that power. -/
theorem abs_sub_nearest_le_two_zpow {q : Rat} {e : Int} (he : -1021 ≤ e) (h : |q| ≤ 2 ^ e) :
    |q - nearest q| ≤ 2 ^ (e - 54) := by
  rcases eq_or_ne q 0 with rfl | hq
  · rw [nearest_zero, sub_zero, abs_zero]
    exact (two_zpow_pos _).le
  rcases h.lt_or_eq with hlt | heq
  · have hhalf := two_mul_abs_sub_nearest_le q
    have hplace := lastPlace_le hq he hlt
    have hpower : (2 : Rat) ^ lastPlace q ≤ 2 * 2 ^ (e - 54) := by
      rw [← zpow_one_add₀ two_ne_zero]
      exact zpow_le_zpow_right₀ one_le_two (by omega)
    linarith
  · -- the power itself is kept
    have hpower : Representable (2 ^ e) := representable_two_zpow (by omega)
    have hkept : nearest q = q := by
      rcases eq_or_eq_neg_of_abs_eq heq with rfl | rfl
      · exact hpower.nearest_eq
      · exact hpower.neg.nearest_eq
    rw [hkept, sub_self, abs_zero]
    exact (two_zpow_pos _).le

/-! ## Cutting -/

/-- Dropping the fraction keeps the order. -/
theorem truncate_mono {p q : Rat} (hle : p ≤ q) : truncate p ≤ truncate q := by
  unfold truncate
  split <;> rename_i hp <;> split <;> rename_i hq
  · exact neg_le_neg (Rat.floor_monotone (neg_le_neg hle))
  · -- a negative number is cut to zero at most, and one that is not negative to zero at least
    have hlow : 0 ≤ (-p).floor := Rat.le_floor_iff.mpr (by exact_mod_cast (neg_pos.mpr hp).le)
    have hhigh : 0 ≤ q.floor := Rat.le_floor_iff.mpr (by exact_mod_cast not_lt.mp hq)
    omega
  · exact absurd (hle.trans_lt hq) hp
  · exact Rat.floor_monotone hle

/-- Dropping the fraction rounds towards zero. -/
theorem truncate_eq (q : Rat) : truncate q = if q < 0 then ⌈q⌉ else ⌊q⌋ := by
  rw [← neg_neg ⌈q⌉, ← Int.floor_neg]
  rfl

/-- Between two integers, what is left is the one that is nearer to zero. -/
theorem truncate_eq_of_between {q : Rat} {m : Int} (hlow : m < q) (hhigh : q < m + 1) :
    truncate q = if m < 0 then m + 1 else m := by
  have hfloor : ⌊q⌋ = m := Int.floor_eq_iff.mpr ⟨hlow.le, hhigh⟩
  have hceil : ⌈q⌉ = m + 1 := by
    refine Int.ceil_eq_iff.mpr ⟨?_, ?_⟩ <;> push_cast <;> linarith
  have hsign : q < 0 ↔ m < 0 := by
    constructor
    · intro hq
      exact_mod_cast hlow.trans hq
    · intro hm
      have hnext : (m : Rat) + 1 ≤ 0 := by exact_mod_cast hm
      exact hhigh.trans_le hnext
  rw [truncate_eq, hfloor, hceil, if_congr hsign rfl rfl]

/-- Numbers that no integer parts are cut to the same integer. -/
theorem truncate_eq_of_abs_sub_lt {p q ε : Rat} (hnear : |p - q| < ε)
    (hfar : ∀ m : Int, ε ≤ |q - m|) : truncate p = truncate q := by
  obtain ⟨hlow, hhigh⟩ := abs_lt.mp hnear
  have hfloor := hfar ⌊q⌋
  have hnext := hfar (⌊q⌋ + 1)
  have hle := Int.floor_le q
  have hlt := Int.lt_floor_add_one q
  rw [abs_of_nonneg (by linarith)] at hfloor
  rw [Int.cast_add, Int.cast_one, abs_of_nonpos (by linarith)] at hnext
  rw [truncate_eq_of_between (q := p) (m := ⌊q⌋) (by linarith) (by linarith),
    truncate_eq_of_between (q := q) (m := ⌊q⌋) (by linarith) (by linarith)]

/-- One more is cut to one more at most. -/
theorem truncate_add_one_le (q : Rat) : truncate (q + 1) ≤ truncate q + 1 := by
  rw [truncate_eq, truncate_eq, Int.ceil_add_one, Int.floor_add_one]
  split <;> rename_i hnext <;> split <;> rename_i hq
  · exact le_rfl
  · exact absurd (by linarith) hq
  · -- a number that is rounded up is cut to no less than if it were rounded down
    exact add_le_add_left (Int.floor_le_ceil q) 1
  · exact le_rfl

/-- Numbers that are less than one apart are cut to the same integer or to adjacent ones. -/
theorem abs_truncate_sub_truncate_le {p q : Rat} (hnear : |p - q| ≤ 1) :
    |truncate p - truncate q| ≤ 1 := by
  obtain ⟨hlow, hhigh⟩ := abs_le.mp hnear
  have hp := (truncate_mono (by linarith : p ≤ q + 1)).trans (truncate_add_one_le q)
  have hq := (truncate_mono (by linarith : q ≤ p + 1)).trans (truncate_add_one_le p)
  exact abs_le.mpr ⟨by linarith, by linarith⟩

/-! ## Double precision -/

namespace Binary64

/-- What is not too large is rounded without overflow. -/
theorem ofRat_eq_finite {q : Rat} (h : |q| ≤ 2 ^ 53) : ofRat q = .finite (nearest q) := by
  have hbound : |nearest q| ≤ 2 ^ 53 := (representable_two_pow 53).abs_nearest_le h
  have hlarge : (2 : Rat) ^ 53 < overflow := by
    rw [overflow, ← zpow_natCast]
    exact zpow_lt_zpow_right₀ one_lt_two (by norm_num)
  obtain ⟨hlow, hhigh⟩ := abs_le.mp hbound
  unfold ofRat
  rw [if_neg (by linarith), if_neg (by linarith)]

/-- A finite number that is zero or has all bits of its significand. -/
def IsNormal (x : Binary64) : Prop :=
  ∃ q : Rat, x = .finite q ∧ (q = 0 ∨ 2 ^ (-1022 : Int) ≤ |q|)

/-- A number is normal if it is rounded from zero or from what is not too small. -/
theorem isNormal_nearest {q : Rat} {e : Int} (he : -1022 ≤ e) (h : q = 0 ∨ 2 ^ e ≤ |q|) :
    IsNormal (.finite (nearest q)) := by
  refine ⟨nearest q, rfl, ?_⟩
  rcases h with rfl | h
  · exact .inl nearest_zero
  · have hr : Representable (2 ^ e) := representable_two_zpow (by omega)
    exact .inr ((zpow_le_zpow_right₀ one_le_two he).trans (hr.le_abs_nearest h))

end Binary64

end SchemaLayout
