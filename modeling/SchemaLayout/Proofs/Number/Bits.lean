import SchemaLayout.Event
import SchemaLayout.Proofs.Number.Nearest
import SchemaLayout.Proofs.Ron.Digits

/-!
# Bits

Bits tell a number exactly: what binary64 can hold is read back from its bits (`ofBits_toBits`), and
bits stand for nothing else (`isStored_iff`). All results of the arithmetic are held, so two of them
are equal if their bits are, and a report that shows the bits of a number shows the number
(`label_inj`).

A word is a sign above a magnitude, and a magnitude an exponent above a fraction. An exponent of
zero says that the leading bit of the significand is missing, which happens only at the finest
place; so a significand and its place can be read off the magnitude.
-/

namespace SchemaLayout.Binary64

/-! ## Numbers that are held -/

/-- Numbers that binary64 can hold. -/
inductive IsStored : Binary64 → Prop
  | nan : IsStored .nan
  | infinite (negative : Bool) : IsStored (.infinite negative)
  | finite {q : Rat} (hrepresentable : Representable q) (hbound : |q| < overflow) :
    IsStored (.finite q)

theorem isStored_ofRat (q : Rat) : (ofRat q).IsStored := by
  unfold ofRat
  split <;> rename_i hlow
  · exact .infinite true
  · split <;> rename_i hhigh
    · exact .infinite false
    · exact .finite (representable_nearest q) (abs_lt.mpr ⟨not_le.mp hlow, not_le.mp hhigh⟩)

theorem IsStored.neg {x : Binary64} (h : x.IsStored) : (-x).IsStored := by
  cases h with
  | nan => exact .nan
  | infinite negative => exact .infinite !negative
  | finite hrepresentable hbound =>
    exact .finite hrepresentable.neg ((abs_neg _).trans_lt hbound)

theorem isStored_add (x y : Binary64) : (x + y).IsStored := by
  show (add x y).IsStored
  unfold add
  split
  · exact isStored_ofRat _
  · exact .nan
  · exact .nan
  · split
    · exact .infinite _
    · exact .nan
  · exact .infinite _
  · exact .infinite _

theorem isStored_mul (x y : Binary64) : (x * y).IsStored := by
  show (mul x y).IsStored
  unfold mul
  split
  · exact isStored_ofRat _
  · exact .nan
  · exact .nan
  · exact .infinite _
  · split
    · exact .nan
    · exact .infinite _
  · split
    · exact .nan
    · exact .infinite _

/-! ## Words -/

theorem leadingBit_eq : leadingBit = 2 ^ 52 :=
  rfl

/-- The word of a sign and a magnitude. -/
def word (negative : Bool) (magnitude : Nat) : UInt64 :=
  .ofNat (if negative then (1 <<< 63) + magnitude else magnitude)

section

variable {negative : Bool} {magnitude : Nat}

theorem toNat_word (h : magnitude < 2 ^ 63) :
    (word negative magnitude).toNat = if negative then 2 ^ 63 + magnitude else magnitude := by
  unfold word
  rw [UInt64.toNat_ofNat']
  apply Nat.mod_eq_of_lt
  split <;> omega

theorem testBit_word (h : magnitude < 2 ^ 63) :
    (word negative magnitude).toNat.testBit 63 = negative := by
  rw [toNat_word h]
  cases negative with
  | true =>
    rw [if_pos rfl, Nat.testBit_two_pow_add_eq, Nat.testBit_lt_two_pow h]
    rfl
  | false => exact Nat.testBit_lt_two_pow h

theorem exponent_word (h : magnitude < 2 ^ 63) :
    ((word negative magnitude).toNat >>> 52) % 2048 = magnitude / leadingBit := by
  rw [toNat_word h, Nat.shiftRight_eq_div_pow, leadingBit_eq]
  split <;> omega

theorem fraction_word (h : magnitude < 2 ^ 63) :
    (word negative magnitude).toNat % leadingBit = magnitude % leadingBit := by
  rw [toNat_word h, leadingBit_eq]
  split <;> omega

end

/-! ## Significands -/

/-- A significand and the exponent of its last place, of which a word can tell: the leading bit is
there unless the place is the finest. -/
structure Fits (significand : Nat) (place : Int) : Prop where
  lt : significand < 2 ^ 53
  full : 2 ^ 52 ≤ significand ∨ place = -1074
  low : -1074 ≤ place
  high : place ≤ 971

/-- The bits of a significand at a place, without a sign. -/
def magnitude (significand : Nat) (place : Int) : Nat :=
  if significand < leadingBit then significand
  else (place + 1075).toNat * leadingBit + (significand - leadingBit)

/-- A number of a sign, a significand and a place. -/
def signed (negative : Bool) (significand : Nat) (place : Int) : Rat :=
  if negative then -(significand * 2 ^ place) else significand * 2 ^ place

section

variable {significand : Nat} {place : Int} (h : Fits significand place) (negative : Bool)

include h

/-- A word tells its sign, its significand and its place. -/
theorem ofBits_word :
    ofBits (word negative (magnitude significand place)) =
      .finite (signed negative significand place) := by
  obtain ⟨hlt, hfull, hlow, hhigh⟩ := h
  by_cases hsmall : significand < leadingBit
  · have hmagnitude : magnitude significand place = significand := if_pos hsmall
    rw [leadingBit_eq] at hsmall
    obtain rfl : place = -1074 := hfull.resolve_left (by omega)
    unfold ofBits
    rw [hmagnitude, testBit_word (by omega), exponent_word (by omega), fraction_word (by omega),
      leadingBit_eq, Nat.div_eq_of_lt hsmall, Nat.mod_eq_of_lt hsmall, if_neg (by decide),
      if_pos rfl]
    rfl
  · have hmagnitude : magnitude significand place =
        (place + 1075).toNat * leadingBit + (significand - leadingBit) := if_neg hsmall
    rw [leadingBit_eq] at hsmall hmagnitude
    have hexponent : magnitude significand place / leadingBit = (place + 1075).toNat := by
      rw [leadingBit_eq]
      omega
    have hfraction : magnitude significand place % leadingBit = significand - 2 ^ 52 := by
      rw [leadingBit_eq]
      omega
    have hbound : magnitude significand place < 2 ^ 63 := by omega
    unfold ofBits
    rw [testBit_word hbound, exponent_word hbound, fraction_word hbound, hexponent, hfraction,
      if_neg (by omega), if_neg (by omega), leadingBit_eq, Nat.add_sub_of_le (not_lt.mp hsmall),
      Int.toNat_of_nonneg (by omega), add_sub_cancel_right]
    rfl

theorem isStored_signed : IsStored (.finite (signed negative significand place)) := by
  obtain ⟨hlt, -, hlow, hhigh⟩ := h
  have hrepresentable : Representable (significand * 2 ^ place) := by
    refine ⟨significand, place, ?_, hlow, by rw [Int.cast_natCast]⟩
    rw [Nat.abs_cast]
    exact_mod_cast hlt.le
  have hbound : |(significand * 2 ^ place : Rat)| < overflow := by
    have hlt' : (significand : Rat) < 2 ^ (53 : Int) := by exact_mod_cast hlt
    rw [abs_of_nonneg (mul_nonneg (Nat.cast_nonneg _) (two_zpow_pos _).le)]
    calc (significand : Rat) * 2 ^ place
        < 2 ^ (53 : Int) * 2 ^ place := mul_lt_mul_of_pos_right hlt' (two_zpow_pos _)
      _ = 2 ^ (53 + place) := (zpow_add₀ two_ne_zero _ _).symm
      _ ≤ overflow := zpow_le_zpow_right₀ one_le_two (by omega)
  cases negative with
  | true => exact .finite hrepresentable.neg ((abs_neg _).trans_lt hbound)
  | false => exact .finite hrepresentable hbound

end

/-- A finite number other than zero is a significand at its last place. -/
theorem exists_fits {q : Rat} (hq : q ≠ 0) (hrepresentable : Representable q)
    (hbound : |q| < overflow) :
    ∃ significand, Fits significand (lastPlace q) ∧ |q| = significand * 2 ^ lastPlace q := by
  have hpos := two_zpow_pos (lastPlace q)
  have heq : |q| = (roundHalfEven (q / 2 ^ lastPlace q)).natAbs * 2 ^ lastPlace q := by
    have hmul := nearest_eq_mul q
    rw [hrepresentable.nearest_eq] at hmul
    rw [Nat.cast_natAbs, Int.cast_abs]
    conv_lhs => rw [hmul, abs_mul, abs_of_pos hpos]
  refine ⟨_, ⟨?_, ?_, neg_le_lastPlace q, ?_⟩, heq⟩
  · have hlt := abs_lt_two_zpow_lastPlace hq
    rw [heq, add_comm, zpow_add₀ two_ne_zero, mul_lt_mul_iff_left₀ hpos] at hlt
    exact_mod_cast hlt
  · -- above the finest place, the leading bit is the power of two of the size of the number
    rcases (neg_le_lastPlace q).eq_or_lt with hplace | hplace
    · exact .inr hplace.symm
    · have hlog : lastPlace q = floorLog2 q.abs - 52 := by
        unfold lastPlace at hplace ⊢
        omega
      have hpower := two_zpow_floorLog2_le (q := q.abs) (by rwa [ratAbs_eq_abs, abs_pos])
      rw [← sub_add_cancel (floorLog2 q.abs) 52, ← hlog, ratAbs_eq_abs, heq, add_comm,
        zpow_add₀ two_ne_zero, mul_le_mul_iff_left₀ hpos] at hpower
      exact .inl (by exact_mod_cast hpower)
  · exact lastPlace_le hq (by norm_num) hbound

/-! ## Reading and writing -/

/-- The bits of a finite number are those of its sign, its significand and its last place. -/
theorem toBits_finite {q : Rat} (hq : q ≠ 0) {significand : Nat}
    (h : |q| = significand * 2 ^ lastPlace q) :
    toBits (.finite q) = word (decide (q < 0)) (magnitude significand (lastPlace q)) := by
  have hfloor : (q.abs / 2 ^ lastPlace q).floor.toNat = significand := by
    rw [ratAbs_eq_abs, h, mul_div_cancel_right₀ _ (two_zpow_pos _).ne', ← Int.cast_natCast,
      Rat.floor_intCast, Int.toNat_natCast]
  unfold toBits word magnitude
  simp only [hfloor, if_neg hq, decide_eq_true_eq]

theorem signed_decide {q : Rat} {significand : Nat} {place : Int}
    (h : |q| = significand * 2 ^ place) : signed (decide (q < 0)) significand place = q := by
  unfold signed
  rw [← h]
  by_cases hq : q < 0
  · rw [if_pos (decide_eq_true hq), abs_of_neg hq, neg_neg]
  · rw [if_neg (by simpa using hq), abs_of_nonneg (not_lt.mp hq)]

/-- What is held is read back from its bits. -/
theorem ofBits_toBits {x : Binary64} (h : x.IsStored) : ofBits x.toBits = x := by
  cases h with
  | nan => decide
  | infinite negative => cases negative <;> decide
  | @finite q hrepresentable hbound =>
    rcases eq_or_ne q 0 with rfl | hq
    · -- zero has a significand of zero at the finest place
      have hfits : Fits 0 (-1074) := ⟨by decide, .inr rfl, by decide, by decide⟩
      refine (ofBits_word hfits false).trans ?_
      simp [signed]
    · obtain ⟨significand, hfits, heq⟩ := exists_fits hq hrepresentable hbound
      rw [toBits_finite hq heq, ofBits_word hfits, signed_decide heq]

/-- What is read is held. -/
theorem isStored_ofBits (bits : UInt64) : (ofBits bits).IsStored := by
  have hleading := leadingBit_eq
  have hfraction : bits.toNat % leadingBit < leadingBit := Nat.mod_lt _ (by decide)
  unfold ofBits
  dsimp only
  split <;> rename_i hspecial
  · split
    · exact .infinite _
    · exact .nan
  · split <;> rename_i hexponent
    · exact isStored_signed ⟨by omega, .inr rfl, by omega, by omega⟩ _
    · exact isStored_signed ⟨by omega, .inl (by omega), by omega, by omega⟩ _

/-- The numbers that are held are those that bits stand for. -/
theorem isStored_iff {x : Binary64} : x.IsStored ↔ ∃ bits, ofBits bits = x := by
  constructor
  · exact fun h => ⟨_, ofBits_toBits h⟩
  · rintro ⟨bits, rfl⟩
    exact isStored_ofBits bits

/-- Bits tell numbers apart. -/
theorem toBits_inj {x y : Binary64} (hx : x.IsStored) (hy : y.IsStored) :
    x.toBits = y.toBits ↔ x = y := by
  constructor
  · intro h
    rw [← ofBits_toBits hx, h, ofBits_toBits hy]
  · exact congrArg toBits

/-- The digits that are shown of a number stand for its bits. -/
theorem digitsValue_label (x : Binary64) :
    Ron.digitsValue 16 x.label.toList = x.toBits.toNat := by
  unfold label
  rw [String.toList_ofList, Ron.digitsValue_leftpad,
    Ron.digitsValue_toDigits (by decide) (by decide)]

/-- What is shown of a number tells it exactly. -/
theorem label_inj {x y : Binary64} (hx : x.IsStored) (hy : y.IsStored) :
    x.label = y.label ↔ x = y := by
  constructor
  · intro h
    rw [← toBits_inj hx hy, ← UInt64.toNat_inj, ← digitsValue_label, h, digitsValue_label]
  · exact congrArg label

end SchemaLayout.Binary64
