/-!
# Double precision numbers

A `Binary64` is a binary64 number of IEEE 754 by its value: not a number, an infinity, or a
rational. The two zeros are one here, because nothing that is computed from them can tell them
apart. Each operation is the exact operation on rationals followed by one rounding, to the nearest
representable number and to the even one of two that are equally near.

`roundHalfEven` rounds to an integer and `nearest` to a significand of 53 bits; the operations rest
on these. `ofBits` and `toBits` read and write the bits.
-/

namespace SchemaLayout

/-! ## Rounding of rationals -/

/-- The largest power of two, by its exponent, that is at most a positive rational. -/
def floorLog2 (q : Rat) : Int :=
  let e : Int := q.num.natAbs.log2 - q.den.log2
  if q < 2 ^ e then e - 1 else e

/-- The integer nearest to a rational, the even one of two that are equally near. -/
def roundHalfEven (q : Rat) : Int :=
  if 1 < 2 * (q - q.floor) ∨ (2 * (q - q.floor) = 1 ∧ q.floor % 2 = 1) then q.floor + 1
  else q.floor

/-- A rational without its fraction. -/
def truncate (q : Rat) : Int := if q < 0 then -(-q).floor else q.floor

/-- The exponent of the last place of a number of the size of `q`: a significand has 53 bits, and
no number is finer than `2 ^ (-1074)`. -/
def lastPlace (q : Rat) : Int := max (floorLog2 q.abs - 52) (-1074)

/-- The multiple of the last place that is nearest to `q`. -/
def nearest (q : Rat) : Rat :=
  if q = 0 then 0 else roundHalfEven (q / 2 ^ lastPlace q) * 2 ^ lastPlace q

/-! ## The numbers and their arithmetic -/

/-- A binary64 number by its value. -/
inductive Binary64 where
  | nan
  | infinite (negative : Bool)
  | finite (value : Rat)
deriving DecidableEq

namespace Binary64

/-- The power of two that is too large for a finite number. -/
def overflow : Rat := 2 ^ (1024 : Int)

/-- The number nearest to a rational; what rounds to the overflow or beyond is infinite. -/
def ofRat (q : Rat) : Binary64 :=
  if nearest q ≤ -overflow then .infinite true
  else if overflow ≤ nearest q then .infinite false
  else .finite (nearest q)

/-- The number nearest to an integer. -/
def ofInt (n : Int) : Binary64 := ofRat n

/-- The number of the other sign. -/
def neg : Binary64 → Binary64
  | .nan => .nan
  | .infinite negative => .infinite !negative
  | .finite q => .finite (-q)

instance : Neg Binary64 := ⟨neg⟩

/-- Opposite infinities have no sum. -/
def add : Binary64 → Binary64 → Binary64
  | .finite p, .finite q => ofRat (p + q)
  | .nan, _ | _, .nan => .nan
  | .infinite s, .infinite t => if s = t then .infinite s else .nan
  | .infinite s, .finite _ | .finite _, .infinite s => .infinite s

instance : Add Binary64 := ⟨add⟩

instance : Sub Binary64 := ⟨fun a b => a + -b⟩

/-- An infinity has no product with zero. -/
def mul : Binary64 → Binary64 → Binary64
  | .finite p, .finite q => ofRat (p * q)
  | .nan, _ | _, .nan => .nan
  | .infinite s, .infinite t => .infinite (s != t)
  | .infinite s, .finite q | .finite q, .infinite s =>
    if q = 0 then .nan else .infinite (s != decide (q < 0))

instance : Mul Binary64 := ⟨mul⟩

/-! ## Bits -/

/-- The weight of the leading bit of a significand, which is not stored. -/
def leadingBit : Nat := 1 <<< 52

/-- Reads the sign, the eleven bits of the exponent and the 52 bits of the fraction. -/
def ofBits (bits : UInt64) : Binary64 :=
  let negative := bits.toNat.testBit 63
  let exponent := (bits.toNat >>> 52) % 2048
  let fraction := bits.toNat % leadingBit
  let signed (significand : Nat) (place : Int) : Binary64 :=
    let q : Rat := significand * 2 ^ place
    .finite (if negative then -q else q)
  if exponent = 2047 then if fraction = 0 then .infinite negative else .nan
  else if exponent = 0 then signed fraction (-1074)
  else signed (leadingBit + fraction) (exponent - 1075)

/-- The bits of a number; zero is written without a sign. -/
def toBits : Binary64 → UInt64
  | .nan => 0x7ff8000000000000
  | .infinite negative => if negative then 0xfff0000000000000 else 0x7ff0000000000000
  | .finite q =>
    if q = 0 then 0 else
      let place := lastPlace q
      let significand := (q.abs / 2 ^ place).floor.toNat
      let magnitude :=
        if significand < leadingBit then significand
        else (place + 1075).toNat * leadingBit + (significand - leadingBit)
      UInt64.ofNat (if q < 0 then (1 <<< 63) + magnitude else magnitude)

end Binary64

end SchemaLayout
