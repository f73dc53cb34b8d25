import SchemaLayout.Geometry.Ron
import SchemaLayout.Proofs.Ron.Decoding
import SchemaLayout.Proofs.Ron.Printing

/-!
# Coordinates, points and sizes in files

In which values a coordinate, a point and a size are stored: those are the values from which they
are read, and what is written of them is among these. A record in which a coordinate is left out, or
stands twice, stores nothing.
-/

namespace SchemaLayout

open Ron (Document Faulty IsRecord Value WrittenOnce)

/-! ## Coordinates -/

namespace Coord

/-- A value in which a coordinate is stored: an integer, with a plus or without. -/
inductive Stored (c : Coord) : Value → Prop
  | positive {sign : Option Ron.Sign} {n : Nat} (hsign : sign ≠ some .minus) (h : c.toInt = n) :
      Stored c (.int sign n)
  | negative {n : Nat} (h : c.toInt = -n) : Stored c (.int (some .minus) n)

theorem toCoord?_eq_some_iff {v : Value} {c : Coord} : v.toCoord? = some c ↔ c.Stored v := by
  constructor
  · intro h
    unfold Value.toCoord? at h
    split at h
    · exact .negative (ofInt?_eq_some_iff.mp h)
    · exact .positive ‹_› (ofInt?_eq_some_iff.mp h)
    · cases h
  · rintro (⟨hsign, h⟩ | h)
    · rw [Value.toCoord?, ofInt?_eq_some_iff.mpr h]
      exact hsign
    · rw [Value.toCoord?, ofInt?_eq_some_iff.mpr h]

theorem stored_toValue (c : Coord) : c.Stored c.toDocument.toValue := by
  show c.Stored (.int (Document.signOf c.toInt) c.toInt.natAbs)
  by_cases hc : c.toInt < 0
  · rw [Document.signOf, if_pos hc]
    exact .negative (by omega)
  · rw [Document.signOf, if_neg hc]
    exact .positive (by simp) (by omega)

@[simp]
theorem fits_toDocument (c : Coord) (budget : Nat) : c.toDocument.Fits budget :=
  .int budget (by have := c.lo_le; omega) (by have := c.le_hi; omega)

end Coord

/-! ## Points -/

namespace Point

/-- A value in which a point is stored. -/
def Stored (p : Point) : Value → Prop :=
  IsRecord "Point" fun fields =>
    WrittenOnce "x" p.x.Stored fields ∧ WrittenOnce "y" p.y.Stored fields

/-- A record that lacks a coordinate of a point or has one twice. -/
def Faulty : Value → Prop := Ron.Faulty ["x", "y"] [] fun _ _ => False

theorem ofValue?_eq_some_iff {v : Value} {p : Point} : ofValue? v = some p ↔ p.Stored v := by
  simp only [ofValue?, Option.bind_eq_bind, Option.bind_eq_some_iff, Option.pure_def,
    Option.some.injEq, Ron.toFields?_eq_some_iff, Ron.readField_eq_some_iff,
    Coord.toCoord?_eq_some_iff]
  constructor
  · rintro ⟨fields, hv, x, hx, y, hy, rfl⟩
    exact ⟨fields, hv, hx, hy⟩
  · rintro ⟨fields, hv, hx, hy⟩
    exact ⟨fields, hv, _, hx, _, hy, rfl⟩

theorem Stored.not_faulty {p : Point} {v : Value} (h : p.Stored v) : ¬ Faulty v :=
  Ron.not_faulty h (fun hfields => by simp [hfields.1.not_leftOut, hfields.2.not_leftOut])
    (fun hfields => by simp [hfields.1.not_repeated, hfields.2.not_repeated]) fun _ _ => id

theorem stored_toValue (p : Point) : p.Stored p.toDocument.toValue := by
  refine ⟨_, .inl rfl, ?_, ?_⟩
  · simp [Ron.writtenOnce_iff, Document.toFields, p.x.stored_toValue]
  · simp [Ron.writtenOnce_iff, Document.toFields, p.y.stored_toValue]

@[simp]
theorem fits_toDocument (p : Point) (budget : Nat) : p.toDocument.Fits (budget + 2) := by
  simp +decide [toDocument]

end Point

/-! ## Sizes -/

namespace Size

/-- A value in which a size is stored. -/
def Stored (s : Size) : Value → Prop :=
  IsRecord "Size" fun fields =>
    WrittenOnce "width" s.width.Stored fields ∧ WrittenOnce "height" s.height.Stored fields

/-- A record that lacks a length of a size or has one twice. -/
def Faulty : Value → Prop := Ron.Faulty ["width", "height"] [] fun _ _ => False

theorem ofValue?_eq_some_iff {v : Value} {s : Size} : ofValue? v = some s ↔ s.Stored v := by
  simp only [ofValue?, Option.bind_eq_bind, Option.bind_eq_some_iff, Option.pure_def,
    Option.some.injEq, Ron.toFields?_eq_some_iff, Ron.readField_eq_some_iff,
    Coord.toCoord?_eq_some_iff]
  constructor
  · rintro ⟨fields, hv, width, hwidth, height, hheight, rfl⟩
    exact ⟨fields, hv, hwidth, hheight⟩
  · rintro ⟨fields, hv, hwidth, hheight⟩
    exact ⟨fields, hv, _, hwidth, _, hheight, rfl⟩

theorem Stored.not_faulty {s : Size} {v : Value} (h : s.Stored v) : ¬ Faulty v :=
  Ron.not_faulty h (fun hfields => by simp [hfields.1.not_leftOut, hfields.2.not_leftOut])
    (fun hfields => by simp [hfields.1.not_repeated, hfields.2.not_repeated]) fun _ _ => id

theorem stored_toValue (s : Size) : s.Stored s.toDocument.toValue := by
  refine ⟨_, .inl rfl, ?_, ?_⟩
  · simp [Ron.writtenOnce_iff, Document.toFields, s.width.stored_toValue]
  · simp [Ron.writtenOnce_iff, Document.toFields, s.height.stored_toValue]

@[simp]
theorem fits_toDocument (s : Size) (budget : Nat) : s.toDocument.Fits (budget + 2) := by
  simp +decide [toDocument]

end Size

end SchemaLayout
