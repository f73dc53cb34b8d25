import SchemaLayout.Proofs.Geometry.Stored
import SchemaLayout.Settings.Ron

/-!
# Settings in files

In which values settings are stored. Any field may be left out and is then as in the standard
settings; so a record of some fields of settings stores the settings that are alike in these fields
and standard in the others (`StoredPartly.stored_keepOnly`).
-/

namespace SchemaLayout.Settings

open Ron (Document IsRecord LeftOut Value WrittenOnce WrittenOr)

/-- A value in which settings are stored. -/
def Stored (settings : Settings) : Value → Prop :=
  IsRecord "LayoutSettings" fun fields =>
    WrittenOr "animation_enabled" (· = .bool settings.animated)
        (standard.animated = settings.animated) fields ∧
      WrittenOr "num_frames_in_anim" (· = .int none settings.frames.toNat)
        (standard.frames = settings.frames) fields ∧
      WrittenOr "horizontal_gap" settings.gaps.horizontal.Stored
        (standard.gaps.horizontal = settings.gaps.horizontal) fields ∧
      WrittenOr "vertical_gap" settings.gaps.vertical.Stored
        (standard.gaps.vertical = settings.gaps.vertical) fields

/-- A record that has a field of settings twice. -/
def Faulty : Value → Prop :=
  Ron.Faulty [] ["animation_enabled", "num_frames_in_anim", "horizontal_gap", "vertical_gap"]
    fun _ _ => False

theorem ofValue?_eq_some_iff {v : Value} {settings : Settings} :
    ofValue? v = some settings ↔ settings.Stored v := by
  simp only [ofValue?, Option.bind_eq_bind, Option.bind_eq_some_iff, Option.pure_def,
    Option.some.injEq, Ron.toFields?_eq_some_iff, Ron.readFieldOr_eq_some_iff,
    Ron.toBool?_eq_some_iff, Ron.toWord?_eq_some_iff, Coord.toCoord?_eq_some_iff]
  constructor
  · rintro ⟨fields, hv, animated, hanimated, frames, hframes, horizontal, hhorizontal, vertical,
      hvertical, rfl⟩
    exact ⟨fields, hv, hanimated, hframes, hhorizontal, hvertical⟩
  · rintro ⟨fields, hv, hanimated, hframes, hhorizontal, hvertical⟩
    exact ⟨fields, hv, _, hanimated, _, hframes, _, hhorizontal, _, hvertical, rfl⟩

theorem Stored.not_faulty {settings : Settings} {v : Value} (h : settings.Stored v) :
    ¬ Faulty v := by
  refine Ron.not_faulty h (by simp) ?_ fun _ _ => id
  rintro fields ⟨hanimated, hframes, hhorizontal, hvertical⟩
  simp [hanimated.not_repeated, hframes.not_repeated, hhorizontal.not_repeated,
    hvertical.not_repeated]

theorem stored_toValue (settings : Settings) : settings.Stored settings.toDocument.toValue := by
  refine ⟨_, .inl rfl, .inl ?_, .inl ?_, .inl ?_, .inl ?_⟩ <;>
    simp [Ron.writtenOnce_iff, Document.toFields, Document.toValue, Document.signOf,
      settings.gaps.horizontal.stored_toValue, settings.gaps.vertical.stored_toValue]

theorem fits_toDocument (settings : Settings) : settings.toDocument.Fits Ron.depthBudget := by
  have hframes := settings.frames.toNat_lt
  have hint : (Document.int settings.frames.toNat).Fits 126 :=
    Document.fits_int_iff.mpr ⟨by omega, by omega⟩
  simp +decide [toDocument, Ron.depthBudget, hint, -Document.fits_int_iff]

/-! ## Some of the fields -/

/-- The fields of settings. -/
inductive Field where
  | animated
  | frames
  | horizontalGap
  | verticalGap
deriving DecidableEq

namespace Field

/-- The name of a field in a file. -/
def key : Field → String
  | animated => "animation_enabled"
  | frames => "num_frames_in_anim"
  | horizontalGap => "horizontal_gap"
  | verticalGap => "vertical_gap"

/-- A value in which a field of settings is stored. -/
def Stored (settings : Settings) : Field → Value → Prop
  | animated => (· = .bool settings.animated)
  | frames => (· = .int none settings.frames.toNat)
  | horizontalGap => settings.gaps.horizontal.Stored
  | verticalGap => settings.gaps.vertical.Stored

end Field

/-- A record of some fields of settings, in any order and among any others. -/
def StoredPartly (settings : Settings) (written : Field → Bool) : Value → Prop :=
  IsRecord "LayoutSettings" fun fields => ∀ field : Field,
    if written field then WrittenOnce field.key (field.Stored settings) fields
    else LeftOut field.key fields

/-- The standard settings, apart from some fields. -/
def keepOnly (settings : Settings) (kept : Field → Bool) : Settings where
  animated := if kept .animated then settings.animated else standard.animated
  frames := if kept .frames then settings.frames else standard.frames
  gaps.horizontal :=
    if kept .horizontalGap then settings.gaps.horizontal else standard.gaps.horizontal
  gaps.vertical := if kept .verticalGap then settings.gaps.vertical else standard.gaps.vertical

theorem StoredPartly.stored_keepOnly {settings : Settings} {written : Field → Bool} {v : Value}
    (h : settings.StoredPartly written v) : (settings.keepOnly written).Stored v := by
  obtain ⟨fields, hv, hfields⟩ := h
  exact ⟨fields, hv, .of_ite (fun b v => v = .bool b) (hfields .animated),
    .of_ite (fun (n : UInt32) v => v = .int none n.toNat) (hfields .frames),
    .of_ite Coord.Stored (hfields .horizontalGap), .of_ite Coord.Stored (hfields .verticalGap)⟩

end SchemaLayout.Settings
