import Mathlib.Data.List.Forall2
import SchemaLayout.Ron.Decoding

/-!
# Reading records

A field of a record is left out, written once or written repeatedly, wherever it stands among the
others and whatever they are. What is read of a field is said through these three cases
(`readField_eq_some_iff`, `readFieldOr_eq_some_iff`), and so is what is wrong with a record
(`Faulty`).
-/

namespace SchemaLayout.Ron

/-! ## Where a field stands -/

variable {α : Type} {key : String} {content : Value → Prop} {fields : List (String × Value)}

/-- No field has a name. -/
def LeftOut (key : String) (fields : List (String × Value)) : Prop :=
  ∀ field ∈ fields, field.1 ≠ key

instance (key : String) (fields : List (String × Value)) : Decidable (LeftOut key fields) :=
  inferInstanceAs (Decidable (∀ field ∈ fields, field.1 ≠ key))

/-- One field has a name, among any others in front of it and after it. -/
inductive WrittenOnce (key : String) (content : Value → Prop) : List (String × Value) → Prop
  | mk {before after : List (String × Value)} {v : Value} (hbefore : LeftOut key before)
      (hv : content v) (hafter : LeftOut key after) :
      WrittenOnce key content (before ++ (key, v) :: after)

/-- Two fields have the same name. -/
inductive Repeated (key : String) : List (String × Value) → Prop
  | mk (before between after : List (String × Value)) (v w : Value) :
      Repeated key (before ++ (key, v) :: (between ++ (key, w) :: after))

/-- One field has a name, or none has and what would be written there is the default. -/
def WrittenOr (key : String) (content : Value → Prop) (isDefault : Prop)
    (fields : List (String × Value)) : Prop :=
  WrittenOnce key content fields ∨ LeftOut key fields ∧ isDefault

theorem leftOut_iff : LeftOut key fields ↔ fields.filter (·.1 = key) = [] := by
  simp [LeftOut]

theorem writtenOnce_iff :
    WrittenOnce key content fields ↔ ∃ v, content v ∧ fields.filter (·.1 = key) = [(key, v)] := by
  constructor
  · rintro ⟨hbefore, hv, hafter⟩
    refine ⟨_, hv, ?_⟩
    simp [List.filter_append, leftOut_iff.mp hbefore, leftOut_iff.mp hafter]
  · rintro ⟨v, hv, hfilter⟩
    obtain ⟨before, after, rfl, hbefore, -, hafter⟩ := List.filter_eq_cons_iff.mp hfilter
    exact .mk (by simpa [LeftOut] using hbefore) hv (leftOut_iff.mpr hafter)

theorem Repeated.two_le_length_filter (h : Repeated key fields) :
    2 ≤ (fields.filter (·.1 = key)).length := by
  obtain ⟨before, between, after, v, w⟩ := h
  simp [List.filter_append]
  omega

theorem WrittenOnce.not_leftOut (h : WrittenOnce key content fields) : ¬ LeftOut key fields := by
  obtain ⟨v, -, hfilter⟩ := writtenOnce_iff.mp h
  simp [leftOut_iff, hfilter]

theorem WrittenOnce.not_repeated (h : WrittenOnce key content fields) : ¬ Repeated key fields := by
  intro hrepeated
  obtain ⟨v, -, hfilter⟩ := writtenOnce_iff.mp h
  have hlength := hrepeated.two_le_length_filter
  simp [hfilter] at hlength

theorem LeftOut.not_repeated (h : LeftOut key fields) : ¬ Repeated key fields := by
  intro hrepeated
  have hlength := hrepeated.two_le_length_filter
  simp [leftOut_iff.mp h] at hlength

/-- What is written once is all that is written under a name. -/
theorem WrittenOnce.of_mem {v : Value} (h : WrittenOnce key content fields)
    (hmem : (key, v) ∈ fields) : content v := by
  obtain ⟨w, hw, hfilter⟩ := writtenOnce_iff.mp h
  have hv : (key, v) ∈ fields.filter (·.1 = key) := List.mem_filter.mpr ⟨hmem, by simp⟩
  rw [hfilter, List.mem_singleton] at hv
  cases hv
  exact hw

theorem WrittenOr.not_repeated {isDefault : Prop} (h : WrittenOr key content isDefault fields) :
    ¬ Repeated key fields :=
  h.elim WrittenOnce.not_repeated fun h => h.1.not_repeated

theorem WrittenOr.of_mem {isDefault : Prop} {v : Value} (h : WrittenOr key content isDefault fields)
    (hmem : (key, v) ∈ fields) : content v :=
  h.elim (·.of_mem hmem) fun h => absurd rfl (h.1 _ hmem)

/-- What is written or left out is one thing or its default. -/
theorem WrittenOr.of_ite (content : α → Value → Prop) {a default : α} {kept : Bool}
    (h : if kept then WrittenOnce key (content a) fields else LeftOut key fields) :
    WrittenOr key (content (if kept then a else default)) (default = if kept then a else default)
      fields := by
  cases kept with
  | true => exact .inl h
  | false => exact .inr ⟨h, rfl⟩

/-! ## What is read of a field -/

variable {read : Value → Option α} {a default : α}

theorem readField?_eq_none_iff : readField? fields key read = some none ↔ LeftOut key fields := by
  rw [readField?, leftOut_iff]
  split <;> rename_i hfilter
  · exact iff_of_true rfl hfilter
  · simp [hfilter]
  · simp_all

theorem readField?_eq_some_iff :
    readField? fields key read = some (some a) ↔ WrittenOnce key (read · = some a) fields := by
  rw [readField?, writtenOnce_iff]
  split <;> rename_i hfilter
  · simp [hfilter]
  · rename_i name v
    have hname : name = key := by
      have hmem : (name, v) ∈ fields.filter (·.1 = key) := by simp [hfilter]
      simpa using (List.mem_filter.mp hmem).2
    simp [hfilter, hname]
  · simp_all

/-- A required field is read if it is written once. -/
theorem readField_eq_some_iff :
    readField fields key read = some a ↔ WrittenOnce key (read · = some a) fields := by
  rw [← readField?_eq_some_iff, readField]
  cases readField? fields key read <;> simp

/-- An optional field is read if it is written once, and is the default if it is left out. -/
theorem readFieldOr_eq_some_iff :
    readFieldOr fields key read default = some a ↔
      WrittenOr key (read · = some a) (default = a) fields := by
  have hnone : readField? fields key read = some none ↔ LeftOut key fields := readField?_eq_none_iff
  rw [WrittenOr, ← readField?_eq_some_iff, ← hnone, readFieldOr]
  rcases readField? fields key read with _ | _ | _ <;> simp

/-! ## Kinds of values -/

theorem toBool?_eq_some_iff {v : Value} {b : Bool} : v.toBool? = some b ↔ v = .bool b := by
  cases v <;> simp [Value.toBool?]

theorem toText?_eq_some_iff {v : Value} {text : String} :
    v.toText? = some text ↔ v = .text text := by
  cases v <;> simp [Value.toText?]

theorem toWord?_eq_some_iff {v : Value} {n : UInt32} :
    v.toWord? = some n ↔ v = .int none n.toNat := by
  unfold Value.toWord?
  split
  · rename_i magnitude
    have hn : n.toNat < UInt32.size := n.toNat_lt
    have hmagnitude : magnitude < UInt32.size → (UInt32.ofNat magnitude).toNat = magnitude :=
      UInt32.toNat_ofNat_of_lt
    simp only [← UInt32.toNat_inj, Option.ite_none_right_eq_some, Option.some.injEq,
      Value.int.injEq, true_and]
    constructor
    · rintro ⟨h, hword⟩
      rw [← hmagnitude h, hword]
    · rintro rfl
      exact ⟨hn, hmagnitude hn⟩
  · rename_i h
    simp only [false_iff, reduceCtorEq]
    exact h n.toNat

/-- A value that lists some things. -/
def Lists (content : α → Value → Prop) (as : List α) (v : Value) : Prop :=
  ∃ items, v = .list items ∧ List.Forall₂ content as items

theorem toList?_eq_some_iff {content : α → Value → Prop}
    (hread : ∀ v a, read v = some a ↔ content a v) {v : Value} {as : List α} :
    v.toList? read = some as ↔ Lists content as v := by
  have hitems (items : List Value) (as : List α) :
      items.mapM read = some as ↔ List.Forall₂ content as items := by
    induction items generalizing as with
    | nil => simp [eq_comm]
    | cons item items ih =>
      simp only [List.mapM_cons, Option.bind_eq_bind, Option.bind_eq_some_iff, hread, ih,
        List.forall₂_cons_right_iff, Option.pure_def, Option.some.injEq]
      constructor
      · rintro ⟨a, ha, as, has, rfl⟩
        exact ⟨a, as, ha, has, rfl⟩
      · rintro ⟨a, as, ha, has, rfl⟩
        exact ⟨a, ha, as, has, rfl⟩
  cases v <;> simp [Lists, Value.toList?, hitems]

/-- A record that has no name or a given one, with certain fields. -/
def IsRecord (name : String) (content : List (String × Value) → Prop) (v : Value) : Prop :=
  ∃ fields, (v = .record none fields ∨ v = .record (some name) fields) ∧ content fields

theorem toFields?_eq_some_iff {name : String} {v : Value} :
    v.toFields? name = some fields ↔ v = .record none fields ∨ v = .record (some name) fields := by
  unfold Value.toFields?
  split <;> simp_all

/-! ## Faulty values -/

/-- A record with certain required and optional fields is faulty: a required field is left out, a
field stands twice, or what stands in a field is faulty. -/
inductive Faulty (required optional : List String) (faulty : String → Value → Prop) : Value → Prop
  | leftOut {name : Option String} {fields : List (String × Value)} {key : String}
      (hkey : key ∈ required) (h : LeftOut key fields) :
      Faulty required optional faulty (.record name fields)
  | repeated {name : Option String} {fields : List (String × Value)} {key : String}
      (hkey : key ∈ required ++ optional) (h : Repeated key fields) :
      Faulty required optional faulty (.record name fields)
  | content {name : Option String} {fields : List (String × Value)} {key : String} {v : Value}
      (hmem : (key, v) ∈ fields) (h : faulty key v) :
      Faulty required optional faulty (.record name fields)

/-- A list with a faulty item. -/
def FaultyItem (faulty : Value → Prop) (v : Value) : Prop :=
  ∃ items, v = .list items ∧ ∃ item ∈ items, faulty item

/-- What lists things has no faulty item. -/
theorem Lists.false_of_faultyItem {content : α → Value → Prop} {faulty : Value → Prop} {as : List α}
    {v : Value} (h : Lists content as v) (hfaulty : FaultyItem faulty v)
    (hcontent : ∀ a v, content a v → ¬ faulty v) : False := by
  obtain ⟨items, rfl, h⟩ := h
  obtain ⟨_, ⟨⟩, item, hmem, hfaulty⟩ := hfaulty
  induction h with
  | nil => cases hmem
  | cons ha _ ih =>
    rcases List.mem_cons.mp hmem with rfl | hmem
    · exact hcontent _ _ ha hfaulty
    · exact ih hmem

/-- What is faulty is not a record of fields that are each as they should be. -/
theorem not_faulty {required optional : List String} {faulty : String → Value → Prop}
    {content : List (String × Value) → Prop} {name : String} {v : Value}
    (h : IsRecord name content v)
    (hrequired : ∀ {fields}, content fields → ∀ key ∈ required, ¬ LeftOut key fields)
    (honce : ∀ {fields}, content fields → ∀ key ∈ required ++ optional, ¬ Repeated key fields)
    (hcontent : ∀ {fields key v}, content fields → (key, v) ∈ fields → ¬ faulty key v) :
    ¬ Faulty required optional faulty v := by
  obtain ⟨fields, hv, hfields⟩ := h
  obtain ⟨_, rfl⟩ : ∃ name', v = .record name' fields := hv.elim (⟨_, ·⟩) (⟨_, ·⟩)
  intro hfaulty
  cases hfaulty with
  | leftOut hkey hleft => exact hrequired hfields _ hkey hleft
  | repeated hkey hrepeated => exact honce hfields _ hkey hrepeated
  | content hmem hv => exact hcontent hfields hmem hv

end SchemaLayout.Ron
