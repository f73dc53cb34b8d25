import SchemaLayout.Proofs.Ron.File
import SchemaLayout.Ron.Document

/-!
# What is written is a file

A document stands for a value. Both forms in which it can be written, the compact and the pretty
one, spell that value, if the names of its fields are identifiers, its integers fit in 64 bits, and
it is not nested too deeply.
-/

namespace SchemaLayout.Ron

namespace Document

/-- The sign that is written before an integer. -/
def signOf (n : Int) : Option Sign := if n < 0 then some .minus else none

mutual

/-- The value that a document stands for. -/
def toValue : Document → Value
  | bool b => .bool b
  | int n => .int (signOf n) n.natAbs
  | text s => .text s
  | list items => .list (toValues items)
  | record fields => .record none (toFields fields)

/-- The values of some documents. -/
def toValues : List Document → List Value
  | [] => []
  | item :: items => toValue item :: toValues items

/-- The fields of a record. -/
def toFields : List (String × Document) → List (String × Value)
  | [] => []
  | (name, value) :: fields => (name, toValue value) :: toFields fields

end

/-- A document that can be read again within a budget. -/
inductive Fits : Nat → Document → Prop
  | bool (budget : Nat) (b : Bool) : Fits budget (bool b)
  | int (budget : Nat) {n : Int} (hlow : -2 ^ 63 ≤ n) (hhigh : n < 2 ^ 63) : Fits budget (int n)
  | text (budget : Nat) (s : String) : Fits budget (text s)
  | list {budget : Nat} {items : List Document} (h : ∀ item ∈ items, Fits budget item) :
      Fits (budget + 2) (list items)
  | record {budget : Nat} {fields : List (String × Document)}
      (hnames : ∀ field ∈ fields, IsName field.1) (h : ∀ field ∈ fields, Fits budget field.2) :
      Fits (budget + 2) (record fields)

variable {implicitSome : Bool} {budget : Nat}

@[simp]
theorem fits_int_iff {n : Int} : (int n).Fits budget ↔ -2 ^ 63 ≤ n ∧ n < 2 ^ 63 := by
  constructor
  · intro h
    cases h with
    | int _ hlow hhigh => exact ⟨hlow, hhigh⟩
  · rintro ⟨hlow, hhigh⟩
    exact .int budget hlow hhigh

@[simp]
theorem fits_list_iff {items : List Document} :
    (list items).Fits (budget + 2) ↔ ∀ item ∈ items, item.Fits budget := by
  constructor
  · intro h
    cases h with
    | list h => exact h
  · exact .list

@[simp]
theorem fits_record_iff {fields : List (String × Document)} : (record fields).Fits (budget + 2) ↔
    ∀ field ∈ fields, IsName field.1 ∧ field.2.Fits budget := by
  constructor
  · intro h
    cases h with
    | record hnames h => exact fun field hmem => ⟨hnames field hmem, h field hmem⟩
  · intro h
    exact .record (fun field hmem => (h field hmem).1) fun field hmem => (h field hmem).2

attribute [simp] Fits.bool Fits.text

/-! ## Single things -/

theorem spelledInteger_intDigits {n : Int} (hlow : -2 ^ 63 ≤ n) (hhigh : n < 2 ^ 63) {t : List Char}
    (hends : Ends t) : SpelledInteger (signOf n, n.natAbs) (intDigits n ++ t) t := by
  have hall := isDigitOf_of_mem_toDigits (show 1 < 10 by decide) (by decide) n.natAbs
  have hdigits : AreDigits 10 (Nat.toDigits 10 n.natAbs) := by
    have hne : Nat.toDigits 10 n.natAbs ≠ [] := Nat.toDigits_ne_nil
    obtain ⟨c, digits, hcons⟩ := List.exists_cons_of_ne_nil hne
    exact ⟨⟨c, by simp [hcons], hall c (by simp [hcons])⟩, fun d hd => .inr (hall d hd)⟩
  have hfits : n.natAbs ≤ maxMagnitude (signOf n) := by
    unfold signOf
    split <;> simp only [maxMagnitude] <;> omega
  have hvalue := digitsValue_toDigits (show 1 < 10 by decide) (by decide) n.natAbs
  have hbase : (10, []) ∈ bases := List.mem_cons_self
  have h := SpelledInteger.mk hbase hdigits (hvalue.symm ▸ hfits) hends
  rw [hvalue] at h
  unfold intDigits
  split <;> simpa [signOf, *, signMark] using h

/-- A thing that holds no others is spelled alike within all budgets. -/
theorem spelledValue_of_forall {v : Value} {s t : List Char}
    (h : ∀ content members, SpelledWith implicitSome content members v s t) :
    SpelledValue implicitSome budget v s t := by
  match budget with
  | 0 | 1 | _ + 2 => exact h _ _

theorem spelledValue_boolWord (b : Bool) {t : List Char} (hends : Ends t) :
    SpelledValue implicitSome budget (.bool b) (boolWord b ++ t) t := by
  refine spelledValue_of_forall fun content members => ?_
  cases b with
  | true => exact .constant (show ("true", .bool true) ∈ constants by simp [constants]) hends
  | false => exact .constant (show ("false", .bool false) ∈ constants by simp [constants]) hends

theorem spelledValue_intDigits {n : Int} (hlow : -2 ^ 63 ≤ n) (hhigh : n < 2 ^ 63) {t : List Char}
    (hends : Ends t) :
    SpelledValue implicitSome budget (.int (signOf n) n.natAbs) (intDigits n ++ t) t :=
  spelledValue_of_forall fun _ _ => .integer (spelledInteger_intDigits hlow hhigh hends)

theorem spelledValue_quoteInFile (s : String) (t : List Char) :
    SpelledValue implicitSome budget (.text s) (Text.quoteInFile s ++ t) t :=
  spelledValue_of_forall fun _ _ => .text (spelledText_quoteInFile s t)

/-! ## The compact form -/

/-- A form of documents spells a document in front of all texts that end it. -/
def Spells (implicitSome : Bool) (budget : Nat) (form : Document → List Char) (d : Document) :
    Prop :=
  ∀ t, Ends t → SpelledValue implicitSome budget d.toValue (form d ++ t) t

theorem separated_compactItems {items : List Document}
    (h : ∀ item ∈ items, Spells implicitSome budget compact item) (t : List Char) :
    Separated ']' (SpelledValue implicitSome budget) (toValues items)
      (compactItems items ++ ']' :: t) t := by
  induction items with
  | nil => exact .nil (.refl _)
  | cons item items ih =>
    rw [List.forall_mem_cons] at h
    cases items with
    | nil => exact .last (.refl _) (h.1 _ (ends_cons.mpr (by decide))) (.refl _)
    | cons next items =>
      rw [compactItems, List.append_assoc]
      · exact .cons (.refl _) (h.1 _ (ends_cons.mpr (by decide))) (.refl _) (ih h.2)
      · exact List.cons_ne_nil next items

theorem spelledField {name : String} {form : Document → List Char} {d : Document}
    (hname : IsName name) (h : Spells implicitSome budget form d) {s t : List Char}
    (hblank : Blank s (form d ++ t)) (ht : Ends t) :
    SpelledField (SpelledValue implicitSome budget) (name, d.toValue) (name.toList ++ ':' :: s) t :=
  have hmark : name.toList ++ ':' :: s ≠ ['r'] := fun hmark =>
    absurd (hmark ▸ List.mem_append_right _ List.mem_cons_self : ':' ∈ ['r']) (by decide)
  .mk (hname.identifier (ends_cons.mpr (by decide)) hmark) (.refl _) hblank (h t ht)

theorem separated_compactFields {fields : List (String × Document)}
    (hnames : ∀ field ∈ fields, IsName field.1)
    (h : ∀ field ∈ fields, Spells implicitSome budget compact field.2) (t : List Char) :
    Separated ')' (SpelledField (SpelledValue implicitSome budget)) (toFields fields)
      (compactFields fields ++ ')' :: t) t := by
  induction fields with
  | nil => exact .nil (.refl _)
  | cons field fields ih =>
    obtain ⟨name, d⟩ := field
    rw [List.forall_mem_cons] at h hnames
    cases fields with
    | nil =>
      rw [compactFields, List.append_assoc]
      exact .last (.refl _) (spelledField hnames.1 h.1 (.refl _) (ends_cons.mpr (by decide)))
        (.refl _)
    | cons next fields =>
      rw [compactFields, List.append_assoc, List.cons_append, List.append_assoc]
      · exact .cons (.refl _) (spelledField hnames.1 h.1 (.refl _) (ends_cons.mpr (by decide)))
          (.refl _) (ih hnames.2 h.2)
      · exact List.cons_ne_nil next fields

/-- The compact form of a document is the document's value. -/
theorem Fits.spells_compact {d : Document} (h : Fits budget d) :
    Spells implicitSome budget compact d := by
  induction h with
  | bool budget b => exact fun t => spelledValue_boolWord b
  | int budget hlow hhigh => exact fun t => spelledValue_intDigits hlow hhigh
  | text budget s => exact fun t _ => spelledValue_quoteInFile s t
  | list _ ih =>
    intro t _
    rw [compact, List.cons_append, List.cons_append, List.append_assoc]
    exact .list rfl (separated_compactItems ih t)
  | record hnames _ ih =>
    intro t _
    rw [compact, List.cons_append, List.cons_append, List.append_assoc]
    exact .record rfl (separated_compactFields hnames ih t)

/-! ## The pretty form -/

theorem blank_indent (depth : Nat) (t : List Char) : Blank (indent depth ++ t) t := by
  unfold indent
  induction 4 * depth with
  | zero => exact .refl t
  | succ n ih => exact .char rfl ih

/-- Lines are enclosed as well as nothing at all is. -/
theorem exists_enclose_append {α : Type} (opening : Char) {close : Char} {element : Spelling α}
    {as : List α} {lines t : List Char}
    (h : ∀ s, Blank s (close :: t) → Separated close element as (lines ++ s) t) (depth : Nat) :
    ∃ s, enclose opening close depth lines ++ t = opening :: s ∧
      Separated close element as s t := by
  cases lines with
  | nil => exact ⟨close :: t, rfl, h _ (.refl _)⟩
  | cons c lines =>
    refine ⟨'\n' :: (c :: lines ++ (indent depth ++ close :: t)), by simp [enclose], ?_⟩
    exact .of_blank (.char rfl (.refl _)) (h _ (blank_indent depth _))

theorem separated_prettyItems {depth : Nat} {items : List Document}
    (h : ∀ item ∈ items, Spells implicitSome budget (pretty depth) item) {s t : List Char}
    (hs : Blank s (']' :: t)) :
    Separated ']' (SpelledValue implicitSome budget) (toValues items) (prettyItems depth items ++ s)
      t := by
  induction items with
  | nil => exact .nil hs
  | cons item items ih =>
    rw [List.forall_mem_cons] at h
    simp only [prettyItems, List.append_assoc, List.cons_append]
    exact .cons (blank_indent depth _) (h.1 _ (ends_cons.mpr (by decide))) (.refl _)
      (.of_blank (.char rfl (.refl _)) (ih h.2))

theorem separated_prettyFields {depth : Nat} {fields : List (String × Document)}
    (hnames : ∀ field ∈ fields, IsName field.1)
    (h : ∀ field ∈ fields, Spells implicitSome budget (pretty depth) field.2) {s t : List Char}
    (hs : Blank s (')' :: t)) :
    Separated ')' (SpelledField (SpelledValue implicitSome budget)) (toFields fields)
      (prettyFields depth fields ++ s) t := by
  induction fields with
  | nil => exact .nil hs
  | cons field fields ih =>
    obtain ⟨name, d⟩ := field
    rw [List.forall_mem_cons] at h hnames
    simp only [prettyFields, List.append_assoc, List.cons_append]
    exact .cons (blank_indent depth _)
      (spelledField hnames.1 h.1 (.char rfl (.refl _)) (ends_cons.mpr (by decide))) (.refl _)
      (.of_blank (.char rfl (.refl _)) (ih hnames.2 h.2))

/-- The pretty form of a document is the document's value, too. -/
theorem Fits.spells_pretty {d : Document} (h : Fits budget d) (depth : Nat) :
    Spells implicitSome budget (pretty depth) d := by
  induction h generalizing depth with
  | bool budget b => exact fun t => spelledValue_boolWord b
  | int budget hlow hhigh => exact fun t => spelledValue_intDigits hlow hhigh
  | text budget s => exact fun t _ => spelledValue_quoteInFile s t
  | list _ ih =>
    intro t _
    obtain ⟨s, hs, hitems⟩ := exists_enclose_append '['
      (fun _ => separated_prettyItems (t := t) fun item hitem => ih item hitem (depth + 1)) depth
    rw [pretty, hs]
    exact .list rfl hitems
  | record hnames _ ih =>
    intro t _
    obtain ⟨s, hs, hfields⟩ := exists_enclose_append '('
      (fun _ => separated_prettyFields (t := t) hnames fun field hfield =>
        ih field hfield (depth + 1)) depth
    rw [pretty, hs]
    exact .record rfl hfields

/-! ## Files -/

/-- The compact form of a document is a file. -/
theorem Fits.file_compact {d : Document} (h : Fits depthBudget d) {text : String}
    (htext : .ofList d.compact = text) : File d.toValue text := by
  have hspells : Spells false depthBudget compact d := h.spells_compact
  have hv := hspells [] ends_nil
  rw [List.append_nil] at hv
  subst htext
  exact .mk (by rw [String.toList_ofList]; exact .refl _) (.nil _) hv (.refl _)

/-- The pretty form of a document, with a line end after it, is a file. -/
theorem Fits.file_pretty {d : Document} (h : Fits depthBudget d) :
    File d.toValue (.ofList (d.pretty 0 ++ ['\n'])) := by
  have hspells : Spells false depthBudget (pretty 0) d := h.spells_pretty 0
  have hv := hspells ['\n'] (ends_cons.mpr (by decide))
  exact .mk (by rw [String.toList_ofList]; exact .refl _) (.nil _) hv (.char rfl (.refl _))

end Document

end SchemaLayout.Ron
