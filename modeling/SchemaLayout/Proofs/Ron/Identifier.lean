import SchemaLayout.Proofs.Ron.Spelling
import SchemaLayout.Ron.Identifier

/-!
# What identifiers look like

A word or a number goes on as long as it can. So each spelling of one says that a character follows
which ends it: `Ends` is said of the text that follows. Quotes and number signs end nothing, as they
make a raw text of an `r`.
-/

namespace SchemaLayout.Ron

/-- The words and numbers in front of a text are not continued by it. -/
def Ends (s : List Char) : Prop := ∀ c ∈ s.head?, isRawPart c = false ∧ c ≠ '"' ∧ c ≠ '#'

theorem ends_nil : Ends [] := by
  rintro c ⟨⟩

theorem ends_cons {c : Char} {s : List Char} :
    Ends (c :: s) ↔ isRawPart c = false ∧ c ≠ '"' ∧ c ≠ '#' := by
  simp [Ends]

theorem isRawPart_of_isIdentifierPart {c : Char} (h : isIdentifierPart c = true) :
    isRawPart c = true := by
  simp [isRawPart, h]

/-- The letters are those between certain two, in either case. -/
theorem isAlpha_iff {c : Char} : c.isAlpha = true ↔ 'A' ≤ c ∧ c ≤ 'Z' ∨ 'a' ≤ c ∧ c ≤ 'z' := by
  have halpha : c.isAlpha =
    (decide ('A' ≤ c ∧ c ≤ 'Z') || decide ('a' ≤ c) && decide (c ≤ 'z')) := rfl
  simp [halpha]

theorem isIdentifierPart_of_isIdentifierStart {c : Char} (h : isIdentifierStart c = true) :
    isIdentifierPart c = true := by
  simp only [isIdentifierStart, Bool.or_eq_true] at h
  simp only [isIdentifierPart, Char.isAlphanum, Bool.or_eq_true]
  exact h.imp_left .inl

theorem Ends.isIdentifierPart_eq {s : List Char} (h : Ends s) {c : Char} (hc : c ∈ s.head?) :
    isIdentifierPart c = false := by
  cases hpart : isIdentifierPart c with
  | false => rfl
  | true => exact absurd (h c hc).1 (by simp [isRawPart_of_isIdentifierPart hpart])

/-- A blank, or a comment, ends a word as well as what follows it. -/
theorem Ends.of_blank {s t : List Char} (h : Blank s t) (ht : Ends t) : Ends s := by
  intro c hc
  rcases h.head hc with hc | hblank | rfl
  · exact ht c hc
  · simp only [isBlank, Bool.or_eq_true, decide_eq_true_eq] at hblank
    rcases hblank with ((rfl | rfl) | rfl) | rfl <;> decide
  · decide

/-! ## Identifiers -/

/-- An identifier, with or without the mark of a raw one. A text that is only the letter of that
mark is not one. -/
inductive Identifier : Spelling String
  | plain {c : Char} {name t : List Char} (hstart : isIdentifierStart c = true)
      (hparts : ∀ d ∈ name, isIdentifierPart d = true) (hends : Ends t)
      (hmark : c :: (name ++ t) ≠ ['r']) : Identifier (.ofList (c :: name)) (c :: (name ++ t)) t
  | raw {name t : List Char} (hne : name ≠ []) (hparts : ∀ d ∈ name, isRawPart d = true)
      (hends : Ends t) : Identifier (.ofList name) ('r' :: '#' :: (name ++ t)) t

/-- A text that is an identifier without a mark. -/
def IsName (name : String) : Prop :=
  name.toList.head?.any isIdentifierStart = true ∧ name.toList.all isIdentifierPart = true

instance (name : String) : Decidable (IsName name) :=
  inferInstanceAs (Decidable (_ ∧ _))

theorem IsName.identifier {name : String} (h : IsName name) {t : List Char} (hends : Ends t)
    (hmark : name.toList ++ t ≠ ['r']) : Identifier name (name.toList ++ t) t := by
  obtain ⟨hstart, hparts⟩ := h
  obtain ⟨letters, rfl⟩ : ∃ letters, name = .ofList letters := ⟨_, String.ofList_toList.symm⟩
  rw [String.toList_ofList] at *
  cases letters with
  | nil => cases hstart
  | cons c letters =>
    rw [List.all_eq_true, List.forall_mem_cons] at hparts
    exact .plain hstart hparts.2 hends hmark

theorem takes_plainIdentifier {c : Char} {name t : List Char} (hstart : isIdentifierStart c = true)
    (hparts : ∀ d ∈ name, isIdentifierPart d = true) (hends : Ends t) :
    Takes plainIdentifier (.ofList (c :: name)) (c :: (name ++ t)) t := by
  have hall : ∀ d ∈ c :: name, isIdentifierPart d = true :=
    List.forall_mem_cons.mpr ⟨isIdentifierPart_of_isIdentifierStart hstart, hparts⟩
  obtain ⟨_, hrun⟩ := (takes_takeRun hall (List.cons_ne_nil c name) fun _ =>
    hends.isIdentifierPart_eq).eq
  have hnone : t.head?.any isRawPart = false := by
    cases t with
    | nil => rfl
    | cons d t => exact (ends_cons.mp hends).1
  simp only [List.cons_append] at hrun
  simp [Takes, plainIdentifier, hstart, hrun, hnone, Taken.map]

theorem identifier_eq_plainIdentifier {s : List Char}
    (hmark : ∀ c ∈ ['"', '#'], ¬ ['r', c] <+: s) (hne : s ≠ ['r']) :
    identifier s = plainIdentifier s := by
  unfold identifier
  split <;> simp_all

theorem takes_identifier {name : String} {s t : List Char} (h : Identifier name s t) :
    Takes identifier name s t := by
  cases h with
  | @plain c name t hstart hparts hends hmark =>
    rw [Takes, identifier_eq_plainIdentifier ?_ hmark]
    · exact takes_plainIdentifier hstart hparts hends
    · -- neither a quote nor a number sign continues or ends an identifier
      rintro d hd ⟨u, hu⟩
      simp only [List.mem_cons, List.not_mem_nil, or_false] at hd
      cases name with
      | nil =>
        cases hu
        obtain ⟨-, hquote, hsign⟩ := ends_cons.mp hends
        exact hd.elim hquote hsign
      | cons e name =>
        cases hu
        have hpart := hparts d List.mem_cons_self
        rcases hd with rfl | rfl <;> exact absurd hpart (by decide)
  | @raw name t hne hparts hends =>
    obtain ⟨_, hrun⟩ := (takes_takeRun hparts hne fun c hc => (hends c hc).1).eq
    simp [Takes, identifier, hrun, Taken.map, Taken.past, Taken.weaken]

theorem reads_identifier : Reads identifier Identifier where
  takes := takes_identifier
  opens h := by
    cases h with
    | plain hstart _ _ _ => exact opens_of_class (p := isIdentifierStart) (by decide) hstart _
    | raw _ _ _ => exact opens_of_class (p := isIdentifierStart) (by decide) rfl _

end SchemaLayout.Ron
