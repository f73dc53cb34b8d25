import SchemaLayout.Proofs.Ron.Number
import SchemaLayout.Proofs.Ron.Text
import SchemaLayout.Ron.Reader

/-!
# What values look like

All that can stand in a file for a value, in all the ways in which it can be written: with blanks
and comments wherever they may be, fields in any order, escapes and raw texts, integers of any base.
The values that are not told apart are spelled in many ways, too.

As the reader, a spelling has a budget for the depth of what lies in the value. Within it, every
spelling of a value is read as that value.
-/

namespace SchemaLayout.Ron

/-! ## The grammar -/

/-- The name of a field, a colon and a value. -/
inductive SpelledField (content : Spelling Value) : Spelling (String × Value)
  | mk {name : String} {v : Value} {s s₁ s₂ s₃ t : List Char} (hname : Identifier name s s₁)
      (hcolon : Blank s₁ (':' :: s₂)) (hbefore : Blank s₂ s₃) (hv : content v s₃ t) :
      SpelledField content (name, v) s t

/-- A value, a colon and another value. -/
inductive SpelledEntry (content : Spelling Value) : Spelling (Value × Value)
  | mk {k v : Value} {s s₁ s₂ s₃ t : List Char} (hk : content k s s₁)
      (hcolon : Blank s₁ (':' :: s₂)) (hbefore : Blank s₂ s₃) (hv : content v s₃ t) :
      SpelledEntry content (k, v) s t

/-- The words that stand for values. -/
def constants : List (String × Value) :=
  [("true", .bool true), ("false", .bool false), ("None", .other), ("inf", .other), ("NaN", .other)]

/-- The words that cannot be names of types. -/
def reservedWords : List String := "Some" :: constants.map Prod.fst

/-- The name of a type. -/
def TypeName (name : String) (s t : List Char) : Prop :=
  Identifier name s t ∧ .ofList (s.takeWhile isIdentifierPart) ∉ reservedWords

/-- The spellings of values, given those of the content of an optional value and, if there may be
any, those of the members of lists and the like. -/
inductive SpelledWith (implicitSome : Bool) (content : Spelling Value)
    (members : Option (Spelling Value)) : Spelling Value
  | constant {word : String} {v : Value} {t : List Char} (hword : (word, v) ∈ constants)
      (hends : Ends t) : SpelledWith implicitSome content members v (word.toList ++ t) t
  | minusInfinity {t : List Char} (hends : Ends t) :
      SpelledWith implicitSome content members .other ('-' :: 'i' :: 'n' :: 'f' :: t) t
  | integer {sign : Option Sign} {n : Nat} {s t : List Char} (h : SpelledInteger (sign, n) s t) :
      SpelledWith implicitSome content members (.int sign n) s t
  | float {s t : List Char} (h : SpelledFloat s t) :
      SpelledWith implicitSome content members .other s t
  | text {text : String} {s t : List Char} (h : SpelledText text s t) :
      SpelledWith implicitSome content members (.text text) s t
  | char {c : Char} {s t : List Char} (h : SpelledChar c s t) :
      SpelledWith implicitSome content members .other s t
  | list {member : Spelling Value} {items : List Value} {s t : List Char}
      (hmember : members = some member) (h : Separated ']' member items s t) :
      SpelledWith implicitSome content members (.list items) ('[' :: s) t
  | map {member : Spelling Value} {entries : List (Value × Value)} {s t : List Char}
      (hmember : members = some member) (h : Separated '\x7d' (SpelledEntry member) entries s t) :
      SpelledWith implicitSome content members .other ('\x7b' :: s) t
  /-- Empty parentheses need no budget for members. -/
  | empty (t : List Char) :
      SpelledWith implicitSome content members (.record none []) ('(' :: ')' :: t) t
  | record {member : Spelling Value} {fields : List (String × Value)} {s t : List Char}
      (hmember : members = some member) (h : Separated ')' (SpelledField member) fields s t) :
      SpelledWith implicitSome content members (.record none fields) ('(' :: s) t
  | tuple {member : Spelling Value} {items : List Value} {s t : List Char}
      (hmember : members = some member) (hne : items ≠ []) (h : Separated ')' member items s t) :
      SpelledWith implicitSome content members .other ('(' :: s) t
  | namedRecord {name : String} {member : Spelling Value} {fields : List (String × Value)}
      {s s₁ s₂ t : List Char} (hname : TypeName name s s₁) (hopen : Blank s₁ ('(' :: s₂))
      (hmember : members = some member) (h : Separated ')' (SpelledField member) fields s₂ t) :
      SpelledWith implicitSome content members (.record (some name) fields) s t
  | namedTuple {name : String} {member : Spelling Value} {items : List Value}
      {s s₁ s₂ t : List Char} (hname : TypeName name s s₁) (hopen : Blank s₁ ('(' :: s₂))
      (hmember : members = some member) (hne : items ≠ []) (h : Separated ')' member items s₂ t) :
      SpelledWith implicitSome content members .other s t
  /-- A name by itself, with the blanks after it. -/
  | variant {name : String} {s s₁ t : List Char} (hname : TypeName name s s₁) (hafter : Blank s₁ t)
      (ht : NoBlank t) (hne : t.head? ≠ some '(') :
      SpelledWith implicitSome content members .other s t
  | someOf {v : Value} {s s₁ s₂ s₃ t : List Char} (hopen : Blank s ('(' :: s₁))
      (hbefore : Blank s₁ s₂) (hv : content v s₂ s₃)
      (hclose : Blank s₃ (')' :: t) ∨ ∃ s₄, Blank s₃ (',' :: s₄) ∧ Blank s₄ (')' :: t)) :
      SpelledWith implicitSome content members .other ('S' :: 'o' :: 'm' :: 'e' :: s) t
  | impliedSome {v : Value} {s s₁ t : List Char} (himplicit : implicitSome = true) (hends : Ends s)
      (hbefore : Blank s s₁) (hv : content v s₁ t) (hne : s₁.head? ≠ some '(') :
      SpelledWith implicitSome content members .other ('S' :: 'o' :: 'm' :: 'e' :: s) t

/-- The spellings of values within a budget for the depth of what they hold. A list, a record or a
map takes one from the budget, and each thing in it takes another. -/
def SpelledValue (implicitSome : Bool) : Nat → Spelling Value
  | 0 => SpelledWith implicitSome (fun _ _ _ => False) none
  | 1 => SpelledWith implicitSome (SpelledValue implicitSome 0) (some fun _ _ _ => False)
  | budget + 2 =>
    SpelledWith implicitSome (SpelledValue implicitSome (budget + 1))
      (some (SpelledValue implicitSome budget))

/-! ## What does not begin a field -/

theorem identifier_eq_none {s : List Char} (h : ∀ c ∈ s.head?, isIdentifierStart c = false) :
    identifier s = none := by
  have hr : s.head? ≠ some 'r' := fun hs => absurd (h 'r' hs) (by decide)
  rw [identifier_eq_plainIdentifier]
  · cases s with
    | nil => rfl
    | cons c s => simp [plainIdentifier, h c rfl]
  · rintro c - ⟨u, rfl⟩
    exact hr rfl
  · rintro rfl
    exact hr rfl

theorem identifier_raw (marks : Nat) (s : List Char) :
    identifier ('r' :: (.replicate marks '#' ++ '"' :: s)) = none := by
  match marks with
  | 0 => rfl
  | 1 => rfl
  | marks + 2 => rfl

theorem startsField_eq_false {s : List Char} (h : identifier s = none) : startsField s = false := by
  simp [startsField, h]

/-- A name that no colon follows does not begin a field. -/
theorem startsField_eq_false_of_blank {name : String} {s s₁ s₂ : List Char}
    (hname : Identifier name s s₁) (hblank : Blank s₁ s₂) (hs₂ : NoBlank s₂)
    (hcolon : s₂.head? ≠ some ':') : startsField s = false := by
  obtain ⟨_, hidentifier⟩ := (takes_identifier hname).eq
  obtain ⟨_, hskip⟩ := skipBlank_eq hblank hs₂
  simp [startsField, hidentifier, expectSpaced, hskip, Skipped.take, expect_eq_none hcolon]

theorem startsField_of_field {content : Spelling Value} {field : String × Value} {s t : List Char}
    (h : SpelledField content field s t) (hopens : ∀ {v s t}, content v s t → Opens s) :
    startsField s = true := by
  cases h with
  | mk hname hcolon hbefore hv =>
    obtain ⟨_, hidentifier⟩ := (takes_identifier hname).eq
    obtain ⟨_, hexpect⟩ := (takes_expectSpaced hcolon (by decide) hbefore (hopens hv).noBlank).eq
    simp [startsField, hidentifier, hexpect]

/-! ## Reading members -/

/-- A reader reads a spelling of values, none of which is taken for a field where it stands in a
tuple. -/
structure ReadsValue (reader : Reader Value) (spelling : Spelling Value) : Prop
    extends Reads reader spelling where
  startsField_eq : ∀ {v s t u c}, spelling v s t → Blank t (c :: u) → c = ',' ∨ c = ')' →
    startsField s = false

theorem readsValue_refuse : ReadsValue refuse fun _ _ _ => False where
  takes h := h.elim
  opens h := h.elim
  startsField_eq h := h.elim

variable {reader : Reader Value} {spelling : Spelling Value}

theorem reads_field (h : ReadsValue reader spelling) :
    Reads (field reader) (SpelledField spelling) where
  takes hfield := by
    cases hfield with
    | mk hname hcolon hbefore hv =>
      obtain ⟨_, hidentifier⟩ := (takes_identifier hname).eq
      obtain ⟨_, hexpect⟩ := (takes_expectSpaced hcolon (by decide) hbefore (h.opens hv).noBlank).eq
      obtain ⟨_, hread⟩ := (h.takes hv).eq
      simp [Takes, field, hidentifier, Taken.next, hexpect, Taken.combine, hread, Taken.map]
  opens hfield := by
    cases hfield with
    | mk hname _ _ _ => exact reads_identifier.opens hname

theorem reads_entry (h : ReadsValue reader spelling) :
    Reads (entry reader) (SpelledEntry spelling) where
  takes hentry := by
    cases hentry with
    | mk hk hcolon hbefore hv =>
      obtain ⟨_, hkey⟩ := (h.takes hk).eq
      obtain ⟨_, hexpect⟩ := (takes_expectSpaced hcolon (by decide) hbefore (h.opens hv).noBlank).eq
      obtain ⟨_, hread⟩ := (h.takes hv).eq
      simp [Takes, entry, hkey, Taken.next, hexpect, Taken.combine, hread, Taken.map]
  opens hentry := by
    cases hentry with
    | mk hk _ _ _ => exact h.opens hk

section Parenthesized

variable {name : Option String} {s t : List Char}

/-- Parentheses with fields are a record. -/
theorem takes_parenthesized_of_fields (h : ReadsValue reader spelling)
    {fields : List (String × Value)} (hfields : Separated ')' (SpelledField spelling) fields s t) :
    Takes (parenthesized name reader) (.record name fields) s t := by
  have hclose : Closes ')' := by decide
  obtain ⟨s', hblank, hs', hcond⟩ : ∃ s', Blank s s' ∧ NoBlank s' ∧
      (s'.head? = some ')' ∨ startsField s' = true) := by
    cases hfields with
    | nil hnil => exact ⟨_, hnil, hclose.noBlank _, .inl rfl⟩
    | last hbefore hfield _ | cons hbefore hfield _ _ =>
      exact ⟨_, hbefore, ((reads_field h).opens hfield).noBlank,
        .inr (startsField_of_field hfield h.opens)⟩
  obtain ⟨_, hskip⟩ := skipBlank_eq hblank hs'
  obtain ⟨_, hread⟩ := (takes_separated (reads_field h) hclose hfields
    (Skipping.skip_of_blank hblank).symm).eq
  simp [Takes, parenthesized, hskip, hcond, Skipped.take, hread, Taken.weaken, Taken.map]

/-- Parentheses with values are a tuple. -/
theorem takes_parenthesized_of_items (h : ReadsValue reader spelling) {items : List Value}
    (hne : items ≠ []) (hitems : Separated ')' spelling items s t) :
    Takes (parenthesized name reader) .other s t := by
  have hclose : Closes ')' := by decide
  obtain ⟨s', hblank, hs', hcond⟩ : ∃ s', Blank s s' ∧ Opens s' ∧ startsField s' = false := by
    cases hitems with
    | nil _ => contradiction
    | last hbefore hv hlast =>
      exact ⟨_, hbefore, h.opens hv, h.startsField_eq hv hlast (.inr rfl)⟩
    | cons hbefore hv hcomma _ =>
      exact ⟨_, hbefore, h.opens hv, h.startsField_eq hv hcomma (.inl rfl)⟩
  obtain ⟨_, hskip⟩ := skipBlank_eq hblank hs'.noBlank
  obtain ⟨_, hread⟩ := (takes_separated h.toReads hclose hitems
    (Skipping.skip_of_blank hblank).symm).eq
  simp [Takes, parenthesized, hskip, hs'.head_ne hclose, hcond, Skipped.take, hread, Taken.weaken,
    Taken.map]

end Parenthesized

/-! ## Reading words -/

section Words

variable {implicitSome : Bool} {v : Value} {s s₁ s₂ s₃ t : List Char}

theorem takes_optional (h : ReadsValue reader spelling) (hopen : Blank s ('(' :: s₁))
    (hbefore : Blank s₁ s₂) (hv : spelling v s₂ s₃)
    (hclose : Blank s₃ (')' :: t) ∨ ∃ s₄, Blank s₃ (',' :: s₄) ∧ Blank s₄ (')' :: t)) :
    Takes (optional implicitSome reader) .other s t := by
  have hno : NoBlank (')' :: t) := noBlank_cons.mpr (by decide)
  obtain ⟨_, hskip⟩ := skipBlank_eq hopen (noBlank_cons.mpr (by decide))
  obtain ⟨hopened, hexpect⟩ := (takes_expect '(' s₁).eq
  obtain ⟨hshorter, hbefore⟩ := Taken.skipBlank_eq (⟨(), s₁, hopened⟩ : Taken Unit ('(' :: s₁))
    hbefore (h.opens hv).noBlank
  obtain ⟨hread, hv⟩ := (h.takes hv).eq
  obtain ⟨comma, hlast, hcomma⟩ : ∃ comma hlast,
      (⟨v, s₃, hread.trans hshorter⟩ : Taken Value ('(' :: s₁)).skipComma =
        some (comma, ⟨v, ')' :: t, hlast⟩) := by
    rcases hclose with hclose | ⟨s₄, hcomma, hclose⟩
    · exact ⟨false, Taken.skipComma_of_ne _ hclose hno (by simp)⟩
    · exact ⟨true, Taken.skipComma_of_comma _ hcomma hclose hno⟩
  obtain ⟨_, hexpect'⟩ := (takes_expect ')' t).eq
  simp [Takes, optional, hskip, hexpect, hbefore, Taken.next, hv, Taken.combine, hcomma, hexpect',
    Taken.map, Taken.weaken]

theorem takes_optional_of_implicit (h : ReadsValue reader spelling) (hbefore : Blank s s₁)
    (hv : spelling v s₁ t) (hne : s₁.head? ≠ some '(') :
    Takes (optional true reader) .other s t := by
  obtain ⟨_, hskip⟩ := skipBlank_eq hbefore (h.opens hv).noBlank
  obtain ⟨_, hread⟩ := (h.takes hv).eq
  simp [Takes, optional, hskip, expect_eq_none hne, Skipped.take, hread, Taken.weaken, Taken.map]

theorem takes_named {name : String} {result : Value} (hname : Identifier name s s₁)
    (hopen : Blank s₁ ('(' :: s₂))
    (hread : Takes (parenthesized (some name) reader) result s₂ t) :
    Takes (named (some reader)) result s t := by
  obtain ⟨_, hidentifier⟩ := (takes_identifier hname).eq
  obtain ⟨_, hskip⟩ := Taken.skipBlank_eq (⟨name, s₁, ‹_›⟩ : Taken String s) hopen
    (noBlank_cons.mpr (by decide))
  obtain ⟨_, hexpect⟩ := (takes_expect '(' s₂).eq
  obtain ⟨_, hread⟩ := hread.eq
  simp [Takes, named, hidentifier, hskip, hexpect, Taken.combine, Taken.next, hread]

theorem takes_named_of_variant {name : String} {members : Option (Reader Value)}
    (hname : Identifier name s s₁) (hafter : Blank s₁ t) (ht : NoBlank t)
    (hne : t.head? ≠ some '(') : Takes (named members) .other s t := by
  obtain ⟨_, hidentifier⟩ := (takes_identifier hname).eq
  obtain ⟨_, hskip⟩ := Taken.skipBlank_eq (⟨name, s₁, ‹_›⟩ : Taken String s) hafter ht
  simp [Takes, named, hidentifier, hskip, expect_eq_none hne, Taken.map]

variable {members : Option (Reader Value)} {letters : List Char}

theorem takes_letters (hletters : letters.all isIdentifierPart = true) (hne : letters ≠ [])
    (hends : Ends t) : Takes (takeRun isIdentifierPart) letters (letters ++ t) t :=
  takes_takeRun (List.all_eq_true.mp hletters) hne fun _ => hends.isIdentifierPart_eq

theorem takes_word_of_constant (hrun : Takes (takeRun isIdentifierPart) letters s t)
    (hword : (.ofList letters, v) ∈ constants) :
    Takes (word implicitSome reader members) v s t := by
  obtain ⟨_, hrun⟩ := hrun.eq
  simp only [constants, List.mem_cons, List.not_mem_nil, or_false, Prod.mk.injEq] at hword
  rcases hword with ⟨hw, rfl⟩ | ⟨hw, rfl⟩ | ⟨hw, rfl⟩ | ⟨hw, rfl⟩ | ⟨hw, rfl⟩ <;>
    simp [Takes, word, hrun, hw, Taken.map]

theorem takes_word_of_some {result : Value}
    (hrun : Takes (takeRun isIdentifierPart) ['S', 'o', 'm', 'e'] s s₁)
    (hread : Takes (optional implicitSome reader) result s₁ t) :
    Takes (word implicitSome reader members) result s t := by
  obtain ⟨_, hrun⟩ := hrun.eq
  obtain ⟨_, hread⟩ := hread.eq
  simp [Takes, word, hrun, Taken.next, hread, Taken.combine]

/-- What begins with no reserved word is a name or a raw text. -/
theorem word_eq (hrun : Takes (takeRun isIdentifierPart) letters s t)
    (hword : .ofList letters ∉ reservedWords) :
    word implicitSome reader members s =
      if (identifier s).isSome then named members s else (text s).map (·.map .text) := by
  obtain ⟨_, hrun⟩ := hrun.eq
  simp only [reservedWords, constants, List.map_cons, List.map_nil, List.mem_cons,
    List.not_mem_nil, or_false, not_or] at hword
  simp only [word, hrun, Option.bind_eq_bind, Option.bind_some]
  split <;> simp_all

theorem Identifier.exists_head {name : String} (h : Identifier name s t) :
    ∃ c u, s = c :: u ∧ isIdentifierStart c = true := by
  cases h with
  | plain hstart _ _ _ => exact ⟨_, _, rfl, hstart⟩
  | raw _ _ _ => exact ⟨_, _, rfl, by decide⟩

/-- Some letters stand at the front of every identifier. -/
theorem Identifier.takes_takeRun {name : String} (h : Identifier name s t) :
    Takes (takeRun isIdentifierPart) (s.takeWhile isIdentifierPart) s
      (s.dropWhile isIdentifierPart) := by
  obtain ⟨c, u, rfl, hc⟩ := h.exists_head
  simp [Takes, takeRun, isIdentifierPart_of_isIdentifierStart hc]

theorem identifier_of_constant {word : String} (hword : (word, v) ∈ constants)
    (hends : Ends t) : Identifier word (word.toList ++ t) t := by
  have hnames : ∀ entry ∈ constants, IsName entry.1 ∧ 1 < entry.1.toList.length := by decide
  obtain ⟨hname, hlong⟩ : IsName word ∧ 1 < word.toList.length := hnames _ hword
  refine hname.identifier hends fun hmark => ?_
  have hlength := congrArg List.length hmark
  simp only [List.length_append, List.length_singleton] at hlength
  omega

theorem identifier_some (hends : Ends s) :
    Identifier "Some" ('S' :: 'o' :: 'm' :: 'e' :: s) s :=
  (by decide : IsName "Some").identifier hends (by simp)

theorem takes_word_of_name {name : String} {result : Value} (hname : TypeName name s s₁)
    (hread : Takes (named members) result s t) :
    Takes (word implicitSome reader members) result s t := by
  obtain ⟨_, hidentifier⟩ := (takes_identifier hname.1).eq
  rw [Takes, word_eq hname.1.takes_takeRun hname.2, hidentifier]
  exact hread

theorem takes_word_of_raw {marks : Nat} {cs : List Char} (h : RawQuoted marks cs s t) :
    Takes (word implicitSome reader members) (.text (.ofList cs))
      ('r' :: (.replicate marks '#' ++ '"' :: s)) t := by
  have hrun : Takes (takeRun isIdentifierPart) ['r'] ('r' :: (.replicate marks '#' ++ '"' :: s))
      (.replicate marks '#' ++ '"' :: s) := by
    have hletter : ['r'].all isIdentifierPart = true := by decide
    refine takes_takeRun (List.all_eq_true.mp hletter) (by simp) ?_
    cases marks <;> rintro _ ⟨⟩ <;> decide
  obtain ⟨_, htext⟩ := (takes_text (.raw h)).eq
  rw [Takes, word_eq hrun (by decide), identifier_raw, htext]
  rfl

end Words

/-! ## Reading values -/

section Values

variable {implicitSome : Bool} {content : Reader Value} {members : Option (Reader Value)} {c : Char}
  {v : Value} {s t : List Char}

/-- The characters that begin a value of one kind only. -/
def kindMarks : List Char := ['(', '[', '\x7b', '"', '\'', '.', '-']

/-- Other characters begin a word or a number. -/
theorem valueWith_eq (hc : c ∉ kindMarks) : valueWith implicitSome content members (c :: s) =
    if isIdentifierStart c then word implicitSome content members (c :: s)
    else if c.isDigit || c = '+' then number (c :: s) else none := by
  simp only [kindMarks, List.mem_cons, List.not_mem_nil, or_false, not_or] at hc
  rw [valueWith] <;> simp_all

theorem valueWith_of_isIdentifierStart (hc : isIdentifierStart c = true) :
    valueWith implicitSome content members (c :: s) =
      word implicitSome content members (c :: s) := by
  have hmarks : kindMarks.any isIdentifierStart = false := by decide
  rw [valueWith_eq fun hmem => List.any_eq_false.mp hmarks c hmem hc, if_pos hc]

theorem takes_valueWith_of_word (hc : isIdentifierStart c = true)
    (hread : Takes (word implicitSome content members) v (c :: s) t) :
    Takes (valueWith implicitSome content members) v (c :: s) t := by
  rwa [Takes, valueWith_of_isIdentifierStart hc]

theorem takes_valueWith_of_name {name : String} {s₁ : List Char} (hname : TypeName name s s₁)
    (hread : Takes (named members) v s t) :
    Takes (valueWith implicitSome content members) v s t := by
  obtain ⟨c, u, rfl, hc⟩ := hname.1.exists_head
  exact takes_valueWith_of_word hc (takes_word_of_name hname hread)

theorem takes_valueWith_of_constant {word : String} (hword : (word, v) ∈ constants)
    (hends : Ends t) : Takes (valueWith implicitSome content members) v (word.toList ++ t) t := by
  have hletters : ∀ entry ∈ constants,
      entry.1.toList.all isIdentifierPart = true ∧ entry.1.toList ≠ [] := by decide
  obtain ⟨hparts, hne⟩ := hletters _ hword
  have hrun := takes_letters hparts hne hends
  obtain ⟨c, u, hcons, hc⟩ := (identifier_of_constant hword hends).exists_head
  rw [hcons] at hrun ⊢
  exact takes_valueWith_of_word hc (takes_word_of_constant hrun (by simpa using hword))

theorem takes_valueWith_of_some (hends : Ends s)
    (hread : Takes (optional implicitSome content) v s t) :
    Takes (valueWith implicitSome content members) v ('S' :: 'o' :: 'm' :: 'e' :: s) t := by
  have hletters : ['S', 'o', 'm', 'e'].all isIdentifierPart = true := by decide
  have hrun := takes_letters hletters (by simp) hends
  exact takes_valueWith_of_word rfl (takes_word_of_some hrun hread)

theorem takes_valueWith_minusInfinity (hends : Ends s) :
    Takes (valueWith implicitSome content members) .other ('-' :: 'i' :: 'n' :: 'f' :: s) s := by
  have hletters : ['i', 'n', 'f'].all isIdentifierPart = true := by decide
  obtain ⟨_, hrun⟩ := (takes_letters hletters (by simp) hends).eq
  simp only [List.cons_append, List.nil_append] at hrun
  simp [Takes, valueWith, infinity, hrun, Taken.map, Taken.past, Taken.weaken]

theorem takes_valueWith_empty : Takes (valueWith implicitSome content members) (.record none [])
    ('(' :: ')' :: s) s := by
  simp [Takes, valueWith, Taken.one, Taken.past, Taken.weaken]

/-- Parentheses are read as what lies in them, unless they are empty. -/
theorem takes_valueWith_of_parenthesized (hne : s.head? ≠ some ')')
    (hread : Takes (parenthesized none reader) v s t) :
    Takes (valueWith implicitSome content (some reader)) v ('(' :: s) t := by
  obtain ⟨_, hread⟩ := hread.eq
  rw [Takes, valueWith]
  · simp [hread, Taken.past, Taken.weaken]
  · rintro u - rfl
    exact hne rfl

theorem isIdentifierStart_of_isDigit (hc : c.isDigit = true) : isIdentifierStart c = false := by
  cases hstart : isIdentifierStart c with
  | false => rfl
  | true =>
    simp only [Char.isDigit, Bool.and_eq_true, decide_eq_true_eq, UInt32.le_iff_toNat_le,
      ge_iff_le] at hc
    simp only [isIdentifierStart, Bool.or_eq_true, isAlpha_iff, decide_eq_true_eq, Char.le_def,
      UInt32.le_iff_toNat_le] at hstart
    have hdigits : '9'.val.toNat = 57 ∧ 'A'.val.toNat = 65 ∧ 'a'.val.toNat = 97 := by decide
    rcases hstart with (h | h) | rfl
    · omega
    · omega
    · exact absurd hc (by decide)

theorem valueWith_of_isDigit (hc : c.isDigit = true ∨ c = '+') :
    valueWith implicitSome content members (c :: s) = number (c :: s) := by
  have hmarks : kindMarks.any (fun d => d.isDigit || d = '+') = false := by decide
  have hstart : isIdentifierStart c = false := by
    rcases hc with hc | rfl
    · exact isIdentifierStart_of_isDigit hc
    · rfl
  have hc' : (c.isDigit || c = '+') = true := by simpa using hc
  rw [valueWith_eq fun hmem => List.any_eq_false.mp hmarks c hmem hc', if_neg (by simp [hstart]),
    if_pos hc']

theorem infinity_eq_none {s : List Char} (h : s.head? ≠ some 'i') : infinity s = none := by
  cases s with
  | nil => rfl
  | cons c s =>
    have hc : c ≠ 'i' := fun hc => h (congrArg some hc)
    by_cases hpart : isIdentifierPart c = true <;> simp [infinity, takeRun, hpart, hc]

/-- After a minus there is a number, unless it is infinite. -/
theorem valueWith_of_minus (h : s.head? ≠ some 'i') :
    valueWith implicitSome content members ('-' :: s) = number ('-' :: s) := by
  rw [valueWith]
  simp [infinity_eq_none h]

/-- A number begins with a sign, a digit or a point. -/
theorem takes_valueWith_of_number {sign : Option Sign} {t : List Char} {v : Value}
    (hhead : ∃ c ∈ s.head?, c.isDigit = true ∨ c = '.')
    (hpoint : sign = none → s.head? = some '.' → Takes floatNumber v s t)
    (hread : Takes number v (signMark sign ++ s) t) :
    Takes (valueWith implicitSome content members) v (signMark sign ++ s) t := by
  obtain ⟨c, hc, hdigit⟩ := hhead
  obtain ⟨u, rfl⟩ := List.head?_eq_some_iff.mp hc
  match sign with
  | some .plus =>
    rw [Takes, signMark, List.cons_append, valueWith_of_isDigit (.inr rfl)]
    exact hread
  | some .minus =>
    have hne : (c :: u).head? ≠ some 'i' := by
      rintro ⟨⟩
      revert hdigit
      decide
    rw [Takes, signMark, List.cons_append, List.nil_append, valueWith_of_minus hne]
    exact hread
  | none =>
    rcases hdigit with hdigit | rfl
    · rw [Takes, signMark, List.nil_append, valueWith_of_isDigit (.inl hdigit)]
      exact hread
    · rw [Takes, signMark, List.nil_append, valueWith]
      exact hpoint rfl rfl

theorem takes_valueWith_of_integer {sign : Option Sign} {n : Nat} {s t : List Char}
    (h : SpelledInteger (sign, n) s t) :
    Takes (valueWith implicitSome content members) (.int sign n) s t := by
  have hread := takes_number_of_integer h
  cases h with
  | mk hbase hdigits _ _ =>
    obtain ⟨c, hc, hdigit⟩ := head_integer hbase hdigits
    refine takes_valueWith_of_number ⟨c, hc, .inl hdigit⟩ (fun _ hpoint => ?_) hread
    cases hc.symm.trans hpoint
    cases hdigit

theorem takes_valueWith_of_float {s t : List Char} (h : SpelledFloat s t) :
    Takes (valueWith implicitSome content members) .other s t := by
  have hread := takes_number_of_float h
  have hpoint := takes_floatNumber h
  cases h with
  | mk hrun _ =>
    obtain ⟨c, cs, rfl, hc⟩ := hrun.exists_head
    refine takes_valueWith_of_number ⟨c, rfl, hc⟩ (fun hsign _ => ?_) hread
    subst hsign
    exact hpoint

end Values

variable {implicitSome : Bool} {content : Spelling Value} {members : Option (Spelling Value)}

/-- What can be at the front of a number. -/
theorem exists_head_number (sign : Option Sign) {s : List Char}
    (hhead : ∃ c ∈ s.head?, c.isDigit = true ∨ c = '.') :
    ∃ c u, signMark sign ++ s = c :: u ∧ isFloatPart c = true ∧ isIdentifierStart c = false := by
  obtain ⟨c, hc, hdigit⟩ := hhead
  obtain ⟨u, rfl⟩ := List.head?_eq_some_iff.mp hc
  match sign with
  | some .plus | some .minus => exact ⟨_, _, rfl, by decide, by decide⟩
  | none =>
    refine ⟨c, u, rfl, ?_⟩
    rcases hdigit with hdigit | rfl
    · exact ⟨by simp [isFloatPart, hdigit], isIdentifierStart_of_isDigit hdigit⟩
    · decide

/-- The beginnings of values: what begins with a name goes on with something else than a colon, or
ends there. -/
theorem exists_head_spelledWith {v : Value} {s t : List Char}
    (h : SpelledWith implicitSome content members v s t)
    (hcontent : ∀ {v s t}, content v s t → Opens s) :
    (∃ name s₁ s₂, Identifier name s s₁ ∧ Blank s₁ s₂ ∧
      (s₂ = t ∨ NoBlank s₂ ∧ s₂.head? ≠ some ':')) ∨ Opens s ∧ identifier s = none := by
  have hmark {c : Char} (hc : c ∈ kindMarks) (u : List Char) :
      Opens (c :: u) ∧ identifier (c :: u) = none := by
    have hmarks : kindMarks.any isIdentifierStart = false := by decide
    have hopens : outerMarks.any kindMarks.contains = false := by decide
    refine ⟨opens_of_class hopens (List.contains_iff_mem.mpr hc) u, identifier_eq_none ?_⟩
    rintro _ ⟨⟩
    simpa using List.any_eq_false.mp hmarks c hc
  have hnumber {sign : Option Sign} {u : List Char}
      (hhead : ∃ c ∈ u.head?, c.isDigit = true ∨ c = '.') :
      Opens (signMark sign ++ u) ∧ identifier (signMark sign ++ u) = none := by
    obtain ⟨c, w, hcons, hpart, hstart⟩ := exists_head_number sign hhead
    rw [hcons]
    refine ⟨opens_of_class (p := isFloatPart) (by decide) hpart w, identifier_eq_none ?_⟩
    rintro _ ⟨⟩
    exact hstart
  have hopen (u : List Char) : NoBlank ('(' :: u) ∧ ('(' :: u).head? ≠ some ':' :=
    ⟨noBlank_cons.mpr (by decide), by simp⟩
  cases h with
  | constant hword hends =>
    exact .inl ⟨_, t, t, identifier_of_constant hword hends, .refl t, .inl rfl⟩
  | minusInfinity _ => exact .inr (hmark (by decide) _)
  | integer h =>
    cases h with
    | mk hbase hdigits _ _ =>
      obtain ⟨c, hc, hdigit⟩ := head_integer hbase hdigits
      exact .inr (hnumber ⟨c, hc, .inl hdigit⟩)
  | float h =>
    cases h with
    | mk hrun _ =>
      obtain ⟨c, cs, rfl, hc⟩ := hrun.exists_head
      exact .inr (hnumber ⟨c, rfl, hc⟩)
  | text h =>
    cases h with
    | quoted _ => exact .inr (hmark (by decide) _)
    | raw _ => exact .inr ⟨opens_of_class (p := isIdentifierStart) (by decide) rfl _,
        identifier_raw _ _⟩
  | char h => cases h <;> exact .inr (hmark (by decide) _)
  | list _ _ | map _ _ | empty _ | record _ _ | tuple _ _ _ => exact .inr (hmark (by decide) _)
  | namedRecord hname hafter _ _ | namedTuple hname hafter _ _ _ =>
    exact .inl ⟨_, _, _, hname.1, hafter, .inr (hopen _)⟩
  | variant hname hafter _ _ => exact .inl ⟨_, _, _, hname.1, hafter, .inl rfl⟩
  | someOf hafter _ _ _ =>
    have hends := Ends.of_blank hafter (ends_cons.mpr (by decide))
    exact .inl ⟨_, _, _, identifier_some hends, hafter, .inr (hopen _)⟩
  | impliedSome _ hends hbefore hv _ =>
    have hopens := hcontent hv
    obtain ⟨c, u, rfl, hc⟩ := hopens
    refine .inl ⟨_, _, _, identifier_some hends, hbefore, .inr ⟨(hcontent hv).noBlank, ?_⟩⟩
    rintro ⟨⟩
    exact hc (by decide)

variable {contentReader : Reader Value} {memberReaders : Option (Reader Value)}

theorem takes_valueWith (hcontent : ReadsValue contentReader content)
    (hmembers : ∀ member, members = some member →
      ∃ reader, memberReaders = some reader ∧ ReadsValue reader member) {v : Value}
    {s t : List Char} (h : SpelledWith implicitSome content members v s t) :
    Takes (valueWith implicitSome contentReader memberReaders) v s t := by
  cases h with
  | constant hword hends => exact takes_valueWith_of_constant hword hends
  | minusInfinity hends => exact takes_valueWith_minusInfinity hends
  | integer h => exact takes_valueWith_of_integer h
  | float h => exact takes_valueWith_of_float h
  | text h =>
    have htext := takes_text h
    cases h with
    | quoted h =>
      obtain ⟨_, htext⟩ := htext.eq
      simp [Takes, valueWith, htext, Taken.map]
    | raw h => exact takes_valueWith_of_word rfl (takes_word_of_raw h)
  | char h =>
    obtain ⟨_, hchar⟩ := (takes_character h).eq
    cases h <;> simp [Takes, valueWith, hchar, Taken.map]
  | list hmember h =>
    obtain ⟨reader, rfl, hreads⟩ := hmembers _ hmember
    obtain ⟨_, hitems⟩ := (takes_separated hreads.toReads (by decide) h rfl).eq
    simp [Takes, valueWith, hitems, Taken.map, Taken.past, Taken.weaken]
  | map hmember h =>
    obtain ⟨reader, rfl, hreads⟩ := hmembers _ hmember
    obtain ⟨_, hentries⟩ := (takes_separated (reads_entry hreads) (by decide) h rfl).eq
    simp [Takes, valueWith, hentries, Taken.map, Taken.past, Taken.weaken]
  | empty t => exact takes_valueWith_empty
  | @record _ _ u _ hmember h =>
    obtain ⟨reader, rfl, hreads⟩ := hmembers _ hmember
    by_cases hclosed : u.head? = some ')'
    · obtain ⟨w, rfl⟩ := List.head?_eq_some_iff.mp hclosed
      obtain ⟨rfl, rfl⟩ := h.of_close (reads_field hreads) (by decide)
      exact takes_valueWith_empty
    · exact takes_valueWith_of_parenthesized hclosed (takes_parenthesized_of_fields hreads h)
  | tuple hmember hne h =>
    obtain ⟨reader, rfl, hreads⟩ := hmembers _ hmember
    refine takes_valueWith_of_parenthesized (fun hclosed => ?_)
      (takes_parenthesized_of_items hreads hne h)
    obtain ⟨w, rfl⟩ := List.head?_eq_some_iff.mp hclosed
    exact hne (h.of_close hreads.toReads (by decide)).1
  | namedRecord hname hopen hmember h =>
    obtain ⟨reader, rfl, hreads⟩ := hmembers _ hmember
    exact takes_valueWith_of_name hname
      (takes_named hname.1 hopen (takes_parenthesized_of_fields hreads h))
  | namedTuple hname hopen hmember hne h =>
    obtain ⟨reader, rfl, hreads⟩ := hmembers _ hmember
    exact takes_valueWith_of_name hname
      (takes_named hname.1 hopen (takes_parenthesized_of_items hreads hne h))
  | variant hname hafter ht hne =>
    exact takes_valueWith_of_name hname (takes_named_of_variant hname.1 hafter ht hne)
  | someOf hopen hbefore hv hclose =>
    exact takes_valueWith_of_some (Ends.of_blank hopen (ends_cons.mpr (by decide)))
      (takes_optional hcontent hopen hbefore hv hclose)
  | impliedSome himplicit hends hbefore hv hne =>
    subst himplicit
    exact takes_valueWith_of_some hends (takes_optional_of_implicit hcontent hbefore hv hne)

theorem readsValue_valueWith (hcontent : ReadsValue contentReader content)
    (hmembers : ∀ member, members = some member →
      ∃ reader, memberReaders = some reader ∧ ReadsValue reader member) :
    ReadsValue (valueWith implicitSome contentReader memberReaders)
      (SpelledWith implicitSome content members) where
  takes := takes_valueWith hcontent hmembers
  opens h := by
    rcases exists_head_spelledWith h hcontent.opens with ⟨name, s₁, s₂, hname, -⟩ | ⟨hopens, -⟩
    · exact reads_identifier.opens hname
    · exact hopens
  startsField_eq {v s t u c} h hafter hc := by
    have hno : NoBlank (c :: u) ∧ (c :: u).head? ≠ some ':' := by
      rcases hc with rfl | rfl <;> exact ⟨noBlank_cons.mpr (by decide), by simp⟩
    rcases exists_head_spelledWith h hcontent.opens with
      ⟨name, s₁, s₂, hname, hblank, rfl | ⟨hs₂, hcolon⟩⟩ | ⟨-, hnone⟩
    · exact startsField_eq_false_of_blank hname (hblank.trans hafter) hno.1 hno.2
    · exact startsField_eq_false_of_blank hname hblank hs₂ hcolon
    · exact startsField_eq_false hnone

/-- Within its budget every spelling of a value is read as that value. -/
theorem readsValue_value (implicitSome : Bool) (budget : Nat) :
    ReadsValue (value implicitSome budget) (SpelledValue implicitSome budget) := by
  induction budget using Nat.strong_induction_on with
  | _ budget ih =>
    match budget with
    | 0 =>
      exact readsValue_valueWith readsValue_refuse fun member hmember => nomatch hmember
    | 1 =>
      refine readsValue_valueWith (ih 0 (by omega)) ?_
      rintro _ ⟨⟩
      exact ⟨refuse, rfl, readsValue_refuse⟩
    | budget + 2 =>
      refine readsValue_valueWith (ih (budget + 1) (by omega)) ?_
      rintro _ ⟨⟩
      exact ⟨_, rfl, ih budget (by omega)⟩

end SchemaLayout.Ron
