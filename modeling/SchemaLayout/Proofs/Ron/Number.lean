import SchemaLayout.Proofs.Ron.Digits
import SchemaLayout.Proofs.Ron.Identifier
import SchemaLayout.Ron.Number

/-!
# What numbers look like

Integers of all bases, with their signs and underscores, as long as they fit in 64 bits, and the
numbers that are read as floating point numbers: those with a point or with a signed exponent, and
those that are too large for an integer.
-/

namespace SchemaLayout.Ron

/-! ## Characters of numbers -/

theorem isDigit_of_isDigitOf {c : Char} (h : IsDigitOf 10 c) : c.isDigit = true := by
  obtain ⟨d, hd, hc⟩ := h
  unfold hexDigit? at hc
  split at hc
  · assumption
  · split at hc
    · cases hc
      omega
    · split at hc <;> cases hc
      omega

theorem isAlphanum_of_hexDigit? {c : Char} {d : Nat} (h : hexDigit? c = some d) :
    c.isAlphanum = true := by
  unfold hexDigit? at h
  rw [Char.isAlphanum, Bool.or_eq_true, isAlpha_iff]
  split at h
  · exact .inr ‹_›
  · split at h
    · rename_i hc
      exact .inl (.inr ⟨hc.1, Char.le_trans hc.2 (show 'f' ≤ 'z' by decide)⟩)
    · split at h
      · rename_i hc
        exact .inl (.inl ⟨hc.1, Char.le_trans hc.2 (show 'F' ≤ 'Z' by decide)⟩)
      · cases h

theorem isRawPart_of_isIntegerPart {c : Char} (h : isIntegerPart c = true) :
    isRawPart c = true := by
  simp only [isIntegerPart, Bool.or_eq_true, Option.isSome_iff_exists, decide_eq_true_eq] at h
  rcases h with ⟨d, hd⟩ | rfl
  · exact isRawPart_of_isIdentifierPart (by simp [isIdentifierPart, isAlphanum_of_hexDigit? hd])
  · decide

theorem isRawPart_of_isFloatPart {c : Char} (h : isFloatPart c = true) : isRawPart c = true := by
  simp only [isFloatPart, Bool.or_eq_true, decide_eq_true_eq] at h
  rcases h with (((((h | rfl) | rfl) | rfl) | rfl) | rfl) | rfl
  · simp [isRawPart, isIdentifierPart, Char.isAlphanum, h]
  all_goals decide

theorem Ends.not_of_imp {s : List Char} (h : Ends s) {p : Char → Bool}
    (hp : ∀ {c}, p c = true → isRawPart c = true) : ∀ c ∈ s.head?, p c = false := by
  intro c hc
  cases hpc : p c with
  | false => rfl
  | true => exact absurd (hp hpc) (by simp [(h c hc).1])

/-! ## Integers -/

/-- A sign, as it is written before a number. -/
def signMark : Option Sign → List Char
  | none => []
  | some .plus => ['+']
  | some .minus => ['-']

/-- The bases of integers and how they are marked. -/
def bases : List (Nat × List Char) := [(10, []), (16, ['0', 'x']), (2, ['0', 'b']), (8, ['0', 'o'])]

/-- Digits of a base, with underscores after the first of them. -/
structure AreDigits (base : Nat) (digits : List Char) : Prop where
  starts : ∃ c ∈ digits.head?, IsDigitOf base c
  all : ∀ c ∈ digits, c = '_' ∨ IsDigitOf base c

/-- An integer that fits in 64 bits. -/
inductive SpelledInteger : Spelling (Option Sign × Nat)
  | mk {sign : Option Sign} {base : Nat} {mark digits t : List Char} (hbase : (base, mark) ∈ bases)
      (hdigits : AreDigits base digits) (hfits : digitsValue base digits ≤ maxMagnitude sign)
      (hends : Ends t) :
      SpelledInteger (sign, digitsValue base digits) (signMark sign ++ (mark ++ (digits ++ t))) t

theorem splitSign_append (sign : Option Sign) {s : List Char}
    (h : ∀ c ∈ s.head?, c ≠ '+' ∧ c ≠ '-') : splitSign (signMark sign ++ s) = (sign, s) := by
  match sign with
  | some .plus | some .minus => rfl
  | none =>
    unfold signMark splitSign
    split <;> simp_all

section

variable {base bound : Nat} {sign : Option Sign} {mark digits t : List Char}

theorem Digits.read_eq_number (hdigits : ∀ c ∈ digits, c = '_' ∨ IsDigitOf base c)
    (hbase : 1 ≤ base) {n : Nat} (hfits : digitsFrom base n digits ≤ bound) :
    Digits.read base bound n digits = .number (digitsFrom base n digits) := by
  induction digits generalizing n with
  | nil => rfl
  | cons c digits ih =>
    rw [List.forall_mem_cons] at hdigits
    obtain ⟨rfl | ⟨d, hd, hc⟩, hdigits⟩ := hdigits
    · rw [digitsFrom_cons_none (by decide)] at hfits ⊢
      exact ih hdigits hfits
    · have hne : c ≠ '_' := by
        rintro rfl
        cases hc
      rw [digitsFrom_cons_some hc] at hfits ⊢
      have hle := (le_digitsFrom hbase _ digits).trans hfits
      rw [mul_comm] at hle hfits ⊢
      rw [read, if_neg hne, if_neg (by omega), hc]
      simp only [if_neg hd.not_ge, if_neg hle.not_gt]
      exact ih hdigits hfits

theorem Digits.read_eq_tooLarge (hdigits : ∀ c ∈ digits, c = '_' ∨ IsDigitOf base c) {n : Nat}
    (hn : n ≤ bound) (hlarge : bound < digitsFrom base n digits) :
    Digits.read base bound n digits = .tooLarge := by
  induction digits generalizing n with
  | nil => exact absurd hlarge hn.not_gt
  | cons c digits ih =>
    rw [List.forall_mem_cons] at hdigits
    obtain ⟨rfl | ⟨d, hd, hc⟩, hdigits⟩ := hdigits
    · rw [digitsFrom_cons_none (by decide)] at hlarge
      exact ih hdigits hn hlarge
    · have hne : c ≠ '_' := by
        rintro rfl
        cases hc
      rw [digitsFrom_cons_some hc, mul_comm] at hlarge
      rw [read, if_neg hne]
      split
      · rfl
      · simp only [hc, if_neg hd.not_ge]
        split
        · rfl
        · exact ih hdigits (by omega) hlarge

theorem AreDigits.isIntegerPart (h : AreDigits base digits) :
    ∀ c ∈ digits, isIntegerPart c = true := by
  intro c hc
  rcases h.all c hc with rfl | ⟨d, -, hd⟩
  · rfl
  · simp [Ron.isIntegerPart, hd]

theorem AreDigits.exists_cons (h : AreDigits base digits) :
    ∃ c cs, digits = c :: cs ∧ IsDigitOf base c := by
  obtain ⟨c, hc, hdigit⟩ := h.starts
  obtain ⟨cs, rfl⟩ := List.head?_eq_some_iff.mp hc
  exact ⟨c, cs, rfl, hdigit⟩

/-- Decimal digits are followed by none of the letters that mark a base. -/
theorem AreDigits.not_prefix (hdigits : AreDigits 10 digits) (hends : Ends t) {c : Char}
    (hc : c ∈ ['x', 'b', 'o']) : ¬ ['0', c] <+: digits ++ t := by
  rintro ⟨u, hu⟩
  obtain ⟨hraw, hletter, hscore⟩ : isRawPart c = true ∧ c.isDigit = false ∧ c ≠ '_' := by
    simp only [List.mem_cons, List.not_mem_nil, or_false] at hc
    rcases hc with rfl | rfl | rfl <;> decide
  obtain ⟨d, ds, rfl, -⟩ := hdigits.exists_cons
  cases ds with
  | nil =>
    cases hu
    exact absurd (ends_cons.mp hends).1 (by simp [hraw])
  | cons e ds =>
    cases hu
    rcases hdigits.all c (by simp) with hc | hdigit
    · exact hscore hc
    · exact absurd (isDigit_of_isDigitOf hdigit) (by simp [hletter])

/-- The base of an integer is read off its mark. -/
theorem splitBase_append (hbase : (base, mark) ∈ bases) (hdigits : AreDigits base digits)
    (hends : Ends t) : splitBase (mark ++ (digits ++ t)) = (base, digits ++ t) := by
  simp only [bases, List.mem_cons, List.not_mem_nil, or_false, Prod.mk.injEq] at hbase
  rcases hbase with ⟨rfl, rfl⟩ | ⟨rfl, rfl⟩ | ⟨rfl, rfl⟩ | ⟨rfl, rfl⟩
  · have hnot : ∀ c ∈ ['x', 'b', 'o'], ¬ ['0', c] <+: digits ++ t := fun _ =>
      hdigits.not_prefix hends
    rw [List.nil_append]
    generalize digits ++ t = s at hnot
    unfold splitBase
    split <;> simp_all
  all_goals rfl

/-- No integer looks like a floating point number. -/
theorem looksLikeFloat_integer (hbase : (base, mark) ∈ bases) (hdigits : AreDigits base digits)
    (hends : Ends t) : looksLikeFloat (mark ++ (digits ++ t)) = false := by
  simp only [bases, List.mem_cons, List.not_mem_nil, or_false, Prod.mk.injEq] at hbase
  rcases hbase with ⟨rfl, rfl⟩ | hmark
  · have hfloat : ∀ c ∈ digits, isFloatPart c = true := by
      intro c hc
      rcases hdigits.all c hc with rfl | hdigit
      · rfl
      · simp [isFloatPart, isDigit_of_isDigitOf hdigit]
    rw [List.nil_append, looksLikeFloat,
      takeWhile_append_eq hdigits.isIntegerPart (hends.not_of_imp isRawPart_of_isIntegerPart),
      takeWhile_append_eq hfloat (hends.not_of_imp isRawPart_of_isFloatPart)]
    simp
  · -- a mark ends what could be a floating point number after the zero
    have hzero : isIntegerPart '0' = true := by decide
    rcases hmark with ⟨rfl, rfl⟩ | ⟨rfl, rfl⟩ | ⟨rfl, rfl⟩ <;>
      simp [looksLikeFloat, isFloatPart, List.takeWhile_cons, hzero]

/-- An integer begins with a digit, after its sign. -/
theorem head_integer (hbase : (base, mark) ∈ bases) (hdigits : AreDigits base digits) :
    ∃ c ∈ (mark ++ (digits ++ t)).head?, c.isDigit = true := by
  simp only [bases, List.mem_cons, List.not_mem_nil, or_false, Prod.mk.injEq] at hbase
  rcases hbase with ⟨rfl, rfl⟩ | ⟨rfl, rfl⟩ | ⟨rfl, rfl⟩ | ⟨rfl, rfl⟩
  · obtain ⟨c, cs, rfl, hc⟩ := hdigits.exists_cons
    exact ⟨c, rfl, isDigit_of_isDigitOf hc⟩
  all_goals exact ⟨'0', rfl, rfl⟩

theorem not_sign_of_isDigit {c : Char} (h : c.isDigit = true) : c ≠ '+' ∧ c ≠ '-' := by
  constructor <;> rintro rfl <;> exact absurd h (by decide)

/-- What an integer is split into. -/
theorem splitSign_integer (sign : Option Sign) (hbase : (base, mark) ∈ bases)
    (hdigits : AreDigits base digits) :
    splitSign (signMark sign ++ (mark ++ (digits ++ t))) = (sign, mark ++ (digits ++ t)) := by
  refine splitSign_append sign fun c hc => ?_
  obtain ⟨d, hd, hdigit⟩ := head_integer (t := t) hbase hdigits
  cases hc.symm.trans hd
  exact not_sign_of_isDigit hdigit

/-- The digits of an integer are taken, after its sign and the mark of its base. -/
theorem takes_digits (sign : Option Sign) (hbase : (base, mark) ∈ bases)
    (hdigits : AreDigits base digits) (hends : Ends t) : Takes (takeRun isIntegerPart) digits
      (splitBase (splitSign (signMark sign ++ (mark ++ (digits ++ t)))).2).2 t := by
  rw [splitSign_integer sign hbase hdigits, splitBase_append hbase hdigits hends]
  obtain ⟨c, cs, rfl, -⟩ := hdigits.exists_cons
  exact takes_takeRun hdigits.isIntegerPart (List.cons_ne_nil c cs)
    (hends.not_of_imp isRawPart_of_isIntegerPart)

theorem AreDigits.head?_ne (h : AreDigits base digits) : digits.head? ≠ some '_' := by
  obtain ⟨c, hc, d, -, hd⟩ := h.starts
  intro hscore
  cases hc.symm.trans hscore
  cases hd

theorem one_le_of_mem_bases (h : (base, mark) ∈ bases) : 1 ≤ base := by
  simp only [bases, List.mem_cons, List.not_mem_nil, or_false, Prod.mk.injEq] at h
  omega

theorem takes_integer (hbase : (base, mark) ∈ bases) (hdigits : AreDigits base digits)
    (hfits : digitsValue base digits ≤ maxMagnitude sign) (hends : Ends t) :
    Takes integer (.int sign (digitsValue base digits))
      (signMark sign ++ (mark ++ (digits ++ t))) t := by
  have hsign : (splitSign (signMark sign ++ (mark ++ (digits ++ t)))).1 = sign := by
    rw [splitSign_integer sign hbase hdigits]
  have hbase' : (splitBase (splitSign (signMark sign ++ (mark ++ (digits ++ t)))).2).1 = base := by
    rw [splitSign_integer sign hbase hdigits, splitBase_append hbase hdigits hends]
  obtain ⟨_, hrun⟩ := (takes_digits sign hbase hdigits hends).eq
  have hread := Digits.read_eq_number hdigits.all (one_le_of_mem_bases hbase) hfits
  simp [Takes, integer, hrun, hdigits.head?_ne, hsign, hbase', hread, Taken.map, Taken.weaken,
    digitsValue]

end

theorem takes_number_of_integer {sign : Option Sign} {n : Nat} {s t : List Char}
    (h : SpelledInteger (sign, n) s t) : Takes number (.int sign n) s t := by
  cases h with
  | @mk sign base mark digits t hbase hdigits hfits hends =>
    have hlooks :
        looksLikeFloat (splitSign (signMark sign ++ (mark ++ (digits ++ t)))).2 = false := by
      rw [splitSign_integer sign hbase hdigits]
      exact looksLikeFloat_integer hbase hdigits hends
    rw [Takes, number, if_neg (by simp [hlooks])]
    exact takes_integer hbase hdigits hfits hends

/-! ## Floating point numbers -/

/-- Decimal digits alone. -/
def AllDigits (digits : List Char) : Prop := ∀ c ∈ digits, c.isDigit = true

/-- An exponent, with its sign. -/
inductive Exponent : Option Sign → List Char → Prop
  | mk {e : Char} {sign : Option Sign} {digits : List Char} (he : e ∈ ['e', 'E'])
      (hne : digits ≠ []) (hdigits : AllDigits digits) :
      Exponent sign (e :: (signMark sign ++ digits))

/-- A floating point number without its sign: with a point, with a signed exponent, or with digits
that are too many for an integer of some sign. -/
inductive FloatRun (sign : Option Sign) : List Char → Prop
  | point {whole fraction exponent : List Char} (hwhole : AllDigits whole)
      (hfraction : AllDigits fraction) (hne : whole ≠ [] ∨ fraction ≠ [])
      (hexponent : exponent = [] ∨ ∃ sign, Exponent sign exponent) :
      FloatRun sign (whole ++ '.' :: (fraction ++ exponent))
  | exponent {whole exponent : List Char} {esign : Sign} (hwhole : AllDigits whole)
      (hne : whole ≠ []) (hexponent : Exponent (some esign) exponent) :
      FloatRun sign (whole ++ exponent)
  | large {whole : List Char} (hwhole : AllDigits whole)
      (hlarge : maxMagnitude sign < digitsValue 10 whole) : FloatRun sign whole

/-- A floating point number, and what follows it. -/
inductive SpelledFloat : List Char → List Char → Prop
  | mk {sign : Option Sign} {run t : List Char} (hrun : FloatRun sign run) (hends : Ends t) :
      SpelledFloat (signMark sign ++ (run ++ t)) t

/-- Each character of a floating point number is one that can stand there, and no underscore. -/
def isPlainFloatPart (c : Char) : Bool := isFloatPart c && c ≠ '_'

theorem isPlainFloatPart_of_isDigit {c : Char} (h : c.isDigit = true) :
    isPlainFloatPart c = true := by
  have hne : c ≠ '_' := by
    rintro rfl
    exact absurd h (by decide)
  simp [isPlainFloatPart, isFloatPart, h, hne]

theorem AllDigits.isPlainFloatPart {digits : List Char} (h : AllDigits digits) :
    ∀ c ∈ digits, isPlainFloatPart c = true := fun c hc => isPlainFloatPart_of_isDigit (h c hc)

theorem isPlainFloatPart_signMark (sign : Option Sign) :
    ∀ c ∈ signMark sign, isPlainFloatPart c = true := by
  match sign with
  | none | some .plus | some .minus => exact List.all_eq_true.mp rfl

theorem Exponent.isPlainFloatPart {sign : Option Sign} {exponent : List Char}
    (h : Exponent sign exponent) : ∀ c ∈ exponent, isPlainFloatPart c = true := by
  cases h with
  | mk he _ hdigits =>
    rw [List.forall_mem_cons, List.forall_mem_append]
    refine ⟨?_, isPlainFloatPart_signMark sign, hdigits.isPlainFloatPart⟩
    have hmarks : ['e', 'E'].all Ron.isPlainFloatPart = true := by decide
    exact List.all_eq_true.mp hmarks _ he

theorem FloatRun.isPlainFloatPart {sign : Option Sign} {run : List Char} (h : FloatRun sign run) :
    ∀ c ∈ run, isPlainFloatPart c = true := by
  cases h with
  | point hwhole hfraction _ hexponent =>
    rw [List.forall_mem_append, List.forall_mem_cons, List.forall_mem_append]
    refine ⟨hwhole.isPlainFloatPart, by decide, hfraction.isPlainFloatPart, ?_⟩
    rcases hexponent with rfl | ⟨esign, hexponent⟩
    · exact fun c hc => absurd hc List.not_mem_nil
    · exact hexponent.isPlainFloatPart
  | exponent hwhole _ hexponent =>
    exact List.forall_mem_append.mpr ⟨hwhole.isPlainFloatPart, hexponent.isPlainFloatPart⟩
  | large hwhole _ => exact hwhole.isPlainFloatPart

theorem AllDigits.dropDigits_append {digits t : List Char} (h : AllDigits digits)
    (ht : ∀ c ∈ t.head?, c.isDigit = false) : dropDigits (digits ++ t) = t :=
  dropWhile_append_eq h ht

theorem Exponent.exists_cons {sign : Option Sign} {exponent : List Char}
    (h : Exponent sign exponent) : ∃ e es, exponent = e :: es ∧ (e = 'e' ∨ e = 'E') := by
  cases h with
  | mk he _ _ => exact ⟨_, _, rfl, by simpa using he⟩

theorem Exponent.not_isDigit {sign : Option Sign} {exponent : List Char}
    (h : Exponent sign exponent) : ∀ c ∈ exponent.head?, c.isDigit = false := by
  obtain ⟨e, es, rfl, rfl | rfl⟩ := h.exists_cons <;> rintro _ ⟨⟩ <;> rfl

theorem Exponent.isExponent_eq {sign : Option Sign} {exponent : List Char}
    (h : Exponent sign exponent) : isExponent exponent = true := by
  cases h with
  | @mk e sign digits he hne hdigits =>
    have hsign : ∀ c ∈ digits.head?, c ≠ '+' ∧ c ≠ '-' := fun c hc =>
      not_sign_of_isDigit (hdigits c (List.mem_of_mem_head? hc))
    have hdrop : dropDigits digits = [] := by
      simpa using hdigits.dropDigits_append (t := []) (by simp)
    simpa [isExponent, splitSign_append sign hsign, hdrop, hne] using he

theorem ne_nil_of_lt_digitsValue {base bound : Nat} {digits : List Char}
    (h : bound < digitsValue base digits) : digits ≠ [] := by
  rintro rfl
  exact absurd h (Nat.not_lt_zero bound)

theorem FloatRun.exists_head {sign : Option Sign} {run : List Char} (h : FloatRun sign run) :
    ∃ c cs, run = c :: cs ∧ (c.isDigit = true ∨ c = '.') := by
  have hcons {whole : List Char} (cs : List Char) (hwhole : AllDigits whole) (hne : whole ≠ []) :
      ∃ c ds, whole ++ cs = c :: ds ∧ (c.isDigit = true ∨ c = '.') := by
    obtain ⟨c, ds, rfl⟩ := List.exists_cons_of_ne_nil hne
    exact ⟨c, _, rfl, .inl (hwhole c List.mem_cons_self)⟩
  cases h with
  | @point whole fraction exponent hwhole _ _ _ =>
    by_cases hne : whole = []
    · subst hne
      exact ⟨'.', _, rfl, .inr rfl⟩
    · exact hcons _ hwhole hne
  | exponent hwhole hne _ => exact hcons _ hwhole hne
  | large hwhole hlarge =>
    simpa using hcons [] hwhole (ne_nil_of_lt_digitsValue hlarge)

/-- The sign of a floating point number is what is split off. -/
theorem FloatRun.splitSign_append {sign : Option Sign} {run : List Char} (h : FloatRun sign run)
    (t : List Char) : splitSign (signMark sign ++ (run ++ t)) = (sign, run ++ t) := by
  refine Ron.splitSign_append sign fun c hc => ?_
  obtain ⟨d, ds, rfl, hd⟩ := h.exists_head
  cases hc
  rcases hd with hd | rfl
  · exact not_sign_of_isDigit hd
  · decide

theorem head?_any_isDigit {digits : List Char} (h : AllDigits digits) (hne : digits ≠ [])
    (t : List Char) : (digits ++ t).head?.any Char.isDigit = true := by
  obtain ⟨c, ds, rfl⟩ := List.exists_cons_of_ne_nil hne
  exact h c List.mem_cons_self

theorem FloatRun.isFloat_eq {sign : Option Sign} {run : List Char} (h : FloatRun sign run) :
    isFloat (signMark sign ++ run) = true := by
  have hsplit := h.splitSign_append []
  simp only [List.append_nil] at hsplit
  rw [isFloat, hsplit]
  cases h with
  | @point whole fraction exponent hwhole hfraction hne hexponent =>
    have hdrop := hwhole.dropDigits_append (t := '.' :: (fraction ++ exponent)) (by simp)
    have hdrop' : dropDigits (fraction ++ exponent) = exponent := by
      refine hfraction.dropDigits_append ?_
      rcases hexponent with rfl | ⟨esign, hexponent⟩
      · simp
      · exact hexponent.not_isDigit
    have hexp : isExponent exponent = true := by
      rcases hexponent with rfl | ⟨esign, hexponent⟩
      · rfl
      · exact hexponent.isExponent_eq
    simp only [hdrop, hdrop', hexp, Bool.and_true, Bool.or_eq_true]
    exact hne.imp (fun hne => head?_any_isDigit hwhole hne _)
      fun hne => head?_any_isDigit hfraction hne _
  | @exponent whole exponent esign hwhole hne hexponent =>
    have hdrop := hwhole.dropDigits_append hexponent.not_isDigit
    have hhead := head?_any_isDigit hwhole hne exponent
    have hexp := hexponent.isExponent_eq
    obtain ⟨e, es, rfl, he⟩ := hexponent.exists_cons
    simp only [hdrop, hhead, hexp, Bool.and_self]
    rcases he with rfl | rfl <;> rfl
  | large hwhole hlarge =>
    have hdrop := hwhole.dropDigits_append (t := []) (by simp)
    have hhead := head?_any_isDigit hwhole (ne_nil_of_lt_digitsValue hlarge) []
    simp only [List.append_nil] at hdrop hhead
    simp [hdrop, hhead, isExponent]

theorem takes_floatNumber {s t : List Char} (h : SpelledFloat s t) :
    Takes floatNumber .other s t := by
  cases h with
  | @mk sign run t hrun hends =>
    have hparts : ∀ c ∈ signMark sign ++ run, isPlainFloatPart c = true :=
      List.forall_mem_append.mpr ⟨isPlainFloatPart_signMark sign, hrun.isPlainFloatPart⟩
    have hne : signMark sign ++ run ≠ [] := by
      obtain ⟨c, cs, rfl, -⟩ := hrun.exists_head
      simp
    have htake :
        Takes (takeRun isFloatPart) (signMark sign ++ run) (signMark sign ++ (run ++ t)) t := by
      rw [← List.append_assoc]
      exact takes_takeRun (fun c hc => (Bool.and_eq_true_iff.mp (hparts c hc)).1) hne
        (hends.not_of_imp isRawPart_of_isFloatPart)
    have hscore : '_' ∉ signMark sign ++ run := fun hmem => absurd (hparts _ hmem) (by decide)
    obtain ⟨_, htake⟩ := htake.eq
    rw [List.mem_append, not_or] at hscore
    simp [Takes, floatNumber, htake, hscore, hrun.isFloat_eq, Taken.map]

theorem isDigitOf_of_isDigit {c : Char} (h : c.isDigit = true) : IsDigitOf 10 c := by
  refine ⟨c.toNat - '0'.toNat, ?_, by simp [hexDigit?, h]⟩
  simp only [Char.isDigit, Bool.and_eq_true, decide_eq_true_eq] at h
  have hle : c.toNat ≤ '9'.toNat := h.2
  have : '9'.toNat = 57 ∧ '0'.toNat = 48 := by decide
  omega

theorem AllDigits.areDigits {digits : List Char} (h : AllDigits digits) (hne : digits ≠ []) :
    AreDigits 10 digits := by
  refine ⟨?_, fun c hc => .inr (isDigitOf_of_isDigit (h c hc))⟩
  obtain ⟨c, ds, rfl⟩ := List.exists_cons_of_ne_nil hne
  exact ⟨c, rfl, isDigitOf_of_isDigit (h c List.mem_cons_self)⟩

theorem AllDigits.isIntegerPart {digits : List Char} (h : AllDigits digits) :
    ∀ c ∈ digits, isIntegerPart c = true := by
  intro c hc
  obtain ⟨d, -, hd⟩ := isDigitOf_of_isDigit (h c hc)
  simp [Ron.isIntegerPart, hd]

/-- A floating point number looks like one, unless it consists of digits alone. -/
theorem FloatRun.looksLikeFloat_or {sign : Option Sign} {run t : List Char} (h : FloatRun sign run)
    (hends : Ends t) : looksLikeFloat (run ++ t) = true ∨
      AreDigits 10 run ∧ maxMagnitude sign < digitsValue 10 run := by
  have hfloat : (run ++ t).takeWhile isFloatPart = run := takeWhile_append_eq
    (fun c hc => (Bool.and_eq_true_iff.mp (h.isPlainFloatPart c hc)).1)
    (hends.not_of_imp isRawPart_of_isFloatPart)
  rw [looksLikeFloat, hfloat, decide_eq_true_eq]
  cases h with
  | @point whole fraction exponent hwhole _ _ _ =>
    -- an integer would end before the point
    have hinteger : (whole ++ '.' :: (fraction ++ exponent ++ t)).takeWhile isIntegerPart = whole :=
      takeWhile_append_eq hwhole.isIntegerPart (by rintro _ ⟨⟩; decide)
    left
    simp only [List.append_assoc, List.cons_append] at hinteger ⊢
    rw [hinteger]
    simp
  | @exponent whole exponent esign hwhole _ hexponent =>
    -- an integer would end before the sign of the exponent
    obtain @⟨e, -, digits, he, -, -⟩ := hexponent
    have hparts : ∀ c ∈ whole ++ [e], isIntegerPart c = true := by
      rw [List.forall_mem_append, List.forall_mem_singleton]
      refine ⟨hwhole.isIntegerPart, ?_⟩
      have hmarks : ['e', 'E'].all isIntegerPart = true := by decide
      exact List.all_eq_true.mp hmarks _ he
    have hsign : ∀ c ∈ (signMark (some esign) ++ (digits ++ t)).head?, isIntegerPart c = false := by
      cases esign <;> rintro _ ⟨⟩ <;> decide
    have hlength : 0 < (signMark (some esign)).length := by cases esign <;> decide
    have hinteger := takeWhile_append_eq hparts hsign
    left
    simp only [List.append_assoc, List.cons_append, List.nil_append] at hinteger ⊢
    rw [hinteger]
    simp only [List.length_append, List.length_cons, List.length_nil]
    omega
  | large hwhole hlarge =>
    exact .inr ⟨hwhole.areDigits (ne_nil_of_lt_digitsValue hlarge), hlarge⟩

/-- Digits that are too many for an integer are read again. -/
theorem integer_eq_floatNumber {sign : Option Sign} {run t : List Char} (hdigits : AreDigits 10 run)
    (hlarge : maxMagnitude sign < digitsValue 10 run) (hends : Ends t) :
    integer (signMark sign ++ (run ++ t)) = floatNumber (signMark sign ++ (run ++ t)) := by
  have hbase : (10, []) ∈ bases := List.mem_cons_self
  have hsplit := splitSign_integer sign (t := t) hbase hdigits
  have hbase' := splitBase_append hbase hdigits hends
  obtain ⟨_, hrun⟩ := (takes_digits sign hbase hdigits hends).eq
  have hread := Digits.read_eq_tooLarge hdigits.all (Nat.zero_le _) hlarge
  simp only [List.nil_append] at hsplit hbase' hrun
  simp [integer, hrun, hdigits.head?_ne, hsplit, hbase', hread]

theorem takes_number_of_float {s t : List Char} (h : SpelledFloat s t) :
    Takes number .other s t := by
  have htakes := takes_floatNumber h
  cases h with
  | @mk sign run t hrun hends =>
    have hsplit := hrun.splitSign_append t
    rcases hrun.looksLikeFloat_or hends with hlooks | ⟨hdigits, hlarge⟩
    · rwa [Takes, number, hsplit, if_pos hlooks]
    · have hbase : (10, []) ∈ bases := List.mem_cons_self
      have hlooks := looksLikeFloat_integer hbase hdigits hends
      rw [List.nil_append] at hlooks
      rwa [Takes, number, hsplit, if_neg (by simp [hlooks]),
        integer_eq_floatNumber hdigits hlarge hends]

end SchemaLayout.Ron
