import SchemaLayout.Proofs.Ron.Digits
import SchemaLayout.Proofs.Ron.Spelling
import SchemaLayout.Text.Quoted

/-!
# What texts look like

Texts between quotes, with their escapes, raw texts and single characters. Whatever a text consists
of, it is read back from what is written for it.
-/

namespace SchemaLayout.Ron

/-! ## Escapes -/

/-- An escape, after its backslash. -/
inductive Escaped : Spelling Char
  | mark {c : Char} (hc : c ∈ ['\'', '"', '\\']) (t : List Char) : Escaped c (c :: t) t
  | letter {l c : Char} (hc : (l, c) ∈ [('n', '\n'), ('r', '\r'), ('t', '\t'), ('0', '\x00')])
      (t : List Char) : Escaped c (l :: t) t
  | byte {a b : Char} {m n : Nat} (ha : hexDigit? a = some m) (hb : hexDigit? b = some n)
      (t : List Char) : Escaped (.ofNat (16 * m + n)) ('x' :: a :: b :: t) t
  | code {digits : List Char} (hne : digits ≠ []) (hdigits : ∀ d ∈ digits, IsDigitOf 16 d)
      (hlength : digits.length ≤ 6) (hvalid : (digitsValue 16 digits).isValidChar) (t : List Char) :
      Escaped (.ofNat (digitsValue 16 digits)) ('u' :: '\x7b' :: (digits ++ '\x7d' :: t)) t

theorem hexValue_eq {digits : List Char} (hdigits : ∀ d ∈ digits, IsDigitOf 16 d) :
    hexValue digits = digitsValue 16 digits := by
  suffices ∀ n, digits.foldl (fun n c => 16 * n + (hexDigit? c).getD 0) n = digitsFrom 16 n digits
    from this 0
  induction digits with
  | nil => exact fun n => rfl
  | cons c digits ih =>
    rw [List.forall_mem_cons] at hdigits
    obtain ⟨⟨d, -, hd⟩, hdigits⟩ := hdigits
    intro n
    rw [List.foldl_cons, digitsFrom_cons_some hd, hd]
    exact ih hdigits _

theorem takes_codeEscaped {digits : List Char} (hne : digits ≠ [])
    (hdigits : ∀ d ∈ digits, IsDigitOf 16 d) (hlength : digits.length ≤ 6)
    (hvalid : (digitsValue 16 digits).isValidChar) (t : List Char) :
    Takes codeEscaped (.ofNat (digitsValue 16 digits)) ('\x7b' :: (digits ++ '\x7d' :: t)) t := by
  obtain ⟨_, hopen⟩ := (takes_expect '\x7b' (digits ++ '\x7d' :: t)).eq
  have hhex : ∀ d ∈ digits, (hexDigit? d).isSome := by
    intro d hd
    obtain ⟨n, -, hn⟩ := hdigits d hd
    simp [hn]
  obtain ⟨_, hrun⟩ := (takes_takeRun (t := '\x7d' :: t) hhex hne
    (by simp only [List.head?_cons, Option.mem_some]; rintro _ rfl; decide)).eq
  obtain ⟨_, hclose⟩ := (takes_expect '\x7d' t).eq
  rw [← hexValue_eq hdigits] at hvalid ⊢
  simp [Takes, codeEscaped, hopen, Taken.next, Taken.combine, hrun, hclose, hlength, hvalid,
    Taken.map]

theorem takes_escaped {c : Char} {s t : List Char} (h : Escaped c s t) : Takes escaped c s t := by
  cases h with
  | mark hc t =>
    simp only [List.mem_cons, List.not_mem_nil, or_false] at hc
    rcases hc with rfl | rfl | rfl <;> rfl
  | letter hc t =>
    simp only [List.mem_cons, List.not_mem_nil, or_false, Prod.mk.injEq] at hc
    rcases hc with ⟨rfl, rfl⟩ | ⟨rfl, rfl⟩ | ⟨rfl, rfl⟩ | ⟨rfl, rfl⟩ <;> rfl
  | byte ha hb t => simp [Takes, escaped, ha, hb, Taken.one, Taken.past, Taken.weaken]
  | code hne hdigits hlength hvalid t =>
    obtain ⟨_, hcode⟩ := (takes_codeEscaped hne hdigits hlength hvalid t).eq
    simp [Takes, escaped, hcode, Taken.past, Taken.weaken]

/-! ## Texts -/

/-- The rest of a quoted text, after the quote that begins it. -/
inductive Quoted : Spelling (List Char)
  | close (t : List Char) : Quoted [] ('"' :: t) t
  | char {c : Char} {cs s t : List Char} (hquote : c ≠ '"') (hescape : c ≠ '\\')
      (hrest : Quoted cs s t) : Quoted (c :: cs) (c :: s) t
  | escape {c : Char} {cs s mid t : List Char} (hc : Escaped c s mid) (hrest : Quoted cs mid t) :
      Quoted (c :: cs) ('\\' :: s) t

/-- The rest of a raw text, after the quote that begins it: all that stands before the first quote
with as many number signs after it as belong to the text. -/
inductive RawQuoted (marks : Nat) : Spelling (List Char)
  | close (t : List Char) : RawQuoted marks [] ('"' :: (.replicate marks '#' ++ t)) t
  | char {c : Char} {cs s t : List Char} (hclose : ¬ '"' :: .replicate marks '#' <+: c :: s)
      (hrest : RawQuoted marks cs s t) : RawQuoted marks (c :: cs) (c :: s) t

/-- A text, quoted or raw. -/
inductive SpelledText : Spelling String
  | quoted {cs s t : List Char} (h : Quoted cs s t) : SpelledText (.ofList cs) ('"' :: s) t
  | raw {marks : Nat} {cs s t : List Char} (h : RawQuoted marks cs s t) :
      SpelledText (.ofList cs) ('r' :: (.replicate marks '#' ++ '"' :: s)) t

theorem takes_quotedRest {cs s t : List Char} (h : Quoted cs s t) : Takes quotedRest cs s t := by
  induction h with
  | close t => simp [Takes, quotedRest, Taken.one]
  | char hquote hescape _ ih =>
    obtain ⟨_, hrest⟩ := ih.eq
    simp [Takes, quotedRest, hquote, hescape, hrest, Taken.past, Taken.map, Taken.weaken]
  | escape hc _ ih =>
    obtain ⟨_, hescaped⟩ := (takes_escaped hc).eq
    obtain ⟨_, hrest⟩ := ih.eq
    simp [Takes, quotedRest, hescaped, hrest, Taken.past, Taken.combine, Taken.weaken]

theorem takes_rawRest {marks : Nat} {cs s t : List Char} (h : RawQuoted marks cs s t) :
    Takes (rawRest marks) cs s t := by
  induction h with
  | close t => simp [Takes, rawRest]
  | @char c cs s t hclose _ ih =>
    obtain ⟨_, hrest⟩ := ih.eq
    have hnot : ¬ (c = '"' ∧ List.replicate marks '#' <+: s) := by
      rintro ⟨rfl, hs⟩
      exact hclose (List.cons_prefix_cons.mpr ⟨rfl, hs⟩)
    simp [Takes, rawRest, hnot, hrest, Taken.past, Taken.map, Taken.weaken]

theorem takes_rawText {marks : Nat} {cs s t : List Char} (h : RawQuoted marks cs s t) :
    Takes rawText cs (.replicate marks '#' ++ '"' :: s) t := by
  have hmarks : ∀ c ∈ List.replicate marks '#', decide (c = '#') = true := by
    simp [List.mem_replicate]
  have htake :
      (List.replicate marks '#' ++ '"' :: s).takeWhile (· = '#') = .replicate marks '#' := by
    simp [List.takeWhile_append_of_pos hmarks]
  have hdrop : (List.replicate marks '#' ++ '"' :: s).dropWhile (· = '#') = '"' :: s := by
    simp [List.dropWhile_append_of_pos hmarks]
  have hexpect : Takes (expect '"') ()
      ((List.replicate marks '#' ++ '"' :: s).dropWhile (· = '#')) s := by
    rw [hdrop]
    exact takes_expect '"' s
  obtain ⟨_, hquote⟩ := hexpect.eq
  obtain ⟨_, hrest⟩ := (takes_rawRest h).eq
  simp [Takes, rawText, htake, hquote, Taken.next, hrest, Taken.combine, Taken.weaken]

theorem takes_text {text : String} {s t : List Char} (h : SpelledText text s t) :
    Takes Ron.text text s t := by
  cases h with
  | quoted h =>
    obtain ⟨_, hrest⟩ := (takes_quotedRest h).eq
    simp [Takes, Ron.text, hrest, Taken.past, Taken.map, Taken.weaken]
  | raw h =>
    obtain ⟨_, hrest⟩ := (takes_rawText h).eq
    simp [Takes, Ron.text, hrest, Taken.past, Taken.map, Taken.weaken]

/-! ## Characters -/

/-- A single character. -/
inductive SpelledChar : Spelling Char
  | plain {c : Char} (hquote : c ≠ '\'') (hescape : c ≠ '\\') (t : List Char) :
      SpelledChar c ('\'' :: c :: '\'' :: t) t
  | escape {c : Char} {s t : List Char} (hc : Escaped c s ('\'' :: t)) :
      SpelledChar c ('\'' :: '\\' :: s) t

theorem takes_character {c : Char} {s t : List Char} (h : SpelledChar c s t) :
    Takes character c s t := by
  cases h with
  | plain hquote hescape t =>
    simp [Takes, character, expect, Taken.one, Taken.next, Taken.combine, characterBody, hquote,
      hescape, Taken.map]
  | escape hc =>
    obtain ⟨_, hescaped⟩ := (takes_escaped hc).eq
    simp [Takes, character, expect, Taken.one, Taken.next, Taken.combine, characterBody, hescaped,
      Taken.map, Taken.past, Taken.weaken]

/-! ## What is written for a text -/

theorem isValidChar_toNat (c : Char) : c.toNat.isValidChar := c.valid

/-- The code of a character, as it is written. -/
theorem quoted_codeEscape {c : Char} {cs s t : List Char} (h : Quoted cs s t) :
    Quoted (c :: cs) (Text.codeEscape c ++ s) t := by
  have hvalid := isValidChar_toNat c
  have hlength : (Nat.toDigits 16 c.toNat).length ≤ 6 := by
    refine Nat.toDigits_length 16 _ 6 (by decide) ?_
    unfold Nat.isValidChar at hvalid
    omega
  have hvalue := digitsValue_toDigits (show 1 < 16 by decide) (by decide) c.toNat
  have hcode := Escaped.code (Nat.toDigits_ne_nil (b := 16) (n := c.toNat))
    (isDigitOf_of_mem_toDigits (by decide) (by decide) _) hlength (hvalue.symm ▸ hvalid) s
  rw [hvalue, Char.ofNat_toNat] at hcode
  simpa [Text.codeEscape] using Quoted.escape hcode h

/-- One character of a text, as it is written. -/
theorem quoted_escapeInFile {c : Char} {cs s t : List Char} (h : Quoted cs s t) :
    Quoted (c :: cs) (Text.escapeInFile c ++ s) t := by
  unfold Text.escapeInFile
  split
  · rename_i hc
    subst hc
    exact .escape (.mark (by decide) s) h
  · unfold Text.escape
    split
    iterate 4 exact .escape (.letter (by decide) s) h
    iterate 2 exact .escape (.mark (by decide) s) h
    split
    · exact quoted_codeEscape h
    · exact .char ‹_› ‹_› h

theorem spelledText_quoteInFile (text : String) (t : List Char) :
    SpelledText text (Text.quoteInFile text ++ t) t := by
  have hquoted : Quoted text.toList (text.toList.flatMap Text.escapeInFile ++ '"' :: t) t := by
    induction text.toList with
    | nil => exact .close t
    | cons c cs ih =>
      rw [List.flatMap_cons, List.append_assoc]
      exact quoted_escapeInFile ih
  simpa [Text.quoteInFile] using SpelledText.quoted hquoted

end SchemaLayout.Ron
