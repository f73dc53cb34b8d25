import SchemaLayout.Ron.Blank

/-!
# What blanks and comments look like

`Blank s t` says that `s` is `t` with blanks and comments in front of it. Such a relation between a
text and an end of it is how all parts of RON are described: there is one for every part that can
stand in a file, and what is left of the text is where the next part begins.

Skipping goes over all blanks and comments at once. So texts that differ in these only are the same
to it, and it stops where nothing of the kind follows.
-/

namespace SchemaLayout.Ron

/-- The rest of a comment that goes on to a star with a slash, and what follows it. -/
inductive BlockComment : List Char → List Char → Prop
  | close (t : List Char) : BlockComment ('*' :: '/' :: t) t
  | nested {s mid t : List Char} (hinner : BlockComment s mid) (houter : BlockComment mid t) :
      BlockComment ('/' :: '*' :: s) t
  | char {c : Char} {s t : List Char} (hopen : ¬ ['/', '*'] <+: c :: s)
      (hclose : ¬ ['*', '/'] <+: c :: s) (hrest : BlockComment s t) : BlockComment (c :: s) t

/-- Blanks and comments, and what follows them. A comment that goes on to the end of its line may
also go on to the end of the text. -/
inductive Blank : List Char → List Char → Prop
  | refl (s : List Char) : Blank s s
  | char {c : Char} {s t : List Char} (hc : isBlank c = true) (hrest : Blank s t) : Blank (c :: s) t
  | line {comment s t : List Char} (hcomment : '\n' ∉ comment) (hrest : Blank s t) :
      Blank ('/' :: '/' :: (comment ++ '\n' :: s)) t
  | lastLine {comment : List Char} (hcomment : '\n' ∉ comment) : Blank ('/' :: '/' :: comment) []
  | block {s mid t : List Char} (hcomment : BlockComment s mid) (hrest : Blank mid t) :
      Blank ('/' :: '*' :: s) t

/-- Neither a blank nor a comment stands at the front of a text. -/
def NoBlank (s : List Char) : Prop := ∀ c ∈ s.head?, isBlank c = false ∧ c ≠ '/'

theorem noBlank_nil : NoBlank [] := by
  rintro c ⟨⟩

theorem noBlank_cons {c : Char} {s : List Char} :
    NoBlank (c :: s) ↔ isBlank c = false ∧ c ≠ '/' := by
  simp [NoBlank]

theorem Blank.trans {s t u : List Char} (h : Blank s t) (h' : Blank t u) : Blank s u := by
  induction h with
  | refl s => exact h'
  | char hc _ ih => exact .char hc (ih h')
  | line hcomment _ ih => exact .line hcomment (ih h')
  | lastLine hcomment =>
    cases h'
    exact .lastLine hcomment
  | block hcomment _ ih => exact .block hcomment (ih h')

/-- A text with blanks in front of it begins as the text itself, with a blank or with a slash. -/
theorem Blank.head {s t : List Char} (h : Blank s t) {c : Char} (hc : c ∈ s.head?) :
    c ∈ t.head? ∨ isBlank c = true ∨ c = '/' := by
  cases h with
  | refl s => exact .inl hc
  | char hblank _ =>
    cases hc
    exact .inr (.inl hblank)
  | line _ _ | lastLine _ | block _ _ =>
    cases hc
    exact .inr (.inr rfl)

namespace Skipping

theorem skip_lineComment {comment : List Char} (h : '\n' ∉ comment) (s : List Char) :
    skip .lineComment (comment ++ '\n' :: s) = skip .blank s := by
  induction comment with
  | nil => simp [skip]
  | cons c comment ih =>
    rw [List.mem_cons, not_or] at h
    rw [List.cons_append, skip, if_neg (Ne.symm h.1)]
    exact ih h.2

theorem skip_lastLine {comment : List Char} (h : '\n' ∉ comment) :
    skip .lineComment comment = some [] := by
  induction comment with
  | nil => rw [skip]
  | cons c comment ih =>
    rw [List.mem_cons, not_or] at h
    rw [skip, if_neg (Ne.symm h.1)]
    exact ih h.2

/-- Where skipping goes on after a comment that lies in so many others. -/
def after : Nat → Skipping
  | 0 => .blank
  | depth + 1 => .blockComment depth

theorem skip_blockComment {s t : List Char} (h : BlockComment s t) (depth : Nat) :
    skip (.blockComment depth) s = skip (after depth) t := by
  induction h generalizing depth with
  | close t => cases depth <;> rw [skip, after]
  | nested _ _ ihinner ihouter =>
    rw [skip, ihinner (depth + 1), after, ihouter depth]
  | char hopen hclose _ ih =>
    rw [skip.eq_def (.blockComment depth)]
    split <;> simp_all

/-- Skipping is the same on texts that differ in the blanks in front of them. -/
theorem skip_of_blank {s t : List Char} (h : Blank s t) : skip .blank s = skip .blank t := by
  induction h with
  | refl s => rfl
  | @char c s t hc _ ih =>
    have hslash : c ≠ '/' := by
      rintro rfl
      exact absurd hc (by decide)
    rw [skip.eq_def _ (c :: s)]
    split <;> simp_all
  | line hcomment _ ih => rw [skip, skip_lineComment hcomment, ih]
  | lastLine hcomment => rw [skip, skip, skip_lastLine hcomment]
  | block hcomment _ ih => rw [skip, skip_blockComment hcomment, after, ih]

theorem skip_of_noBlank {s : List Char} (h : NoBlank s) : skip .blank s = some s := by
  cases s with
  | nil => rw [skip]
  | cons c s =>
    obtain ⟨hblank, hslash⟩ := noBlank_cons.mp h
    unfold skip
    split <;> simp_all

end Skipping

theorem skipBlank_of_skip {s t : List Char} (h : Skipping.skip .blank s = some t) :
    ∃ hlength, skipBlank s = some ⟨t, hlength⟩ := by
  refine ⟨Skipping.length_le_of_skip h, ?_⟩
  unfold skipBlank
  split
  · rename_i rest hrest
    cases hrest.symm.trans h
    rfl
  · rename_i hnone
    cases hnone.symm.trans h

theorem skip_eq {s t : List Char} (h : Blank s t) (ht : NoBlank t) :
    Skipping.skip .blank s = some t :=
  (Skipping.skip_of_blank h).trans (Skipping.skip_of_noBlank ht)

/-- Where blanks end, skipping them stops. -/
theorem skipBlank_eq {s t : List Char} (h : Blank s t) (ht : NoBlank t) :
    ∃ hlength, skipBlank s = some ⟨t, hlength⟩ :=
  skipBlank_of_skip (skip_eq h ht)

end SchemaLayout.Ron
