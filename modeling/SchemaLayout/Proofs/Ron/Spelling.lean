import SchemaLayout.Proofs.Ron.Blank
import SchemaLayout.Ron.Taken

/-!
# Spellings and readers

A spelling relates a thing to the texts that begin with it: `spelling a s t` says that `s` spells
`a` and goes on with `t`. A reader reads a spelling if it takes from each of these texts what is
spelled and leaves what follows. What holds of single things is carried over to lists of things
between commas.
-/

namespace SchemaLayout.Ron

variable {α β : Type}

/-- Which texts begin with a thing, and what follows it there. -/
abbrev Spelling (α : Type) : Type := α → List Char → List Char → Prop

/-- A character that can close something. -/
def Closes (c : Char) : Prop := c ∈ [')', ']', '\x7d']

instance (c : Char) : Decidable (Closes c) :=
  inferInstanceAs (Decidable (c ∈ [')', ']', '\x7d']))

/-- The characters with which nothing begins: blanks, the first of a comment or of an attribute, and
those that stand between things or close something. -/
def outerMarks : List Char := [' ', '\t', '\n', '\r', '/', '#', ',', ':', ')', ']', '\x7d']

/-- Something begins at the front of a text. -/
def Opens (s : List Char) : Prop := ∃ c t, s = c :: t ∧ c ∉ outerMarks

theorem Opens.noBlank {s : List Char} (h : Opens s) : NoBlank s := by
  obtain ⟨c, t, rfl, hc⟩ := h
  simp only [outerMarks, List.mem_cons, not_or] at hc
  exact noBlank_cons.mpr (by simp [isBlank, hc])

theorem Opens.head_ne {s : List Char} (h : Opens s) {c : Char} (hc : Closes c) :
    s.head? ≠ some c := by
  obtain ⟨d, t, rfl, hd⟩ := h
  rintro ⟨⟩
  exact hd (List.mem_of_mem_drop (i := 8) hc)

theorem Opens.head_ne_hash {s : List Char} (h : Opens s) : s.head? ≠ some '#' := by
  obtain ⟨d, t, rfl, hd⟩ := h
  rintro ⟨⟩
  exact hd (by decide)

/-- A character opens a text if it is of a class to which none of the others belongs. -/
theorem opens_of_class {p : Char → Bool} (hp : outerMarks.any p = false) {c : Char}
    (hc : p c = true) (s : List Char) : Opens (c :: s) :=
  ⟨c, s, rfl, fun hmem => List.any_eq_false.mp hp c hmem hc⟩

theorem Closes.noBlank {c : Char} (h : Closes c) (s : List Char) : NoBlank (c :: s) := by
  simp only [Closes, List.mem_cons, List.not_mem_nil, or_false] at h
  rcases h with rfl | rfl | rfl <;> exact noBlank_cons.mpr (by decide)

theorem Closes.head_ne {c : Char} (h : Closes c) (s : List Char) :
    (c :: s).head? ≠ some ',' := by
  rintro ⟨⟩
  exact absurd h (by decide)

/-! ## Taking one thing after another -/

/-- A reader takes a thing from a text and leaves a rest. -/
def Takes (reader : Reader α) (a : α) (s t : List Char) : Prop :=
  (reader s).map (fun taken => (taken.value, taken.rest)) = some (a, t)

/-- A reader reads a spelling: it takes what is spelled, and each spelling has a beginning that
tells it from what may stand in its place. -/
structure Reads (reader : Reader α) (spelling : Spelling α) : Prop where
  takes : ∀ {a s t}, spelling a s t → Takes reader a s t
  opens : ∀ {a s t}, spelling a s t → Opens s

theorem Takes.eq {reader : Reader α} {a : α} {s t : List Char} (h : Takes reader a s t) :
    ∃ hshorter, reader s = some ⟨a, t, hshorter⟩ := by
  obtain ⟨⟨_, _, hshorter⟩, htaken, hpair⟩ := Option.map_eq_some_iff.mp h
  cases hpair
  exact ⟨hshorter, htaken⟩

theorem takes_expect (c : Char) (s : List Char) : Takes (expect c) () (c :: s) s := by
  simp [Takes, expect, Taken.one]

theorem expect_eq_none {c : Char} {s : List Char} (h : s.head? ≠ some c) : expect c s = none := by
  cases s with
  | nil => rfl
  | cons d s => exact if_neg fun hd => h (congrArg some hd)

/-- A character with blanks around it. -/
theorem takes_expectSpaced {c : Char} {s mid t : List Char} (hbefore : Blank s (c :: mid))
    (hc : isBlank c = false ∧ c ≠ '/') (hafter : Blank mid t) (ht : NoBlank t) :
    Takes (expectSpaced c) () s t := by
  obtain ⟨_, hskip⟩ := skipBlank_eq hbefore (noBlank_cons.mpr hc)
  obtain ⟨_, hexpect⟩ := (takes_expect c mid).eq
  obtain ⟨_, hskip'⟩ := skipBlank_eq hafter ht
  simp [Takes, expectSpaced, hskip, Skipped.take, hexpect, Taken.weaken, Taken.skipBlank, hskip']

/-- A run ends where a character of another class follows. -/
theorem takeWhile_append_eq {p : Char → Bool} {run t : List Char} (hrun : ∀ c ∈ run, p c = true)
    (ht : ∀ c ∈ t.head?, p c = false) : (run ++ t).takeWhile p = run := by
  rw [List.takeWhile_append_of_pos hrun]
  cases t with
  | nil => simp
  | cons c t => simp [ht c rfl]

theorem dropWhile_append_eq {p : Char → Bool} {run t : List Char} (hrun : ∀ c ∈ run, p c = true)
    (ht : ∀ c ∈ t.head?, p c = false) : (run ++ t).dropWhile p = t := by
  rw [List.dropWhile_append_of_pos hrun]
  cases t with
  | nil => rfl
  | cons c t => simp [ht c rfl]

theorem takes_takeRun {p : Char → Bool} {run t : List Char} (hrun : ∀ c ∈ run, p c = true)
    (hne : run ≠ []) (ht : ∀ c ∈ t.head?, p c = false) : Takes (takeRun p) run (run ++ t) t := by
  cases run with
  | nil => contradiction
  | cons c run =>
    rw [List.forall_mem_cons] at hrun
    simp [Takes, takeRun, hrun.1, takeWhile_append_eq hrun.2 ht, dropWhile_append_eq hrun.2 ht]

theorem Taken.skipBlank_eq {s t : List Char} (taken : Taken α s) (h : Blank taken.rest t)
    (ht : NoBlank t) : ∃ hshorter, taken.skipBlank = some ⟨taken.value, t, hshorter⟩ := by
  obtain ⟨hlength, hskip⟩ := Ron.skipBlank_eq h ht
  exact ⟨Nat.lt_of_le_of_lt hlength taken.shorter, by rw [Taken.skipBlank, hskip]; rfl⟩

/-- One comma is skipped with the blanks around it. -/
theorem Taken.skipComma_of_comma {s mid t : List Char} (taken : Taken α s)
    (hcomma : Blank taken.rest (',' :: mid)) (hafter : Blank mid t) (ht : NoBlank t) :
    ∃ hshorter, taken.skipComma = some (true, ⟨taken.value, t, hshorter⟩) := by
  obtain ⟨hshorter, hskip⟩ := taken.skipBlank_eq hcomma (noBlank_cons.mpr (by decide))
  obtain ⟨hshorter', hexpect⟩ := (takes_expect ',' mid).eq
  obtain ⟨hshorter'', hskip'⟩ := Taken.skipBlank_eq
    (⟨taken.value, mid, Nat.lt_trans hshorter' hshorter⟩ : Taken α s) hafter ht
  exact ⟨hshorter'', by simp [Taken.skipComma, hskip, hexpect, Taken.combine, hskip']⟩

theorem Taken.skipComma_of_ne {s t : List Char} (taken : Taken α s) (h : Blank taken.rest t)
    (ht : NoBlank t) (hne : t.head? ≠ some ',') :
    ∃ hshorter, taken.skipComma = some (false, ⟨taken.value, t, hshorter⟩) := by
  obtain ⟨hshorter, hskip⟩ := taken.skipBlank_eq h ht
  exact ⟨hshorter, by simp [Taken.skipComma, hskip, expect_eq_none hne]⟩

/-! ## Things between commas -/

/-- Things with commas between them, up to a closing character that belongs to them. There may be a
comma after the last of them, too. -/
inductive Separated (close : Char) (element : Spelling α) : Spelling (List α)
  | nil {s t : List Char} (hclose : Blank s (close :: t)) : Separated close element [] s t
  | last {a : α} {s s₁ s₂ t : List Char} (hbefore : Blank s s₁) (ha : element a s₁ s₂)
      (hclose : Blank s₂ (close :: t)) : Separated close element [a] s t
  | cons {a : α} {as : List α} {s s₁ s₂ s₃ t : List Char} (hbefore : Blank s s₁)
      (ha : element a s₁ s₂) (hcomma : Blank s₂ (',' :: s₃))
      (has : Separated close element as s₃ t) : Separated close element (a :: as) s t

section

variable {close : Char} {element : Spelling α} {reader : Reader α} {as : List α} {s t : List Char}

/-- There may be more blanks before things. -/
theorem Separated.of_blank {s' : List Char} (hblank : Blank s s')
    (h : Separated close element as s' t) : Separated close element as s t := by
  cases h with
  | nil hclose => exact .nil (hblank.trans hclose)
  | last hbefore ha hclose => exact .last (hblank.trans hbefore) ha hclose
  | cons hbefore ha hcomma has => exact .cons (hblank.trans hbefore) ha hcomma has

/-- The first thing, or what closes them all, is not blank. -/
theorem Separated.exists_noBlank (hreads : Reads reader element) (hclose : Closes close)
    (h : Separated close element as s t) : ∃ s', Blank s s' ∧ NoBlank s' := by
  cases h with
  | nil h => exact ⟨_, h, hclose.noBlank _⟩
  | last hbefore ha _ | cons hbefore ha _ _ => exact ⟨_, hbefore, (hreads.opens ha).noBlank⟩

/-- Where the closing character comes at once there is nothing before it. -/
theorem Separated.of_close (hreads : Reads reader element) (hclose : Closes close)
    (h : Separated close element as (close :: s) t) : as = [] ∧ s = t := by
  have hfirst {s' : List Char} (hblank : Blank (close :: s) s') (hs' : NoBlank s') :
      close :: s = s' :=
    Option.some.inj ((skip_eq (.refl _) (hclose.noBlank s)).symm.trans (skip_eq hblank hs'))
  cases h with
  | nil h => exact ⟨rfl, (List.cons.inj (hfirst h (hclose.noBlank _))).2⟩
  | last hbefore ha _ | cons hbefore ha _ _ =>
    have hopens := hreads.opens ha
    rw [← hfirst hbefore hopens.noBlank] at hopens
    exact absurd rfl (hopens.head_ne hclose)

/-- Things are also read where the blanks in front of them have been skipped already. -/
theorem takes_separated (hreads : Reads reader element) (hclose : Closes close)
    (h : Separated close element as s t) {s' : List Char}
    (hs' : Skipping.skip .blank s' = Skipping.skip .blank s) :
    Takes (separated close reader) as s' t := by
  induction h generalizing s' with
  | @nil s t hnil =>
    obtain ⟨_, hskip⟩ := skipBlank_of_skip (hs'.trans (skip_eq hnil (hclose.noBlank _)))
    obtain ⟨_, hexpect⟩ := (takes_expect close t).eq
    rw [Takes, separated]
    simp [hskip, hexpect, Taken.map, Taken.weaken]
  | @last a s s₁ s₂ t hbefore ha hlast =>
    have hopens := hreads.opens ha
    obtain ⟨hlength, hskip⟩ := skipBlank_of_skip (hs'.trans (skip_eq hbefore hopens.noBlank))
    have hnone := expect_eq_none (hopens.head_ne hclose)
    obtain ⟨hshorter, hread⟩ := (hreads.takes ha).eq
    obtain ⟨_, hcomma⟩ := Taken.skipComma_of_ne
      (⟨a, s₂, Nat.lt_of_lt_of_le hshorter hlength⟩ : Taken α s') hlast (hclose.noBlank t)
      (hclose.head_ne t)
    obtain ⟨_, hexpect⟩ := (takes_expect close t).eq
    rw [Takes, separated]
    simp [hskip, hnone, Skipped.take, hread, Taken.weaken, hcomma, hexpect, Taken.combine]
  | @cons a as s s₁ s₂ s₃ t hbefore ha hcomma has ih =>
    have hopens := hreads.opens ha
    obtain ⟨hlength, hskip⟩ := skipBlank_of_skip (hs'.trans (skip_eq hbefore hopens.noBlank))
    have hnone := expect_eq_none (hopens.head_ne hclose)
    obtain ⟨hshorter, hread⟩ := (hreads.takes ha).eq
    obtain ⟨s₃', hblank, hno⟩ := has.exists_noBlank hreads hclose
    obtain ⟨_, hcomma⟩ := Taken.skipComma_of_comma
      (⟨a, s₂, Nat.lt_of_lt_of_le hshorter hlength⟩ : Taken α s') hcomma hblank hno
    obtain ⟨_, hrest⟩ := (ih (Skipping.skip_of_blank hblank).symm).eq
    rw [Takes, separated]
    simp [hskip, hnone, Skipped.take, hread, Taken.weaken, hcomma, Taken.combine, hrest]

end

end SchemaLayout.Ron
