import SchemaLayout.Proofs.Ron.Value

/-!
# What files look like

A file may begin with attributes that switch on extensions of the format. One value stands after
them, with blanks and comments around everything. Each text of this form is read as a file that
holds that value (`File.parse_eq`).
-/

namespace SchemaLayout.Ron

/-! ## Attributes -/

/-- The name of an extension. -/
inductive ExtensionName : Spelling Extension
  | mk {name : String} {extension : Extension} {s t : List Char} (hname : Identifier name s t)
      (hextension : Extension.ofName? name = some extension) : ExtensionName extension s t

/-- An attribute that switches on some extensions, with the blanks after it. -/
inductive Attribute : Spelling (List Extension)
  | mk {extensions : List Extension} {s s₁ s₂ s₃ s₄ s₅ s₆ t : List Char}
      (hmark : Blank s ('!' :: s₁)) (hopen : Blank s₁ ('[' :: s₂))
      (henable : Blank s₂ ("enable".toList ++ s₃)) (hparenthesis : Blank s₃ ('(' :: s₄))
      (hne : extensions ≠ []) (h : Separated ')' ExtensionName extensions s₄ s₅)
      (hclose : Blank s₅ (']' :: s₆)) (hafter : Blank s₆ t) (ht : NoBlank t) :
      Attribute extensions ('#' :: s) t

/-- Any number of attributes. -/
inductive Attributes : Spelling (List Extension)
  | nil (s : List Char) : Attributes [] s s
  | cons {first more : List Extension} {s s₁ t : List Char} (hfirst : Attribute first s s₁)
      (hmore : Attributes more s₁ t) : Attributes (first ++ more) s t

/-- A file that holds a value. -/
inductive File (v : Value) (file : String) : Prop
  | mk {extensions : List Extension} {s₁ s₂ s₃ : List Char} (hbefore : Blank file.toList s₁)
      (hextensions : Attributes extensions s₁ s₂)
      (hv : SpelledValue (extensions.contains .implicitSome) depthBudget v s₂ s₃)
      (hafter : Blank s₃ [])

/-! ## Reading attributes -/

theorem reads_extension : Reads extension ExtensionName where
  takes h := by
    cases h with
    | mk hname hextension =>
      obtain ⟨_, hidentifier⟩ := (takes_identifier hname).eq
      simp [Takes, extension, hidentifier, hextension, Taken.map]
  opens h := by
    cases h with
    | mk hname _ => exact reads_identifier.opens hname

variable {α β : Type} {extensions : List Extension} {s t : List Char}

/-- After something taken, something else is taken. -/
theorem Taken.next_eq {reader : Reader β} {a : α} {b : β} {s u t : List Char}
    (hshorter : u.length < s.length) (h : Takes reader b u t) :
    ∃ hshorter', (⟨a, u, hshorter⟩ : Taken α s).next reader = some ⟨b, t, hshorter'⟩ := by
  obtain ⟨hlater, hread⟩ := h.eq
  exact ⟨hlater.trans hshorter, by simp [Taken.next, hread, Taken.combine]⟩

/-- After something taken, a word is taken letter by letter. -/
theorem foldlM_next_eq (letters : List Char) {s u : List Char}
    (hshorter : (letters ++ u).length < s.length) :
    ∃ hshorter', letters.foldlM (fun taken c => taken.next (expect c))
      (⟨(), letters ++ u, hshorter⟩ : Taken Unit s) = some ⟨(), u, hshorter'⟩ := by
  induction letters with
  | nil => exact ⟨hshorter, rfl⟩
  | cons c letters ih =>
    obtain ⟨hshorter', hnext⟩ := Taken.next_eq (a := ()) hshorter (takes_expect c (letters ++ u))
    obtain ⟨hlater, hrest⟩ := ih hshorter'
    refine ⟨hlater, ?_⟩
    rw [List.foldlM_cons, hnext]
    exact hrest

theorem takes_extensionAttribute (h : Attribute extensions s t) :
    Takes extensionAttribute extensions s t := by
  cases h with
  | @mk _ s s₁ s₂ s₃ s₄ s₅ s₆ t hmark hopen henable hparenthesis hne h hclose hafter ht =>
    have hno {c : Char} {u : List Char} (hc : (isBlank c || c == '/') = false) :
        NoBlank (c :: u) :=
      noBlank_cons.mpr (by simpa using hc)
    obtain ⟨_, hhash⟩ := (takes_expectSpaced (.refl ('#' :: s)) (by decide) hmark (hno rfl)).eq
    obtain ⟨_, hexclamation⟩ := Taken.next_eq (a := ()) ‹_›
      (takes_expectSpaced (.refl _) (by decide) hopen (hno rfl))
    obtain ⟨_, hbracket⟩ := Taken.next_eq (a := ()) ‹_›
      (takes_expectSpaced (.refl _) (by decide) henable (hno rfl))
    obtain ⟨_, hword⟩ := foldlM_next_eq "enable".toList ‹_›
    obtain ⟨s', hblank, hs'⟩ := h.exists_noBlank reads_extension (by decide)
    obtain ⟨_, hopened⟩ := Taken.next_eq (a := ()) ‹_›
      (takes_expectSpaced hparenthesis (by decide) hblank hs')
    obtain ⟨_, hextensions⟩ := Taken.next_eq (a := ()) ‹_›
      (takes_separated reads_extension (by decide) h (Skipping.skip_of_blank hblank).symm)
    obtain ⟨_, hclosed⟩ := Taken.next_eq (a := extensions) ‹_›
      (takes_expectSpaced hclose (by decide) hafter ht)
    rw [Takes, extensionAttribute]
    generalize "enable".toList = letters at *
    simp [hhash, hexclamation, hbracket, hword, hopened, hextensions, hclosed, hne, Taken.map]

theorem Attributes.noBlank (h : Attributes extensions s t) (ht : NoBlank t) : NoBlank s := by
  cases h with
  | nil _ => exact ht
  | cons hfirst _ =>
    cases hfirst
    exact noBlank_cons.mpr (by decide)

theorem extensions_eq (h : Attributes extensions s t) (ht : t.head? ≠ some '#') :
    Ron.extensions s = some (extensions, t) := by
  induction h with
  | nil s => rw [Ron.extensions, if_neg ht]
  | @cons first more s s₁ t hfirst hmore ih =>
    obtain ⟨_, hattribute⟩ := (takes_extensionAttribute hfirst).eq
    have hhead : s.head? = some '#' := by cases hfirst; rfl
    rw [Ron.extensions, if_pos hhead]
    simp [hattribute, ih ht]

/-! ## Reading files -/

/-- A file is read as what it holds. -/
theorem File.parse_eq {v : Value} {file : String} (h : File v file) : parse file = some v := by
  cases h with
  | @mk extensions s₁ s₂ s₃ hbefore hextensions hv hafter =>
    have hreads := readsValue_value (extensions.contains .implicitSome) depthBudget
    have hopens := hreads.opens hv
    obtain ⟨_, hskip⟩ := skipBlank_eq hbefore (hextensions.noBlank hopens.noBlank)
    have hattributes := extensions_eq hextensions hopens.head_ne_hash
    obtain ⟨hshorter, hread⟩ := (hreads.takes hv).eq
    obtain ⟨_, hlast⟩ := Taken.skipBlank_eq (⟨v, s₃, hshorter⟩ : Taken Value s₂) hafter noBlank_nil
    simp [parse, hskip, hattributes, hread, hlast, -List.contains_eq_mem]

end SchemaLayout.Ron
