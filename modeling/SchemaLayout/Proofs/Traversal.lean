import Mathlib.Data.List.Forall2

/-!
# Traversals that may fail

A function that may fail is applied to the elements of a list or vector in order, and the first
failure ends the traversal. It succeeds exactly if the function succeeds on every element, and then
yields what the function yields there.
-/

namespace SchemaLayout.Traversal

variable {ε α β : Type} {f : α → Except ε β}

theorem bind_eq_ok_iff {x : Except ε α} {g : α → Except ε β} {b : β} :
    (x >>= g) = .ok b ↔ ∃ a, x = .ok a ∧ g a = .ok b := by
  cases x with
  | error e =>
    constructor
    · intro h
      cases h
    · rintro ⟨a, ha, -⟩
      cases ha
  | ok a =>
    constructor
    · intro h
      exact ⟨a, rfl, h⟩
    · rintro ⟨a', ha, h⟩
      cases ha
      exact h

theorem mapError_eq_ok_iff {ε' : Type} {g : ε → ε'} {x : Except ε α} {a : α} :
    x.mapError g = .ok a ↔ x = .ok a := by
  cases x <;> simp [Except.mapError]

theorem bind_eq_error_iff {x : Except ε α} {g : α → Except ε β} {e : ε} :
    (x >>= g) = .error e ↔ x = .error e ∨ ∃ a, x = .ok a ∧ g a = .error e := by
  cases x with
  | error e' =>
    constructor
    · intro h
      cases h
      exact .inl rfl
    · rintro (h | ⟨a, ha, -⟩)
      · cases h
        rfl
      · cases ha
  | ok a =>
    constructor
    · intro h
      exact .inr ⟨a, rfl, h⟩
    · rintro (h | ⟨a', ha, h⟩)
      · cases h
      · cases ha
        exact h

theorem mapError_eq_error_iff {ε' : Type} {g : ε → ε'} {x : Except ε α} {e' : ε'} :
    x.mapError g = .error e' ↔ ∃ e, x = .error e ∧ g e = e' := by
  cases x <;> simp [Except.mapError]

theorem map_eq_ok_iff {g : α → β} {x : Except ε α} {b : β} :
    x.map g = .ok b ↔ ∃ a, x = .ok a ∧ g a = b := by
  cases x <;> simp [Except.map]

theorem map_eq_error_iff {g : α → β} {x : Except ε α} {e : ε} :
    x.map g = .error e ↔ x = .error e := by
  cases x <;> simp [Except.map]

theorem toOption_eq_some_iff {x : Except ε α} {a : α} : x.toOption = some a ↔ x = .ok a := by
  cases x <;> simp [Except.toOption]

/-- What every step of a fold keeps holds in the end. -/
theorem foldlM_induction {step : β → α → Except ε β} {P : β → Prop}
    (hstep : ∀ {b a b'}, P b → step b a = .ok b' → P b') {xs : List α} {b b' : β} (hb : P b)
    (h : xs.foldlM step b = .ok b') : P b' := by
  induction xs generalizing b with
  | nil =>
    cases h
    exact hb
  | cons x xs ih =>
    rw [List.foldlM_cons, bind_eq_ok_iff] at h
    obtain ⟨next, hnext, h⟩ := h
    exact ih (hstep hb hnext) h

theorem foldlM_concat_eq_ok_iff {step : β → α → Except ε β} {xs : List α} {x : α} {b b' : β} :
    (xs ++ [x]).foldlM step b = .ok b' ↔
      ∃ mid, xs.foldlM step b = .ok mid ∧ step mid x = .ok b' := by
  rw [List.foldlM_append, bind_eq_ok_iff]
  refine exists_congr fun mid => and_congr_right fun _ => ?_
  rw [List.foldlM_cons, bind_eq_ok_iff]
  constructor
  · rintro ⟨last, hlast, h⟩
    cases h
    exact hlast
  · intro h
    exact ⟨b', h, rfl⟩

/-- A fold fails at one element, after it has succeeded on all elements before. -/
theorem foldlM_eq_error_iff {step : β → α → Except ε β} {xs : List α} {b : β} {e : ε} :
    xs.foldlM step b = .error e ↔ ∃ before x after b', xs = before ++ x :: after ∧
      before.foldlM step b = .ok b' ∧ step b' x = .error e := by
  constructor
  · induction xs generalizing b with
    | nil =>
      intro h
      cases h
    | cons x xs ih =>
      intro h
      rw [List.foldlM_cons, bind_eq_error_iff] at h
      obtain hx | ⟨next, hnext, hrest⟩ := h
      · exact ⟨[], x, xs, b, rfl, rfl, hx⟩
      · obtain ⟨before, y, after, b', rfl, hbefore, hy⟩ := ih hrest
        refine ⟨x :: before, y, after, b', rfl, ?_, hy⟩
        rw [List.foldlM_cons]
        exact bind_eq_ok_iff.mpr ⟨next, hnext, hbefore⟩
  · rintro ⟨before, x, after, b', rfl, hbefore, hx⟩
    rw [List.foldlM_append]
    refine bind_eq_error_iff.mpr (.inr ⟨b', hbefore, ?_⟩)
    rw [List.foldlM_cons]
    exact bind_eq_error_iff.mpr (.inl hx)

theorem mapM_eq_ok_iff {xs : List α} {ys : List β} :
    xs.mapM f = .ok ys ↔ List.Forall₂ (fun x y => f x = .ok y) xs ys := by
  induction xs generalizing ys with
  | nil =>
    rw [List.mapM_nil, List.forall₂_nil_left_iff]
    constructor
    · intro h
      cases h
      rfl
    · rintro rfl
      rfl
  | cons x xs ih =>
    rw [List.mapM_cons, List.forall₂_cons_left_iff, bind_eq_ok_iff]
    constructor
    · rintro ⟨y, hy, h⟩
      obtain ⟨rest, hrest, h⟩ := bind_eq_ok_iff.mp h
      cases h
      exact ⟨y, rest, hy, ih.mp hrest, rfl⟩
    · rintro ⟨y, rest, hy, hrest, rfl⟩
      exact ⟨y, hy, bind_eq_ok_iff.mpr ⟨rest, ih.mpr hrest, rfl⟩⟩

/-- The first element of a list that has a property. -/
structure IsFirst (P : α → Prop) (xs : List α) (x : α) : Prop where
  split : ∃ before after, xs = before ++ x :: after ∧ ∀ y ∈ before, ¬ P y
  holds : P x

theorem IsFirst.mem {P : α → Prop} {xs : List α} {x : α} (h : IsFirst P xs x) : x ∈ xs := by
  obtain ⟨before, after, rfl, -⟩ := h.split
  exact List.mem_append_right before List.mem_cons_self

/-- Being the first depends on the elements of the list only. -/
theorem IsFirst.congr {P Q : α → Prop} {xs : List α} {x : α} (h : IsFirst P xs x)
    (hPQ : ∀ y ∈ xs, P y ↔ Q y) : IsFirst Q xs x := by
  have hx := (hPQ x h.mem).mp h.holds
  obtain ⟨before, after, rfl, hbefore⟩ := h.split
  refine ⟨⟨before, after, rfl, fun y hy hQ => hbefore y hy ?_⟩, hx⟩
  exact (hPQ y (List.mem_append_left _ hy)).mpr hQ

theorem isFirst_cons_iff {P : α → Prop} {xs : List α} {x y : α} :
    IsFirst P (y :: xs) x ↔ P y ∧ y = x ∨ ¬ P y ∧ IsFirst P xs x := by
  constructor
  · rintro ⟨⟨before, after, hxs, hbefore⟩, hx⟩
    cases before with
    | nil =>
      cases hxs
      exact .inl ⟨hx, rfl⟩
    | cons z before =>
      cases hxs
      refine .inr ⟨hbefore y List.mem_cons_self, ⟨before, after, rfl, fun z hz => ?_⟩, hx⟩
      exact hbefore z (List.mem_cons_of_mem y hz)
  · rintro (⟨hy, rfl⟩ | ⟨hy, ⟨before, after, rfl, hbefore⟩, hx⟩)
    · exact ⟨⟨[], xs, rfl, fun z hz => absurd hz List.not_mem_nil⟩, hy⟩
    · exact ⟨⟨y :: before, after, rfl, List.forall_mem_cons.mpr ⟨hy, hbefore⟩⟩, hx⟩

theorem not_isFirst_nil {P : α → Prop} {x : α} : ¬ IsFirst P [] x := by
  intro h
  exact List.not_mem_nil h.mem

/-- The first element of two lists is the first of the second only if the first has none. -/
theorem isFirst_append_iff {P : α → Prop} {xs ys : List α} {x : α} :
    IsFirst P (xs ++ ys) x ↔ IsFirst P xs x ∨ (∀ y ∈ xs, ¬ P y) ∧ IsFirst P ys x := by
  induction xs with
  | nil => simp [not_isFirst_nil]
  | cons y xs ih =>
    rw [List.cons_append, isFirst_cons_iff, isFirst_cons_iff, ih, List.forall_mem_cons]
    tauto

/-- The first image with a property is the image of the first element whose image has it. -/
theorem isFirst_map_iff {P : β → Prop} {g : α → β} {xs : List α} {y : β} :
    IsFirst P (xs.map g) y ↔ ∃ x, IsFirst (fun x => P (g x)) xs x ∧ g x = y := by
  induction xs with
  | nil => simp [not_isFirst_nil]
  | cons x xs ih =>
    simp only [List.map_cons, isFirst_cons_iff, ih]
    constructor
    · rintro (⟨hx, rfl⟩ | ⟨hx, z, hz, rfl⟩)
      · exact ⟨x, .inl ⟨hx, rfl⟩, rfl⟩
      · exact ⟨z, .inr ⟨hx, hz⟩, rfl⟩
    · rintro ⟨z, ⟨hx, rfl⟩ | ⟨hx, hz⟩, rfl⟩
      · exact .inl ⟨hx, rfl⟩
      · exact .inr ⟨hx, z, hz, rfl⟩

/-- If any element of a list has a property, one of them is the first. -/
theorem exists_isFirst {P : α → Prop} {xs : List α} {x : α} (hx : x ∈ xs) (h : P x) :
    ∃ y, IsFirst P xs y := by
  induction xs with
  | nil => exact absurd hx List.not_mem_nil
  | cons y xs ih =>
    simp only [isFirst_cons_iff]
    by_cases hy : P y
    · exact ⟨y, .inl ⟨hy, rfl⟩⟩
    · rcases List.mem_cons.mp hx with rfl | hmem
      · exact absurd h hy
      · obtain ⟨z, hz⟩ := ih hmem
        exact ⟨z, .inr ⟨hy, hz⟩⟩

/-- A traversal fails as the function does on the first element on which it fails. -/
theorem mapM_eq_error_iff {xs : List α} {e : ε} :
    xs.mapM f = .error e ↔ ∃ x, IsFirst (fun x => ∃ e, f x = .error e) xs x ∧ f x = .error e := by
  induction xs with
  | nil =>
    rw [List.mapM_nil]
    constructor
    · intro h
      cases h
    · rintro ⟨x, hfirst, -⟩
      exact absurd hfirst not_isFirst_nil
  | cons x xs ih =>
    simp only [List.mapM_cons, bind_eq_error_iff, isFirst_cons_iff]
    constructor
    · rintro (hx | ⟨y, hy, hrest | ⟨ys, -, hreturn⟩⟩)
      · exact ⟨x, .inl ⟨⟨e, hx⟩, rfl⟩, hx⟩
      · obtain ⟨z, hfirst, hz⟩ := ih.mp hrest
        refine ⟨z, .inr ⟨?_, hfirst⟩, hz⟩
        rintro ⟨e', he'⟩
        cases hy.symm.trans he'
      · cases hreturn
    · rintro ⟨z, ⟨-, rfl⟩ | ⟨hx, hfirst⟩, hz⟩
      · exact .inl hz
      · cases hfx : f x with
        | error e' => exact absurd ⟨e', hfx⟩ hx
        | ok y => exact .inr ⟨y, rfl, .inl (ih.mpr ⟨z, hfirst, hz⟩)⟩

/-- What a traversal yields comes from an element of the list. -/
theorem exists_of_mem_mapM {xs : List α} {ys : List β} (h : xs.mapM f = .ok ys) {y : β}
    (hy : y ∈ ys) : ∃ x ∈ xs, f x = .ok y := by
  obtain ⟨hlength, hget⟩ := List.forall₂_iff_get.mp (mapM_eq_ok_iff.mp h)
  obtain ⟨i, rfl⟩ := List.mem_iff_get.mp hy
  have hi : i.val < xs.length := hlength.symm ▸ i.isLt
  exact ⟨xs.get ⟨i, hi⟩, List.get_mem xs ⟨i, hi⟩, hget i hi i.isLt⟩

/-- A function that is defined on all elements of a list keeps none of them out. -/
theorem forall₂_filterMap {g : α → Option β} {r : α → β → Prop} {xs : List α}
    (h : ∀ x ∈ xs, ∃ y, g x = some y ∧ r x y) : List.Forall₂ r xs (xs.filterMap g) := by
  induction xs with
  | nil => exact .nil
  | cons x xs ih =>
    obtain ⟨y, hy, hr⟩ := h x List.mem_cons_self
    rw [List.filterMap_cons_some hy]
    exact .cons hr (ih fun z hz => h z (List.mem_cons_of_mem x hz))

/-- The traversal of a vector is that of its list of elements. -/
theorem toList_vectorMapM {n : Nat} (f : α → Except ε β) (xs : Vector α n) :
    Vector.toList <$> xs.mapM f = xs.toList.mapM f := by
  -- the traversal of an array is known to be that of its list, and a vector is an array
  have harray : Vector.toArray <$> xs.mapM f = List.toArray <$> xs.toList.mapM f := by
    rw [Vector.toArray_mapM, Array.mapM_eq_mapM_toList]
    rfl
  calc Vector.toList <$> xs.mapM f
      = Array.toList <$> (Vector.toArray <$> xs.mapM f) := by rw [Functor.map_map]; rfl
    _ = Array.toList <$> (List.toArray <$> xs.toList.mapM f) := by rw [harray]
    _ = xs.toList.mapM f := by rw [Functor.map_map, id_map']

theorem vectorMapM_eq_error_iff {n : Nat} {xs : Vector α n} {e : ε} :
    xs.mapM f = .error e ↔ xs.toList.mapM f = .error e := by
  rw [← toList_vectorMapM]
  cases xs.mapM f with
  | error e' =>
    show Except.error e' = .error e ↔ Except.error e' = .error e
    rw [Except.error.injEq, Except.error.injEq]
  | ok ys =>
    constructor
    · intro h
      cases h
    · intro h
      cases h

theorem vectorMapM_eq_ok_iff {n : Nat} {xs : Vector α n} {ys : Vector β n} :
    xs.mapM f = .ok ys ↔ ∀ i, f (xs.get i) = .ok (ys.get i) := by
  have hlist : xs.mapM f = .ok ys ↔ xs.toList.mapM f = .ok ys.toList := by
    rw [← toList_vectorMapM]
    cases xs.mapM f with
    | error e =>
      constructor
      · intro h
        cases h
      · intro h
        cases h
    | ok zs =>
      show Except.ok zs = .ok ys ↔ Except.ok zs.toList = .ok ys.toList
      rw [Except.ok.injEq, Except.ok.injEq, Vector.toList_inj]
  rw [hlist, mapM_eq_ok_iff, List.forall₂_iff_get]
  constructor
  · rintro ⟨-, h⟩ i
    exact h i (by simp) (by simp)
  · intro h
    refine ⟨by simp, fun i hi _ => ?_⟩
    exact h ⟨i, by simpa using hi⟩

end SchemaLayout.Traversal
