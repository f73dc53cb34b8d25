import SchemaLayout.Ron.Text
import Mathlib.Data.Nat.Digits.Defs

/-!
# Digits

What a row of digits of a base stands for, where underscores and the like are passed over, and that
the digits with which a number is written stand for that number.
-/

namespace SchemaLayout.Ron

/-- The number that digits of a base stand for if digits that stand for `n` come before them. -/
def digitsFrom (base n : Nat) (digits : List Char) : Nat :=
  (digits.filterMap hexDigit?).foldl (fun n d => base * n + d) n

/-- The number that digits of a base stand for. -/
def digitsValue (base : Nat) (digits : List Char) : Nat := digitsFrom base 0 digits

/-- A digit of a base. -/
def IsDigitOf (base : Nat) (c : Char) : Prop := ∃ d < base, hexDigit? c = some d

theorem hexDigit?_digitChar {d : Nat} (h : d < 16) : hexDigit? d.digitChar = some d := by
  have : ∀ d : Fin 16, hexDigit? (d : Nat).digitChar = some d.val := by decide
  exact this ⟨d, h⟩

variable {base : Nat}

theorem digitsFrom_cons_some {c : Char} {d : Nat} (hc : hexDigit? c = some d) (n : Nat)
    (digits : List Char) :
    digitsFrom base n (c :: digits) = digitsFrom base (base * n + d) digits := by
  simp [digitsFrom, hc]

theorem digitsFrom_cons_none {c : Char} (hc : hexDigit? c = none) (n : Nat)
    (digits : List Char) : digitsFrom base n (c :: digits) = digitsFrom base n digits := by
  simp [digitsFrom, hc]

/-- More digits do not make a number smaller. -/
theorem le_digitsFrom (hbase : 1 ≤ base) (n : Nat) (digits : List Char) :
    n ≤ digitsFrom base n digits := by
  induction digits generalizing n with
  | nil => exact le_refl n
  | cons c digits ih =>
    cases hc : hexDigit? c with
    | none =>
      rw [digitsFrom_cons_none hc]
      exact ih n
    | some d =>
      rw [digitsFrom_cons_some hc]
      calc n ≤ base * n := Nat.le_mul_of_pos_left n hbase
        _ ≤ base * n + d := Nat.le_add_right _ _
        _ ≤ _ := ih _

/-- Zeros before the digits of a number do not count. -/
theorem digitsValue_leftpad (length : Nat) (digits : List Char) :
    digitsValue base (digits.leftpad length '0') = digitsValue base digits := by
  unfold List.leftpad digitsValue
  induction length - digits.length with
  | zero => rfl
  | succ count ih =>
    rw [List.replicate_succ, List.cons_append, digitsFrom_cons_some (d := 0) (by decide), mul_zero,
      add_zero]
    exact ih

section

variable (hlow : 1 < base) (hhigh : base ≤ 16)

include hlow hhigh

theorem isDigitOf_of_mem_toDigits (n : Nat) : ∀ c ∈ Nat.toDigits base n, IsDigitOf base c := by
  induction n using Nat.strong_induction_on with
  | _ n ih =>
    rcases lt_or_ge n base with hn | hn
    · rw [Nat.toDigits_of_lt_base hn, List.forall_mem_singleton]
      exact ⟨n, hn, hexDigit?_digitChar (hn.trans_le hhigh)⟩
    · rw [Nat.toDigits_of_base_le hlow hn, List.forall_mem_append, List.forall_mem_singleton]
      have hmod : n % base < base := Nat.mod_lt n (by omega)
      exact ⟨ih (n / base) (Nat.div_lt_self (by omega) hlow),
        n % base, hmod, hexDigit?_digitChar (hmod.trans_le hhigh)⟩

/-- The digits of a number stand for it. -/
theorem digitsValue_toDigits (n : Nat) : digitsValue base (Nat.toDigits base n) = n := by
  induction n using Nat.strong_induction_on with
  | _ n ih =>
    rcases lt_or_ge n base with hn | hn
    · rw [Nat.toDigits_of_lt_base hn]
      simp [digitsValue, digitsFrom, hexDigit?_digitChar (hn.trans_le hhigh)]
    · have hmod : n % base < 16 := (Nat.mod_lt n (by omega)).trans_le hhigh
      have hrest := ih (n / base) (Nat.div_lt_self (by omega) hlow)
      rw [Nat.toDigits_of_base_le hlow hn]
      simp only [digitsValue, digitsFrom] at hrest ⊢
      rw [List.filterMap_append, List.foldl_append, hrest]
      simpa [hexDigit?_digitChar hmod] using Nat.div_add_mod n base

end

end SchemaLayout.Ron
