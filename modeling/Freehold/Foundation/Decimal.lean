import Mathlib.Tactic

/-!
# Decimal numerals of integers

The text that `std::to_string` and `operator<<` make of an integer.
-/

namespace Decimal

/-- The digits, with a sign before those of a negative number. -/
def ofInt (n : ℤ) : List Char :=
  if n < 0 then '-' :: Nat.toDigits 10 n.natAbs else Nat.toDigits 10 n.natAbs

variable {n m : ℤ} {c : Char}

theorem toList_toString (n : ℤ) : (toString n).toList = ofInt n := by
  cases n with
  | ofNat k =>
    have hk : ¬(Int.ofNat k < 0) := by simp
    rw [ofInt, if_neg hk]
    exact Nat.toList_repr
  | negSucc k =>
    rw [ofInt, if_pos (Int.negSucc_lt_zero k)]
    change ("-" ++ (k + 1).repr).toList = _
    rw [String.toList_append, Nat.toList_repr]
    rfl

theorem isDigit_of_mem_digits {k : ℕ} (hc : c ∈ Nat.toDigits 10 k) : c.isDigit :=
  Nat.isDigit_of_mem_toDigits (by norm_num) le_rfl hc

theorem digits_injective : Function.Injective (Nat.toDigits 10) := fun a b h => by
  have hvalue := congrArg (Nat.ofDigitChars 10 · 0) h
  simpa using hvalue

theorem eq_sign_or_isDigit (hc : c ∈ ofInt n) : c = '-' ∨ c.isDigit := by
  unfold ofInt at hc
  split at hc
  · rcases List.mem_cons.mp hc with hc | hc
    · exact .inl hc
    · exact .inr (isDigit_of_mem_digits hc)
  · exact .inr (isDigit_of_mem_digits hc)

theorem notMem_ofInt (hsign : c ≠ '-') (hdigit : c.isDigit = false) : c ∉ ofInt n := by
  intro hc
  rcases eq_sign_or_isDigit hc with h | h
  · exact hsign h
  · rw [hdigit] at h
    cases h

/-- Digits do not start with a sign. -/
theorem digits_ne_sign_cons (k : ℕ) (cs : List Char) : Nat.toDigits 10 k ≠ '-' :: cs := by
  intro h
  have hdigit := isDigit_of_mem_digits (c := '-') (k := k) (by rw [h]; exact List.mem_cons_self)
  exact absurd hdigit (by decide)

/-- There is no leading zero. -/
theorem head?_digits {k : ℕ} (hk : 0 < k) : (Nat.toDigits 10 k).head? ≠ some '0' := by
  induction k using Nat.strong_induction_on with
  | _ k ih =>
    by_cases hsmall : k < 10
    · rw [Nat.toDigits_of_lt_base hsmall, List.head?_singleton, Ne, Option.some.injEq,
        Nat.digitChar_eq_zero]
      omega
    · rw [Nat.toDigits_of_base_le (by norm_num) (by omega),
        List.head?_append_of_ne_nil _ Nat.toDigits_ne_nil]
      exact ih (k / 10) (by omega) (by omega)

theorem ofInt_injective : Function.Injective ofInt := by
  intro n m h
  unfold ofInt at h
  split at h <;> split at h
  · have := digits_injective (List.cons.inj h).2
    omega
  · exact absurd h.symm (digits_ne_sign_cons _ _)
  · exact absurd h (digits_ne_sign_cons _ _)
  · have := digits_injective h
    omega

end Decimal
