import Mathlib.FieldTheory.Finite.Basic
import Mathlib.LinearAlgebra.Lagrange

/-!
# Threshold secret sharing over a field

The dealer hides a secret as the constant term of a polynomial and hands out its
values. Interpolation at zero recovers the secret from enough values; too few
values are equally compatible with every secret.

## Main results

* `interpolateZero_share` — enough shares determine the secret.
* `share_shiftedCoefficients` — a bijection of the dealer's coefficients replaces the
  secret by any other and moves no share of a set below the threshold.
* `card_interpolateZero_eq` — too few shares, filled up with other points, give back
  every value equally often.
-/

namespace SecretSharing

open Finset Polynomial

variable {F : Type*} [Field F]

/-- The share at `x` of the secret `s` under the coefficients `c` of the powers
from one upwards. -/
def share {d : ℕ} (s : F) (c : Fin d → F) (x : F) : F :=
  s + ∑ k, c k * x ^ (k.val + 1)

/-- The dealer's polynomial. -/
noncomputable def dealer {d : ℕ} (s : F) (c : Fin d → F) : F[X] :=
  C s + ∑ k, C (c k) * X ^ (k.val + 1)

@[simp] theorem eval_dealer {d : ℕ} (s : F) (c : Fin d → F) (x : F) :
    (dealer s c).eval x = share s c x := by
  simp [dealer, share, eval_finsetSum]

@[simp] theorem share_zero {d : ℕ} (s : F) (c : Fin d → F) : share s c 0 = s := by
  simp [share]

theorem degree_dealer_lt {d : ℕ} (s : F) (c : Fin d → F) :
    (dealer s c).degree < (d + 1 : ℕ) := by
  refine (degree_add_le _ _).trans_lt (max_lt ?_ ?_)
  · exact degree_C_le.trans_lt (by exact_mod_cast d.succ_pos)
  · refine (degree_sum_le _ _).trans_lt ((Finset.sup_lt_iff
      (by exact_mod_cast WithBot.bot_lt_coe _)).mpr ?_)
    intro k _
    refine (degree_C_mul_X_pow_le _ _).trans_lt ?_
    exact_mod_cast Nat.succ_lt_succ k.isLt

/-! ## Reconstruction -/

/-- The value at zero of the polynomial of least degree through the given points. -/
def interpolateZero {n : ℕ} (x y : Fin n → F) : F :=
  ∑ i, y i * ∏ j ∈ univ.erase i, (0 - x j) * (x i - x j)⁻¹

theorem interpolateZero_eval {n : ℕ} {x : Fin n → F} (hx : Function.Injective x)
    (p : F[X]) (hp : p.degree < n) :
    interpolateZero x (fun i => p.eval (x i)) = p.eval 0 := by
  have hcard : p.degree < (univ : Finset (Fin n)).card := by simpa using hp
  have hinterp := Lagrange.eq_interpolate (s := univ) (v := x) hx.injOn hcard
  conv_rhs => rw [hinterp]
  simp only [Lagrange.interpolate_apply, eval_finsetSum, eval_mul, eval_C, interpolateZero,
    Lagrange.basis, eval_prod, Lagrange.basisDivisor, eval_sub, eval_X]
  refine Finset.sum_congr rfl fun i _ => congrArg _ (Finset.prod_congr rfl fun j _ => ?_)
  exact mul_comm _ _

/-- Any shares at pairwise distinct points, at least one more than there are random
coefficients, give back the secret. -/
theorem interpolateZero_share {n d : ℕ} {x : Fin n → F} (hx : Function.Injective x)
    (hn : d < n) (s : F) (c : Fin d → F) :
    interpolateZero x (fun i => share s c (x i)) = s := by
  have hdeg : (dealer s c).degree < n :=
    (degree_dealer_lt s c).trans_le (by exact_mod_cast hn)
  simpa using interpolateZero_eval hx (dealer s c) hdeg

/-! ## Secrecy -/

/-- A polynomial that is `1` at zero and vanishes on the observed points. -/
noncomputable def mask (seen : Finset F) : F[X] := ∏ x ∈ seen, (1 - C x⁻¹ * X)

@[simp] theorem eval_mask_zero (seen : Finset F) : (mask seen).eval 0 = 1 := by
  simp [mask, eval_prod]

theorem eval_mask_of_mem {seen : Finset F} (h0 : (0 : F) ∉ seen) {x : F} (hx : x ∈ seen) :
    (mask seen).eval x = 0 := by
  have hne : x ≠ 0 := fun h => h0 (h ▸ hx)
  rw [mask, eval_prod]
  exact Finset.prod_eq_zero hx (by simp [hne])

theorem natDegree_mask_le (seen : Finset F) : (mask seen).natDegree ≤ seen.card := by
  refine (natDegree_prod_le _ _).trans ?_
  refine (Finset.sum_le_card_nsmul seen _ 1 fun x _ => ?_).trans (by simp)
  calc (1 - C x⁻¹ * X : F[X]).natDegree
      ≤ max (1 : F[X]).natDegree (C x⁻¹ * X : F[X]).natDegree := natDegree_sub_le _ _
    _ ≤ 1 := by
        have := natDegree_C_mul_X_pow_le x⁻¹ 1
        simp only [pow_one] at this
        simpa using this

/-- The coefficients of the mask above its constant term, as shares see them. -/
theorem sum_coeff_mask {d : ℕ} {seen : Finset F} (hseen : seen.card ≤ d) (x : F) :
    ∑ k : Fin d, (mask seen).coeff (k.val + 1) * x ^ (k.val + 1) = (mask seen).eval x - 1 := by
  have hlt : (mask seen).natDegree < d + 1 :=
    Nat.lt_succ_of_le ((natDegree_mask_le seen).trans hseen)
  have hconst : (mask seen).coeff 0 = 1 := by
    rw [coeff_zero_eq_eval_zero, eval_mask_zero]
  rw [eval_eq_sum_range' hlt, Finset.sum_range_succ', ← Fin.sum_univ_eq_sum_range
    (fun k => (mask seen).coeff (k + 1) * x ^ (k + 1)), hconst]
  simp

/-- Translate the coefficients by a multiple of the mask. Going back is the
translation by the opposite multiple. -/
noncomputable def shiftedCoefficients (d : ℕ) (seen : Finset F) (δ : F) :
    (Fin d → F) ≃ (Fin d → F) :=
  Equiv.addRight fun k => δ * (mask seen).coeff (k.val + 1)

/-- The translation trades the secret `s` for `s + δ` and no observed share moves. -/
theorem share_shiftedCoefficients {d : ℕ} {seen : Finset F} (h0 : (0 : F) ∉ seen)
    (hseen : seen.card ≤ d) (s δ : F) (c : Fin d → F) {x : F} (hx : x ∈ seen) :
    share (s + δ) (shiftedCoefficients d seen δ c) x = share s c x := by
  have hsum := sum_coeff_mask hseen x
  rw [eval_mask_of_mem h0 hx] at hsum
  have hsplit : ∑ k : Fin d, shiftedCoefficients d seen δ c k * x ^ (k.val + 1) =
      ∑ k, c k * x ^ (k.val + 1) +
        δ * ∑ k : Fin d, (mask seen).coeff (k.val + 1) * x ^ (k.val + 1) := by
    rw [Finset.mul_sum, ← Finset.sum_add_distrib]
    refine Finset.sum_congr rfl fun k _ => ?_
    simp only [shiftedCoefficients, Equiv.coe_addRight, Pi.add_apply]
    ring
  rw [share, share, hsplit, hsum]
  ring

/-! ## Incomplete sets

Shares of a sharing below its threshold, next to points from elsewhere. -/

/-- The weight of point `i` in the value at zero. -/
def weight {n : ℕ} (x : Fin n → F) (i : Fin n) : F :=
  ∏ j ∈ univ.erase i, (0 - x j) * (x i - x j)⁻¹

theorem interpolateZero_eq_sum {n : ℕ} (x y : Fin n → F) :
    interpolateZero x y = ∑ i, y i * weight x i := rfl

theorem weight_ne_zero {n : ℕ} {x : Fin n → F} (hx : Function.Injective x) (h0 : ∀ j, x j ≠ 0)
    (i : Fin n) : weight x i ≠ 0 := by
  refine Finset.prod_ne_zero_iff.mpr fun j hj => mul_ne_zero ?_ (inv_ne_zero ?_)
  · rw [zero_sub]
    exact neg_ne_zero.mpr (h0 j)
  · exact sub_ne_zero.mpr (hx.ne (ne_of_mem_erase hj).symm)

/-- One other value moves the value at zero by its weight. -/
theorem interpolateZero_update {n : ℕ} (x y : Fin n → F) (i : Fin n) (v : F) :
    interpolateZero x (Function.update y i v) = interpolateZero x y + (v - y i) * weight x i := by
  rw [interpolateZero_eq_sum, interpolateZero_eq_sum, ← Finset.add_sum_erase _ _ (mem_univ i),
    ← Finset.add_sum_erase univ (fun j => y j * weight x j) (mem_univ i), Function.update_self]
  have hrest : ∑ j ∈ univ.erase i, Function.update y i v j * weight x j =
      ∑ j ∈ univ.erase i, y j * weight x j :=
    Finset.sum_congr rfl fun j hj => by rw [Function.update_of_ne (ne_of_mem_erase hj)]
  rw [hrest]
  ring

/-- Coefficients exist that add given values to the shares of a set below the threshold. -/
theorem exists_coefficients [DecidableEq F] {d : ℕ} {seen : Finset F} (h0 : (0 : F) ∉ seen)
    (hseen : seen.card ≤ d) (value : F → F) :
    ∃ c : Fin d → F, ∀ x ∈ seen, ∑ k, c k * x ^ (k.val + 1) = value x := by
  let p : F[X] := Lagrange.interpolate seen id fun x => value x / x
  have hdegree : p.degree < d :=
    (Lagrange.degree_interpolate_lt _ Function.injective_id.injOn).trans_le
      (by exact_mod_cast hseen)
  refine ⟨fun k => p.coeff k, fun x hx => ?_⟩
  have hne : x ≠ 0 := fun h => h0 (h ▸ hx)
  have heval : p.eval x = value x / x :=
    Lagrange.eval_interpolate_at_node _ Function.injective_id.injOn hx
  have hsum : p.eval x = ∑ k : Fin d, p.coeff k * x ^ k.val := by
    rw [Fin.sum_univ_eq_sum_range (fun k => p.coeff k * x ^ k)]
    by_cases hzero : p = 0
    · simp [hzero]
    · exact eval_eq_sum_range' ((natDegree_lt_iff_degree_lt hzero).mpr hdegree) x
  calc ∑ k : Fin d, p.coeff k * x ^ (k.val + 1)
      = (∑ k : Fin d, p.coeff k * x ^ k.val) * x := by
        rw [Finset.sum_mul]
        exact Finset.sum_congr rfl fun k _ => by ring
    _ = value x := by rw [← hsum, heval, div_mul_cancel₀ _ hne]

/-- A map that some bijection of its domain moves by `δ`, for every `δ`, takes every value
equally often. -/
theorem card_fiber_mul_card {A : Type*} (f : A → F) (shift : F → A ≃ A)
    (hshift : ∀ δ a, f (shift δ a) = f a + δ) (v : F) :
    Nat.card {a // f a = v} * Nat.card F = Nat.card A := by
  have hfiber : ∀ w : F, {a // f a = w} ≃ {a // f a = v} := fun w =>
    (shift (v - w)).subtypeEquiv fun a => by
      rw [hshift, ← sub_eq_zero, ← sub_eq_zero (b := v)]
      ring_nf
  calc Nat.card {a // f a = v} * Nat.card F
      = Nat.card (Σ w, {a // f a = w}) := by
        rw [Nat.card_congr ((Equiv.sigmaCongrRight hfiber).trans (Equiv.sigmaEquivProd F _)),
          Nat.card_prod, mul_comm]
    _ = Nat.card A := Nat.card_congr (Equiv.sigmaFiberEquiv f)

/-- Add `δ` to the value at zero, through the shares of the points in `own`. -/
theorem exists_shift {n d : ℕ} {x : Fin n → F} (hx : Function.Injective x) (h0 : ∀ j, x j ≠ 0)
    {own : Finset (Fin n)} (hown : own.Nonempty) (hfew : own.card ≤ d) :
    ∃ u : Fin d → F, ∑ i ∈ own, (∑ k, u k * x i ^ (k.val + 1)) * weight x i = 1 := by
  classical
  obtain ⟨i₀, hi₀⟩ := hown
  have hzero : (0 : F) ∉ own.image x := fun h => by
    obtain ⟨j, -, hj⟩ := Finset.mem_image.mp h
    exact h0 j hj
  obtain ⟨u, hu⟩ := exists_coefficients hzero (Finset.card_image_le.trans hfew)
    fun a => if a = x i₀ then (weight x i₀)⁻¹ else 0
  refine ⟨u, ?_⟩
  rw [Finset.sum_eq_single_of_mem i₀ hi₀, hu _ (Finset.mem_image_of_mem x hi₀), if_pos rfl,
    inv_mul_cancel₀ (weight_ne_zero hx h0 i₀)]
  intro j hj hne
  rw [hu _ (Finset.mem_image_of_mem x hj), if_neg (hx.ne hne), zero_mul]

/-- The points of `own` hold shares of `s`, and all others what they like. -/
def mixed {n d : ℕ} (own : Finset (Fin n)) (x : Fin n → F) (other : Fin n → F) (s : F)
    (c : Fin d → F) (i : Fin n) : F :=
  if i ∈ own then share s c (x i) else other i

theorem interpolateZero_mixed_add {n d : ℕ} (own : Finset (Fin n)) (x other : Fin n → F) (s : F)
    (c u : Fin d → F) :
    interpolateZero x (mixed own x other s (c + u)) =
      interpolateZero x (mixed own x other s c) +
        ∑ i ∈ own, (∑ k, u k * x i ^ (k.val + 1)) * weight x i := by
  have hsum : ∑ i ∈ own, (∑ k, u k * x i ^ (k.val + 1)) * weight x i =
      ∑ i, if i ∈ own then (∑ k, u k * x i ^ (k.val + 1)) * weight x i else 0 := by
    rw [Finset.sum_ite_mem, Finset.univ_inter]
  rw [interpolateZero_eq_sum, interpolateZero_eq_sum, hsum, ← Finset.sum_add_distrib]
  refine Finset.sum_congr rfl fun i _ => ?_
  by_cases hi : i ∈ own
  · simp only [mixed, if_pos hi, share, Pi.add_apply, add_mul, Finset.sum_add_distrib]
    ring
  · simp only [mixed, if_neg hi, add_zero]

/-- At least one share, but fewer than the threshold asks for, and any points beside them:
every value comes back for the same number of coefficients. -/
theorem card_interpolateZero_eq {n d : ℕ} {x : Fin n → F} (hx : Function.Injective x)
    (h0 : ∀ j, x j ≠ 0) {own : Finset (Fin n)} (hown : own.Nonempty) (hfew : own.card ≤ d)
    (other : Fin n → F) (s v : F) :
    Nat.card {c : Fin d → F // interpolateZero x (mixed own x other s c) = v} * Nat.card F =
      Nat.card (Fin d → F) := by
  obtain ⟨u, hu⟩ := exists_shift hx h0 hown hfew
  refine card_fiber_mul_card _ (fun δ => Equiv.addRight (δ • u)) (fun δ c => ?_) v
  rw [Equiv.coe_addRight, interpolateZero_mixed_add]
  simp only [Pi.smul_apply, smul_eq_mul, mul_assoc]
  simp only [← Finset.mul_sum, mul_assoc] at hu ⊢
  rw [hu, mul_one]

end SecretSharing
