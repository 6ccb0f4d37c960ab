import Mathlib.Data.List.Basic
import Mathlib.Tactic

/-!
# A list in pieces

What is left of the pieces of a list behind a position, and where a piece ends.

## Main results

* `exists_advance` — what is left begins with the rest of the piece around the position.
-/

namespace Pieces

variable {α : Type} {pieces : List (List α)} {n : ℕ}

/-- What is left of the pieces behind `n` elements. -/
def advance : ℕ → List (List α) → List (List α)
  | _, [] => []
  | n, d :: ds => if n < d.length then d.drop n :: ds else advance (n - d.length) ds

/-- A piece ends behind `n` elements. -/
def Cut (pieces : List (List α)) (n : ℕ) : Prop := ∃ k, (pieces.take k).flatten.length = n

theorem advance_zero (hne : ∀ d ∈ pieces, d ≠ []) : advance 0 pieces = pieces := by
  cases pieces with
  | nil => rfl
  | cons d ds =>
    have hd : 0 < d.length := List.length_pos_iff.mpr (hne d List.mem_cons_self)
    rw [advance, if_pos hd, List.drop_zero]

theorem advance_of_le (hn : pieces.flatten.length ≤ n) : advance n pieces = [] := by
  induction pieces generalizing n with
  | nil => rfl
  | cons d ds ih =>
    rw [List.flatten_cons, List.length_append] at hn
    rw [advance, if_neg (by omega)]
    exact ih (by omega)

theorem flatten_advance (n : ℕ) (pieces : List (List α)) :
    (advance n pieces).flatten = pieces.flatten.drop n := by
  induction pieces generalizing n with
  | nil => simp [advance]
  | cons d ds ih =>
    rw [advance, List.flatten_cons]
    split_ifs with hn
    · rw [List.flatten_cons, List.drop_append_of_le_length hn.le]
    · rw [ih, List.drop_append, List.drop_eq_nil_of_le (not_lt.mp hn), List.nil_append]

theorem Cut.cons {d : List α} (h : Cut pieces n) : Cut (d :: pieces) (d.length + n) := by
  obtain ⟨k, rfl⟩ := h
  exact ⟨k + 1, by rw [List.take_succ_cons, List.flatten_cons, List.length_append]⟩

/-- What is left begins with the rest of the piece around the position. -/
theorem exists_advance (hne : ∀ d ∈ pieces, d ≠ []) (hn : n < pieces.flatten.length) :
    ∃ d ds, advance n pieces = d :: ds ∧ d ≠ [] ∧ Cut pieces (n + d.length) ∧
      ∀ k ≤ d.length, advance (n + k) pieces = if k < d.length then d.drop k :: ds else ds := by
  induction pieces generalizing n with
  | nil => simp at hn
  | cons e es ih =>
    have hes : ∀ d ∈ es, d ≠ [] := fun d hd => hne d (List.mem_cons_of_mem e hd)
    by_cases hfirst : n < e.length
    · refine ⟨e.drop n, es, by rw [advance, if_pos hfirst], ?_, ⟨1, ?_⟩, fun k hk => ?_⟩
      · rw [Ne, List.drop_eq_nil_iff]
        omega
      · simp
        omega
      · rw [List.length_drop] at hk ⊢
        rw [advance]
        by_cases hlt : n + k < e.length
        · rw [if_pos hlt, if_pos (by omega), List.drop_drop]
        · rw [if_neg hlt, if_neg (by omega), show n + k - e.length = 0 by omega, advance_zero hes]
    · rw [List.flatten_cons, List.length_append] at hn
      obtain ⟨d, ds, hadvance, hd, hcut, hmore⟩ :=
        ih hes (show n - e.length < es.flatten.length by omega)
      refine ⟨d, ds, by rw [advance, if_neg hfirst, hadvance], hd, ?_, fun k hk => ?_⟩
      · have := hcut.cons (d := e)
        rwa [show e.length + (n - e.length + d.length) = n + d.length by omega] at this
      · rw [advance, if_neg (by omega), show n + k - e.length = n - e.length + k by omega,
          hmore k hk]

end Pieces
