import Mathlib.Tactic

/-!
# Sequences in blocks

Blocks of `n` elements one behind the other, and the cutting of a list into chunks of `n`
elements, the last of which may be shorter.
-/

namespace Blocks

variable {α β γ : Type*} {n : ℕ}

/-- The blocks `f 0`, …, `f (k - 1)`. -/
def concat (f : ℕ → List α) (k : ℕ) : List α := (List.range k).flatMap f

/-- The elements from `i * n` on, at most `n` of them. -/
def chunk (n : ℕ) (l : List α) (i : ℕ) : List α := (l.drop (i * n)).take n

@[simp] theorem concat_zero (f : ℕ → List α) : concat f 0 = [] := rfl

@[simp] theorem concat_succ (f : ℕ → List α) (k : ℕ) : concat f (k + 1) = concat f k ++ f k := by
  simp [concat, List.range_succ]

/-! ## Blocks of equal length -/

section Equal

variable {f : ℕ → List α} (hf : ∀ i, (f i).length = n)
include hf

theorem length_concat (k : ℕ) : (concat f k).length = n * k := by
  induction k with
  | zero => rfl
  | succ k ih => rw [concat_succ, List.length_append, ih, hf, Nat.mul_succ]

/-- One more block, as much of it as is wanted. -/
theorem take_concat_succ (len k : ℕ) :
    (concat f (k + 1)).take len = (concat f k).take len ++ (f k).take (len - n * k) := by
  rw [concat_succ, List.take_append, length_concat hf]

/-- Later blocks do not matter. -/
theorem take_concat_add {len k : ℕ} (h : len ≤ n * k) (j : ℕ) :
    (concat f (k + j)).take len = (concat f k).take len := by
  induction j with
  | zero => rfl
  | succ j ih =>
    have hempty : len - n * (k + j) = 0 := by
      have := Nat.mul_le_mul_left n (Nat.le_add_right k j)
      omega
    rw [← Nat.add_assoc, take_concat_succ hf, hempty, List.take_zero, List.append_nil, ih]

end Equal

/-! ## Chunks -/

/-- Two lists that are combined element by element are combined chunk by chunk. -/
theorem chunk_zipWith (op : α → β → γ) (xs : List α) (ys : List β) (i : ℕ) :
    chunk n (List.zipWith op xs ys) i = List.zipWith op (chunk n xs i) (chunk n ys i) := by
  rw [chunk, List.drop_zipWith, List.take_zipWith, chunk, chunk]

/-- The chunks of a row of blocks are the blocks. -/
theorem chunk_concat {f : ℕ → List α} (hf : ∀ i, (f i).length = n) {i k : ℕ} (hi : i < k) :
    chunk n (concat f k) i = f i := by
  obtain ⟨j, rfl⟩ : ∃ j, k = (i + 1) + j := ⟨k - (i + 1), by omega⟩
  have hlen : ((concat f i).take (n * (i + 1))).length = i * n := by
    rw [List.length_take, length_concat hf, Nat.mul_succ, Nat.mul_comm i n]
    omega
  have htake : chunk n (concat f (i + 1 + j)) i =
      ((concat f (i + 1 + j)).take (n * (i + 1))).drop (i * n) := by
    rw [chunk, List.drop_take]
    congr 1
    rw [Nat.mul_succ, Nat.mul_comm i n]
    omega
  rw [htake, take_concat_add hf le_rfl, concat_succ, List.take_append, List.drop_append, hlen,
    length_concat hf]
  simp only [Nat.sub_self, List.drop_zero, List.drop_of_length_le hlen.le, List.nil_append]
  refine List.take_of_length_le ?_
  rw [hf, Nat.mul_succ]
  omega

end Blocks
