import Freehold.Foundation.Blocks

/-!
# HKDF-Expand (RFC 5869)

`mac` is HMAC under the pseudorandom key, with an output of `n` bytes.
-/

namespace Hkdf

variable {n : ℕ} (mac : List UInt8 → { bytes : List UInt8 // bytes.length = n })
  (info : List UInt8)

/-- `T(i)`, with `T(0)` the empty string. -/
def block : ℕ → List UInt8
  | 0 => []
  | i + 1 => (mac (block i ++ info ++ [UInt8.ofNat (i + 1)])).val

/-- The first `len` bytes of `T(1) || T(2) || …`; the counter of a block is one octet. -/
def expand (len : ℕ) : Option (List UInt8) :=
  if len ≤ 255 * n then
    some ((Blocks.concat (fun i => block mac info (i + 1)) ((len + n - 1) / n)).take len)
  else none

@[simp] theorem length_block_succ (i : ℕ) : (block mac info (i + 1)).length = n :=
  (mac _).property

/-- The loop of an implementation: the block last made, and what has been put out. -/
def turn (len : ℕ) (state : List UInt8 × List UInt8) (i : ℕ) : List UInt8 × List UInt8 :=
  let t := (mac (state.1 ++ info ++ [UInt8.ofNat i])).val
  (t, state.2 ++ t.take (len - state.2.length))

/-- After `k` turns the loop has put out what is wanted of the first `k` blocks. -/
theorem foldl_turn (len k : ℕ) :
    (List.range' 1 k).foldl (turn mac info len) ([], []) =
      (block mac info k, (Blocks.concat (fun i => block mac info (i + 1)) k).take len) := by
  induction k with
  | zero => simp [block]
  | succ k ih =>
    have hout : ∀ k, (Blocks.concat (fun i => block mac info (i + 1)) k).length = n * k :=
      Blocks.length_concat fun i => length_block_succ mac info i
    have hrest : len - ((Blocks.concat (fun i => block mac info (i + 1)) k).take len).length =
        len - n * k := by
      rw [List.length_take, hout]
      omega
    rw [List.range'_1_concat, List.foldl_append, ih, List.foldl_cons, List.foldl_nil, turn,
      Blocks.take_concat_succ fun i => length_block_succ mac info i]
    simp only [hrest, Nat.add_comm 1 k]
    rfl

end Hkdf
