import Freehold.Foundation.Blocks
import Mathlib.Data.FinEnum
import Mathlib.SetTheory.Cardinal.Finite

/-!
# Counter mode

A text is XORed with keystream blocks of `n` bytes, as much of the last block as it takes.

## Main results

* `crypt_crypt` — decryption is encryption.
* `checksum_xor`, `card_checksum_eq` — the XOR of the blocks of a text is linear, and how many texts
  of one length have it.
-/

namespace CounterMode

open Blocks

def xor (xs ys : List UInt8) : List UInt8 := List.zipWith (· ^^^ ·) xs ys

/-- How many blocks of `n` bytes it takes. -/
def blocks (n len : ℕ) : ℕ := (len + (n - 1)) / n

/-- The text under the keystream `F 0`, `F 1`, … -/
def crypt (n : ℕ) (F : ℕ → List UInt8) (text : List UInt8) : List UInt8 :=
  xor text (concat F (blocks n text.length))

/-- A block whose last bytes are zero. -/
def pad (n : ℕ) (bytes : List UInt8) : List UInt8 := bytes ++ List.replicate (n - bytes.length) 0

/-- The XOR of the first `k` chunks of a text, padded with zeros. -/
def checksum (n : ℕ) (text : List UInt8) (k : ℕ) : List UInt8 :=
  (List.range k).foldl (fun acc i => xor acc (pad n (chunk n text i))) (List.replicate n 0)

variable {n : ℕ} {F : ℕ → List UInt8} {text : List UInt8}

theorem le_blocks_mul (hn : 0 < n) (len : ℕ) : len ≤ blocks n len * n := by
  have hdiv := Nat.div_add_mod (len + (n - 1)) n
  have hmod := Nat.mod_lt (len + (n - 1)) hn
  rw [Nat.mul_comm] at hdiv
  unfold blocks
  omega

theorem lt_of_lt_blocks (hn : 0 < n) {len i : ℕ} (hi : i < blocks n len) : i * n < len := by
  have hle : (i + 1) * n ≤ len + (n - 1) := by
    calc (i + 1) * n ≤ blocks n len * n := Nat.mul_le_mul_right n hi
      _ ≤ len + (n - 1) := Nat.div_mul_le_self _ _
  rw [Nat.succ_mul] at hle
  omega

theorem length_xor (xs ys : List UInt8) : (xor xs ys).length = min xs.length ys.length := by
  simp [xor]

/-- XOR with the same bytes once more. -/
theorem xor_xor_cancel {xs ys : List UInt8} (h : xs.length ≤ ys.length) :
    xor (xor xs ys) ys = xs := by
  induction xs generalizing ys with
  | nil => rfl
  | cons x xs ih =>
    cases ys with
    | nil => exact absurd h (by simp)
    | cons y ys =>
      have hhead : x ^^^ y ^^^ y = x := by
        rw [UInt8.xor_assoc, UInt8.xor_self, UInt8.xor_zero]
      have htail := ih (Nat.le_of_succ_le_succ h)
      simp only [xor, List.zipWith_cons_cons, hhead] at htail ⊢
      rw [htail]

section Keystream

variable (hn : 0 < n) (hF : ∀ i, (F i).length = n)
include hn hF

theorem length_keystream_ge (text : List UInt8) :
    text.length ≤ (concat F (blocks n text.length)).length := by
  rw [length_concat hF, Nat.mul_comm]
  exact le_blocks_mul hn _

@[simp] theorem length_crypt (text : List UInt8) : (crypt n F text).length = text.length := by
  rw [crypt, length_xor, Nat.min_eq_left (length_keystream_ge hn hF text)]

/-- Decryption is encryption. -/
theorem crypt_crypt (text : List UInt8) : crypt n F (crypt n F text) = text := by
  conv_lhs => rw [crypt, length_crypt hn hF]
  exact xor_xor_cancel (length_keystream_ge hn hF text)

omit hn in
/-- Chunk by chunk, as a loop produces it. -/
theorem chunk_crypt {i : ℕ} (hi : i < blocks n text.length) :
    chunk n (crypt n F text) i = xor (chunk n text i) (F i) := by
  rw [crypt, xor, chunk_zipWith, chunk_concat hF hi]
  rfl

end Keystream

theorem checksum_succ (n : ℕ) (text : List UInt8) (k : ℕ) :
    checksum n text (k + 1) = xor (checksum n text k) (pad n (chunk n text k)) := by
  simp [checksum, List.range_succ]

@[simp] theorem length_checksum (n : ℕ) (text : List UInt8) (k : ℕ) :
    (checksum n text k).length = n := by
  induction k with
  | zero => simp [checksum]
  | succ k ih =>
    have hpad : n ≤ (pad n (chunk n text k)).length := by
      simp only [pad, List.length_append, List.length_replicate]
      omega
    rw [checksum_succ, length_xor, ih, Nat.min_eq_left hpad]

/-! ## Altered texts -/

theorem xor_comm (xs ys : List UInt8) : xor xs ys = xor ys xs :=
  List.zipWith_comm_of_comm UInt8.xor_comm

theorem xor_assoc (xs ys zs : List UInt8) : xor (xor xs ys) zs = xor xs (xor ys zs) := by
  induction xs generalizing ys zs with
  | nil => simp [xor]
  | cons x xs ih =>
    cases ys with
    | nil => simp [xor]
    | cons y ys =>
      cases zs with
      | nil => simp [xor]
      | cons z zs =>
        have htail := ih ys zs
        simp only [xor, List.zipWith_cons_cons, UInt8.xor_assoc] at htail ⊢
        rw [htail]

theorem xor_left_cancel {acc xs ys : List UInt8} (hxs : xs.length = acc.length)
    (hys : ys.length = acc.length) (h : xor acc xs = xor acc ys) : xs = ys := by
  rw [xor_comm, xor_comm acc] at h
  rw [← xor_xor_cancel hxs.le, h, xor_xor_cancel hys.le]

theorem pad_xor {xs ys : List UInt8} (h : xs.length = ys.length) :
    pad n (xor xs ys) = xor (pad n xs) (pad n ys) := by
  have hzeros : ∀ m, xor (List.replicate m 0) (List.replicate m 0) = List.replicate m 0 := by
    intro m
    simp [xor]
  rw [pad, pad, pad, ← h, length_xor, ← h, min_self, xor, xor, List.zipWith_append h]
  exact congrArg _ (hzeros _).symm

theorem xor_zeros (xs : List UInt8) : xor xs (List.replicate xs.length 0) = xs := by
  induction xs with
  | nil => rfl
  | cons x xs ih =>
    rw [List.length_cons, List.replicate_succ, xor, List.zipWith_cons_cons, UInt8.xor_zero]
    exact congrArg (x :: ·) ih

/-- Two texts that make each other up. -/
theorem xor_xor_eq_iff {acc xs ys : List UInt8} (hxs : xs.length = acc.length)
    (hys : ys.length = acc.length) : xor acc (xor xs ys) = acc ↔ ys = xs := by
  rw [← xor_assoc]
  constructor
  · intro h
    have hlength : (xor acc xs).length = acc.length := by rw [length_xor, hxs, min_self]
    refine xor_left_cancel (hys.trans hlength.symm) (hxs.trans hlength.symm) ?_
    rw [h, xor_xor_cancel hxs.ge]
  · rintro rfl
    exact xor_xor_cancel hys.ge

/-- The checksum is linear. -/
theorem checksum_xor {xs ys : List UInt8} (h : xs.length = ys.length) (k : ℕ) :
    checksum n (xor xs ys) k = xor (checksum n xs k) (checksum n ys k) := by
  induction k with
  | zero => simp [checksum, xor]
  | succ k ih =>
    have hchunk : (chunk n xs k).length = (chunk n ys k).length := by
      simp [chunk, h]
    have hpad : pad n (chunk n (xor xs ys) k) =
        xor (pad n (chunk n xs k)) (pad n (chunk n ys k)) := by
      rw [← pad_xor hchunk]
      exact congrArg (pad n) (chunk_zipWith _ xs ys k)
    rw [checksum_succ, checksum_succ, checksum_succ, ih, hpad, xor_assoc, xor_assoc]
    congr 1
    rw [← xor_assoc, ← xor_assoc, xor_comm (checksum n ys k)]

/-- A whole block in front. -/
theorem checksum_append {block rest : List UInt8} (h : block.length = n) (k : ℕ) :
    checksum n (block ++ rest) (k + 1) = xor block (checksum n rest k) := by
  induction k with
  | zero =>
    have hchunk : chunk n (block ++ rest) 0 = block := by
      rw [chunk, Nat.zero_mul, List.drop_zero, ← h, List.take_left]
    rw [checksum_succ, hchunk, pad, h, Nat.sub_self, List.replicate_zero, List.append_nil, xor_comm]
    rfl
  | succ k ih =>
    have hchunk : chunk n (block ++ rest) (k + 1) = chunk n rest k := by
      rw [chunk, chunk, Nat.succ_mul, Nat.add_comm, ← List.drop_drop, ← h, List.drop_left]
    rw [checksum_succ, ih, hchunk, checksum_succ, xor_assoc]

theorem blocks_add (hn : 0 < n) (len : ℕ) : blocks n (n + len) = blocks n len + 1 := by
  rw [blocks, blocks, Nat.add_assoc, Nat.add_div_left _ hn]

theorem card_texts (m : ℕ) : Nat.card {text : List UInt8 // text.length = m} = 256 ^ m := by
  have hbyte : Fintype.card UInt8 = 256 := by
    rw [← FinEnum.card_eq_fintypeCard, FinEnum.card_UInt8]
    rfl
  have hcard := @card_vector UInt8 _ m
  rw [hbyte] at hcard
  rw [← hcard, ← Nat.card_eq_fintype_card]
  rfl

/-- The first block makes up for the others. -/
theorem checksum_eq_iff {text total : List UInt8} (htext : n ≤ text.length)
    (htotal : total.length = n) (k : ℕ) :
    checksum n text (k + 1) = total ↔ text.take n = xor total (checksum n (text.drop n) k) := by
  have hblock : (text.take n).length = n := List.length_take_of_le htext
  have hsplit : checksum n (text.take n ++ text.drop n) (k + 1) =
      xor (text.take n) (checksum n (text.drop n) k) := checksum_append hblock k
  rw [List.take_append_drop] at hsplit
  rw [hsplit]
  constructor
  · rintro rfl
    exact (xor_xor_cancel (by rw [hblock, length_checksum])).symm
  · intro h
    rw [h]
    exact xor_xor_cancel (by rw [htotal, length_checksum])

/-- A text that is shorter than a block. -/
theorem eq_of_checksum_eq {text text' : List UInt8} (hshort : text.length < n)
    (hlength : text'.length = text.length)
    (h : checksum n text' (blocks n text.length) = checksum n text (blocks n text.length)) :
    text' = text := by
  have hn : 0 < n := Nat.zero_lt_of_lt hshort
  rcases Nat.eq_zero_or_pos text.length with hempty | hpos
  · rw [List.eq_nil_of_length_eq_zero hempty, List.eq_nil_of_length_eq_zero (hlength.trans hempty)]
  · have hblocks : blocks n text.length = 1 := by
      rw [blocks, show text.length + (n - 1) = n + (text.length - 1) by omega,
        Nat.add_div_left _ hn, Nat.div_eq_of_lt (by omega)]
    have hone : ∀ t : List UInt8, t.length = text.length → checksum n t 1 = pad n t := by
      intro t ht
      have hchunk : chunk n t 0 = t := by
        rw [chunk, Nat.zero_mul, List.drop_zero, List.take_of_length_le (by omega)]
      have hpad : (pad n t).length = n := by
        simp only [pad, List.length_append, List.length_replicate]
        omega
      have hzeros := xor_zeros (pad n t)
      rw [hpad] at hzeros
      rw [checksum_succ, hchunk, xor_comm]
      exact hzeros
    rw [hblocks, hone text' hlength, hone text rfl] at h
    exact List.append_inj_left h hlength

/-- Of the texts of one length, those with the same checksum are as many as if the first block
were given. -/
theorem card_checksum_eq (hn : 0 < n) (text : List UInt8) :
    Nat.card {text' : List UInt8 // text'.length = text.length ∧
      checksum n text' (blocks n text.length) = checksum n text (blocks n text.length)} =
      256 ^ (text.length - n) := by
  rcases Nat.lt_or_ge text.length n with hshort | hlong
  · have hsub : Subsingleton {text' : List UInt8 // text'.length = text.length ∧
        checksum n text' (blocks n text.length) = checksum n text (blocks n text.length)} :=
      ⟨fun a b => Subtype.ext ((eq_of_checksum_eq hshort a.2.1 a.2.2).trans
        (eq_of_checksum_eq hshort b.2.1 b.2.2).symm)⟩
    rw [Nat.sub_eq_zero_of_le hshort.le, pow_zero]
    exact Nat.card_of_subsingleton ⟨text, rfl, rfl⟩
  · obtain ⟨m, hm⟩ := Nat.exists_eq_add_of_le hlong
    rw [hm, Nat.add_sub_cancel_left, ← card_texts m, blocks_add hn]
    generalize htotal : checksum n text (blocks n m + 1) = total
    have hlength : total.length = n := by rw [← htotal, length_checksum]
    have hiff {t : List UInt8} (ht : t.length = n + m) :=
      checksum_eq_iff (ht ▸ Nat.le_add_right n m) hlength (blocks n m)
    have hfirst (rest : List UInt8) : (xor total (checksum n rest (blocks n m))).length = n := by
      rw [length_xor, hlength, length_checksum, min_self]
    refine Nat.card_congr
      { toFun := fun t => ⟨t.1.drop n, by rw [List.length_drop, t.2.1, Nat.add_sub_cancel_left]⟩
        invFun := fun rest =>
          ⟨xor total (checksum n rest.1 (blocks n m)) ++ rest.1, ?_, ?_⟩
        left_inv := fun t => Subtype.ext ?_
        right_inv := fun rest => Subtype.ext ?_ }
    · rw [List.length_append, hfirst, rest.2]
    · rw [checksum_append (hfirst rest.1)]
      exact xor_xor_cancel (by rw [hlength, length_checksum])
    · show xor total (checksum n (t.1.drop n) (blocks n m)) ++ t.1.drop n = t.1
      rw [← (hiff t.2.1).mp t.2.2, List.take_append_drop]
    · show (xor total (checksum n rest.1 (blocks n m)) ++ rest.1).drop n = rest.1
      rw [List.drop_left' (hfirst rest.1)]

end CounterMode
