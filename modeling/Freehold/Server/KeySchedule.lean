import Freehold.Foundation.Hkdf
import Freehold.Server.Tls

/-!
# HKDF-Expand-Label on its buffer (`tls_smpc.h`)

`tls13_hkdf_expand_label` writes into `out` block by block. What it leaves there is the output
of HKDF-Expand for the `HkdfLabel` with an empty context.
-/

namespace Freehold.Server

/-- `t_prev`, the buffer `out`, and `written`. -/
structure ExpandState where
  tPrev : List UInt8
  out : List UInt8
  written : ℕ

/-- Turn `i` of the loop. -/
def expandTurn (hmac : HmacSha256) (secret info : List UInt8) (outLen : ℕ) (s : ExpandState)
    (i : ℕ) : ExpandState :=
  let tPrev := (hmac secret ((if 1 < i then s.tPrev else []) ++ info ++ [UInt8.ofNat i])).val
  let copyLen := min 32 (outLen - s.written)
  { tPrev, out := memcpy s.out s.written (tPrev.take copyLen), written := s.written + copyLen }

/-- `tls13_hkdf_expand_label` with what it leaves in `out`. -/
def expandLabel (hmac : HmacSha256) (secret label out : List UInt8) (outLen : ℕ) :
    Except Failure Unit × List UInt8 :=
  let info := hkdfInfo label outLen
  if 64 < info.length then (.error (.runtimeError "HKDF label too long"), out)
  else
    (.ok (), ((List.range' 1 ((outLen + 31) / 32)).foldl (expandTurn hmac secret info outLen)
      ⟨[], out, 0⟩).out)

/-! ## The session's keys -/

/-- On its buffer the loop does what `hkdfBlocks` says. -/
theorem foldl_expandTurn (hmac : HmacSha256) (secret info out : List UInt8) (outLen k : ℕ) :
    (List.range' 1 k).foldl (expandTurn hmac secret info outLen) ⟨[], out, 0⟩ =
      { tPrev := (hkdfBlocks hmac secret info outLen k).1
        out := memcpy out 0 (hkdfBlocks hmac secret info outLen k).2
        written := (hkdfBlocks hmac secret info outLen k).2.length } := by
  induction k with
  | zero => simp [hkdfBlocks, memcpy]
  | succ k ih =>
    have hnext : hkdfBlocks hmac secret info outLen (k + 1) =
        hkdfStep hmac secret info outLen (hkdfBlocks hmac secret info outLen k) (1 + k) := by
      rw [hkdfBlocks, List.range'_1_concat, List.foldl_append]
      rfl
    rw [List.range'_1_concat, List.foldl_append, ih, List.foldl_cons, List.foldl_nil, hnext]
    simp only [expandTurn, hkdfStep, memcpy_memcpy, List.length_append, List.length_take,
      Bytes.length_val, ExpandState.mk.injEq, true_and]
    omega

/-- The keys of a session are what the function leaves in their buffers. -/
theorem expandLabel_eq (hmac : HmacSha256) (secret label out : List UInt8) (outLen : ℕ) :
    expandLabel hmac secret label out outLen =
      match tls13HkdfExpandLabel hmac secret label outLen with
      | .ok key => (.ok (), memcpy out 0 key)
      | .error e => (.error e, out) := by
  simp only [expandLabel, tls13HkdfExpandLabel]
  split
  · rfl
  · rw [foldl_expandTurn]
    rfl

/-! ## Against the specification -/

/-- `HkdfLabel` of RFC 8446. -/
def hkdfLabel (length : ℕ) (label context : List UInt8) : List UInt8 :=
  let tls13Label := tls13Prefix ++ label
  [UInt8.ofNat (length / 256), UInt8.ofNat (length % 256), UInt8.ofNat tls13Label.length] ++
    tls13Label ++ UInt8.ofNat context.length :: context

theorem hkdfInfo_eq_hkdfLabel (label : List UInt8) (outLen : ℕ) :
    hkdfInfo label outLen = hkdfLabel outLen label [] := by
  have hlow : UInt8.ofNat (outLen % 256) = UInt8.ofNat outLen := by
    apply UInt8.toNat_inj.mp
    simp
  simp only [hkdfInfo, hkdfLabel, hlow, Nat.shiftRight_eq_div_pow]
  simp

/-- Leaving out `t_prev` in the first block is starting with an empty one. -/
theorem hkdfBlocks_eq_turn (hmac : HmacSha256) (secret info : List UInt8) (outLen k : ℕ) :
    hkdfBlocks hmac secret info outLen k =
      (List.range' 1 k).foldl (Hkdf.turn (hmac secret) info outLen) ([], []) := by
  induction k with
  | zero => rfl
  | succ k ih =>
    rw [hkdfBlocks, List.range'_1_concat, List.foldl_append, List.foldl_append, ← hkdfBlocks, ih,
      Hkdf.foldl_turn]
    have hfirst : (if 1 < 1 + k then Hkdf.block (hmac secret) info k else []) =
        Hkdf.block (hmac secret) info k := by
      cases k with
      | zero => rfl
      | succ k => exact if_pos (by omega)
    simp only [List.foldl_cons, List.foldl_nil, hkdfStep, Hkdf.turn, hfirst, Prod.mk.injEq,
      true_and]
    congr 1
    rw [List.take_eq_take_iff, Bytes.length_val]
    omega

theorem hkdfExpand_eq (hmac : HmacSha256) (secret label : List UInt8) {outLen : ℕ}
    (hmax : outLen ≤ 8160) :
    Hkdf.expand (hmac secret) (hkdfLabel outLen label []) outLen =
      some (hkdfExpand hmac secret label outLen).val := by
  have hblocks := hkdfBlocks_eq_turn hmac secret (hkdfInfo label outLen) outLen ((outLen + 31) / 32)
  rw [Hkdf.foldl_turn] at hblocks
  rw [Hkdf.expand, if_pos (by omega), ← hkdfInfo_eq_hkdfLabel]
  exact congrArg some (congrArg Prod.snd hblocks).symm

/-- A label that passes the length check gives the first `out_len` bytes of
`T(1) || T(2) || …`, written at the front of `out`; with a longer one `out` stays as it was. -/
theorem expandLabel_eq_hkdf (hmac : HmacSha256) (secret label out : List UInt8) {outLen : ℕ}
    (hmax : outLen ≤ 8160) :
    (label.length ≤ 54 → ∃ okm : Bytes outLen,
      Hkdf.expand (hmac secret) (hkdfLabel outLen label []) outLen = some okm.val ∧
      expandLabel hmac secret label out outLen = (.ok (), okm.val ++ out.drop outLen)) ∧
    (54 < label.length → expandLabel hmac secret label out outLen =
      (.error (.runtimeError "HKDF label too long"), out)) := by
  constructor
  · intro hlabel
    refine ⟨hkdfExpand hmac secret label outLen, hkdfExpand_eq hmac secret label hmax, ?_⟩
    rw [expandLabel_eq, tls13HkdfExpandLabel_of_length_le _ _ _ hlabel]
    simp only [memcpy_zero, Bytes.length_val]
  · intro hlabel
    rw [expandLabel_eq, tls13HkdfExpandLabel, if_pos]
    rw [length_hkdfInfo]
    omega

/-- A stand-in for HMAC that tells the blocks apart: its message's last byte, repeated. -/
def lastByteMac : HmacSha256 := fun _ message => ⟨List.replicate 32 (message.getLastD 0), by simp⟩

/-- 40 bytes take two blocks, the second of which is cut. -/
theorem expandLabel_eq_hkdf_two_blocks :
    ((ascii ['k', 'e', 'y']).length ≤ 54 → ∃ okm : Bytes 40,
      Hkdf.expand (lastByteMac []) (hkdfLabel 40 (ascii ['k', 'e', 'y']) []) 40 = some okm.val ∧
      expandLabel lastByteMac [] (ascii ['k', 'e', 'y']) (List.replicate 48 7) 40 =
        (.ok (), okm.val ++ (List.replicate 48 7).drop 40)) ∧
    (54 < (ascii ['k', 'e', 'y']).length →
      expandLabel lastByteMac [] (ascii ['k', 'e', 'y']) (List.replicate 48 7) 40 =
        (.error (.runtimeError "HKDF label too long"), List.replicate 48 7)) :=
  expandLabel_eq_hkdf lastByteMac [] (ascii ['k', 'e', 'y']) (List.replicate 48 7)
    (show 40 ≤ 8160 by decide)

end Freehold.Server
