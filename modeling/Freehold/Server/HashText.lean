import Freehold.Forwarder.Proof

/-!
# Nullifiers as hexadecimal texts (`mpcauth_server.cpp`)

`compute_hash_to_hex` prints four bits at a time, the least significant bit first.
`bools_to_bytes` packs the same bits to bytes, the least significant bit first as well, so the low
digit of every byte comes before its high digit. `sha256_hex` of the forwarder prints the high
digit first.

## Main results

* `computeHashToHex_eq_swapped`, `chars_hex` — the two texts, byte by byte.
* `computeHashToHex_eq_hex_iff` — when it is the usual one.
-/

namespace Freehold.Server

open Freehold.Forwarder (hex)

variable {hashOut : ℕ → Bool}

/-- The digits of every byte, the low one first. -/
def swappedHex (bytes : List UInt8) : List Char :=
  bytes.flatMap fun byte =>
    [hexChars.getD (byte.toNat % 16) '0', hexChars.getD (byte.toNat / 16) '0']

/-- The digits of every byte, the high one first. -/
def standardHex (bytes : List UInt8) : List Char :=
  bytes.flatMap fun byte =>
    [hexChars.getD (byte.toNat / 16) '0', hexChars.getD (byte.toNat % 16) '0']

/-! ## The digits of a byte -/

theorem packBits_low (bit : ℕ → Bool) : packBits bit 8 % 16 = packBits bit 4 := by
  apply Nat.eq_of_testBit_eq
  intro k
  rw [show 16 = 2 ^ 4 from rfl, Nat.testBit_mod_two_pow, testBit_packBits, testBit_packBits]
  grind

theorem packBits_high (bit : ℕ → Bool) :
    packBits bit 8 / 16 = packBits (fun b => bit (4 + b)) 4 := by
  apply Nat.eq_of_testBit_eq
  intro k
  rw [show 16 = 2 ^ 4 from rfl, Nat.testBit_div_two_pow, testBit_packBits, testBit_packBits]
  grind

theorem toNat_packBits (bit : ℕ → Bool) :
    (UInt8.ofNat (packBits bit 8)).toNat = packBits bit 8 := by
  rw [UInt8.toNat_ofNat', Nat.mod_eq_of_lt (packBits_lt bit 8)]

theorem nibble_of_le {bitLen i : ℕ} (h : i + 4 ≤ bitLen) :
    nibble hashOut bitLen i = packBits (fun j => hashOut (i + j)) 4 := by
  apply packBits_congr
  intro j hj
  have hlt : i + j < bitLen := by omega
  rw [decide_eq_true hlt, Bool.true_and]

/-! ## The text -/

/-- Four bits at a time, however many there are. -/
theorem computeHashToHex_eq_map (hashOut : ℕ → Bool) (n : ℕ) :
    computeHashToHex hashOut (8 * n) = (List.range (2 * n)).map fun k =>
      hexChars.getD (packBits (fun j => hashOut (4 * k + j)) 4) '0' := by
  have hlength : (8 * n + 3) / 4 = 2 * n := by omega
  rw [computeHashToHex, hlength]
  apply List.map_congr_left
  intro k hk
  rw [List.mem_range] at hk
  rw [nibble_of_le (by omega)]

theorem computeHashToHex_eq_swapped (hashOut : ℕ → Bool) (n : ℕ) :
    computeHashToHex hashOut (8 * n) = swappedHex (boolsToBytes hashOut n) := by
  rw [computeHashToHex_eq_map]
  induction n with
  | zero => rfl
  | succ n ih =>
    have hlow : packBits (fun j => hashOut (4 * (2 * n) + j)) 4 =
        packBits (fun b => hashOut (n * 8 + b)) 8 % 16 := by
      rw [packBits_low]
      apply packBits_congr
      intro j _
      exact congrArg hashOut (by omega)
    have hhigh : packBits (fun j => hashOut (4 * (2 * n + 1) + j)) 4 =
        packBits (fun b => hashOut (n * 8 + b)) 8 / 16 := by
      rw [packBits_high]
      apply packBits_congr
      intro j _
      exact congrArg hashOut (by omega)
    have hbytes : boolsToBytes hashOut (n + 1) =
        boolsToBytes hashOut n ++ [UInt8.ofNat (packBits (fun b => hashOut (n * 8 + b)) 8)] := by
      rw [boolsToBytes, List.range_succ, List.map_append]
      rfl
    rw [show 2 * (n + 1) = 2 * n + 1 + 1 from rfl, List.range_succ, List.range_succ,
      List.map_append, List.map_append, ih, hbytes, swappedHex, swappedHex, List.flatMap_append,
      List.append_assoc]
    simp only [List.map_cons, List.map_nil, List.flatMap_cons, List.flatMap_nil, toNat_packBits,
      hlow, hhigh]
    rfl

theorem ofNat_hexDigit {n : ℕ} (h : n < 16) :
    Char.ofNat (Forwarder.hexDigit n).toNat = hexChars.getD n '0' := by
  have hdigits : ∀ d : Fin 16, Char.ofNat (Forwarder.hexDigit d).toNat = hexChars.getD d '0' := by
    decide
  exact hdigits ⟨n, h⟩

/-- `%02x` of every byte. -/
theorem chars_hex (bytes : List UInt8) : chars (hex bytes) = standardHex bytes := by
  induction bytes with
  | nil => rfl
  | cons byte bytes ih =>
    have hbyte := byte.toNat_lt
    have hhigh := ofNat_hexDigit (n := byte.toNat / 16) (by omega)
    have hlow := ofNat_hexDigit (n := byte.toNat % 16) (by omega)
    have hcons : standardHex (byte :: bytes) = hexChars.getD (byte.toNat / 16) '0' ::
        hexChars.getD (byte.toNat % 16) '0' :: standardHex bytes := rfl
    rw [hcons, ← hhigh, ← hlow, ← ih]
    rfl

/-- Both texts have two digits for every byte. -/
theorem swappedHex_eq_standardHex_iff (bytes : List UInt8) :
    swappedHex bytes = standardHex bytes ↔ ∀ byte ∈ bytes, byte.toNat % 16 = byte.toNat / 16 := by
  induction bytes with
  | nil => simp [swappedHex, standardHex]
  | cons byte bytes ih =>
    have hbyte := byte.toNat_lt
    rw [List.forall_mem_cons, ← ih, swappedHex, standardHex, List.flatMap_cons, List.flatMap_cons]
    simp only [List.cons_append, List.nil_append, List.cons.injEq]
    constructor
    · rintro ⟨hdigit, -, hrest⟩
      exact ⟨hexChars_injective (by omega) (by omega) hdigit, hrest⟩
    · rintro ⟨hdigit, hrest⟩
      rw [hdigit]
      exact ⟨rfl, rfl, hrest⟩

/-- The four low bits of a byte are its four high bits. -/
theorem packBits_mod_eq_div_iff (bit : ℕ → Bool) :
    packBits bit 8 % 16 = packBits bit 8 / 16 ↔ ∀ j < 4, bit j = bit (4 + j) := by
  rw [packBits_low, packBits_high]
  constructor
  · intro h j hj
    have hbits := congrArg (Nat.testBit · j) h
    simpa [testBit_packBits, hj] using hbits
  · exact packBits_congr

/-- The text of a nullifier is the usual one of the packed bytes exactly if in every byte the four
low bits are the four high bits. -/
theorem computeHashToHex_eq_hex_iff (hashOut : ℕ → Bool) (n : ℕ) :
    computeHashToHex hashOut (8 * n) = chars (hex (boolsToBytes hashOut n)) ↔
      ∀ i < n, ∀ j < 4, hashOut (8 * i + j) = hashOut (8 * i + 4 + j) := by
  rw [computeHashToHex_eq_swapped, chars_hex, swappedHex_eq_standardHex_iff, boolsToBytes,
    List.forall_mem_map]
  simp only [List.mem_range, toNat_packBits, packBits_mod_eq_div_iff]
  refine forall₂_congr fun i _ => forall₂_congr fun j _ => ?_
  rw [Nat.mul_comm i 8, ← Nat.add_assoc]

/-- The byte `01` is printed as `10`. -/
theorem computeHashToHex_ne_hex :
    computeHashToHex (fun i => decide (i = 0)) 8 ≠
      chars (hex (boolsToBytes (fun i => decide (i = 0)) 1)) := by
  decide

end Freehold.Server
