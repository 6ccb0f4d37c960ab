import Mathlib.Tactic

/-!
# Bits, bytes and machine integers of the server

The conversions of `tls_smpc.h` and `mpcauth_server.cpp`. An array that the code
reads through a pointer is a function of the index; an array that it fills is a
list. `bytes_to_bools` and `bools_to_bytes` put the least significant bit first,
the command line and the password file the most significant one.
-/

namespace Freehold.Server

/-- The value an `int` of 32 bits gets from `n`. -/
def int32 (n : ℤ) : ℤ := n.bmod (2 ^ 32)

/-- `uint8_t[n]`. -/
abbrev Bytes (n : ℕ) := { bytes : List UInt8 // bytes.length = n }

@[simp] theorem Bytes.length_val {n : ℕ} (bytes : Bytes n) : bytes.val.length = n :=
  bytes.property

/-- Bytes of a text in the basic character set. -/
def ascii (text : List Char) : List UInt8 := text.map fun c => UInt8.ofNat c.toNat

/-- The characters that bytes stand for. -/
def chars (bytes : List UInt8) : List Char := bytes.map fun b => Char.ofNat b.toNat

theorem toNat_ofNat_byte (b : UInt8) : (Char.ofNat b.toNat).toNat = b.toNat := by
  have hvalid : b.toNat.isValidChar := .inl (b.toNat_lt.trans (by decide))
  rw [Char.ofNat, dif_pos hvalid]
  rfl

theorem ofNat_byte_injective : Function.Injective fun b : UInt8 => Char.ofNat b.toNat := by
  intro b c h
  have hnat := congrArg Char.toNat h
  dsimp only at hnat
  rw [toNat_ofNat_byte, toNat_ofNat_byte] at hnat
  exact UInt8.toNat_inj.mp hnat

theorem chars_injective : Function.Injective chars :=
  List.map_injective_iff.mpr ofNat_byte_injective

/-- `memcpy(dst + offset, src, src.length)`, the rest of `dst` kept. -/
def memcpy (dst : List UInt8) (offset : ℕ) (src : List UInt8) : List UInt8 :=
  dst.take offset ++ src ++ dst.drop (offset + src.length)

def xorBytes (xs ys : List UInt8) : List UInt8 := List.zipWith (· ^^^ ·) xs ys

/-- `for (b = 0; b < n; b++) if (bit(b)) val |= (1 << b)`. -/
def packBits (bit : ℕ → Bool) (n : ℕ) : ℕ :=
  (List.range n).foldl (fun val b => if bit b then val ||| 1 <<< b else val) 0

def byteToBools (byte : UInt8) : List Bool := (List.range 8).map byte.toNat.testBit

def bytesToBools (bytes : List UInt8) : List Bool := bytes.flatMap byteToBools

def boolsToBytes (bools : ℕ → Bool) (numBytes : ℕ) : List UInt8 :=
  (List.range numBytes).map fun i => UInt8.ofNat (packBits (fun b => bools (i * 8 + b)) 8)

/-- `for (b = 7; b >= 0; --b) push_back((byte >> b) & 1)`. -/
def pushBits (bytes : List UInt8) : List Bool :=
  bytes.flatMap fun byte => [7, 6, 5, 4, 3, 2, 1, 0].map byte.toNat.testBit

/-- The bytes `execute_mpc_logic` packs from `my_shard`. -/
def packShard (myShard : List Bool) : List UInt8 :=
  boolsToBytes (fun i => myShard.getD i false) (myShard.length / 8)

def hexChars : List Char :=
  ['0', '1', '2', '3', '4', '5', '6', '7', '8', '9', 'a', 'b', 'c', 'd', 'e', 'f']

/-- The value of the hexadecimal digit that starts at `i`. -/
def nibble (hashOut : ℕ → Bool) (bitLen i : ℕ) : ℕ :=
  packBits (fun j => decide (i + j < bitLen) && hashOut (i + j)) 4

def computeHashToHex (hashOut : ℕ → Bool) (bitLen : ℕ) : List Char :=
  (List.range ((bitLen + 3) / 4)).map fun k => hexChars.getD (nibble hashOut bitLen (4 * k)) '0'

/-! ## Packed bits -/

theorem packBits_succ (bit : ℕ → Bool) (n : ℕ) :
    packBits bit (n + 1) = if bit n then packBits bit n ||| 1 <<< n else packBits bit n := by
  simp [packBits, List.range_succ]

theorem testBit_packBits (bit : ℕ → Bool) (n k : ℕ) :
    (packBits bit n).testBit k = (decide (k < n) && bit k) := by
  induction n with
  | zero => simp [packBits]
  | succ n ih =>
    rw [packBits_succ, Nat.one_shiftLeft]
    by_cases hk : k = n
    · subst hk
      cases h : bit k <;> simp [ih, Nat.testBit_two_pow_self]
    · have hlt : k < n + 1 ↔ k < n := by omega
      cases bit n <;> simp [ih, hlt, Nat.testBit_two_pow_of_ne (Ne.symm hk)]

theorem packBits_lt (bit : ℕ → Bool) (n : ℕ) : packBits bit n < 2 ^ n := by
  refine Nat.lt_pow_two_of_testBit _ fun k hk => ?_
  rw [testBit_packBits, decide_eq_false (by omega), Bool.false_and]

theorem packBits_congr {f g : ℕ → Bool} {n : ℕ} (h : ∀ b < n, f b = g b) :
    packBits f n = packBits g n := by
  refine Nat.eq_of_testBit_eq fun k => ?_
  rw [testBit_packBits, testBit_packBits]
  by_cases hk : k < n
  · rw [h k hk]
  · simp [hk]

/-! ## Lengths -/

@[simp] theorem length_byteToBools (byte : UInt8) : (byteToBools byte).length = 8 := by
  simp [byteToBools]

@[simp] theorem length_bytesToBools (bytes : List UInt8) :
    (bytesToBools bytes).length = 8 * bytes.length := by
  induction bytes with
  | nil => rfl
  | cons byte bytes ih =>
    rw [bytesToBools, List.flatMap_cons, List.length_append, length_byteToBools]
    rw [bytesToBools] at ih
    rw [ih, List.length_cons]
    omega

@[simp] theorem length_boolsToBytes (bools : ℕ → Bool) (numBytes : ℕ) :
    (boolsToBytes bools numBytes).length = numBytes := by
  simp [boolsToBytes]

@[simp] theorem length_pushBits (bytes : List UInt8) :
    (pushBits bytes).length = 8 * bytes.length := by
  induction bytes with
  | nil => rfl
  | cons byte bytes ih =>
    rw [pushBits] at ih ⊢
    rw [List.flatMap_cons, List.length_append, ih, List.length_map, List.length_cons]
    simp
    omega

@[simp] theorem length_xorBytes (xs ys : List UInt8) :
    (xorBytes xs ys).length = min xs.length ys.length := by
  simp [xorBytes]

theorem length_memcpy {dst : List UInt8} {offset : ℕ} {src : List UInt8}
    (h : offset + src.length ≤ dst.length) : (memcpy dst offset src).length = dst.length := by
  simp only [memcpy, List.length_append, List.length_take, List.length_drop]
  omega

theorem memcpy_zero (dst src : List UInt8) : memcpy dst 0 src = src ++ dst.drop src.length := by
  simp [memcpy]

/-- A buffer that is filled from the front, one piece behind the other. -/
theorem memcpy_memcpy (dst xs ys : List UInt8) :
    memcpy (memcpy dst 0 xs) xs.length ys = memcpy dst 0 (xs ++ ys) := by
  simp [memcpy, List.drop_append]

@[simp] theorem length_computeHashToHex (hashOut : ℕ → Bool) (bitLen : ℕ) :
    (computeHashToHex hashOut bitLen).length = (bitLen + 3) / 4 := by
  simp [computeHashToHex]

/-! ## Round trips -/

theorem packBits_byteToBools (byte : UInt8) :
    packBits (fun b => (byteToBools byte).getD b false) 8 = byte.toNat := by
  refine Nat.eq_of_testBit_eq fun k => ?_
  rw [testBit_packBits]
  by_cases hk : k < 8
  · simp [byteToBools, hk]
  · have hbig : byte.toNat < 2 ^ k :=
      byte.toNat_lt.trans_le (Nat.pow_le_pow_right (by decide) (Nat.le_of_not_lt hk))
    simp [hk, Nat.testBit_lt_two_pow hbig]

theorem boolsToBytes_succ (bools : ℕ → Bool) (numBytes : ℕ) :
    boolsToBytes bools (numBytes + 1) =
      UInt8.ofNat (packBits bools 8) :: boolsToBytes (fun i => bools (8 + i)) numBytes := by
  rw [boolsToBytes, List.range_succ_eq_map, List.map_cons, List.map_map, boolsToBytes]
  simp only [Nat.zero_mul, Nat.zero_add, List.cons.injEq, true_and]
  refine List.map_congr_left fun i _ => congrArg (UInt8.ofNat <| packBits · 8) (funext fun b => ?_)
  exact congrArg bools (by simp only [Nat.succ_eq_add_one]; ring)

/-- `bools_to_bytes` undoes `bytes_to_bools`. -/
theorem boolsToBytes_bytesToBools (bytes : List UInt8) :
    boolsToBytes (fun i => (bytesToBools bytes).getD i false) bytes.length = bytes := by
  induction bytes with
  | nil => rfl
  | cons byte bytes ih =>
    have happ : bytesToBools (byte :: bytes) = byteToBools byte ++ bytesToBools bytes := rfl
    rw [List.length_cons, boolsToBytes_succ, happ]
    congr 1
    · have hhead : ∀ b < 8, (byteToBools byte ++ bytesToBools bytes).getD b false =
          (byteToBools byte).getD b false := fun b hb => by
        simp [List.getD_eq_getElem?_getD, List.getElem?_append_left, hb]
      rw [packBits_congr hhead, packBits_byteToBools, UInt8.ofNat_toNat]
    · refine Eq.trans (congrArg (boolsToBytes · bytes.length) (funext fun i => ?_)) ih
      simp [List.getD_eq_getElem?_getD, List.getElem?_append_right]

theorem bytesToBools_injective {xs ys : List UInt8} (h : bytesToBools xs = bytesToBools ys) :
    xs = ys := by
  have hlen : xs.length = ys.length := by
    have := congrArg List.length h
    simp only [length_bytesToBools] at this
    omega
  rw [← boolsToBytes_bytesToBools xs, ← boolsToBytes_bytesToBools ys, h, hlen]

/-! ## Hexadecimal digests -/

theorem nibble_lt (hashOut : ℕ → Bool) (bitLen i : ℕ) : nibble hashOut bitLen i < 16 :=
  packBits_lt _ 4

theorem hexChars_injective {m n : ℕ} (hm : m < 16) (hn : n < 16)
    (h : hexChars.getD m '0' = hexChars.getD n '0') : m = n := by
  have key : ∀ a b : Fin 16, hexChars.getD a '0' = hexChars.getD b '0' → a = b := by decide
  exact congrArg Fin.val (key ⟨m, hm⟩ ⟨n, hn⟩ h)

/-- A digest fits on one line of a file. -/
theorem newline_notMem_computeHashToHex (hashOut : ℕ → Bool) (bitLen : ℕ) :
    '\n' ∉ computeHashToHex hashOut bitLen := by
  have key : ∀ a : Fin 16, hexChars.getD a '0' ≠ '\n' := by decide
  intro hmem
  obtain ⟨k, -, hk⟩ := List.mem_map.mp hmem
  exact key ⟨_, nibble_lt hashOut bitLen (4 * k)⟩ hk

theorem testBit_nibble (hashOut : ℕ → Bool) {bitLen i j : ℕ} (hj : j < 4) (hi : i + j < bitLen) :
    (nibble hashOut bitLen i).testBit j = hashOut (i + j) := by
  simp [nibble, testBit_packBits, hj, hi]

/-- Different digests print differently. -/
theorem eq_of_computeHashToHex_eq {f g : ℕ → Bool} {bitLen : ℕ}
    (h : computeHashToHex f bitLen = computeHashToHex g bitLen) {i : ℕ} (hi : i < bitLen) :
    f i = g i := by
  have hk : i / 4 < (bitLen + 3) / 4 := by omega
  have hdigit := congrArg (fun l : List Char => l[i / 4]?) h
  simp only [computeHashToHex, List.getElem?_map, List.getElem?_range hk, Option.map_some,
    Option.some.injEq] at hdigit
  have hval := hexChars_injective (nibble_lt ..) (nibble_lt ..) hdigit
  have hsplit : 4 * (i / 4) + i % 4 = i := Nat.div_add_mod i 4
  have hi' : 4 * (i / 4) + i % 4 < bitLen := by omega
  have hmod : i % 4 < 4 := Nat.mod_lt _ (by decide)
  have hf := testBit_nibble f hmod hi'
  have hg := testBit_nibble g hmod hi'
  rw [hsplit] at hf hg
  rw [← hf, ← hg, hval]

theorem computeHashToHex_congr {f g : ℕ → Bool} {bitLen : ℕ} (h : ∀ i < bitLen, f i = g i) :
    computeHashToHex f bitLen = computeHashToHex g bitLen := by
  refine List.map_congr_left fun k _ => congrArg (hexChars.getD · '0') ?_
  refine packBits_congr fun j _ => ?_
  by_cases hj : 4 * k + j < bitLen
  · rw [h _ hj]
  · simp [hj]

end Freehold.Server
