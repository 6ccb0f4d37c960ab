import Freehold.Foundation.Json
import Freehold.Mail.SmtpClient
import Freehold.Server.Mpcauth

/-!
# The identity shard (`mpcauth_server.cpp`)

`main` expands the bytes of `--shard` to bits, the most significant bit first.
`execute_mpc_logic` packs bits to bytes for the key derivation, the least significant bit
first, and cuts or pads the bits to 512 for the nullifier. A shard is one argument of the command
line, so an `int` counts its bits.

## Main results

* `packShard_eq_iff` — when the bytes survive the packing.
* `identityInput_ne_iff` — when two shards are two identities.
* `parseShard_eq_shardOf_iff` — which arguments are read otherwise than their grammar says.
-/

namespace Freehold.Server

open Json (hexDigit)
open Freehold.Mail (isSpace)

/-! ## The command line -/

/-- `strtoul(text, &endptr, 16)` with the text at `endptr`. -/
def strtoul16 (text : List Char) : ℕ × List Char :=
  let (negative, unsigned) := match text.dropWhile isSpace with
    | '-' :: rest => (true, rest)
    | '+' :: rest => (false, rest)
    | rest => (false, rest)
  let digits := match unsigned with
    | '0' :: x :: d :: rest =>
      if (x = 'x' || x = 'X') && (hexDigit d).isSome then d :: rest else unsigned
    | _ => unsigned
  let number := digits.takeWhile fun c => (hexDigit c).isSome
  if number.isEmpty then (0, text)
  else
    let value := number.foldl (fun n c => 16 * n + (hexDigit c).getD 0) 0
    (if 2 ^ 64 ≤ value then 2 ^ 64 - 1 else if negative then (2 ^ 64 - value) % 2 ^ 64 else value,
      digits.drop number.length)

/-- The byte of `substr(i, 2)`, unless it is refused. -/
def hexByte (pair : List Char) : Option UInt8 :=
  let (val, rest) := strtoul16 pair
  if rest ≠ [] ∨ 255 < val then none else some (UInt8.ofNat val)

/-- `substr(0, 2)`, `substr(2, 2)`, … -/
def hexPairs : List Char → List (List Char)
  | a :: b :: rest => [a, b] :: hexPairs rest
  | [a] => [[a]]
  | [] => []

/-- What `validate_args` asks of the shard. -/
def validShardHex (shardHex : List Char) : Bool :=
  !(shardHex.isEmpty || shardHex.length % 2 ≠ 0)

/-- `shard_bits`, if `main` gets past the loop. -/
def parseShard (shardHex : List Char) : Option (List Bool) :=
  if validShardHex shardHex then
    (hexPairs shardHex).foldlM (fun bits pair => do
      let byte ← hexByte pair
      return bits ++ pushBits [byte]) []
  else none

/-- The bytes that the pairs stand for, in order. -/
def decodeHex (shardHex : List Char) : Option (List UInt8) := (hexPairs shardHex).mapM hexByte

example : decodeHex ['0', '1', ' ', 'f', '-', '0'] = some [1, 15, 0] := by decide
example : hexByte ['0', 'x'] = none ∧ hexByte ['-', '1'] = none := by decide

theorem pushBits_append (xs ys : List UInt8) : pushBits (xs ++ ys) = pushBits xs ++ pushBits ys :=
  List.flatMap_append

theorem foldlM_pushBits (pairs : List (List Char)) (bytes : List UInt8) :
    (pairs.foldlM (fun bits pair => do
      let byte ← hexByte pair
      return bits ++ pushBits [byte]) (pushBits bytes)) =
      (pairs.mapM hexByte).map fun others => pushBits (bytes ++ others) := by
  induction pairs generalizing bytes with
  | nil => simp
  | cons pair pairs ih =>
    rw [List.foldlM_cons, List.mapM_cons]
    cases hexByte pair with
    | none => rfl
    | some byte =>
      have hnext := ih (bytes ++ [byte])
      simp only [Option.pure_def, Option.bind_eq_bind, Option.bind_some,
        ← pushBits_append] at hnext ⊢
      rw [hnext]
      cases pairs.mapM hexByte <;> simp

/-- The shard bits are the bits of the decoded bytes. -/
theorem parseShard_eq_some_iff {shardHex : List Char} {bits : List Bool} :
    parseShard shardHex = some bits ↔
      validShardHex shardHex = true ∧
        ∃ bytes, decodeHex shardHex = some bytes ∧ bits = pushBits bytes := by
  rw [parseShard, Option.ite_none_right_eq_some]
  refine and_congr_right fun _ => ?_
  have hloop := foldlM_pushBits (hexPairs shardHex) []
  rw [show pushBits [] = [] from rfl] at hloop
  rw [hloop, Option.map_eq_some_iff, decodeHex]
  exact exists_congr fun bytes => and_congr_right fun _ => eq_comm

/-! ## Bits of the shard -/

theorem pushBits_cons (byte : UInt8) (bytes : List UInt8) :
    pushBits (byte :: bytes) =
      [7, 6, 5, 4, 3, 2, 1, 0].map byte.toNat.testBit ++ pushBits bytes := rfl

theorem getD_pushBits (bytes : List UInt8) (i : ℕ) :
    (pushBits bytes).getD i false = (bytes.getD (i / 8) 0).toNat.testBit (7 - i % 8) := by
  induction bytes generalizing i with
  | nil => simp [pushBits]
  | cons byte bytes ih =>
    rw [pushBits_cons]
    by_cases hi : i < 8
    · have hdiv : i / 8 = 0 := by omega
      rw [hdiv]
      interval_cases i <;> rfl
    · obtain ⟨j, rfl⟩ : ∃ j, i = j + 8 := ⟨i - 8, by omega⟩
      have hdiv : (j + 8) / 8 = j / 8 + 1 := by omega
      have hmod : (j + 8) % 8 = j % 8 := by omega
      rw [hdiv, hmod, List.getD_cons_succ, ← ih j]
      rfl

/-- A byte is given by its eight bits. -/
theorem uint8_ext {a b : UInt8} (h : ∀ k < 8, a.toNat.testBit k = b.toNat.testBit k) : a = b := by
  apply UInt8.toNat_inj.mp
  apply Nat.eq_of_testBit_eq
  intro k
  by_cases hk : k < 8
  · exact h k hk
  · have hbig : ∀ c : UInt8, c.toNat.testBit k = false := by
      intro c
      have hpow : 2 ^ 8 ≤ 2 ^ k := Nat.pow_le_pow_right (by decide) (by omega)
      exact Nat.testBit_lt_two_pow (c.toNat_lt.trans_le hpow)
    rw [hbig, hbig]

/-! ## Bytes for the key derivation -/

/-- The same bits in the opposite order. -/
def reverseByte (byte : UInt8) : UInt8 :=
  UInt8.ofNat (packBits (fun b => byte.toNat.testBit (7 - b)) 8)

theorem testBit_reverseByte (byte : UInt8) {k : ℕ} (hk : k < 8) :
    (reverseByte byte).toNat.testBit k = byte.toNat.testBit (7 - k) := by
  have hlt := packBits_lt (fun b => byte.toNat.testBit (7 - b)) 8
  rw [reverseByte, UInt8.toNat_ofNat', Nat.mod_eq_of_lt hlt, testBit_packBits]
  simp [hk]

theorem reverseByte_eq_self_iff {byte : UInt8} :
    reverseByte byte = byte ↔ ∀ k < 8, byte.toNat.testBit k = byte.toNat.testBit (7 - k) := by
  constructor
  · intro h k hk
    rw [← testBit_reverseByte byte hk, h]
  · intro h
    apply uint8_ext
    intro k hk
    rw [testBit_reverseByte byte hk, h k hk]

/-- Expanded one way and packed the other, every byte is reversed. -/
theorem packShard_pushBits (bytes : List UInt8) :
    packShard (pushBits bytes) = bytes.map reverseByte := by
  have hlen : 8 * bytes.length / 8 = bytes.length := by omega
  apply List.ext_getElem
  · simp [packShard, hlen]
  · intro i _ hi
    rw [List.length_map] at hi
    simp only [packShard, boolsToBytes, length_pushBits, List.getElem_map, List.getElem_range,
      reverseByte]
    congr 1
    apply packBits_congr
    intro b hb
    have hdiv : (i * 8 + b) / 8 = i := by omega
    have hmod : (i * 8 + b) % 8 = b := by omega
    rw [getD_pushBits, hdiv, hmod, List.getD_eq_getElem?_getD, List.getElem?_eq_getElem hi,
      Option.getD_some]

/-- `init_tls_session_from_shard` gets the decoded bytes exactly if each of them reads the same
from its most and from its least significant bit. -/
theorem packShard_eq_iff (shardHex : List Char) {bits : List Bool} {bytes : List UInt8}
    (haccepted : parseShard shardHex = some bits) (hdecoded : decodeHex shardHex = some bytes) :
    packShard bits = bytes ↔
      ∀ byte ∈ bytes, ∀ k < 8, byte.toNat.testBit k = byte.toNat.testBit (7 - k) := by
  obtain ⟨-, others, hothers, rfl⟩ := parseShard_eq_some_iff.mp haccepted
  cases hdecoded.symm.trans hothers
  simp only [packShard_pushBits, ← reverseByte_eq_self_iff]
  have hmap : bytes.map reverseByte = bytes.map id ↔ ∀ byte ∈ bytes, reverseByte byte = id byte :=
    List.map_inj_left
  rwa [List.map_id] at hmap

/-- The shard `00ff18`. -/
theorem packShard_eq_iff_symmetric :
    packShard (pushBits [0x00, 0xFF, 0x18]) = [0x00, 0xFF, 0x18] ↔
      ∀ byte ∈ ([0x00, 0xFF, 0x18] : List UInt8), ∀ k < 8,
        byte.toNat.testBit k = byte.toNat.testBit (7 - k) :=
  packShard_eq_iff ['0', '0', 'f', 'f', '1', '8'] (by decide) (by decide)

/-- The shard `01` reaches the key derivation as the byte `80`. -/
theorem packShard_reversed :
    ∃ bits, parseShard ['0', '1'] = some bits ∧ decodeHex ['0', '1'] = some [0x01] ∧
      packShard bits = [0x80] ∧ packShard bits ≠ [0x01] :=
  ⟨pushBits [0x01], by decide, by decide, by decide, by decide⟩

/-! ## Bits for the nullifier -/

/-- Two shards lead to the same input of SHA-256 if their first 64 bytes are the same, up to
zeros at the end. -/
theorem identityInput_pushBits_eq_iff {xs ys : List UInt8} :
    identityInput .alice (pushBits xs) = identityInput .alice (pushBits ys) ↔
      ∀ i < 64, xs.getD i 0 = ys.getD i 0 := by
  simp only [identityInput, if_true, getD_pushBits, List.map_inj_left, List.mem_range, shaInLen]
  constructor
  · intro h i hi
    apply uint8_ext
    intro k hk
    have hdiv : (i * 8 + (7 - k)) / 8 = i := by omega
    have hmod : 7 - (i * 8 + (7 - k)) % 8 = k := by omega
    have hbit := h (i * 8 + (7 - k)) (by omega)
    rwa [hdiv, hmod] at hbit
  · intro h i hi
    rw [h (i / 8) (by omega)]

/-- Two accepted shards are told apart exactly if they differ at one of their first 64 bytes,
where a missing byte counts as zero. -/
theorem identityInput_ne_iff (shardHex shardHex' : List Char) {bits bits' : List Bool}
    {xs ys : List UInt8} (haccepted : parseShard shardHex = some bits)
    (haccepted' : parseShard shardHex' = some bits') (hdecoded : decodeHex shardHex = some xs)
    (hdecoded' : decodeHex shardHex' = some ys) :
    identityInput .alice bits ≠ identityInput .alice bits' ↔
      ∃ i < 64, xs.getD i 0 ≠ ys.getD i 0 := by
  obtain ⟨-, others, hothers, rfl⟩ := parseShard_eq_some_iff.mp haccepted
  cases hdecoded.symm.trans hothers
  obtain ⟨-, others', hothers', rfl⟩ := parseShard_eq_some_iff.mp haccepted'
  cases hdecoded'.symm.trans hothers'
  rw [ne_eq, identityInput_pushBits_eq_iff]
  grind

/-- The shards `01` and `02`. -/
theorem identityInput_ne_iff_one_byte :
    identityInput .alice (pushBits [0x01]) ≠ identityInput .alice (pushBits [0x02]) ↔
      ∃ i < 64, ([0x01] : List UInt8).getD i 0 ≠ ([0x02] : List UInt8).getD i 0 :=
  identityInput_ne_iff ['0', '1'] ['0', '2'] (by decide) (by decide)
    (by decide) (by decide)

/-- The shards `01` and `0100` are different, and one identity. -/
theorem identityInput_padded :
    ∃ bits bits', parseShard ['0', '1'] = some bits ∧ parseShard ['0', '1', '0', '0'] = some bits' ∧
      decodeHex ['0', '1'] = some [0x01] ∧ decodeHex ['0', '1', '0', '0'] = some [0x01, 0x00] ∧
      identityInput .alice bits = identityInput .alice bits' := by
  refine ⟨pushBits [0x01], pushBits [0x01, 0x00], by decide, by decide, by decide, by decide, ?_⟩
  apply identityInput_pushBits_eq_iff.mpr
  intro i _
  match i with
  | 0 => rfl
  | 1 => rfl
  | i + 2 => rfl

/-! ## The grammar of the argument -/

def hexValue (c : Char) : ℕ := (hexDigit c).getD 0

/-- The bytes that pairs of digits denote. -/
def digitBytes : List Char → List UInt8
  | a :: b :: rest => UInt8.ofNat (16 * hexValue a + hexValue b) :: digitBytes rest
  | _ => []

/-- The bits of a shard that is written as its grammar says: one byte or more, two digits each. -/
def shardOf (shardHex : List Char) : Option (List Bool) :=
  if shardHex ≠ [] ∧ shardHex.length % 2 = 0 ∧ shardHex.all fun c => (hexDigit c).isSome then
    some (pushBits (digitBytes shardHex))
  else none

/-- Two hexadecimal digits. -/
def DigitPair : List Char → Prop
  | [a, b] => (hexDigit a).isSome ∧ (hexDigit b).isSome
  | _ => False

/-- What `strtoul` takes for a byte as well: white space or a sign, and a digit. -/
def LenientPair : List Char → Prop
  | [a, b] => (isSpace a ∨ a = '+') ∧ (hexDigit b).isSome ∨ a = '-' ∧ b = '0'
  | _ => False

/-- Every pair is read as a byte, but not each of them for its digits. -/
def Lenient (shardHex : List Char) : Prop :=
  shardHex ≠ [] ∧ shardHex.length % 2 = 0 ∧
    (∀ pair ∈ hexPairs shardHex, DigitPair pair ∨ LenientPair pair) ∧
    ∃ pair ∈ hexPairs shardHex, LenientPair pair

variable {a b c : Char}

/-! ## What `strtoul` reads from two characters -/

theorem hexDigit_cases {x : ℕ} (h : hexDigit c = some x) :
    48 ≤ c.toNat ∧ c.toNat ≤ 57 ∧ x = c.toNat - 48 ∨
    97 ≤ c.toNat ∧ c.toNat ≤ 102 ∧ x = c.toNat - 87 ∨
    65 ≤ c.toNat ∧ c.toNat ≤ 70 ∧ x = c.toNat - 55 := by
  have hval : c.val.toNat = c.toNat := rfl
  simp only [hexDigit, Char.isDigit, Char.le_def, UInt32.le_iff_toNat_le, ge_iff_le,
    Bool.and_eq_true, decide_eq_true_eq, hval, Char.reduceVal, UInt32.reduceToNat,
    Char.reduceToNat] at h
  split_ifs at h <;> grind

theorem isSpace_cases (h : isSpace c) : c.toNat = 32 ∨ 9 ≤ c.toNat ∧ c.toNat ≤ 13 := by
  simp only [isSpace, Bool.or_eq_true, Bool.and_eq_true, decide_eq_true_eq, Char.le_def,
    UInt32.le_iff_toNat_le] at h
  rcases h with rfl | h
  · exact .inl rfl
  · exact .inr h

theorem hexDigit_of_isSpace (h : isSpace c) : hexDigit c = none := by
  by_contra hsome
  obtain ⟨x, hx⟩ := Option.ne_none_iff_exists'.mp hsome
  have hspace := isSpace_cases h
  have hdigit := hexDigit_cases hx
  omega

/-- `strtoul` on two characters. -/
theorem hexByte_digits {x y : ℕ} (ha : hexDigit a = some x) (hb : hexDigit b = some y) :
    hexByte [a, b] = some (UInt8.ofNat (16 * x + y)) := by
  have hspace : isSpace a = false := by
    by_contra h
    rw [hexDigit_of_isSpace (Bool.eq_true_of_not_eq_false h)] at ha
    cases ha
  have hsign : a ≠ '-' ∧ a ≠ '+' := by
    constructor <;> rintro rfl <;> cases ha
  have hx := hexDigit_cases ha
  have hy := hexDigit_cases hb
  have hbyte : 16 * x + y ≤ 255 := by omega
  have hread : strtoul16 [a, b] = (16 * x + y, []) := by
    simp [strtoul16, hspace, hsign, ha, hb]
    omega
  rw [hexByte, hread]
  simp [hbyte]

/-- White space or a sign is skipped. -/
theorem hexByte_blank {y : ℕ} (ha : isSpace a ∨ a = '+') (hb : hexDigit b = some y) :
    hexByte [a, b] = some (UInt8.ofNat y) := by
  have hspace : isSpace b = false := by
    by_contra h
    rw [hexDigit_of_isSpace (Bool.eq_true_of_not_eq_false h)] at hb
    cases hb
  have hsign : b ≠ '-' ∧ b ≠ '+' := by
    constructor <;> rintro rfl <;> cases hb
  have hy := hexDigit_cases hb
  have hbyte : y ≤ 255 := by omega
  have hread : strtoul16 [a, b] = (y, []) := by
    rcases ha with ha | rfl
    · simp [strtoul16, ha, hspace, hsign, hb]
      omega
    · simp [strtoul16, isSpace, hb]
      omega
  rw [hexByte, hread]
  simp [hbyte]

/-- A negative number is too large. -/
theorem hexByte_minus {y : ℕ} (hb : hexDigit b = some y) (hne : b ≠ '0') :
    hexByte ['-', b] = none := by
  have hy := hexDigit_cases hb
  have hpos : b.toNat ≠ 48 := fun h => hne (Char.toNat_inj.mp h)
  have hread : strtoul16 ['-', b] = (2 ^ 64 - y, []) := by
    simp [strtoul16, isSpace, hb]
    split <;> omega
  rw [hexByte, hread]
  simp
  omega

theorem hexByte_of_none (h : hexDigit b = none) : hexByte [a, b] = none := by
  have hrest : (strtoul16 [a, b]).2 ≠ [] := by
    by_cases hspace : isSpace a
    · by_cases hspace' : isSpace b
      · simp [strtoul16, hspace, hspace']
      · by_cases hsign : b = '-' ∨ b = '+'
        · rcases hsign with rfl | rfl
          · simp [strtoul16, hspace, hspace']
          · simp [strtoul16, hspace, hspace']
        · rw [not_or] at hsign
          simp [strtoul16, hspace, hspace', hsign, h]
    · by_cases hsign : a = '-' ∨ a = '+'
      · rcases hsign with rfl | rfl
        · simp [strtoul16, isSpace, h]
        · simp [strtoul16, isSpace, h]
      · rw [not_or] at hsign
        cases ha : hexDigit a with
        | none => simp [strtoul16, hspace, hsign, ha]
        | some x => simp [strtoul16, hspace, hsign, ha, h]
  simp [hexByte, hrest]

theorem hexByte_other (ha : hexDigit a = none)
    (hspace : isSpace a = false) (hplus : a ≠ '+') (hminus : a ≠ '-') : hexByte [a, b] = none := by
  have hread : strtoul16 [a, b] = (0, [a, b]) := by
    simp [strtoul16, hspace, hplus, hminus, ha]
  simp [hexByte, hread]

/-- The three kinds of pairs. -/
theorem hexByte_of_digitPair (h : DigitPair [a, b]) :
    hexByte [a, b] = some (UInt8.ofNat (16 * hexValue a + hexValue b)) := by
  obtain ⟨x, hx⟩ := Option.isSome_iff_exists.mp h.1
  obtain ⟨y, hy⟩ := Option.isSome_iff_exists.mp h.2
  rw [hexByte_digits hx hy, hexValue, hexValue, hx, hy]
  rfl

theorem isSome_hexByte_iff : (hexByte [a, b]).isSome ↔ DigitPair [a, b] ∨ LenientPair [a, b] := by
  constructor
  · intro h
    cases hb : hexDigit b with
    | none =>
      rw [hexByte_of_none hb] at h
      cases h
    | some y =>
      cases ha : hexDigit a with
      | some x => exact .inl ⟨by rw [ha]; rfl, by rw [hb]; rfl⟩
      | none =>
        right
        by_cases hblank : isSpace a ∨ a = '+'
        · exact .inl ⟨hblank, by rw [hb]; rfl⟩
        · rw [not_or, Bool.not_eq_true] at hblank
          by_cases hminus : a = '-'
          · subst hminus
            by_cases hzero : b = '0'
            · exact .inr ⟨rfl, hzero⟩
            · rw [hexByte_minus hb hzero] at h
              cases h
          · rw [hexByte_other ha hblank.1 hblank.2 hminus] at h
            cases h
  · rintro (h | ⟨hblank, hb⟩ | ⟨rfl, rfl⟩)
    · rw [hexByte_of_digitPair h]
      rfl
    · obtain ⟨y, hy⟩ := Option.isSome_iff_exists.mp hb
      rw [hexByte_blank hblank hy]
      rfl
    · rfl

theorem not_digitPair_of_lenientPair {pair : List Char} (h : LenientPair pair) :
    ¬DigitPair pair := by
  intro hdigits
  match pair, h, hdigits with
  | [a, b], h, ⟨ha, _⟩ =>
    rcases h with ⟨hblank | rfl, -⟩ | ⟨rfl, -⟩
    · rw [hexDigit_of_isSpace hblank] at ha
      cases ha
    · cases ha
    · cases ha

/-! ## What is accepted -/

variable {shardHex : List Char}

theorem forall_digitPair_iff (heven : shardHex.length % 2 = 0) :
    (∀ pair ∈ hexPairs shardHex, DigitPair pair) ↔ ∀ c ∈ shardHex, (hexDigit c).isSome := by
  induction shardHex using hexPairs.induct with
  | case1 a b rest ih =>
    rw [List.length_cons, List.length_cons] at heven
    rw [hexPairs, List.forall_mem_cons, List.forall_mem_cons, List.forall_mem_cons, ih (by omega),
      DigitPair, and_assoc]
  | case2 a => cases heven
  | case3 => simp [hexPairs]

theorem decodeHex_of_digits (heven : shardHex.length % 2 = 0)
    (h : ∀ pair ∈ hexPairs shardHex, DigitPair pair) :
    decodeHex shardHex = some (digitBytes shardHex) := by
  induction shardHex using hexPairs.induct with
  | case1 a b rest ih =>
    rw [List.length_cons, List.length_cons] at heven
    rw [hexPairs, List.forall_mem_cons] at h
    have hrest := ih (by omega) h.2
    rw [decodeHex] at hrest ⊢
    rw [hexPairs, List.mapM_cons, hexByte_of_digitPair h.1, hrest]
    rfl
  | case2 a => cases heven
  | case3 => rfl

theorem isSome_decodeHex_iff (heven : shardHex.length % 2 = 0) : (decodeHex shardHex).isSome ↔
    ∀ pair ∈ hexPairs shardHex, DigitPair pair ∨ LenientPair pair := by
  induction shardHex using hexPairs.induct with
  | case1 a b rest ih =>
    rw [List.length_cons, List.length_cons] at heven
    rw [hexPairs, List.forall_mem_cons, ← ih (by omega), ← isSome_hexByte_iff, decodeHex,
      hexPairs, List.mapM_cons, decodeHex]
    cases hexByte [a, b] with
    | none => simp
    | some byte => cases (hexPairs rest).mapM hexByte <;> simp
  | case2 a => cases heven
  | case3 => simp [hexPairs, decodeHex]

theorem parseShard_eq_map (hvalid : validShardHex shardHex) :
    parseShard shardHex = (decodeHex shardHex).map pushBits := by
  ext bits
  rw [parseShard_eq_some_iff, Option.map_eq_some_iff]
  simp only [hvalid, true_and, eq_comm]

theorem validShardHex_iff : validShardHex shardHex ↔ shardHex ≠ [] ∧ shardHex.length % 2 = 0 := by
  simp [validShardHex]

theorem exists_lenientPair (hpairs : ∀ pair ∈ hexPairs shardHex, DigitPair pair ∨ LenientPair pair)
    (h : ¬∀ pair ∈ hexPairs shardHex, DigitPair pair) :
    ∃ pair ∈ hexPairs shardHex, LenientPair pair := by
  push Not at h
  obtain ⟨pair, hmem, hdigits⟩ := h
  exact ⟨pair, hmem, (hpairs pair hmem).resolve_left hdigits⟩

/-- The server takes an argument as the grammar of shards does, unless it reads white space or
signs as parts of bytes. -/
theorem parseShard_eq_shardOf_iff (shardHex : List Char) :
    parseShard shardHex = shardOf shardHex ↔ ¬Lenient shardHex := by
  by_cases hvalid : shardHex ≠ [] ∧ shardHex.length % 2 = 0
  · obtain ⟨hne, heven⟩ := hvalid
    have hparse := parseShard_eq_map (validShardHex_iff.mpr ⟨hne, heven⟩)
    by_cases hdigits : ∀ pair ∈ hexPairs shardHex, DigitPair pair
    · have hlenient : ¬Lenient shardHex := by
        rintro ⟨-, -, -, pair, hmem, hpair⟩
        exact not_digitPair_of_lenientPair hpair (hdigits pair hmem)
      have hshard : shardOf shardHex = some (pushBits (digitBytes shardHex)) :=
        if_pos ⟨hne, heven, List.all_eq_true.mpr ((forall_digitPair_iff heven).mp hdigits)⟩
      rw [hparse, decodeHex_of_digits heven hdigits, hshard, Option.map_some]
      exact iff_of_true rfl hlenient
    · have hshard : shardOf shardHex = none :=
        if_neg fun h => hdigits ((forall_digitPair_iff heven).mpr (List.all_eq_true.mp h.2.2))
      have hlenient : Lenient shardHex ↔ (decodeHex shardHex).isSome := by
        rw [isSome_decodeHex_iff heven]
        exact ⟨fun h => h.2.2.1, fun h => ⟨hne, heven, h, exists_lenientPair h hdigits⟩⟩
      rw [hparse, hshard, hlenient, Option.map_eq_none_iff, Option.not_isSome_iff_eq_none]
  · have hparse : parseShard shardHex = none :=
      if_neg fun h => hvalid (validShardHex_iff.mp h)
    have hshard : shardOf shardHex = none := if_neg fun h => hvalid ⟨h.1, h.2.1⟩
    rw [hparse, hshard]
    exact iff_of_true rfl fun h => hvalid ⟨h.1, h.2.1⟩

/-- A blank and a digit are the byte of the digit. -/
theorem parseShard_blank : parseShard [' ', 'f'] ≠ shardOf [' ', 'f'] := by
  decide

end Freehold.Server
