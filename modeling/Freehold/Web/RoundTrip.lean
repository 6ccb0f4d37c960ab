import Freehold.Web.MpcUtil
import Mathlib.Data.List.GetD

/-!
# Sharing and putting together again

Bytes are compared bit by bit, the most significant bit of each byte first, as
`convertBytesToBits` lists them and `packBits` puts them together.
-/

namespace Freehold.Web

variable {bytes a b : List UInt8} {bits : List Bool} {i : ℕ}

/-- The `i`-th bit of the bytes. -/
def bit (bytes : List UInt8) (i : ℕ) : Bool := (bytes.getD (i / 8) 0).toNat.testBit (7 - i % 8)

/-! ## From bytes to bits -/

theorem binaryText_bits (x : UInt8) :
    ((binaryText x).map fun b => decide (b = '1')) =
      (List.range 8).map fun k => x.toNat.testBit (7 - k) := by
  have hall : ∀ n : Fin 256, (((Nat.toDigits 2 n).leftpad 8 '0').map fun b => decide (b = '1')) =
      (List.range 8).map fun k => (n : ℕ).testBit (7 - k) := by decide +kernel
  exact hall ⟨x.toNat, x.toNat_lt⟩

theorem convertBytesToBits_cons (x : UInt8) :
    convertBytesToBits (x :: bytes) =
      ((List.range 8).map fun k => x.toNat.testBit (7 - k)) ++ convertBytesToBits bytes := by
  rw [convertBytesToBits, List.flatMap_cons, binaryText_bits]
  rfl

theorem length_convertBytesToBits : (convertBytesToBits bytes).length = 8 * bytes.length := by
  induction bytes with
  | nil => rfl
  | cons x bytes ih =>
    rw [convertBytesToBits_cons, List.length_append, ih, List.length_cons, List.length_map,
      List.length_range]
    omega

theorem bit_cons_of_lt (x : UInt8) (hi : i < 8) : bit (x :: bytes) i = x.toNat.testBit (7 - i) := by
  unfold bit
  rw [Nat.div_eq_of_lt hi, Nat.mod_eq_of_lt hi]
  rfl

theorem bit_cons_add (x : UInt8) (i : ℕ) : bit (x :: bytes) (8 + i) = bit bytes i := by
  unfold bit
  rw [Nat.add_div_left i (by norm_num), Nat.add_mod_left]
  rfl

theorem getD_convertBytesToBits : (convertBytesToBits bytes).getD i false = bit bytes i := by
  induction bytes generalizing i with
  | nil => simp [convertBytesToBits, bit]
  | cons x bytes ih =>
    rw [convertBytesToBits_cons]
    rcases lt_or_ge i 8 with hi | hi
    · rw [bit_cons_of_lt x hi, List.getD_append _ _ _ _ (by simpa using hi)]
      simp [hi]
    · obtain ⟨j, rfl⟩ := Nat.exists_eq_add_of_le hi
      rw [bit_cons_add, ← ih, List.getD_append_right _ _ _ _ (by simp)]
      simp

/-- Bytes of the same length with the same bits are the same. -/
theorem eq_of_bit (hlength : a.length = b.length) (h : ∀ i, bit a i = bit b i) : a = b := by
  refine List.ext_getElem hlength fun j ha hb =>
    UInt8.toNat_inj.mp (Nat.eq_of_testBit_eq fun k => ?_)
  rcases lt_or_ge k 8 with hk | hk
  · have hbit := h (8 * j + (7 - k))
    have hdiv : (8 * j + (7 - k)) / 8 = j := by omega
    have hmod : 7 - (8 * j + (7 - k)) % 8 = k := by omega
    rw [bit, bit, hdiv, hmod, List.getD_eq_getElem _ _ ha, List.getD_eq_getElem _ _ hb] at hbit
    exact hbit
  · have hlt : ∀ x : UInt8, x.toNat < 2 ^ k := fun x =>
      x.toNat_lt.trans_le (Nat.pow_le_pow_right (by norm_num) hk)
    rw [Nat.testBit_lt_two_pow (hlt _), Nat.testBit_lt_two_pow (hlt _)]

/-! ## From bits to bytes -/

theorem toNat_mask (k : ℕ) : ((1 : UInt8) <<< UInt8.ofNat (7 - k % 8)).toNat = 2 ^ (7 - k % 8) := by
  have hall : ∀ j : Fin 8, ((1 : UInt8) <<< UInt8.ofNat (7 - j)).toNat = 2 ^ (7 - (j : ℕ)) := by
    decide
  exact hall ⟨k % 8, Nat.mod_lt _ (by norm_num)⟩

theorem bit_modify (m : ℕ) (hm : m / 8 < bytes.length) :
    bit (bytes.modify (m / 8) fun byte => byte ||| (1 <<< UInt8.ofNat (7 - m % 8))) i =
      (bit bytes i || decide (i = m)) := by
  unfold bit
  by_cases hdiv : i / 8 = m / 8
  · rw [hdiv, List.getD_eq_getElem _ _ (by simpa using hm), List.getD_eq_getElem _ _ hm,
      List.getElem_modify_eq, UInt8.toNat_or, Nat.testBit_or, toNat_mask, Nat.testBit_two_pow]
    have hiff : 7 - m % 8 = 7 - i % 8 ↔ i = m := by omega
    simp only [hiff]
  · have hne : i ≠ m := fun h => hdiv (by rw [h])
    simp [List.getD_eq_getElem?_getD, Ne.symm hdiv, hne]

/-- One round sets one bit. -/
theorem bit_setBit (m : ℕ) (hm : m / 8 < bytes.length) :
    bit (setBit bits bytes m) i = (bit bytes i || (decide (i = m) && bits.getD m false)) := by
  unfold setBit
  split
  · rename_i hbit
    rw [bit_modify m hm, List.getD_eq_getElem?_getD, hbit]
    simp
  · rename_i hbit
    have hfalse : bits.getD m false = false := by
      rw [List.getD_eq_getElem?_getD]
      cases h : bits[m]? with
      | none => rfl
      | some x =>
        cases x with
        | false => rfl
        | true => exact absurd h hbit
    rw [hfalse, Bool.and_false, Bool.or_false]

theorem length_setBit (m : ℕ) : (setBit bits bytes m).length = bytes.length := by
  unfold setBit
  split <;> simp

/-- The bits that the first `m` rounds set. -/
theorem packBits_loop (bits : List Bool) (m : ℕ) (hm : m ≤ bits.length) :
    let packed := (List.range m).foldl (setBit bits) (List.replicate ((bits.length + 7) / 8) 0)
    packed.length = (bits.length + 7) / 8 ∧
      ∀ i, bit packed i = (decide (i < m) && bits.getD i false) := by
  induction m with
  | zero =>
    refine ⟨by simp, fun i => ?_⟩
    simp [bit]
  | succ m ih =>
    obtain ⟨hlength, hbits⟩ := ih (by omega)
    rw [List.range_succ, List.foldl_append]
    refine ⟨(length_setBit m).trans hlength, fun i => ?_⟩
    simp only [List.foldl_cons, List.foldl_nil]
    rw [bit_setBit m (by rw [hlength]; omega), hbits]
    rcases lt_trichotomy i m with hi | rfl | hi
    · simp [hi, hi.ne, Nat.lt_succ_of_lt hi]
    · simp
    · simp [hi.not_gt, hi.ne', Nat.not_lt.mpr (Nat.succ_le_of_lt hi)]

theorem length_packBits : (packBits bits).length = (bits.length + 7) / 8 :=
  (packBits_loop bits bits.length le_rfl).1

theorem bit_packBits : bit (packBits bits) i = bits.getD i false := by
  rw [packBits, (packBits_loop bits bits.length le_rfl).2]
  rcases lt_or_ge i bits.length with hi | hi
  · simp [hi]
  · simp [hi.not_gt]

/-! ## The shares -/

/-- The sum of the `i`-th bits modulo 2. -/
def parity (shares : List (List Bool)) (i : ℕ) : Bool :=
  shares.foldr (fun share rest => share.getD i false ^^ rest) false

@[simp] theorem parity_nil : parity [] i = false := rfl

@[simp] theorem parity_cons (share : List Bool) (shares : List (List Bool)) :
    parity (share :: shares) i = (share.getD i false ^^ parity shares i) := rfl

theorem length_shareOf (randomArray : List UInt8) :
    (shareOf randomArray).length = randomArray.length :=
  List.length_map _

theorem length_xorWith (x y : List Bool) : (xorWith x y).length = x.length := List.length_mapIdx

theorem getD_xorWith {x y : List Bool} (h : y.length = x.length) :
    (xorWith x y).getD i false = (x.getD i false ^^ y.getD i false) := by
  unfold xorWith
  simp only [List.getD_eq_getElem?_getD, List.getElem?_mapIdx]
  rcases lt_or_ge i x.length with hi | hi
  · have hy : i < y.length := by omega
    rw [List.getElem?_eq_getElem hi, List.getElem?_eq_getElem hy]
    cases x[i] <;> cases y[i] <;> rfl
  · rw [List.getElem?_eq_none hi, List.getElem?_eq_none (by omega)]
    rfl

theorem length_getRandomValues {random : ℕ → UInt8} {len : ℕ} {randomArray : List UInt8}
    (h : getRandomValues random len = some randomArray) : randomArray.length = len := by
  unfold getRandomValues at h
  split at h
  · cases h
    simp
  · cases h

/-- The loop keeps the parity of the shares together with `current_xor`. -/
theorem shareLoop_spec {random : ℕ → ℕ → UInt8} {len count : ℕ} {cur cur' : List Bool}
    {shares : List (List Bool)} (hcur : cur.length = len)
    (h : shareLoop random len i count cur = some (shares, cur')) :
    shares.length = count ∧ (∀ share ∈ cur' :: shares, share.length = len) ∧
      ∀ k, parity (cur' :: shares) k = cur.getD k false := by
  induction count generalizing i cur cur' shares with
  | zero =>
    cases h
    exact ⟨rfl, by simpa using hcur, by simp⟩
  | succ count ih =>
    obtain ⟨randomArray, hrandom, h⟩ := Option.bind_eq_some_iff.mp h
    obtain ⟨⟨others, last⟩, hothers, h⟩ := Option.bind_eq_some_iff.mp h
    cases h
    have hshare : (shareOf randomArray).length = len :=
      (length_shareOf _).trans (length_getRandomValues hrandom)
    obtain ⟨hcount, hlengths, hparity⟩ := ih ((length_xorWith ..).trans hcur) hothers
    refine ⟨by rw [List.length_cons, hcount], ?_, fun k => ?_⟩
    · simp only [List.forall_mem_cons] at hlengths ⊢
      exact ⟨hlengths.1, hshare, hlengths.2⟩
    · have hk := hparity k
      rw [getD_xorWith (hshare.trans hcur.symm)] at hk
      simp only [parity_cons] at hk ⊢
      calc (cur'.getD k false ^^ ((shareOf randomArray).getD k false ^^ parity others k))
          = ((shareOf randomArray).getD k false ^^ (cur'.getD k false ^^ parity others k)) :=
            Bool.xor_left_comm ..
        _ = ((shareOf randomArray).getD k false ^^
              (cur.getD k false ^^ (shareOf randomArray).getD k false)) := by rw [hk]
        _ = cur.getD k false := by rw [Bool.xor_left_comm, Bool.xor_self, Bool.xor_false]

theorem exists_shareLoop (random : ℕ → ℕ → UInt8) {len : ℕ} (hlen : len ≤ 65536) (i count : ℕ)
    (cur : List Bool) : ∃ result, shareLoop random len i count cur = some result := by
  induction count generalizing i cur with
  | zero => exact ⟨_, rfl⟩
  | succ count ih =>
    obtain ⟨result, hresult⟩ := ih (i + 1)
      (xorWith cur (shareOf ((List.range len).map (random i))))
    exact ⟨(shareOf ((List.range len).map (random i)) :: result.1, result.2), by
      simp [shareLoop, getRandomValues, hlen, hresult]⟩

/-! ## The decoded shares -/

def xorBytes (a b : List UInt8) : List UInt8 := List.zipWith (fun x y => x ^^^ y) a b

/-- The XOR of byte strings of one length. -/
def xorAll : List (List UInt8) → List UInt8
  | [] => []
  | [a] => a
  | a :: b :: rest => xorBytes a (xorAll (b :: rest))

theorem bit_xorBytes (h : a.length = b.length) : bit (xorBytes a b) i = (bit a i ^^ bit b i) := by
  unfold bit xorBytes
  simp only [List.getD_eq_getElem?_getD, List.getElem?_zipWith]
  rcases lt_or_ge (i / 8) a.length with hi | hi
  · have hb : i / 8 < b.length := by omega
    simp [List.getElem?_eq_getElem hi, List.getElem?_eq_getElem hb]
  · simp [List.getElem?_eq_none hi, List.getElem?_eq_none (h ▸ hi)]

theorem length_xorAll {len : ℕ} {strings : List (List UInt8)} (hne : strings ≠ [])
    (h : ∀ s ∈ strings, s.length = len) : (xorAll strings).length = len := by
  fun_induction xorAll strings with
  | case1 => exact absurd rfl hne
  | case2 a => exact h a List.mem_cons_self
  | case3 a b rest ih =>
    rw [List.forall_mem_cons] at h
    rw [xorBytes, List.length_zipWith, h.1, ih (List.cons_ne_nil _ _) h.2, min_self]

theorem bit_xorAll_packBits {len : ℕ} {shares : List (List Bool)}
    (h : ∀ share ∈ shares, share.length = len) :
    bit (xorAll (shares.map packBits)) i = parity shares i := by
  have hpacked : ∀ shares : List (List Bool), (∀ share ∈ shares, share.length = len) →
      ∀ s ∈ shares.map packBits, s.length = (len + 7) / 8 := fun shares h s hs => by
    obtain ⟨share, hshare, rfl⟩ := List.mem_map.mp hs
    rw [length_packBits, h share hshare]
  induction shares with
  | nil => simp [xorAll, bit]
  | cons share shares ih =>
    cases shares with
    | nil => simp [xorAll, bit_packBits]
    | cons other others =>
      have hcons := List.forall_mem_cons.mp h
      have hlength := length_xorAll (List.cons_ne_nil _ _) (hpacked (other :: others) hcons.2)
      have hrest := ih hcons.2
      rw [List.map_cons] at hrest
      rw [List.map_cons, List.map_cons, xorAll, bit_xorBytes, bit_packBits, hrest]
      · rfl
      · rw [hlength, length_packBits, hcons.1]

/-- XOR-ing the decoded shares of a byte string gives the byte string back. -/
theorem xorAll_decoded_shares (bytes : List UInt8) (hbytes : bytes.length ≤ 8192) (numParties : ℕ)
    (hparties : 1 ≤ numParties) (random : ℕ → ℕ → UInt8) :
    ∃ shares decoded, generateXorShares (convertBytesToBits bytes) numParties random = some shares ∧
      shares.length = numParties ∧
      shares.mapM (fun share => Base64.decode (bitsToB64 share)) = some decoded ∧
      xorAll decoded = bytes := by
  have hlen : (convertBytesToBits bytes).length ≤ 65536 := by
    rw [length_convertBytesToBits]
    omega
  obtain ⟨⟨others, first⟩, hloop⟩ := exists_shareLoop random hlen 1 (numParties - 1)
    (convertBytesToBits bytes)
  obtain ⟨hcount, hlengths, hparity⟩ := shareLoop_spec rfl hloop
  refine ⟨first :: others, (first :: others).map packBits, ?_, ?_, ?_, ?_⟩
  · simp [generateXorShares, hloop]
  · rw [List.length_cons, hcount]
    omega
  · have hdecode : (fun share => Base64.decode (bitsToB64 share)) = fun share =>
        some (packBits share) :=
      funext fun share => Base64.decode_encode _
    rw [hdecode]
    exact List.mapM_pure
  · refine eq_of_bit ?_ fun i => ?_
    · have hpacked : ∀ s ∈ (first :: others).map packBits, s.length = bytes.length := fun s hs => by
        obtain ⟨share, hshare, rfl⟩ := List.mem_map.mp hs
        rw [length_packBits, hlengths share hshare, length_convertBytesToBits]
        omega
      exact length_xorAll (List.cons_ne_nil _ _) hpacked
    · rw [bit_xorAll_packBits hlengths, hparity, getD_convertBytesToBits]

theorem xorAll_decoded_shares_demo :
    ∃ shares decoded, generateXorShares (convertBytesToBits [0x66, 0x6F, 0x6F]) 5 (fun i k =>
        UInt8.ofNat (i * k)) = some shares ∧ shares.length = 5 ∧
      shares.mapM (fun share => Base64.decode (bitsToB64 share)) = some decoded ∧
      xorAll decoded = [0x66, 0x6F, 0x6F] :=
  xorAll_decoded_shares [0x66, 0x6F, 0x6F] (by decide) 5 (by decide) _

end Freehold.Web
