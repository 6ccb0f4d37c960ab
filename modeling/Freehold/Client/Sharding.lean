import Freehold.Client.Python
import Freehold.Foundation.SecretSharing
import Mathlib.NumberTheory.LucasLehmer

/-!
# Threshold sharding of identity secrets

`ThresholdSharder` with `shard_secret` and `reconstruct_secret`, and the e-mail
enrolment on top of them. The output of `secrets.randbits` is an argument.
-/

namespace Freehold.Client

/-- The Mersenne prime `2**521 - 1`. -/
@[irreducible] def prime : ℕ := 2 ^ 521 - 1

structure ThresholdSharder where
  t : ℕ
  n : ℕ

structure Shard where
  nodeId : ℕ
  epoch : ℤ
  shard : List Char
  deriving DecidableEq

structure ShardedSecret where
  shards : List Shard
  length : ℕ
  threshold : ℕ
  totalNodes : ℕ

/-- The inner loop of `shard_secret`: the value at node `i` of the polynomial with
these coefficients, lowest degree first. -/
def shardValue (coeffs : List ℕ) (i : ℕ) : ℕ :=
  coeffs.zipIdx.foldl (fun y term => (y + term.1 * (i ^ term.2 % prime)) % prime) 0

/-- `randbits k` is the result of the `k`-th call of `secrets.randbits(521)`. -/
def ThresholdSharder.shardSecret (self : ThresholdSharder) (randbits : Fin (self.t - 1) → ℕ)
    (secretBytes : List UInt8) (epoch : ℤ := 1) : ShardedSecret :=
  let secretInt := intFromBytes secretBytes
  let coeffs := secretInt :: List.ofFn fun k => randbits k % prime
  { shards := (List.range' 1 self.n).map fun i => ⟨i, epoch, hex (shardValue coeffs i)⟩
    length := secretBytes.length
    threshold := self.t
    totalNodes := self.n }

/-- `pow(den, -1, prime)`. -/
def powInverse (den : ℤ) : Except PyError ℤ :=
  if Int.gcd den prime = 1 then .ok (Int.gcdA den prime % prime)
  else .error (.valueError "base is not invertible for the given modulus")

/-- The inner loop body of `reconstruct_secret`: point `j` against point `i`. -/
def lagrangeStep (i : ℕ) (xi li : ℤ) (point : (ℤ × ℤ) × ℕ) : Except PyError ℤ :=
  if i = point.2 then .ok li
  else do
    let num : ℤ := (0 - point.1.1) % prime
    let den : ℤ := (xi - point.1.1) % prime
    let inverse ← powInverse den
    return li * num * inverse % prime

/-- The outer loop body of `reconstruct_secret`: add the term of point `i`. -/
def interpolationStep (nodeShards : List (ℤ × ℤ)) (secret : ℤ) (point : (ℤ × ℤ) × ℕ) :
    Except PyError ℤ := do
  let li ← nodeShards.zipIdx.foldlM (lagrangeStep point.2 point.1.1) 1
  return (secret + point.1.2 * li) % prime

def reconstructSecret (nodeShards : List (ℤ × ℤ)) (originalLen : ℕ) :
    Except PyError (List UInt8) := do
  let secret ← nodeShards.zipIdx.foldlM (interpolationStep nodeShards) 0
  intToBytes secret originalLen

/-- The pair `(node_id, int(shard, 16))` that callers hand to `reconstruct_secret`. -/
def Shard.point (s : Shard) : Except PyError (ℤ × ℤ) := do
  let y ← intBase16 s.shard
  return (s.nodeId, y)

/-- `email.encode('utf-8')`. -/
def encodeUtf8 (text : String) : List UInt8 := text.toByteArray.data.toList

/-- `bytes.decode('utf-8')`. -/
def decodeUtf8 (bytes : List UInt8) : Except PyError String :=
  match String.fromUTF8? ⟨bytes.toArray⟩ with
  | some text => .ok text
  | none => .error .unicodeDecodeError

def enrollEmail (randbits : Fin (3 - 1) → ℕ) (email : String) (n : ℕ := 5) : ShardedSecret :=
  ThresholdSharder.shardSecret ⟨3, n⟩ randbits (encodeUtf8 email)

/-- The pair `(i + 1, int(h, 16))`: the position stands for the node. -/
def positionPoint (entry : List Char × ℕ) : Except PyError (ℤ × ℤ) := do
  let y ← intBase16 entry.1
  return ((entry.2 : ℤ) + 1, y)

def reconstructEmail (shardsHex : List (List Char)) (emailLength : ℕ) :
    Except PyError String := do
  let nodeShards ← (shardsHex.take 3).zipIdx.mapM positionPoint
  let reconstructedBytes ← reconstructSecret nodeShards emailLength
  decodeUtf8 reconstructedBytes

/-! ## The shards of a secret -/

theorem prime_eq_mersenne : prime = mersenne 521 := by
  unfold prime
  rfl

theorem prime_prime : Nat.Prime prime := by
  rw [prime_eq_mersenne]
  exact lucas_lehmer_sufficiency _ (by simp) (by norm_num)

instance : Fact (Nat.Prime prime) := ⟨prime_prime⟩

theorem mersenne_lt_two_pow (k : ℕ) : mersenne k < 2 ^ k :=
  Nat.sub_lt (by positivity) one_pos

theorem two_pow_le_mersenne_succ (k : ℕ) : 2 ^ k ≤ mersenne (k + 1) := by
  have hpos : 0 < 2 ^ k := by positivity
  rw [mersenne, pow_succ]
  omega

/-- Every string of at most 65 bytes is below the prime. -/
theorem intFromBytes_lt_prime {bytes : List UInt8} (h : bytes.length ≤ 65) :
    intFromBytes bytes < prime := by
  have hbits : ∀ k, (256 : ℕ) ^ k = 2 ^ (8 * k) := fun k => (pow_mul 2 8 k).symm
  calc intFromBytes bytes < 256 ^ bytes.length := intFromBytes_lt bytes
    _ ≤ 256 ^ 65 := Nat.pow_le_pow_right (by norm_num) h
    _ = 2 ^ (8 * 65) := hbits 65
    _ ≤ mersenne (8 * 65 + 1) := two_pow_le_mersenne_succ _
    _ = prime := prime_eq_mersenne.symm

/-- A string of more than 65 bytes is not, unless it starts with a byte 0 or 1. -/
theorem prime_le_intFromBytes {b : UInt8} {bytes : List UInt8} (hb : 2 ≤ b.toNat)
    (hlen : 65 ≤ bytes.length) : prime ≤ intFromBytes (b :: bytes) := by
  have hbits : ∀ k, (2 : ℕ) ^ (8 * k + 1) = 2 * 256 ^ k := fun k => by
    rw [pow_succ, pow_mul, mul_comm]
    norm_num
  calc prime = mersenne (8 * 65 + 1) := prime_eq_mersenne
    _ ≤ 2 ^ (8 * 65 + 1) := (mersenne_lt_two_pow _).le
    _ = 2 * 256 ^ 65 := hbits 65
    _ ≤ b.toNat * 256 ^ bytes.length :=
        Nat.mul_le_mul hb (Nat.pow_le_pow_right (by norm_num) hlen)
    _ ≤ intFromBytes (b :: bytes) := by rw [intFromBytes_cons]; exact Nat.le_add_right _ _

theorem lt_prime_of_lt_byte {n : ℕ} (h : n < 256) : n < prime := by
  have hlt : intFromBytes [UInt8.ofNat n] < prime := intFromBytes_lt_prime (by simp)
  have hval : intFromBytes [UInt8.ofNat n] = n := by
    simp [intFromBytes, Nat.mod_eq_of_lt h]
  rwa [hval] at hlt

theorem shardValue_lt (coeffs : List ℕ) (i : ℕ) : shardValue coeffs i < prime := by
  have hrun : ∀ (terms : List (ℕ × ℕ)) (y : ℕ), y < prime →
      terms.foldl (fun y term => (y + term.1 * (i ^ term.2 % prime)) % prime) y < prime := by
    intro terms
    induction terms with
    | nil => exact fun y hy => hy
    | cons term terms ih => exact fun y _ => ih _ (Nat.mod_lt _ prime_prime.pos)
  exact hrun _ 0 prime_prime.pos

theorem zipIdx_ofFn {α : Type*} {n : ℕ} (f : Fin n → α) (m : ℕ) :
    (List.ofFn f).zipIdx m = List.ofFn fun k => (f k, m + k.val) := by
  refine List.ext_getElem (by simp) fun k _ _ => ?_
  simp

/-- Modulo the prime, the inner loop sums the terms of the polynomial. -/
theorem shardValue_eq_sum (coeffs : List ℕ) (i : ℕ) :
    (shardValue coeffs i : ZMod prime) =
      (coeffs.zipIdx.map fun term => (term.1 : ZMod prime) * (i : ZMod prime) ^ term.2).sum := by
  have hrun : ∀ (terms : List (ℕ × ℕ)) (y : ℕ),
      ((terms.foldl (fun y term => (y + term.1 * (i ^ term.2 % prime)) % prime) y : ℕ) :
        ZMod prime) =
        y + (terms.map fun term => (term.1 : ZMod prime) * (i : ZMod prime) ^ term.2).sum := by
    intro terms
    induction terms with
    | nil => simp
    | cons term terms ih =>
      intro y
      rw [List.foldl_cons, ih, List.map_cons, List.sum_cons, ← add_assoc]
      simp
  rw [shardValue, hrun, Nat.cast_zero, zero_add]

/-- The shard of node `i` is the dealer's share at `i`. -/
theorem shardValue_eq_share {d : ℕ} (secretInt : ℕ) (randbits : Fin d → ℕ) (i : ℕ) :
    (shardValue (secretInt :: List.ofFn fun k => randbits k % prime) i : ZMod prime) =
      SecretSharing.share (secretInt : ZMod prime) (fun k => (randbits k : ZMod prime)) i := by
  rw [shardValue_eq_sum, List.zipIdx_cons, zipIdx_ofFn, List.map_cons, List.sum_cons,
    List.map_ofFn, List.sum_ofFn, SecretSharing.share]
  simp [add_comm]

/-- A shard that was handed out is read back as its node and its value. -/
theorem point_of_mem_shards {self : ThresholdSharder} {randbits : Fin (self.t - 1) → ℕ}
    {secretBytes : List UInt8} {epoch : ℤ} {s : Shard}
    (hs : s ∈ (self.shardSecret randbits secretBytes epoch).shards) :
    1 ≤ s.nodeId ∧ s.nodeId ≤ self.n ∧
      s.point = .ok ((s.nodeId : ℤ), (shardValue
        (intFromBytes secretBytes :: List.ofFn fun k => randbits k % prime) s.nodeId : ℤ)) := by
  obtain ⟨i, hi, rfl⟩ := List.mem_map.mp hs
  have hrange := List.mem_range'_1.mp hi
  refine ⟨hrange.1, by simp only; omega, ?_⟩
  simp only [Shard.point, intBase16_hex]
  rfl

end Freehold.Client
