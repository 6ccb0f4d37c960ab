import Freehold.Server.Environment

/-!
# The forwarder's proof check (`forwarder.cpp`)

`SMTPForwarder` loads the circuit hash and the cluster key once and checks the proof of
every ciphertext with them. Strings and buffers are lists of bytes. SHA-256 and
HMAC-SHA256 are parameters; HMAC accepts an empty key.
-/

namespace Freehold.Forwarder

open Freehold.Server

/-! ## Hashes in hexadecimal -/

/-- SHA-256 on a message. -/
abbrev Sha256 := List UInt8 → Bytes 32

/-- `%x` of a digit. -/
def hexDigit (n : ℕ) : UInt8 := UInt8.ofNat (if n < 10 then 48 + n else 87 + n)

/-- `%02x` of every byte. -/
def hex (bytes : List UInt8) : List UInt8 :=
  bytes.flatMap fun byte => [hexDigit (byte.toNat / 16), hexDigit (byte.toNat % 16)]

def sha256Hex (sha256 : Sha256) (data : List UInt8) : List UInt8 := hex (sha256 data).val

def hmacSha256Hex (hmac : HmacSha256) (key data : List UInt8) : List UInt8 :=
  hex (hmac key data).val

theorem length_hex (bytes : List UInt8) : (hex bytes).length = 2 * bytes.length := by
  induction bytes with
  | nil => rfl
  | cons byte bytes ih =>
    simp only [hex, List.flatMap_cons, List.length_append, List.length_cons] at ih ⊢
    simp only [ih, List.length_nil]
    omega

@[simp] theorem length_sha256Hex (sha256 : Sha256) (data : List UInt8) :
    (sha256Hex sha256 data).length = 64 := by
  simp [sha256Hex, length_hex]

theorem length_hmacSha256Hex (hmac : HmacSha256) (key data : List UInt8) :
    (hmacSha256Hex hmac key data).length = 64 := by
  simp [hmacSha256Hex, length_hex]

/-! ## Start-up -/

/-- The part of `SMTPForwarder::Config` that start-up reads. -/
structure Config where
  circuitPath : String
  clusterKeyPath : String
  allowInsecure : Bool

structure SMTPForwarder where
  expectedCircuitHash : List UInt8
  clusterKey : List UInt8

/-- What `ifstream` finds under a path. -/
abbrev Files := String → Option (List UInt8)

/-- The path that an empty `circuit_path` is replaced by. -/
def defaultCircuitPath : String := "reference/JesseQ/JQv1/test/bool/AES-non-expanded.txt"

def loadCircuitHash (sha256 : Sha256) (files : Files) (cfg : Config) :
    Except String (List UInt8) :=
  let circuitPath := if cfg.circuitPath = "" then defaultCircuitPath else cfg.circuitPath
  match files circuitPath with
  | some contents => .ok (sha256Hex sha256 contents)
  | none => .error ("Circuit file missing: " ++ circuitPath)

/-- Without a key file the key stays empty if `allow_insecure` is set. -/
def loadClusterKey (files : Files) (cfg : Config) : Except String (List UInt8) :=
  match files cfg.clusterKeyPath with
  | some contents => .ok contents
  | none =>
    if cfg.allowInsecure then .ok []
    else .error ("HMAC key file missing: " ++ cfg.clusterKeyPath)

/-- The constructor. -/
def SMTPForwarder.new (sha256 : Sha256) (files : Files) (cfg : Config) :
    Except String SMTPForwarder := do
  let expectedCircuitHash ← loadCircuitHash sha256 files cfg
  let clusterKey ← loadClusterKey files cfg
  pure ⟨expectedCircuitHash, clusterKey⟩

/-! ## `verify_proof` -/

/-- The message under the signature. -/
def signatureMessage (ciphertext circuitHash : List UInt8) : List UInt8 :=
  ciphertext ++ circuitHash

/-- `ct_len / max(commitments.size(), 1)`. -/
def chunkSize (ctLen commitments : ℕ) : ℕ := ctLen / max commitments 1

/-- The message under commitment `i`. -/
def chunk (ciphertext : List UInt8) (commitments i : ℕ) : List UInt8 :=
  let offset := i * chunkSize ciphertext.length commitments
  (ciphertext.drop offset).take
    (min (chunkSize ciphertext.length commitments) (ciphertext.length - offset))

def SMTPForwarder.verifyProof (f : SMTPForwarder) (hmac : HmacSha256)
    (ciphertext circuitHash signatureHex : List UInt8) (commitments : List (List UInt8)) : Bool :=
  if circuitHash ≠ f.expectedCircuitHash then false
  else if signatureHex.isEmpty || commitments.isEmpty then false
  else if signatureHex ≠
      hmacSha256Hex hmac f.clusterKey (signatureMessage ciphertext circuitHash) then false
  else commitments.zipIdx.all fun (commitment, i) =>
    commitment == hmacSha256Hex hmac f.clusterKey (chunk ciphertext commitments.length i)

/-- Circuit hash, signature and commitments of a proof header. -/
structure ProofHeader where
  circuitHash : List UInt8
  signatureHex : List UInt8
  commitments : List (List UInt8)

/-- The header that the holder of a key makes for a ciphertext, with `k` commitments. -/
def proofHeader (hmac : HmacSha256) (key circuitHash ciphertext : List UInt8) (k : ℕ) :
    ProofHeader where
  circuitHash := circuitHash
  signatureHex := hmacSha256Hex hmac key (signatureMessage ciphertext circuitHash)
  commitments := (List.range k).map fun i => hmacSha256Hex hmac key (chunk ciphertext k i)

variable {hmac : HmacSha256} {f : SMTPForwarder}

theorem hmacSha256Hex_ne_nil (hmac : HmacSha256) (key data : List UInt8) :
    hmacSha256Hex hmac key data ≠ [] := by
  intro h
  have hlen := length_hmacSha256Hex hmac key data
  rw [h] at hlen
  cases hlen

/-- A list that is compared entry by entry is the list of the expected entries. -/
theorem zipIdx_all_beq {α : Type} [BEq α] [LawfulBEq α] (l : List α) (expected : ℕ → α) :
    (l.zipIdx.all fun (a, i) => a == expected i) = true ↔
      l = (List.range l.length).map expected := by
  rw [List.all_eq_true]
  constructor
  · intro h
    refine List.ext_getElem (by simp) fun i hi _ => ?_
    have hmem : (l[i], i) ∈ l.zipIdx := by
      rw [List.mem_zipIdx_iff_getElem?]
      exact List.getElem?_eq_getElem hi
    simpa using h _ hmem
  · rintro h ⟨a, i⟩ hmem
    have hsome : l[i]? = some a := List.mem_zipIdx_iff_getElem?.mp hmem
    obtain ⟨hi, rfl⟩ := List.getElem?_eq_some_iff.mp hsome
    have hget := congrArg (fun l' : List α => l'[i]?) h
    simpa [hi] using hget

/-- Only the headers of the forwarder's own key and circuit hash are accepted. -/
theorem verifyProof_iff (ciphertext : List UInt8) (header : ProofHeader) :
    f.verifyProof hmac ciphertext header.circuitHash header.signatureHex header.commitments
        = true ↔
      ∃ k ≥ 1, header = proofHeader hmac f.clusterKey f.expectedCircuitHash ciphertext k := by
  obtain ⟨circuitHash, signatureHex, commitments⟩ := header
  have hall := zipIdx_all_beq commitments
    fun i => hmacSha256Hex hmac f.clusterKey (chunk ciphertext commitments.length i)
  simp only [SMTPForwarder.verifyProof]
  constructor
  · intro h
    split_ifs at h with hhash hempty hsignature
    simp only [ne_eq, not_not] at hhash hsignature
    simp only [Bool.or_eq_true, List.isEmpty_iff, not_or] at hempty
    refine ⟨commitments.length, List.length_pos_iff.mpr hempty.2, ?_⟩
    rw [proofHeader, ← hall.mp h, hsignature, hhash]
  · rintro ⟨k, hk, h⟩
    simp only [proofHeader, ProofHeader.mk.injEq] at h
    obtain ⟨rfl, rfl, hcommitments⟩ := h
    have hlen : commitments.length = k := by simp [hcommitments]
    have hne : commitments ≠ [] := List.ne_nil_of_length_pos (by omega)
    have hmac_ne := hmacSha256Hex_ne_nil hmac f.clusterKey
      (signatureMessage ciphertext f.expectedCircuitHash)
    subst hlen
    simpa [hne, hmac_ne] using hall.mpr hcommitments

/-- The forwarder's own key makes proofs that it accepts. -/
theorem verifyProof_proofHeader (f : SMTPForwarder) (hmac : HmacSha256)
    (ciphertext : List UInt8) {k : ℕ} (hk : 1 ≤ k) :
    f.verifyProof hmac ciphertext
      (proofHeader hmac f.clusterKey f.expectedCircuitHash ciphertext k).circuitHash
      (proofHeader hmac f.clusterKey f.expectedCircuitHash ciphertext k).signatureHex
      (proofHeader hmac f.clusterKey f.expectedCircuitHash ciphertext k).commitments = true :=
  (verifyProof_iff ciphertext _).mpr ⟨k, hk, rfl⟩

/-! ## Without a key -/

theorem clusterKey_of_new {sha256 : Sha256} {files : Files} {cfg : Config}
    (hnew : SMTPForwarder.new sha256 files cfg = .ok f)
    (hmissing : files cfg.clusterKeyPath = none) :
    f.clusterKey = [] := by
  rw [SMTPForwarder.new, loadClusterKey, hmissing] at hnew
  cases hhash : loadCircuitHash sha256 files cfg with
  | error e =>
    rw [hhash] at hnew
    cases hnew
  | ok circuitHash =>
    rw [hhash] at hnew
    cases hinsecure : cfg.allowInsecure with
    | false =>
      rw [hinsecure] at hnew
      cases hnew
    | true =>
      rw [hinsecure] at hnew
      cases hnew
      rfl

/-- Started without a key file, the forwarder refuses a proof exactly when it is not one of
those that anybody can make with the empty key. -/
theorem verifyProof_eq_false_iff_of_missing_key {sha256 : Sha256} {files : Files} {cfg : Config}
    (hnew : SMTPForwarder.new sha256 files cfg = .ok f) (hmissing : files cfg.clusterKeyPath = none)
    (ciphertext : List UInt8) (header : ProofHeader) :
    f.verifyProof hmac ciphertext header.circuitHash header.signatureHex header.commitments
        = false ↔
      ∀ k ≥ 1, header ≠ proofHeader hmac [] f.expectedCircuitHash ciphertext k := by
  have hiff : f.verifyProof hmac _ _ _ _ = true ↔ _ := verifyProof_iff ciphertext header
  rw [clusterKey_of_new hnew hmissing] at hiff
  rw [← Bool.not_eq_true, hiff]
  simp only [ge_iff_le, not_exists, not_and, ne_eq]

/-- The circuit file is there and the key file is not, as when `main` starts the forwarder. -/
def keylessFiles : Files := fun path => if path = "sha256.txt" then some [] else none

def keylessConfig : Config where
  circuitPath := "sha256.txt"
  clusterKeyPath := "cluster_verify.key"
  allowInsecure := true

theorem length_demoDigest : (List.replicate 32 (0 : UInt8)).length = 32 := rfl

def demoSha256 : Sha256 := fun _ => ⟨List.replicate 32 0, length_demoDigest⟩

def keylessForwarder : SMTPForwarder := ⟨sha256Hex demoSha256 [], []⟩

theorem keylessForwarder_new :
    SMTPForwarder.new demoSha256 keylessFiles keylessConfig = .ok keylessForwarder := by
  rfl

/-- A key-dependent stand-in for HMAC: the first byte of key and message, repeated. -/
def demoHmac : HmacSha256 := fun key data => ⟨List.replicate 32 ((key ++ data).headD 0), by simp⟩

/-- One ciphertext byte with the header made from the empty key. -/
theorem verifyProof_keyless_forged :
    SMTPForwarder.new demoSha256 keylessFiles keylessConfig = .ok keylessForwarder ∧
      keylessForwarder.verifyProof demoHmac [0x17]
        (proofHeader demoHmac [] keylessForwarder.expectedCircuitHash [0x17] 1).circuitHash
        (proofHeader demoHmac [] keylessForwarder.expectedCircuitHash [0x17] 1).signatureHex
        (proofHeader demoHmac [] keylessForwarder.expectedCircuitHash [0x17] 1).commitments
          = true :=
  ⟨keylessForwarder_new, verifyProof_proofHeader keylessForwarder demoHmac [0x17] le_rfl⟩

theorem verifyProof_keyless_refused :
    keylessForwarder.verifyProof demoHmac [0x17] [] [] [] = false ↔
      ∀ k ≥ 1, (⟨[], [], []⟩ : ProofHeader) ≠
        proofHeader demoHmac [] keylessForwarder.expectedCircuitHash [0x17] k :=
  verifyProof_eq_false_iff_of_missing_key keylessForwarder_new rfl [0x17] ⟨[], [], []⟩

/-! ## Commitments and signatures -/

/-- Where chunk `i` of `k` lies in the ciphertext. -/
theorem chunk_eq_slice {k i : ℕ} (hi : i < k) (ciphertext : List UInt8) :
    chunk ciphertext k i =
        (ciphertext.drop (i * chunkSize ciphertext.length k)).take
          (chunkSize ciphertext.length k) ∧
      (i + 1) * chunkSize ciphertext.length k ≤ ciphertext.length := by
  have hend : (i + 1) * chunkSize ciphertext.length k ≤ ciphertext.length := by
    calc (i + 1) * chunkSize ciphertext.length k
        ≤ max k 1 * (ciphertext.length / max k 1) := Nat.mul_le_mul (by omega) le_rfl
      _ ≤ ciphertext.length := Nat.mul_div_le _ _
  have hmin : min (chunkSize ciphertext.length k)
      (ciphertext.length - i * chunkSize ciphertext.length k) =
        chunkSize ciphertext.length k := by
    rw [Nat.add_mul, one_mul] at hend
    omega
  rw [chunk, hmin]
  exact ⟨rfl, hend⟩

/-- A slice is `front ++ back` exactly when `back` are its last bytes and `front` the others. -/
theorem take_drop_eq_append_iff {bytes front back : List UInt8} {offset size : ℕ}
    (hend : offset + size ≤ bytes.length) :
    (bytes.drop offset).take size = front ++ back ↔
      back.length ≤ size ∧ front = (bytes.drop offset).take (size - back.length) ∧
        back = (bytes.drop (offset + (size - back.length))).take back.length := by
  have hlen : ((bytes.drop offset).take size).length = size := by simp; omega
  constructor
  · intro h
    have hsum : size = front.length + back.length := by
      rw [← hlen, h, List.length_append]
    have hfront : size - back.length = front.length := by omega
    refine ⟨by omega, ?_, ?_⟩
    · have htake := congrArg (List.take front.length) h
      rw [List.take_left, List.take_take, Nat.min_eq_left (by omega)] at htake
      rw [hfront, htake]
    · have hdrop := congrArg (List.drop front.length) h
      rw [List.drop_left, List.drop_take, List.drop_drop] at hdrop
      rw [hfront, ← hdrop, List.length_take, List.length_drop]
      congr 1
      omega
  · rintro ⟨hle, hfront, hback⟩
    calc (bytes.drop offset).take size
        = (bytes.drop offset).take ((size - back.length) + back.length) := by
          rw [Nat.sub_add_cancel hle]
      _ = (bytes.drop offset).take (size - back.length) ++
            (bytes.drop (offset + (size - back.length))).take back.length := by
          rw [List.take_add, List.drop_drop]
      _ = front ++ back := by rw [← hfront, ← hback]

/-- The two kinds of messages are not kept apart: chunk `i` is the signature message of
`ciphertext'` exactly when it ends in the circuit hash after the bytes of `ciphertext'`. -/
theorem chunk_eq_signatureMessage_iff (sha256 : Sha256) (circuitFile : List UInt8)
    {k i : ℕ} (hi : i < k) (ciphertext ciphertext' : List UInt8) :
    chunk ciphertext k i = signatureMessage ciphertext' (sha256Hex sha256 circuitFile) ↔
      64 ≤ chunkSize ciphertext.length k ∧
      ciphertext' = (ciphertext.drop (i * chunkSize ciphertext.length k)).take
        (chunkSize ciphertext.length k - 64) ∧
      sha256Hex sha256 circuitFile =
        (ciphertext.drop ((i + 1) * chunkSize ciphertext.length k - 64)).take 64 := by
  obtain ⟨hslice, hend⟩ := chunk_eq_slice hi ciphertext
  rw [Nat.add_mul, one_mul] at hend ⊢
  rw [hslice, signatureMessage, take_drop_eq_append_iff hend, length_sha256Hex]
  refine and_congr_right fun hle => ?_
  rw [Nat.add_sub_assoc hle]

/-- A ciphertext that ends in the circuit hash, as one chunk. -/
theorem chunk_eq_signatureMessage_demo :
    chunk ([0x17] ++ sha256Hex demoSha256 []) 1 0 =
        signatureMessage [0x17] (sha256Hex demoSha256 []) ∧
      [0x17] ++ sha256Hex demoSha256 [] ≠ [0x17] := by
  decide

/-- Two chunks of 65 bytes, the second of which ends in the circuit hash. -/
def hashedCiphertext : List UInt8 := List.replicate 65 0x17 ++ 0x03 :: sha256Hex demoSha256 []

theorem chunk_eq_signatureMessage_iff_second :
    chunk hashedCiphertext 2 1 = signatureMessage [0x03] (sha256Hex demoSha256 []) :=
  (chunk_eq_signatureMessage_iff demoSha256 [] Nat.one_lt_two hashedCiphertext [0x03]).mpr
    (by decide +kernel)

/-! ## What the commitments cover -/

/-- The positions of the bytes under commitment `i`. -/
def chunkPositions (ciphertext : List UInt8) (commitments i : ℕ) : Finset ℕ :=
  let offset := i * chunkSize ciphertext.length commitments
  Finset.Ico offset (offset + (chunk ciphertext commitments i).length)

/-- Every byte lies under exactly one commitment. -/
def Covered (ciphertext : List UInt8) (commitments : ℕ) : Prop :=
  ∀ p < ciphertext.length, ∃! i, i < commitments ∧ p ∈ chunkPositions ciphertext commitments i

variable {k i p : ℕ} {ciphertext : List UInt8}

theorem chunkPositions_eq (hi : i < k) : chunkPositions ciphertext k i =
    Finset.Ico (i * chunkSize ciphertext.length k) ((i + 1) * chunkSize ciphertext.length k) := by
  obtain ⟨hslice, hend⟩ := chunk_eq_slice hi ciphertext
  have hlen : (chunk ciphertext k i).length = chunkSize ciphertext.length k := by
    rw [hslice, List.length_take, List.length_drop]
    rw [Nat.add_mul, one_mul] at hend
    omega
  rw [chunkPositions, hlen, Nat.add_mul, one_mul]

/-- A position lies under a commitment exactly if it is in front of `k` whole chunks' end. -/
theorem exists_mem_chunkPositions_iff :
    (∃ i < k, p ∈ chunkPositions ciphertext k i) ↔ p < k * chunkSize ciphertext.length k := by
  constructor
  · rintro ⟨i, hi, hp⟩
    rw [chunkPositions_eq hi, Finset.mem_Ico] at hp
    exact hp.2.trans_le (Nat.mul_le_mul_right _ hi)
  · intro hp
    have hpos : 0 < chunkSize ciphertext.length k := by
      apply Nat.pos_of_ne_zero
      intro hzero
      rw [hzero, Nat.mul_zero] at hp
      exact Nat.not_lt_zero p hp
    have hi : p / chunkSize ciphertext.length k < k := Nat.div_lt_of_lt_mul (by rwa [Nat.mul_comm])
    refine ⟨_, hi, ?_⟩
    rw [chunkPositions_eq hi, Finset.mem_Ico]
    exact ⟨Nat.div_mul_le_self _ _, Nat.lt_mul_of_div_lt (Nat.lt_succ_self _) hpos⟩

/-- No two chunks overlap. -/
theorem chunkPositions_unique {j : ℕ} (hi : i < k) (hj : j < k)
    (hpi : p ∈ chunkPositions ciphertext k i) (hpj : p ∈ chunkPositions ciphertext k j) :
    i = j := by
  rw [chunkPositions_eq hi, Finset.mem_Ico] at hpi
  rw [chunkPositions_eq hj, Finset.mem_Ico] at hpj
  have hij : i < j + 1 := Nat.lt_of_mul_lt_mul_right (hpi.1.trans_lt hpj.2)
  have hji : j < i + 1 := Nat.lt_of_mul_lt_mul_right (hpj.1.trans_lt hpi.2)
  omega

theorem covered_iff_dvd (hk : 1 ≤ k) : Covered ciphertext k ↔ k ∣ ciphertext.length := by
  have hsize : chunkSize ciphertext.length k = ciphertext.length / k := by
    rw [chunkSize, Nat.max_eq_left hk]
  constructor
  · intro h
    by_contra hdvd
    have hshort : k * (ciphertext.length / k) < ciphertext.length :=
      lt_of_le_of_ne (Nat.mul_div_le _ _) fun heq => hdvd ⟨_, heq.symm⟩
    obtain ⟨i, hi, -⟩ := h _ hshort
    have hlt := exists_mem_chunkPositions_iff.mp ⟨i, hi⟩
    rw [hsize] at hlt
    exact lt_irrefl _ hlt
  · intro hdvd p hp
    have hend : p < k * chunkSize ciphertext.length k := by
      rwa [hsize, Nat.mul_div_cancel' hdvd]
    obtain ⟨i, hi, hpi⟩ := exists_mem_chunkPositions_iff.mpr hend
    exact ⟨i, ⟨hi, hpi⟩, fun j ⟨hj, hpj⟩ => chunkPositions_unique hj hi hpj hpi⟩

/-- The commitments of an accepted proof cover the ciphertext exactly if their number divides
its length: a remainder lies behind the last chunk. -/
theorem covered_iff_of_verifyProof {header : ProofHeader}
    (haccepted : f.verifyProof hmac ciphertext header.circuitHash header.signatureHex
      header.commitments = true) :
    Covered ciphertext header.commitments.length ↔
      header.commitments.length ∣ ciphertext.length := by
  obtain ⟨k, hk, rfl⟩ := (verifyProof_iff ciphertext header).mp haccepted
  apply covered_iff_dvd
  simpa [proofHeader] using hk

/-- Two commitments on two bytes. -/
theorem covered_iff_two_bytes :
    Covered [0x17, 0x03] (proofHeader demoHmac [] [] [0x17, 0x03] 2).commitments.length ↔
      (proofHeader demoHmac [] [] [0x17, 0x03] 2).commitments.length ∣ 2 :=
  covered_iff_of_verifyProof (verifyProof_proofHeader ⟨[], []⟩ demoHmac [0x17, 0x03] one_le_two)

/-- Two commitments on three bytes are accepted, and the last byte lies under neither. -/
theorem verifyProof_uncovered :
    (⟨[], []⟩ : SMTPForwarder).verifyProof demoHmac [0x17, 0x03, 0x03]
        (proofHeader demoHmac [] [] [0x17, 0x03, 0x03] 2).circuitHash
        (proofHeader demoHmac [] [] [0x17, 0x03, 0x03] 2).signatureHex
        (proofHeader demoHmac [] [] [0x17, 0x03, 0x03] 2).commitments = true ∧
      ¬∃ i < 2, 2 ∈ chunkPositions [0x17, 0x03, 0x03] 2 i := by
  refine ⟨verifyProof_proofHeader ⟨[], []⟩ demoHmac [0x17, 0x03, 0x03] one_le_two, ?_⟩
  rw [exists_mem_chunkPositions_iff]
  decide

end Freehold.Forwarder
