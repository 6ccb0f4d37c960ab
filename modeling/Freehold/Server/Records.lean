import Freehold.Foundation.CounterMode
import Freehold.Server.Nonce

/-!
# What `JesseQ_TLS_Encrypt` writes and gives to AES

At ALICE the circuit computes a block function on bytes. A record is its header, the plaintext
in counter mode from counter 2 on, and `F(J0)` XORed with the ciphertext blocks. AES is given
the counter blocks 2, 3, … and then `J0`.
-/

namespace Freehold.Server

open Interaction Interaction.Program CounterMode Blocks

/-- The block function of the AES circuit under a key. -/
def aesBlock (env : Env) (key block : Bytes 16) : Bytes 16 :=
  ⟨boolsToBytes (env.aes (bytesToBools key ++ bytesToBools block)) 16, by simp⟩

/-! ## Records under a block function -/

section BlockFunction

variable (F : Bytes 16 → Bytes 16) (nonce : Bytes 12)

def keystream (i : ℕ) : List UInt8 := F (counterBlock nonce (i + 2))

def recordBody (plaintext : List UInt8) : List UInt8 := crypt 16 (keystream F nonce) plaintext

def recordTag (body : List UInt8) : List UInt8 :=
  xorBytes (F (counterBlock nonce 1)) (checksum 16 body (blocks 16 body.length))

def sealRecord (plaintext : List UInt8) : List UInt8 :=
  recordHeader plaintext.length ++ recordBody F nonce plaintext ++
    recordTag F nonce (recordBody F nonce plaintext)

variable {F nonce}

theorem length_keystream (i : ℕ) : (keystream F nonce i).length = 16 := Bytes.length_val _

@[simp] theorem length_recordBody (plaintext : List UInt8) :
    (recordBody F nonce plaintext).length = plaintext.length :=
  length_crypt (by norm_num) length_keystream plaintext

@[simp] theorem length_recordTag (body : List UInt8) : (recordTag F nonce body).length = 16 := by
  simp [recordTag]

@[simp] theorem length_recordHeader (len : ℕ) : (recordHeader len).length = 5 := rfl

theorem length_sealRecord (plaintext : List UInt8) :
    (sealRecord F nonce plaintext).length = plaintext.length + 21 := by
  simp only [sealRecord, List.length_append, length_recordHeader, length_recordBody,
    length_recordTag]
  omega

/-- Whoever knows the keystream reads the plaintext. -/
theorem recordBody_recordBody (plaintext : List UInt8) :
    recordBody F nonce (recordBody F nonce plaintext) = plaintext :=
  crypt_crypt (by norm_num) length_keystream plaintext

variable (F nonce) in
/-- A record is a header with the length of what follows, a body that XORs with the keystream to
the plaintext, and the tag of that body. -/
def Seals (plaintext record : List UInt8) : Prop :=
  ∃ hi lo : UInt8, ∃ body tag, record = [0x17, 0x03, 0x03, hi, lo] ++ body ++ tag ∧
    hi.toNat * 256 + lo.toNat = record.length - 5 ∧
    xorBytes body (concat (keystream F nonce) (blocks 16 body.length)) = plaintext ∧
    tag.length = 16 ∧
    tag = xorBytes (F (counterBlock nonce 1)) (checksum 16 body (blocks 16 body.length))

/-- The length of a record has two bytes in the header. -/
theorem seals_sealRecord {plaintext : List UInt8} (h : plaintext.length + 16 < 2 ^ 16) :
    Seals F nonce plaintext (sealRecord F nonce plaintext) := by
  refine ⟨.ofNat ((plaintext.length + 16) >>> 8), .ofNat (plaintext.length + 16),
    recordBody F nonce plaintext,
    recordTag F nonce (recordBody F nonce plaintext), rfl, ?_, recordBody_recordBody plaintext,
    length_recordTag _, rfl⟩
  rw [length_sealRecord, UInt8.toNat_ofNat', UInt8.toNat_ofNat', Nat.shiftRight_eq_div_pow]
  omega

end BlockFunction

/-! ## One AES evaluation -/

/-- The block that AES is given, as bits. -/
def aesInput : Event Mpc → Option (List Bool)
  | ⟨.computeAes _ plaintext, _⟩ => some (values plaintext)
  | _ => none

theorem boolsToBytes_congr {f g : ℕ → Bool} {numBytes : ℕ} (h : ∀ i < 8 * numBytes, f i = g i) :
    boolsToBytes f numBytes = boolsToBytes g numBytes := by
  refine List.map_congr_left fun i hi => congrArg UInt8.ofNat (packBits_congr fun b hb => ?_)
  have hlt := List.mem_range.mp hi
  exact h _ (by omega)

theorem values_wires_block (block : Bytes 16) :
    values (wires 128 fun i => (bytesToBools block).getD i false) = bytesToBools block := by
  have hvalues := values_wires_getD (bytesToBools block)
  rwa [length_bytesToBools, Bytes.length_val] at hvalues

section Encryption

variable {env : Env} {tls : MpcTlsSession}

theorem aesReveal_returns (key block : Bytes 16) :
    Returns (serve env) aesInput (fun m => tlsOf m = tls) (aesReveal .alice (keyWires key) block)
      (fun out m => out = aesBlock env key block ∧ tlsOf m = tls) [bytesToBools block] := by
  intro m hm
  have hkey : values (keyWires key) = bytesToBools key := values_wires_block key
  have hblock := values_wires_block block
  simp only [aesReveal, perform_bind, feed_bind, pure_eq]
  constructor
  · refine ⟨_, rfl, Subtype.ext ?_, hm⟩
    refine boolsToBytes_congr fun i hi => ?_
    simp only [serve, fedBits_self, length_bytesToBools, Bytes.length_val, hkey, hblock]
    simp [values, wires, Block.value, List.getD_eq_getElem?_getD, hi]
  · rw [observed_call_of_hidden rfl, observed_call, observed_call_of_hidden rfl, observed_ret,
      aesInput, serve, fedBits_self, length_bytesToBools, Bytes.length_val, hblock]
    rfl

/-! ## The block loop -/

variable (F : Bytes 16 → Bytes 16) (nonce : Bytes 12) (plaintext out : List UInt8)

/-- Output buffer and accumulator after `k` turns. -/
def sealed (k : ℕ) : List UInt8 × List UInt8 :=
  (memcpy out 0 (recordHeader plaintext.length ++ (recordBody F nonce plaintext).take (k * 16)),
    checksum 16 (recordBody F nonce plaintext) k)

variable {F nonce plaintext out}

/-- What turn `k` XORs into the plaintext is block `k` of the body. -/
theorem xorBytes_chunk {k : ℕ} (hk : k < blocks 16 plaintext.length) :
    xorBytes ((plaintext.drop (k * 16)).take (min 16 (plaintext.length - k * 16)))
      (F (counterBlock nonce (k + 2))) = chunk 16 (recordBody F nonce plaintext) k := by
  rw [recordBody, chunk_crypt length_keystream hk, chunk, ← List.length_drop,
    ← List.take_eq_take_min]
  rfl

theorem memcpy_zeroBlock {bytes : List UInt8} : memcpy zeroBlock 0 bytes = pad 16 bytes := by
  rw [memcpy_zero, pad, zeroBlock, List.drop_replicate]

/-- One turn on the buffer and the accumulator. -/
theorem sealed_succ {k : ℕ} (hk : k < blocks 16 plaintext.length) :
    sealed F nonce plaintext out (k + 1) =
      (memcpy (sealed F nonce plaintext out k).1 (5 + k * 16)
          (chunk 16 (recordBody F nonce plaintext) k),
        xorBytes (sealed F nonce plaintext out k).2
          (memcpy zeroBlock 0 (chunk 16 (recordBody F nonce plaintext) k))) := by
  have hlt := lt_of_lt_blocks (by norm_num) hk
  have hoffset : 5 + k * 16 = (recordHeader plaintext.length ++
      (recordBody F nonce plaintext).take (k * 16)).length := by
    simp only [List.length_append, List.length_take, length_recordHeader, length_recordBody]
    omega
  rw [sealed, sealed]
  simp only
  rw [hoffset, memcpy_memcpy, List.append_assoc, Nat.succ_mul, List.take_add, memcpy_zeroBlock,
    checksum_succ]
  rfl

/-- After the last turn the tag completes the record. -/
theorem memcpy_sealed_tag :
    memcpy (sealed F nonce plaintext out (blocks 16 plaintext.length)).1 (5 + plaintext.length)
        (xorBytes (F (counterBlock nonce 1))
          (sealed F nonce plaintext out (blocks 16 plaintext.length)).2) =
      memcpy out 0 (sealRecord F nonce plaintext) := by
  have hbody : (recordBody F nonce plaintext).take (blocks 16 plaintext.length * 16) =
      recordBody F nonce plaintext := by
    apply List.take_of_length_le
    rw [length_recordBody]
    exact le_blocks_mul (by norm_num) _
  have hoffset : 5 + plaintext.length =
      (recordHeader plaintext.length ++ recordBody F nonce plaintext).length := by
    rw [List.length_append, length_recordHeader, length_recordBody]
  rw [sealed, hbody, hoffset, memcpy_memcpy, sealRecord, recordTag, length_recordBody]

theorem encryptBlock_returns {key : Bytes 16} {k : ℕ} (hk : k < blocks 16 plaintext.length) :
    Returns (serve env) aesInput (fun m => tlsOf m = tls)
      (encryptBlock .alice (keyWires key) nonce plaintext
        (sealed (aesBlock env key) nonce plaintext out k) k)
      (fun state m => state = sealed (aesBlock env key) nonce plaintext out (k + 1) ∧
        tlsOf m = tls)
      [bytesToBools (counterBlock nonce (k + 2))] := by
  refine Returns.bind (aesReveal_returns key (counterBlock nonce (k + 2)))
    fun keystream => .pure_pre fun hkeystream => .ret fun m hm => ⟨?_, hm⟩
  rw [sealed_succ hk, ← xorBytes_chunk hk, hkeystream]

/-- The loop, by induction on the number of turns. -/
theorem encryptBlocks_returns {key : Bytes 16} {k : ℕ} (hk : k ≤ blocks 16 plaintext.length) :
    Returns (serve env) aesInput (fun m => tlsOf m = tls)
      ((List.range k).foldlM (encryptBlock .alice (keyWires key) nonce plaintext)
        (sealed (aesBlock env key) nonce plaintext out 0))
      (fun state m => state = sealed (aesBlock env key) nonce plaintext out k ∧ tlsOf m = tls)
      ((List.range k).map fun i => bytesToBools (counterBlock nonce (i + 2))) := by
  induction k with
  | zero => exact .ret fun m hm => ⟨rfl, hm⟩
  | succ k ih =>
    rw [List.range_succ, List.foldlM_append, List.map_append]
    refine (ih (Nat.le_of_succ_le hk)).bind fun state => .pure_pre fun hstate => ?_
    subst hstate
    exact encryptBlock_returns hk

/-! ## One record -/

/-- The blocks that AES is given for a record of `len` bytes: the data counters, then `J0`. -/
def recordBlocks (nonce : Bytes 12) (len : ℕ) : List (Bytes 16) :=
  (List.range (blocks 16 len)).map (fun i => counterBlock nonce (i + 2)) ++ [counterBlock nonce 1]

def nonceOf (tls : MpcTlsSession) : Bytes 12 := recordNonce tls.clientWriteIv tls.sequenceNumber

def blockBits (block : Bytes 16) : List Bool := bytesToBools block

/-- The record that a TLS session makes of a plaintext. -/
def nextSealed (env : Env) (tls : MpcTlsSession) (plaintext : List UInt8) : List UInt8 :=
  sealRecord (aesBlock env tls.clientWriteKeyShare) (nonceOf tls) plaintext

theorem getAesCircuit_aesInput (m : Machine) :
    getAesCircuit.observed (serve env) aesInput m = [] := by
  have huses : getAesCircuit.Uses fun o => ∀ x, aesInput ⟨o, x⟩ = none := by
    simp only [getAesCircuit, perform_bind]
    refine .call (fun _ => rfl) fun g => .ite (uses_ret _) ?_
    refine (probeAesPaths_uses (fun _ _ => rfl) _).bind fun found => ?_
    exact .ite (.call (fun _ => rfl) fun _ => uses_ret _) (uses_throw _)
  exact huses.observed_eq_nil (fun e he => he e.answer) m

/-- `get_aes_circuit` throws or not; the session stays. -/
theorem getAesCircuit_bind_cases {α ω : Type} {v : Event Mpc → Option ω} {m : Machine}
    (hv : getAesCircuit.observed (serve env) v m = []) {f : Unit → Session α}
    {Q : α → Machine → Prop} {w : List ω}
    (hf : Returns (serve env) v (fun m' => tlsOf m' = tlsOf m) (f ()) Q w) :
    ((∃ e, ((getAesCircuit >>= f).run (serve env) m).result = .error e) ∧
      (getAesCircuit >>= f).observed (serve env) v m = [] ∧
      tlsOf ((getAesCircuit >>= f).run (serve env) m).state = tlsOf m) ∨
    ((∃ a, ((getAesCircuit >>= f).run (serve env) m).result = .ok a ∧
        Q a ((getAesCircuit >>= f).run (serve env) m).state) ∧
      (getAesCircuit >>= f).observed (serve env) v m = w) := by
  have hkept : tlsOf (getAesCircuit.run (serve env) m).state = tlsOf m :=
    (getAesCircuit_silent m rfl).2
  rcases hresult : (getAesCircuit.run (serve env) m).result with e | ⟨⟩
  · left
    rw [observed_bind_of_error f hresult, run_bind_of_error f hresult]
    exact ⟨⟨e, rfl⟩, hv, hkept⟩
  · right
    rw [observed_bind_of_ok f hresult, run_bind_of_ok f hresult, hv, List.nil_append]
    exact hf _ hkept

/-- A record is produced whole, or the circuit is missing and nothing has happened. -/
theorem jesseQTlsEncrypt_cases (env : Env) (m : Machine) (plaintext out : List UInt8) :
    ((∃ e, ((jesseQTlsEncrypt .alice plaintext out).run (serve env) m).result = .error e) ∧
      (jesseQTlsEncrypt .alice plaintext out).observed (serve env) aesInput m = [] ∧
      tlsOf ((jesseQTlsEncrypt .alice plaintext out).run (serve env) m).state = tlsOf m) ∨
    ((∃ ciphertext, ((jesseQTlsEncrypt .alice plaintext out).run (serve env) m).result =
          .ok ciphertext ∧
        ciphertext = memcpy out 0 (nextSealed env (tlsOf m) plaintext) ∧
        tlsOf ((jesseQTlsEncrypt .alice plaintext out).run (serve env) m).state =
          { tlsOf m with sequenceNumber := (tlsOf m).sequenceNumber + 1 }) ∧
      (jesseQTlsEncrypt .alice plaintext out).observed (serve env) aesInput m =
        (recordBlocks (nonceOf (tlsOf m)) plaintext.length).map blockBits) := by
  simp only [jesseQTlsEncrypt, perform_bind, feed_bind]
  refine getAesCircuit_bind_cases (getAesCircuit_aesInput m) (Q := fun ciphertext m' =>
    ciphertext = memcpy out 0 (nextSealed env (tlsOf m) plaintext) ∧
      tlsOf m' = { tlsOf m with sequenceNumber := (tlsOf m).sequenceNumber + 1 }) ?_
  generalize tlsOf m = tls
  refine returns_keyed (fun _ => rfl) (fun _ _ => rfl) fun g hg => ?_
  subst hg
  rw [length_rawKey, recordBlocks, List.map_append, List.map_map]
  refine Returns.bind (encryptBlocks_returns le_rfl) fun state => .pure_pre fun hstate => ?_
  subst hstate
  rw [← List.append_nil (List.map _ [_])]
  refine (aesReveal_returns _ _).bind fun tagBytes => .pure_pre fun htag => ?_
  subst htag
  refine Returns.hidden (fun _ => rfl) (fun g' _ => g'.tls = g.tls) (fun m hm => hm) fun g' =>
    Returns.hidden (fun _ => rfl)
      (fun _ m' => tlsOf m' = { g.tls with sequenceNumber := g.tls.sequenceNumber + 1 })
      (fun m hg' => ?_) fun _ => .ret fun m' hm' => ⟨?_, hm'⟩
  · simp only [serve, tlsOf, hg']
  · exact memcpy_sealed_tag

end Encryption

end Freehold.Server
