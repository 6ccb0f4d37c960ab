import Freehold.Server.Environment

/-!
# TLS records inside the protocol (`tls_smpc.h`)

HKDF-Expand-Label, the session keys derived from the identity shard, and
`JesseQ_TLS_Encrypt`, which evaluates the AES circuit once per counter block and once
for the tag.
-/

namespace Freehold.Server

open Interaction Interaction.Program

/-! ## Key derivation -/

def tls13Prefix : List UInt8 := ascii ['t', 'l', 's', '1', '3', ' ']

/-- The `HkdfLabel` for an empty context. -/
def hkdfInfo (label : List UInt8) (outLen : ℕ) : List UInt8 :=
  [UInt8.ofNat (outLen >>> 8), UInt8.ofNat outLen,
    UInt8.ofNat (tls13Prefix.length + label.length)] ++ tls13Prefix ++ label ++ [0]

/-- Block `i` of the expansion: `t_prev` and what has been written so far. -/
def hkdfStep (hmac : HmacSha256) (secret info : List UInt8) (outLen : ℕ)
    (state : List UInt8 × List UInt8) (i : ℕ) : List UInt8 × List UInt8 :=
  let tPrev := (hmac secret ((if 1 < i then state.1 else []) ++ info ++ [UInt8.ofNat i])).val
  (tPrev, state.2 ++ tPrev.take (min 32 (outLen - state.2.length)))

def hkdfBlocks (hmac : HmacSha256) (secret info : List UInt8) (outLen n : ℕ) :
    List UInt8 × List UInt8 :=
  (List.range' 1 n).foldl (hkdfStep hmac secret info outLen) ([], [])

theorem length_hkdfBlocks (hmac : HmacSha256) (secret info : List UInt8) (outLen n : ℕ) :
    (hkdfBlocks hmac secret info outLen n).2.length = min outLen (32 * n) := by
  induction n with
  | zero => simp [hkdfBlocks]
  | succ n ih =>
    rw [hkdfBlocks, List.range'_1_concat, List.foldl_append, ← hkdfBlocks]
    simp only [List.foldl_cons, List.foldl_nil, hkdfStep, List.length_append, List.length_take, ih,
      Bytes.length_val]
    omega

def hkdfExpand (hmac : HmacSha256) (secret label : List UInt8) (outLen : ℕ) : Bytes outLen :=
  ⟨(hkdfBlocks hmac secret (hkdfInfo label outLen) outLen ((outLen + 31) / 32)).2, by
    rw [length_hkdfBlocks]
    omega⟩

/-- `info` is a buffer of 64 bytes. -/
def tls13HkdfExpandLabel (hmac : HmacSha256) (secret label : List UInt8) (outLen : ℕ) :
    Except Failure (Bytes outLen) :=
  if 64 < (hkdfInfo label outLen).length then .error (.runtimeError "HKDF label too long")
  else .ok (hkdfExpand hmac secret label outLen)

def liftExcept {α : Type} : Except Failure α → Session α
  | .ok a => .ret a
  | .error e => .throw e

/-- The first 48 bytes of the shard, padded with zeros. -/
def handshakeSecret (shardBytes : List UInt8) : Bytes 48 :=
  ⟨memcpy (List.replicate 48 0) 0 (shardBytes.take 48), by
    rw [length_memcpy] <;> simp⟩

def initTlsSessionFromShard (hmac : HmacSha256) (shardBytes : List UInt8) : Session Unit := do
  let secret := handshakeSecret shardBytes
  let clientKey ← liftExcept (tls13HkdfExpandLabel hmac secret.val (ascii ['k', 'e', 'y']) 16)
  let clientWriteIv ← liftExcept (tls13HkdfExpandLabel hmac secret.val (ascii ['i', 'v']) 12)
  let serverKey ← liftExcept
    (tls13HkdfExpandLabel hmac secret.val (ascii ['s', ' ', 'a', 'p', ' ', 'k', 'e', 'y']) 16)
  let g ← perform (E := Mpc) .globals
  perform (E := Mpc) (.setGlobals { g with tls := { g.tls with
    masterSecretShare := secret, clientWriteKeyShare := clientKey,
    serverWriteKeyShare := serverKey, clientWriteIv := clientWriteIv } })

theorem length_hkdfInfo (label : List UInt8) (outLen : ℕ) :
    (hkdfInfo label outLen).length = label.length + 10 := by
  simp [hkdfInfo, tls13Prefix, ascii]

theorem tls13HkdfExpandLabel_of_length_le (hmac : HmacSha256) (secret : List UInt8)
    {label : List UInt8} (outLen : ℕ) (h : label.length ≤ 54) :
    tls13HkdfExpandLabel hmac secret label outLen = .ok (hkdfExpand hmac secret label outLen) := by
  rw [tls13HkdfExpandLabel, if_neg]
  rw [length_hkdfInfo]
  omega

/-- The keys that a shard leads to; the sequence number stays. -/
def shardKeys (hmac : HmacSha256) (shardBytes : List UInt8) (tls : MpcTlsSession) :
    MpcTlsSession :=
  let secret := handshakeSecret shardBytes
  { masterSecretShare := secret
    clientWriteKeyShare := hkdfExpand hmac secret.val (ascii ['k', 'e', 'y']) 16
    serverWriteKeyShare := hkdfExpand hmac secret.val
      (ascii ['s', ' ', 'a', 'p', ' ', 'k', 'e', 'y']) 16
    clientWriteIv := hkdfExpand hmac secret.val (ascii ['i', 'v']) 12
    sequenceNumber := tls.sequenceNumber }

theorem initTlsSessionFromShard_eq (hmac : HmacSha256) (shardBytes : List UInt8) :
    initTlsSessionFromShard hmac shardBytes =
      .call .globals fun g =>
        .call (.setGlobals { g with tls := shardKeys hmac shardBytes g.tls }) .ret := by
  rw [initTlsSessionFromShard, tls13HkdfExpandLabel_of_length_le _ _ _ (by decide),
    tls13HkdfExpandLabel_of_length_le _ _ _ (by decide),
    tls13HkdfExpandLabel_of_length_le _ _ _ (by decide)]
  rfl

/-! ## The AES circuit -/

def aesPaths : List String :=
  ["/usr/local/include/emp-tool/circuits/files/bristol_format/AES-non-expanded.txt",
    ".build-deps/emp-tool/emp-tool/circuits/files/bristol_format/AES-non-expanded.txt"]

/-- Open the first path that exists. -/
def probeAesPaths : List String → Session Bool
  | [] => pure false
  | path :: paths => do
    if ← perform (E := Mpc) (.fopen path) then pure true else probeAesPaths paths

def getAesCircuit : Session Unit := do
  let g ← perform (E := Mpc) .globals
  if g.aesCircuit then pure ()
  else if ← probeAesPaths aesPaths then
    perform (E := Mpc) (.setGlobals { g with aesCircuit := true })
  else .throw (.runtimeError "AES-non-expanded.txt circuit not found")

/-! ## Records -/

/-- The bytes of `seq`, most significant first. -/
def sequenceBytes (seq : UInt64) : List UInt8 :=
  [7, 6, 5, 4, 3, 2, 1, 0].map fun i => UInt8.ofNat (seq.toNat >>> (8 * i))

/-- `nonce[11 - i] ^= (seq >> (i * 8)) & 0xFF`. -/
def recordNonce (clientWriteIv : Bytes 12) (seq : UInt64) : Bytes 12 :=
  ⟨xorBytes clientWriteIv (List.replicate 4 0 ++ sequenceBytes seq), by
    simp [sequenceBytes]⟩

/-- The counter in 32 bits, big-endian. -/
def counterBytes (ctr : ℕ) : List UInt8 :=
  [24, 16, 8, 0].map fun shift => UInt8.ofNat ((ctr % 2 ^ 32) >>> shift)

/-- `nonce || ctr`. -/
def counterBlock (nonce : Bytes 12) (ctr : ℕ) : Bytes 16 :=
  ⟨nonce.val ++ counterBytes ctr, by simp [counterBytes]⟩

def recordHeader (len : ℕ) : List UInt8 :=
  let recordLen := len + 16
  [0x17, 0x03, 0x03, UInt8.ofNat (recordLen >>> 8), UInt8.ofNat recordLen]

def zeroBlock : List UInt8 := List.replicate 16 0

/-- `feed` of a buffer, with the wires it stores. -/
def feed (role owner : Party) (bits : List Bool) : Session (List Block) := do
  let x ← perform (E := Mpc) (.feed role owner bits)
  pure (wires bits.length x)

@[simp] theorem feed_bind {α : Type} (role owner : Party) (bits : List Bool)
    (f : List Block → Session α) :
    (feed role owner bits >>= f) =
      .call (.feed role owner bits) fun x => f (wires bits.length x) := rfl

/-- One AES evaluation on a public block, revealed. -/
def aesReveal (role : Party) (keyBits : List Block) (block : Bytes 16) : Session (Bytes 16) := do
  let ptBits ← feed role .alice (bytesToBools block)
  let y ← perform (E := Mpc) (.computeAes keyBits ptBits)
  let result ← perform (E := Mpc) (.reveal (wires 128 y))
  pure ⟨boolsToBytes result 16, by simp⟩

/-- One turn of the block loop on the output buffer and the GHASH accumulator. -/
def encryptBlock (role : Party) (keyBits : List Block) (nonce : Bytes 12)
    (plaintext : List UInt8) (state : List UInt8 × List UInt8) (blk : ℕ) :
    Session (List UInt8 × List UInt8) := do
  let offset := blk * 16
  let keystream ← aesReveal role keyBits (counterBlock nonce (blk + 2))
  let chunkLen := min 16 (plaintext.length - offset)
  if role = .alice then
    let chunk := xorBytes ((plaintext.drop offset).take chunkLen) keystream
    pure (memcpy state.1 (5 + offset) chunk, xorBytes state.2 (memcpy zeroBlock 0 chunk))
  else pure (state.1, xorBytes state.2 zeroBlock)

/-- The key that is fed: ALICE's share, zeros at BOB. -/
def rawKey (role : Party) (clientWriteKeyShare : Bytes 16) : List Bool :=
  if role = .alice then bytesToBools clientWriteKeyShare else List.replicate 128 false

def jesseQTlsEncrypt (role : Party) (plaintext ciphertext : List UInt8) :
    Session (List UInt8) := do
  getAesCircuit
  let len := plaintext.length
  let ciphertext := memcpy ciphertext 0 (recordHeader len)
  let g ← perform (E := Mpc) .globals
  let keyBits ← feed role .alice (rawKey role g.tls.clientWriteKeyShare)
  let nonce := recordNonce g.tls.clientWriteIv g.tls.sequenceNumber
  let (ciphertext, ghashAcc) ← (List.range ((len + 15) / 16)).foldlM
    (encryptBlock role keyBits nonce plaintext) (ciphertext, zeroBlock)
  -- The tag reuses the block buffers: AES(key, J0) XOR the accumulated ciphertext.
  let tagBytes ← aesReveal role keyBits (counterBlock nonce 1)
  let ciphertext := memcpy ciphertext (5 + len) (xorBytes tagBytes ghashAcc)
  let g ← perform (E := Mpc) .globals
  perform (E := Mpc)
    (.setGlobals { g with tls.sequenceNumber := g.tls.sequenceNumber + 1 })
  pure ciphertext

end Freehold.Server
