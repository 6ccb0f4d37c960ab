import Freehold.Server.Tls

/-!
# Joint AUTH PLAIN (`smtp_mpc.h`)
-/

namespace Freehold.Server

open Interaction Interaction.Program

def authPrefix : List UInt8 := ascii ['A', 'U', 'T', 'H', ' ', 'P', 'L', 'A', 'I', 'N', ' ']

/-- `4 * ((pass_bytes + 2) / 3)` for `pass_len` bits. -/
def b64OutBytes (passLen : ℕ) : ℕ := 4 * ((passLen / 8 + 2) / 3)

/-- The identity "encoding": the password wires, then whatever the buffer held. -/
def b64OutBits (passBits : List Block) (heap : ℕ → Bool) (b64OutLen : ℕ) : List Block :=
  (List.range b64OutLen).map fun i => passBits.getD i (.stale (heap i))

def authPlaintext (b64Result : ℕ → Bool) (b64OutBytes : ℕ) : List UInt8 :=
  authPrefix ++ boolsToBytes b64Result b64OutBytes ++ ascii ['\r', '\n']

/-- The TLS header, the plaintext `AUTH PLAIN … \r\n` and the tag. -/
def authCiphertextLen (passLen : ℕ) : ℕ :=
  authPrefix.length + b64OutBytes passLen + 2 + 5 + 16

/-- What is fed for the password: ALICE's shard, zeros at BOB. -/
def rawPass (role : Party) (passwordShard : List Bool) (passLen : ℕ) : List Bool :=
  if role = .alice then passwordShard.take passLen else List.replicate passLen false

/-- `AUTH PLAIN` with the revealed credentials, encrypted. -/
def encryptAuth (role : Party) (ciphertextOut : List UInt8) (passLen : ℕ)
    (b64Result : ℕ → Bool) : Session (ℕ × List UInt8) := do
  if ciphertextOut.length < authCiphertextLen passLen then
    .throw (.runtimeError "Auth command ciphertext too large for output buffer.")
  else do
    let ciphertext ← jesseQTlsEncrypt role (authPlaintext b64Result (b64OutBytes passLen))
      ciphertextOut
    pure (authCiphertextLen passLen, ciphertext)

/-- The part that follows the feed of `passLen` password wires. -/
def authRecord (role : Party) (ciphertextOut : List UInt8) (passLen : ℕ)
    (passBits : List Block) : Session (ℕ × List UInt8) := do
  let b64OutLen := int32 (b64OutBytes passLen * 8)
  if b64OutLen < 0 then .throw .badArrayNewLength
  else do
    let heap ← perform (E := Mpc) (.newBlocks .b64OutBits)
    let b64Result ← perform (E := Mpc) (.reveal (b64OutBits passBits heap b64OutLen.toNat))
    encryptAuth role ciphertextOut passLen b64Result

def jointSmtpAuthenticate (role : Party) (ciphertextOut : List UInt8)
    (passwordShard : List Bool) : Session (ℕ × List UInt8) := do
  let passLen := int32 passwordShard.length
  if passLen = 0 then .throw (.runtimeError "Empty password shard.")
  -- `new emp::block[pass_len]` refuses a negative length.
  else if passLen < 0 then .throw .badArrayNewLength
  else do
    let passBits ← feed role .alice (rawPass role passwordShard passLen.toNat)
    authRecord role ciphertextOut passLen.toNat passBits

end Freehold.Server
