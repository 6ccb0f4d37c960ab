import Freehold.Foundation.Base64
import Freehold.Server.Disclosure
import Freehold.Server.Records

/-!
# The AUTH PLAIN record

`Joint_SMTP_Authenticate` makes a command of the password shard and has `JesseQ_TLS_Encrypt`
seal it. The record decrypts to the command; the command is not the one that AUTH PLAIN wants.
-/

namespace Freehold.Server

open Interaction Interaction.Program CounterMode

/-- The credentials, revealed, in the command that is to be encrypted. -/
def authPlain (ciphertextOutMax passLen : ℕ) (passBits : List Block) : Session (List UInt8) := do
  let b64OutLen := int32 (b64OutBytes passLen * 8)
  if b64OutLen < 0 then .throw .badArrayNewLength
  else do
    let heap ← perform (E := Mpc) (.newBlocks .b64OutBits)
    let b64Result ← perform (E := Mpc) (.reveal (b64OutBits passBits heap b64OutLen.toNat))
    if ciphertextOutMax < authCiphertextLen passLen then
      .throw (.runtimeError "Auth command ciphertext too large for output buffer.")
    else pure (authPlaintext b64Result (b64OutBytes passLen))

/-- `Joint_SMTP_Authenticate` up to its call of `JesseQ_TLS_Encrypt`: the plaintext. -/
def authCommand (role : Party) (ciphertextOutMax : ℕ) (passwordShard : List Bool) :
    Session (List UInt8) := do
  let passLen := int32 passwordShard.length
  if passLen = 0 then .throw (.runtimeError "Empty password shard.")
  else if passLen < 0 then .throw .badArrayNewLength
  else do
    let passBits ← feed role .alice (rawPass role passwordShard passLen.toNat)
    authPlain ciphertextOutMax passLen.toNat passBits

theorem length_authPlaintext_add (b64Result : ℕ → Bool) (passLen : ℕ) :
    (authPlaintext b64Result (b64OutBytes passLen)).length + 21 = authCiphertextLen passLen := by
  rw [length_authPlaintext, authCiphertextLen]

/-- A choice in front of a continuation. -/
theorem ite_bind {α β : Type} {c : Prop} [Decidable c] {p q : Session α} {f : α → Session β} :
    (if c then p else q) >>= f = if c then p >>= f else q >>= f := by
  split <;> rfl

/-- The rest of `Joint_SMTP_Authenticate` seals the plaintext. -/
theorem jointSmtpAuthenticate_eq (role : Party) (ciphertextOut : List UInt8)
    (passwordShard : List Bool) :
    jointSmtpAuthenticate role ciphertextOut passwordShard =
      authCommand role ciphertextOut.length passwordShard >>= fun plaintext =>
        jesseQTlsEncrypt role plaintext ciphertextOut >>= fun ciphertext =>
          pure (plaintext.length + 21, ciphertext) := by
  simp only [jointSmtpAuthenticate, authCommand, authRecord, authPlain, encryptAuth, ite_bind,
    bind_assoc, throw_bind, pure_bind, length_authPlaintext_add]

/-- The command is made without touching the TLS session. -/
theorem authCommand_tlsOf (env : Env) (m : Machine) (role : Party) (ciphertextOutMax : ℕ)
    (passwordShard : List Bool) :
    tlsOf ((authCommand role ciphertextOutMax passwordShard).run (serve env) m).state =
      tlsOf m := by
  have huses : (authCommand role ciphertextOutMax passwordShard).Uses KeepsTls := by
    simp only [authCommand, authPlain, feed_bind, perform_bind]
    refine .ite (uses_throw _) (.ite (uses_throw _) (.call trivial fun _ => ?_))
    refine .ite (uses_throw _) (.call trivial fun _ => .call trivial fun _ => ?_)
    exact .ite (uses_throw _) (uses_ret _)
  exact huses.frame KeepsTls.tlsOf_serve m

/-- The wires that a `reveal` is given. -/
def revealedWires : Event Mpc → Option (List Block)
  | ⟨.reveal blocks, _⟩ => some blocks
  | _ => none

section Command

variable {env : Env} {m : Machine} {ciphertextOutMax : ℕ}

theorem authPlain_of_neg {passLen : ℕ} {passBits : List Block}
    (hb64 : int32 (b64OutBytes passLen * 8) < 0) :
    authPlain ciphertextOutMax passLen passBits = .throw .badArrayNewLength := by
  simp only [authPlain, if_pos hb64]

/-- The whole Base64 buffer is revealed, and the command is made of its values. -/
theorem authPlain_run {passLen : ℕ} (hb64 : 0 ≤ int32 (b64OutBytes passLen * 8))
    (passBits : List Block) :
    ((authPlain ciphertextOutMax passLen passBits).run (serve env) m).result =
        (if ciphertextOutMax < authCiphertextLen passLen then
          .error (.runtimeError "Auth command ciphertext too large for output buffer.")
        else .ok (authPlaintext (fun i => (b64Bits env passLen passBits).getD i false)
          (b64OutBytes passLen))) ∧
      (authPlain ciphertextOutMax passLen passBits).observed (serve env) revealedWires m =
        [b64OutBits passBits (env.heap .b64OutBits) (int32 (b64OutBytes passLen * 8)).toNat] := by
  simp only [authPlain, perform_bind, if_neg (not_lt.mpr hb64)]
  rw [observed_call_of_hidden rfl, observed_call, result_call, result_call, serve, serve, b64Bits]
  by_cases hmax : ciphertextOutMax < authCiphertextLen passLen
  · simp only [if_pos hmax]
    exact ⟨rfl, rfl⟩
  · simp only [if_neg hmax]
    exact ⟨rfl, rfl⟩

/-- Nothing is revealed, and no command made, where a length is not a positive `int`. -/
theorem authCommand_of_refused (env : Env) (m : Machine) (ciphertextOutMax : ℕ)
    {passwordShard : List Bool}
    (h : int32 passwordShard.length ≤ 0 ∨ 1610612720 ≤ int32 passwordShard.length) :
    (∃ e, ((authCommand .alice ciphertextOutMax passwordShard).run (serve env) m).result =
        .error e) ∧
      (authCommand .alice ciphertextOutMax passwordShard).observed (serve env) revealedWires m =
        [] := by
  have hlt := int32_lt passwordShard.length
  simp only [authCommand, feed_bind]
  generalize int32 passwordShard.length = passLen at *
  split
  · exact ⟨⟨_, rfl⟩, rfl⟩
  · split
    · exact ⟨⟨_, rfl⟩, rfl⟩
    · have hb64 : int32 (b64OutBytes passLen.toNat * 8) < 0 := by
        by_contra hnonneg
        have := (int32_b64OutLen_nonneg_iff (by omega)).mp (not_lt.mp hnonneg)
        omega
      rw [observed_call_of_hidden rfl, result_call, authPlain_of_neg hb64]
      exact ⟨⟨_, rfl⟩, rfl⟩

theorem authCommand_of_pos {passwordShard : List Bool} (hpos : 0 < int32 passwordShard.length)
    (hlt : int32 passwordShard.length < 1610612720) {passLen : ℕ}
    (hlen : (int32 passwordShard.length).toNat = passLen) :
    ((authCommand .alice ciphertextOutMax passwordShard).run (serve env) m).result =
        (if ciphertextOutMax < authCiphertextLen passLen then
          .error (.runtimeError "Auth command ciphertext too large for output buffer.")
        else .ok (authPlaintext
          (fun i => (b64Bits env passLen (passBits passwordShard passLen)).getD i false)
          (b64OutBytes passLen))) ∧
      (authCommand .alice ciphertextOutMax passwordShard).observed (serve env) revealedWires m =
        [b64OutBits (passBits passwordShard passLen) (env.heap .b64OutBits)
          (int32 (b64OutBytes passLen * 8)).toNat] := by
  have hb64 : 0 ≤ int32 (b64OutBytes passLen * 8) :=
    (int32_b64OutLen_nonneg_iff (by omega)).mpr (by omega)
  simp only [authCommand, feed_bind, if_neg hpos.ne', if_neg hpos.le.not_gt, rawPass, if_true, hlen]
  rw [observed_call_of_hidden rfl, result_call, serve, fedBits_self, passBits]
  exact authPlain_run hb64 _

/-- A command fits with its header and its tag. -/
theorem length_authCommand_le {passwordShard : List Bool} {plaintext : List UInt8}
    (h : ((authCommand .alice ciphertextOutMax passwordShard).run (serve env) m).result =
      .ok plaintext) : plaintext.length + 21 ≤ ciphertextOutMax := by
  by_cases hin : 0 < int32 passwordShard.length ∧ int32 passwordShard.length < 1610612720
  · rw [(authCommand_of_pos hin.1 hin.2 rfl).1] at h
    split at h
    · cases h
    · next hfits =>
      rw [← Except.ok.inj h, length_authPlaintext_add]
      exact not_lt.mp hfits
  · have hrefused := authCommand_of_refused env m ciphertextOutMax
      (not_and_or.mp hin |>.imp not_lt.mp not_lt.mp)
    obtain ⟨e, he⟩ := hrefused.1
    cases he.symm.trans h

end Command

/-! ## The record -/

/-- For every password file, key, IV, sequence number and block function of the circuit, a call
that does not throw has filled exactly the first `ctTotal` bytes of the buffer, and they seal
the plaintext that was given to `JesseQ_TLS_Encrypt`. -/
theorem jointSmtpAuthenticate_seals (env : Env) (m : Machine) (stack : ℕ → UInt8)
    (passBytes : List UInt8) :
    (∃ e, ((jointSmtpAuthenticate .alice (authBuffer stack) (pushBits passBytes)).run
        (serve env) m).result = .error e) ∨
    ∃ plaintext record ctTotal,
      ((authCommand .alice authCiphertextMax (pushBits passBytes)).run (serve env) m).result =
        .ok plaintext ∧
      ((jointSmtpAuthenticate .alice (authBuffer stack) (pushBits passBytes)).run
        (serve env) m).result = .ok (ctTotal, record ++ (authBuffer stack).drop ctTotal) ∧
      record.length = ctTotal ∧ ctTotal ≤ 4096 ∧
      Seals (aesBlock env (tlsOf m).clientWriteKeyShare) (nonceOf (tlsOf m)) plaintext record := by
  rw [jointSmtpAuthenticate_eq, length_authBuffer]
  rcases hcommand : ((authCommand .alice authCiphertextMax (pushBits passBytes)).run
    (serve env) m).result with e | plaintext
  · left
    rw [run_bind_of_error _ hcommand]
    exact ⟨e, rfl⟩
  · have hfits := length_authCommand_le hcommand
    have htls := authCommand_tlsOf env m .alice authCiphertextMax (pushBits passBytes)
    rw [result_bind_of_ok _ hcommand]
    rcases jesseQTlsEncrypt_cases env ((authCommand .alice authCiphertextMax
      (pushBits passBytes)).run (serve env) m).state plaintext (authBuffer stack) with
      ⟨⟨e, he⟩, -⟩ | ⟨⟨ciphertext, hok, hrecord, -⟩, -⟩
    · left
      rw [run_bind_of_error _ he]
      exact ⟨e, rfl⟩
    · right
      rw [result_bind_of_ok _ hok, hrecord, nextSealed, htls, memcpy_zero, length_sealRecord]
      refine ⟨plaintext, _, _, rfl, rfl, length_sealRecord plaintext, hfits, ?_⟩
      apply seals_sealRecord
      unfold authCiphertextMax at hfits
      omega

/-! ## The command -/

/-- The command that a password file stands for. -/
def expectedCommand (passBytes : List UInt8) : List UInt8 :=
  authPrefix ++ ascii (Base64.encode passBytes) ++ ascii ['\r', '\n']

/-- Whatever is encrypted is the expected command, and only assigned wires are revealed for it. -/
def CarriesPassword (env : Env) (m : Machine) (passBytes : List UInt8) : Prop :=
  (∀ plaintext, ((authCommand .alice authCiphertextMax (pushBits passBytes)).run
      (serve env) m).result = .ok plaintext → plaintext = expectedCommand passBytes) ∧
  ∀ blocks ∈ (authCommand .alice authCiphertextMax (pushBits passBytes)).observed (serve env)
      revealedWires m, ∀ block ∈ blocks, block.assigned = true

/-- The Base64 text of whole bytes is longer than they are. -/
theorem lt_int32_b64OutLen {n : ℕ} (h : 0 < int32 (8 * n)) (hlt : int32 (8 * n) < 1610612720) :
    int32 (8 * n) < int32 (b64OutBytes (int32 (8 * n)).toNat * 8) := by
  have hbytes : int32 (8 * n) % 8 = 0 := by
    rw [int32, Int.bmod_def]
    split <;> omega
  generalize int32 (8 * n) = passLen at *
  rw [int32, Int.bmod_def, b64OutBytes]
  split <;> omega

/-- What the password does not fill is left as the heap had it. -/
theorem stale_mem_b64OutBits {passBits : List Block} {heap : ℕ → Bool} {b64OutLen : ℕ}
    (h : passBits.length < b64OutLen) :
    .stale (heap passBits.length) ∈ b64OutBits passBits heap b64OutLen := by
  refine List.mem_map.mpr ⟨passBits.length, List.mem_range.mpr h, ?_⟩
  rw [List.getD_eq_getElem?_getD, List.getElem?_eq_none le_rfl, Option.getD_none]

theorem length_passBits_le (passwordShard : List Bool) (passLen : ℕ) :
    (passBits passwordShard passLen).length ≤ passLen := by
  simp [passBits, wires]

/-- The command is the right one only where none is made: the length of the password in bits, as
a 32-bit `int`, is not positive, or the length of its Base64 text overflows. -/
theorem carriesPassword_iff (env : Env) (m : Machine) (passBytes : List UInt8) :
    CarriesPassword env m passBytes ↔
      int32 (8 * passBytes.length) ≤ 0 ∨ 1610612720 ≤ int32 (8 * passBytes.length) := by
  have hlen : ((pushBits passBytes).length : ℤ) = 8 * passBytes.length := by
    rw [length_pushBits, Nat.cast_mul, Nat.cast_ofNat]
  constructor
  · rintro ⟨-, hassigned⟩
    by_contra hout
    obtain ⟨hpos, hlt⟩ := not_or.mp hout
    have hpos' : 0 < int32 (pushBits passBytes).length := by rw [hlen]; omega
    have hlt' : int32 (pushBits passBytes).length < 1610612720 := by rw [hlen]; omega
    have hlonger := lt_int32_b64OutLen (not_le.mp hpos) (not_le.mp hlt)
    generalize hpassLen : (int32 (8 * passBytes.length)).toNat = passLen at hlonger
    rw [(authCommand_of_pos hpos' hlt' (by rw [hlen, hpassLen])).2] at hassigned
    have hshort := length_passBits_le (pushBits passBytes) passLen
    have hroom : passLen < (int32 (b64OutBytes passLen * 8)).toNat := by omega
    generalize (int32 (b64OutBytes passLen * 8)).toNat = b64OutLen at hassigned hroom
    have hall := List.forall_mem_singleton.mp hassigned
    have hstale := hall _ (stale_mem_b64OutBits (hshort.trans_lt hroom))
    cases hstale
  · intro hrefused
    rw [← hlen] at hrefused
    obtain ⟨⟨e, he⟩, hnone⟩ := authCommand_of_refused env m authCiphertextMax hrefused
    constructor
    · intro plaintext hok
      cases he.symm.trans hok
    · rw [hnone]
      intro blocks hblocks
      cases hblocks

/-- The password `A`: its bits reversed and three bytes of the heap, where `QQ==` is expected. -/
theorem not_carriesPassword_one_byte :
    ((authCommand .alice authCiphertextMax (pushBits [0x41])).run (serve (demoEnv .alice [0x41]))
        ⟨Host.start, none⟩).result =
      .ok (authPrefix ++ [0x82, 0, 0, 0] ++ ascii ['\r', '\n']) ∧
    expectedCommand [0x41] = authPrefix ++ ascii ['Q', 'Q', '=', '='] ++ ascii ['\r', '\n'] ∧
    ¬CarriesPassword (demoEnv .alice [0x41]) ⟨Host.start, none⟩ [0x41] := by
  have hrun : ((authCommand .alice authCiphertextMax (pushBits [0x41])).run
      (serve (demoEnv .alice [0x41])) ⟨Host.start, none⟩).result =
        .ok (authPrefix ++ [0x82, 0, 0, 0] ++ ascii ['\r', '\n']) := by
    rw [(authCommand_of_pos (by decide) (by decide) rfl).1, if_neg (by decide)]
    exact congrArg Except.ok (by decide)
  refine ⟨hrun, by decide, fun hcarries => ?_⟩
  exact absurd (hcarries.1 _ hrun) (by decide)

end Freehold.Server
