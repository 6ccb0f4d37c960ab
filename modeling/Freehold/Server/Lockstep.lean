import Freehold.Foundation.Observation
import Freehold.Server.Mpcauth

/-!
# The joint operations of a session

`emp` pairs the n-th joint operation of one party with the n-th of the other, so the
two processes have to issue the same sequence. The sequence that `execute_mpc_logic`
issues is computed here from the local inputs, and compared between the parties.
-/

namespace Freehold.Server

open Interaction Interaction.Program

/-- What the other party has to match. -/
inductive JointOp where
  | setup
  | feed (owner : Party) (len : ℕ)
  | evaluateAes
  | evaluate
  | reveal (len : ℕ)
  | finalize
  deriving DecidableEq, Repr

def jointOp (event : Event Mpc) : Option JointOp :=
  match event.op with
  | .setupZkBool _ => some .setup
  | .feed _ owner bits => some (.feed owner bits.length)
  | .computeAes _ _ => some .evaluateAes
  | .compute _ _ => some .evaluate
  | .reveal blocks => some (.reveal blocks.length)
  | .finalizeZkBool => some .finalize
  | _ => none

/-- Whatever the state of the machine, `p` returns after issuing `ops`. -/
abbrev Issues {α : Type} (env : Env) (p : Session α) (ops : List JointOp) : Prop :=
  Returns (serve env) jointOp (fun _ => True) p (fun _ _ => True) ops

/-- Whatever the state of the machine, `p` throws after issuing `ops`. -/
abbrev IssuesThenThrows {α : Type} (env : Env) (p : Session α) (ops : List JointOp) : Prop :=
  Throws (serve env) jointOp (fun _ => True) p ops

/-- The AES circuit of emp-tool is installed. -/
def AesInstalled (env : Env) : Prop := ∃ path ∈ aesPaths, (env.files path).isSome = true

/-- The AES circuit is installed and, in an LLSS build, the LLSS network answers. -/
structure Ready (enableLlss : Bool) (env : Env) : Prop where
  aes : AesInstalled env
  llssSetup : enableLlss = true → env.llssSetup = true
  llssRun : enableLlss = true → env.llssRun = true

theorem demoEnv_aesInstalled (party : Party) (password : List UInt8) :
    AesInstalled (demoEnv party password) := by
  refine ⟨_, List.mem_cons_self, ?_⟩
  simp only [demoEnv]
  split_ifs
  · rfl
  · rfl
  · next hmem => exact absurd List.mem_cons_self hmem

theorem demoEnv_ready (enableLlss : Bool) (party : Party) (password : List UInt8) :
    Ready enableLlss (demoEnv party password) :=
  ⟨demoEnv_aesInstalled party password, fun _ => rfl, fun _ => rfl⟩

/-! ## The sequence, function by function -/

def aesOps : List JointOp := [.feed .alice 128, .evaluateAes, .reveal 128]

def encryptOps (len : ℕ) : List JointOp :=
  .feed .alice 128 :: ((List.range ((len + 15) / 16)).flatMap (fun _ => aesOps) ++ aesOps)

/-- Neither allocation of `Joint_SMTP_Authenticate` fails and the record fits. -/
def RecordFits (passLen : ℕ) : Prop :=
  0 ≤ int32 (b64OutBytes passLen * 8) ∧ authCiphertextLen passLen ≤ authCiphertextMax

instance (passLen : ℕ) : Decidable (RecordFits passLen) := by
  unfold RecordFits
  infer_instance

def authOps (passLen : ℕ) : List JointOp :=
  .feed .alice passLen ::
    if int32 (b64OutBytes passLen * 8) < 0 then []
    else .reveal (int32 (b64OutBytes passLen * 8)).toNat ::
      if authCiphertextLen passLen ≤ authCiphertextMax then
        encryptOps (authPrefix.length + b64OutBytes passLen + 2)
      else []

def identityOps : List JointOp :=
  [.feed .alice shaInLen, .evaluate, .reveal shaOutLen, .finalize]

def gateOps (enableLlss : Bool) (requestEpoch clusterEpoch : ℤ) : List JointOp :=
  if enableLlss ∧ requestEpoch ≠ clusterEpoch then [.feed .alice 128] else []

/-- After the gate: the record, and the identity commitment if the record was built. -/
def passwordOps (passLen : ℤ) : List JointOp :=
  if passLen ≤ 0 then []
  else authOps passLen.toNat ++ if RecordFits passLen.toNat then identityOps else []

def sessionOps (enableLlss : Bool) (requestEpoch clusterEpoch passLen : ℤ) : List JointOp :=
  .setup :: (gateOps enableLlss requestEpoch clusterEpoch ++ passwordOps passLen)

variable {env : Env}

theorem probeAesPaths_issues {paths : List String}
    (h : ∃ path ∈ paths, (env.files path).isSome = true) :
    Returns (serve env) jointOp (fun _ => True) (probeAesPaths paths)
      (fun found _ => found = true) [] := by
  induction paths with
  | nil => simp at h
  | cons path paths ih =>
    simp only [probeAesPaths, perform_bind]
    refine Returns.hidden (fun _ => rfl) (fun opened _ => opened = (env.files path).isSome)
      (fun _ _ => rfl)
      fun opened m hopened => ?_
    cases opened with
    | true => exact ⟨⟨true, rfl, rfl⟩, rfl⟩
    | false =>
      obtain ⟨other, hmem, hother⟩ := h
      rcases List.mem_cons.mp hmem with rfl | hmem
      · exact absurd (hopened.trans hother) Bool.false_ne_true
      · exact ih ⟨other, hmem, hother⟩ m trivial

theorem getAesCircuit_issues (h : AesInstalled env) : Issues env getAesCircuit [] := by
  simp only [getAesCircuit, perform_bind]
  refine Returns.hidden (fun _ => rfl) (fun _ _ => True) (fun _ _ => trivial) fun g => ?_
  split
  · exact .ret fun _ _ => trivial
  · refine Returns.bind_value (probeAesPaths_issues h) fun found hfound => ?_
    rw [if_pos hfound]
    exact fun _ _ => ⟨⟨(), rfl, trivial⟩, rfl⟩

theorem aesReveal_issues (role : Party) (keyBits : List Block) (block : Bytes 16) :
    Issues env (aesReveal role keyBits block) aesOps := by
  intro m _
  refine ⟨⟨_, rfl, trivial⟩, ?_⟩
  simp [aesReveal, feed, observed_call, jointOp, aesOps]

theorem encryptBlock_issues (role : Party) (keyBits : List Block) (nonce : Bytes 12)
    (plaintext : List UInt8) (state : List UInt8 × List UInt8) (blk : ℕ) :
    Issues env (encryptBlock role keyBits nonce plaintext state blk) aesOps := by
  refine (aesReveal_issues role keyBits _).bind fun keystream => ?_
  split <;> exact .ret fun _ _ => trivial

theorem feed_issues (role owner : Party) (bits : List Bool) :
    Issues env (feed role owner bits) [.feed owner bits.length] := by
  simp only [feed, perform_bind]
  exact Returns.shown (fun _ => rfl) (fun _ _ => True) (fun _ _ => trivial)
    fun _ => .ret fun _ _ => trivial

@[simp] theorem length_rawKey (role : Party) (key : Bytes 16) : (rawKey role key).length = 128 := by
  cases role <;> simp [rawKey]

theorem jesseQTlsEncrypt_issues (h : AesInstalled env) (role : Party)
    (plaintext ciphertext : List UInt8) :
    Issues env (jesseQTlsEncrypt role plaintext ciphertext) (encryptOps plaintext.length) := by
  simp only [jesseQTlsEncrypt, perform_bind]
  refine (getAesCircuit_issues h).bind fun _ => ?_
  refine Returns.hidden (fun _ => rfl) (fun _ _ => True) (fun _ _ => trivial) fun g => ?_
  have hkey : Issues env (feed role .alice (rawKey role g.tls.clientWriteKeyShare)) _ :=
    feed_issues role .alice _
  rw [length_rawKey] at hkey
  refine hkey.bind fun keyBits => ?_
  have hloop : ∀ state, Issues env ((List.range ((plaintext.length + 15) / 16)).foldlM
      (encryptBlock role keyBits (recordNonce g.tls.clientWriteIv g.tls.sequenceNumber) plaintext)
      state) ((List.range ((plaintext.length + 15) / 16)).flatMap fun _ => aesOps) :=
    Returns.foldlM fun state blk _ => encryptBlock_issues role keyBits _ plaintext state blk
  refine (hloop _).bind fun state => ?_
  have htag : Issues env (aesReveal role keyBits
      (counterBlock (recordNonce g.tls.clientWriteIv g.tls.sequenceNumber) 1)) aesOps :=
    aesReveal_issues role keyBits _
  rw [← List.append_nil aesOps]
  refine htag.bind fun tagBytes m _ => ⟨⟨_, rfl, trivial⟩, rfl⟩

theorem length_rawPass (role : Party) {passwordShard : List Bool} {passLen : ℕ}
    (h : passLen ≤ passwordShard.length) :
    (rawPass role passwordShard passLen).length = passLen := by
  cases role <;> simp [rawPass, h]

@[simp] theorem length_b64OutBits (passBits : List Block) (heap : ℕ → Bool) (n : ℕ) :
    (b64OutBits passBits heap n).length = n := by
  simp [b64OutBits]

theorem length_authPlaintext (b64Result : ℕ → Bool) (n : ℕ) :
    (authPlaintext b64Result n).length = authPrefix.length + n + 2 := by
  simp [authPlaintext, ascii, Nat.add_assoc]

theorem authRecord_issues (h : AesInstalled env) (role : Party) {ciphertextOut : List UInt8}
    (hmax : ciphertextOut.length = authCiphertextMax) {passLen : ℕ} (hfits : RecordFits passLen)
    (passBits : List Block) :
    Issues env (authRecord role ciphertextOut passLen passBits)
      (.reveal (int32 (b64OutBytes passLen * 8)).toNat ::
        encryptOps (authPrefix.length + b64OutBytes passLen + 2)) := by
  obtain ⟨hb64, hlen⟩ := hfits
  simp only [authRecord, encryptAuth, perform_bind, if_neg (not_lt.mpr hb64), hmax,
    if_neg (not_lt.mpr hlen)]
  refine Returns.hidden (fun _ => rfl) (fun _ _ => True) (fun _ _ => trivial) fun heap => ?_
  refine Returns.shown (fun _ => by simp [jointOp]) (fun _ _ => True) (fun _ _ => trivial)
    fun b64Result => ?_
  have hencrypt := jesseQTlsEncrypt_issues h role
    (authPlaintext b64Result (b64OutBytes passLen)) ciphertextOut
  rw [length_authPlaintext] at hencrypt
  rw [← List.append_nil (encryptOps _)]
  exact hencrypt.bind fun _ => .ret fun _ _ => trivial

theorem authRecord_issuesThenThrows (role : Party) {ciphertextOut : List UInt8}
    (hmax : ciphertextOut.length = authCiphertextMax) {passLen : ℕ} (hfits : ¬RecordFits passLen)
    (passBits : List Block) :
    IssuesThenThrows env (authRecord role ciphertextOut passLen passBits)
      (if int32 (b64OutBytes passLen * 8) < 0 then []
        else [.reveal (int32 (b64OutBytes passLen * 8)).toNat]) := by
  simp only [authRecord, encryptAuth, perform_bind]
  split
  · exact .throw
  · next hb64 =>
    have hlen : authCiphertextMax < authCiphertextLen passLen := by
      by_contra hle
      exact hfits ⟨not_lt.mp hb64, not_lt.mp hle⟩
    simp only [hmax, if_pos hlen]
    intro m _
    exact ⟨⟨_, rfl⟩, by simp [observed_call, jointOp]⟩

theorem authOps_of_fits {passLen : ℕ} (h : RecordFits passLen) :
    authOps passLen = .feed .alice passLen :: .reveal (int32 (b64OutBytes passLen * 8)).toNat ::
      encryptOps (authPrefix.length + b64OutBytes passLen + 2) := by
  rw [authOps, if_neg (not_lt.mpr h.1), if_pos h.2]

theorem authOps_of_not_fits {passLen : ℕ} (h : ¬RecordFits passLen) :
    authOps passLen = .feed .alice passLen ::
      if int32 (b64OutBytes passLen * 8) < 0 then []
      else [.reveal (int32 (b64OutBytes passLen * 8)).toNat] := by
  rw [authOps]
  split
  · rfl
  · next hb64 => rw [if_neg fun hlen => h ⟨not_lt.mp hb64, hlen⟩]

theorem int32_le (n : ℕ) : int32 n ≤ n := by
  rw [int32, Int.bmod_def]
  split <;> omega

theorem feedPassword_issues (role : Party) (passwordShard : List Bool) :
    Issues env (feed role .alice (rawPass role passwordShard (int32 passwordShard.length).toNat))
      [.feed .alice (int32 passwordShard.length).toNat] := by
  have hfeed : Issues env (feed role .alice
      (rawPass role passwordShard (int32 passwordShard.length).toNat)) _ :=
    feed_issues role .alice _
  have hle := int32_le passwordShard.length
  rwa [length_rawPass role (by omega)] at hfeed

theorem jointSmtpAuthenticate_issuesThenThrows_of_nonpos (role : Party)
    (ciphertextOut : List UInt8) {passwordShard : List Bool}
    (hlen : int32 passwordShard.length ≤ 0) :
    IssuesThenThrows env (jointSmtpAuthenticate role ciphertextOut passwordShard) [] := by
  simp only [jointSmtpAuthenticate]
  split
  · exact .throw
  · next hne => rw [if_pos (lt_of_le_of_ne hlen hne)]; exact .throw

section Sizes

variable {passwordShard : List Bool} (hpos : 0 < int32 passwordShard.length)
  {ciphertextOut : List UInt8} (hmax : ciphertextOut.length = authCiphertextMax)
include hpos hmax

theorem jointSmtpAuthenticate_issues (h : AesInstalled env) (role : Party)
    (hfits : RecordFits (int32 passwordShard.length).toNat) :
    Issues env (jointSmtpAuthenticate role ciphertextOut passwordShard)
      (authOps (int32 passwordShard.length).toNat) := by
  simp only [jointSmtpAuthenticate, if_neg hpos.ne', if_neg hpos.le.not_gt]
  rw [authOps_of_fits hfits, ← List.singleton_append]
  exact (feedPassword_issues role passwordShard).bind fun passBits =>
    authRecord_issues h role hmax hfits passBits

theorem jointSmtpAuthenticate_issuesThenThrows (role : Party)
    (hfits : ¬RecordFits (int32 passwordShard.length).toNat) :
    IssuesThenThrows env (jointSmtpAuthenticate role ciphertextOut passwordShard)
      (authOps (int32 passwordShard.length).toNat) := by
  simp only [jointSmtpAuthenticate, if_neg hpos.ne', if_neg hpos.le.not_gt]
  rw [authOps_of_not_fits hfits, ← List.singleton_append]
  exact (feedPassword_issues role passwordShard).bind_throws fun passBits =>
    authRecord_issuesThenThrows role hmax hfits passBits

end Sizes

/-! ## The whole session -/

theorem llssNew_issues (h : env.llssSetup = true) (party : Party) (epoch threshold : ℤ)
    (nodes : List ℤ)
    (circuitFile : String) :
    Returns (serve env) jointOp (fun _ => True)
      (LLSSContext.new party epoch threshold nodes circuitFile)
      (fun llss _ => llss.llssProtocol = true) [] := by
  intro m _
  simp [LLSSContext.new, run_call, observed_call, serve, h, jointOp]

theorem applyTransitionGate_issues (h : env.llssRun = true) {llss : LLSSContext}
    (hprotocol : llss.llssProtocol = true) (role : Party) (oldShard : ℕ → UInt64 × UInt64)
    (len : ℕ) :
    Issues env (llss.applyTransitionGate role oldShard len) [.feed .alice len] := by
  intro m _
  simp [LLSSContext.applyTransitionGate, hprotocol, run_call, observed_call, serve, h,
    jointOp]

theorem epochTransition_issues {enableLlss : Bool} (h : Ready enableLlss env) (party : Party)
    (requestEpoch clusterEpoch : ℤ) :
    Issues env (epochTransition enableLlss party requestEpoch clusterEpoch)
      (gateOps enableLlss requestEpoch clusterEpoch) := by
  cases enableLlss with
  | false => exact .ret fun _ _ => trivial
  | true =>
    have hnew := llssNew_issues (h.llssSetup rfl) party clusterEpoch 3 [1, 2, 3, 4, 5]
      "reference/LLSS-MPC/OptimizedCircuits/mpcauth_dynamic.txt"
    rw [← List.nil_append (gateOps _ _ _)]
    refine hnew.bind_value fun llss hprotocol => ?_
    by_cases hepoch : requestEpoch = clusterEpoch
    · simp only [gateOps, hepoch, ne_eq, not_true, and_false, if_false]
      exact .ret fun _ _ => trivial
    · simp only [gateOps, hepoch, ne_eq, not_false_eq_true, and_self, if_true, perform_bind]
      refine Returns.hidden (fun _ => rfl) (fun _ _ => True) (fun _ _ => trivial)
        fun dummyShard => ?_
      rw [← List.append_nil [_]]
      exact (applyTransitionGate_issues (h.llssRun rfl) hprotocol party _ _).bind
        fun _ => .ret fun _ _ => trivial

theorem loadPassShard_issues {party : Party} {bytes : List UInt8}
    (hfile : env.files (passShardPath party) = some bytes) :
    Returns (serve env) jointOp (fun _ => True) (loadPassShard party)
      (fun passShard _ => passShard = pushBits bytes) [] := by
  intro m _
  simp [loadPassShard, run_call, observed_call, serve, hfile, jointOp]

theorem initTlsSessionFromShard_issues (hmac : HmacSha256) (shardBytes : List UInt8) :
    Issues env (initTlsSessionFromShard hmac shardBytes) [] := by
  rw [initTlsSessionFromShard_eq]
  exact fun m _ => ⟨⟨(), rfl, trivial⟩, rfl⟩

@[simp] theorem length_authBuffer (stack : ℕ → UInt8) :
    (authBuffer stack).length = authCiphertextMax := by
  simp [authBuffer]

section Phase

variable {args : SessionArgs} (h : Ready args.enableLlss env) {bytes : List UInt8}
  (hfile : env.files (passShardPath args.party) = some bytes) {ops : List JointOp}
include h hfile

theorem smtpPhase_issues
    (hauth : ∀ stack, Issues env
      (jointSmtpAuthenticate args.party (authBuffer stack) (pushBits bytes)) ops) :
    Issues env (smtpPhase args)
      (.setup :: (gateOps args.enableLlss args.requestEpoch args.clusterEpoch ++ ops)) := by
  simp only [smtpPhase, perform_bind]
  refine Returns.shown (fun _ => rfl) (fun _ _ => True) (fun _ _ => trivial) fun _ => ?_
  refine (epochTransition_issues h _ _ _).bind fun _ => ?_
  rw [← List.nil_append ops]
  refine (loadPassShard_issues hfile).bind_value fun passShard hpass => ?_
  subst hpass
  rw [← List.nil_append ops]
  refine (initTlsSessionFromShard_issues args.hmac _).bind fun _ => ?_
  refine Returns.hidden (fun _ => rfl) (fun _ _ => True) (fun _ _ => trivial) fun stack => ?_
  rw [← List.append_nil ops]
  exact (hauth stack).bind fun _ => .ret fun _ _ => trivial

theorem smtpPhase_issuesThenThrows
    (hauth : ∀ stack, IssuesThenThrows env
      (jointSmtpAuthenticate args.party (authBuffer stack) (pushBits bytes)) ops) :
    IssuesThenThrows env (smtpPhase args)
      (.setup :: (gateOps args.enableLlss args.requestEpoch args.clusterEpoch ++ ops)) := by
  simp only [smtpPhase, perform_bind]
  refine Throws.shown (fun _ => rfl) (fun _ _ => True) (fun _ _ => trivial) fun _ => ?_
  refine (epochTransition_issues h _ _ _).bind_throws fun _ => ?_
  rw [← List.nil_append ops]
  refine (loadPassShard_issues hfile).bind_value_throws fun passShard hpass => ?_
  subst hpass
  rw [← List.nil_append ops]
  refine (initTlsSessionFromShard_issues args.hmac _).bind_throws fun _ => ?_
  exact Throws.hidden (fun _ => rfl) (fun _ _ => True) (fun _ _ => trivial)
    fun stack => (hauth stack).bind _

end Phase

theorem computeNullifier_issues (party : Party) (myShard : List Bool) (circuit : BristolFashion) :
    Issues env (computeNullifier party myShard circuit)
      [.feed .alice shaInLen, .evaluate, .reveal shaOutLen] := by
  intro m _
  simp [computeNullifier, feed, identityInput, outBits, run_call, observed_call, jointOp]

theorem identify_issues {args : SessionArgs} (h : Ready args.enableLlss env) {bytes : List UInt8}
    (hfile : env.files (passShardPath args.party) = some bytes)
    (hpos : 0 < int32 (pushBits bytes).length)
    (hfits : RecordFits (int32 (pushBits bytes).length).toNat) :
    Issues env (identify args)
      (.setup :: (gateOps args.enableLlss args.requestEpoch args.clusterEpoch ++
        authOps (int32 (pushBits bytes).length).toNat) ++
        [.feed .alice shaInLen, .evaluate, .reveal shaOutLen]) :=
  (smtpPhase_issues h hfile fun stack =>
    jointSmtpAuthenticate_issues hpos (length_authBuffer stack) h.aes args.party hfits).bind
    fun _ => computeNullifier_issues args.party args.myShard args.circuit

/-- Accepted, rejected or cheated: `finalize` is issued once. -/
theorem observed_commitNullifier (nullifier : List Char) (m : Machine) :
    (commitNullifier nullifier).observed (serve env) jointOp m = [.finalize] := by
  simp only [commitNullifier, saveNullifier, perform_bind, observed_call]
  split
  · simp [observed_call, jointOp]
  · simp only [observed_call]
    split <;> simp [jointOp]

/-- The joint operations of a session are determined by the build, the epochs and the
length of the password file. -/
theorem observed_executeMpcLogic (args : SessionArgs) (h : Ready args.enableLlss env)
    {bytes : List UInt8}
    (hfile : env.files (passShardPath args.party) = some bytes) (m : Machine) :
    (executeMpcLogic args).observed (serve env) jointOp m =
      sessionOps args.enableLlss args.requestEpoch args.clusterEpoch
        (int32 (pushBits bytes).length) := by
  rw [sessionOps, passwordOps, executeMpcLogic]
  split
  · next hlen =>
    have hphase := smtpPhase_issuesThenThrows h hfile fun stack =>
      jointSmtpAuthenticate_issuesThenThrows_of_nonpos args.party (authBuffer stack) hlen
    exact ((hphase.bind _).bind _ m trivial).2
  · next hlen =>
    have hpos := not_le.mp hlen
    by_cases hfits : RecordFits (int32 (pushBits bytes).length).toNat
    · obtain ⟨⟨nullifier, hok, -⟩, hops⟩ := identify_issues h hfile hpos hfits m trivial
      rw [observed_bind_of_ok _ hok, hops, observed_commitNullifier, if_pos hfits]
      simp [identityOps]
    · have hphase := smtpPhase_issuesThenThrows h hfile fun stack =>
        jointSmtpAuthenticate_issuesThenThrows hpos (length_authBuffer stack) args.party hfits
      rw [if_neg hfits, List.append_nil]
      exact ((hphase.bind _).bind _ m trivial).2

/-! ## Comparing the two parties -/

/-- The same length as far as an `int` shows it; `Joint_SMTP_Authenticate` refuses what is not
positive before it issues anything. -/
def SameLength (passLen passLen' : ℤ) : Prop :=
  passLen = passLen' ∨ passLen ≤ 0 ∧ passLen' ≤ 0

theorem passwordOps_of_pos {passLen : ℤ} (h : 0 < passLen) :
    ∃ ops, passwordOps passLen = .feed .alice passLen.toNat :: ops := by
  rw [passwordOps, if_neg (not_le.mpr h), authOps, List.cons_append]
  exact ⟨_, rfl⟩

theorem passwordOps_of_nonpos {passLen : ℤ} (h : passLen ≤ 0) : passwordOps passLen = [] :=
  if_pos h

theorem passwordOps_eq_iff {passLen passLen' : ℤ} :
    passwordOps passLen = passwordOps passLen' ↔ SameLength passLen passLen' := by
  constructor
  · intro heq
    by_cases hpos : 0 < passLen
    · obtain ⟨ops, hops⟩ := passwordOps_of_pos hpos
      by_cases hpos' : 0 < passLen'
      · obtain ⟨ops', hops'⟩ := passwordOps_of_pos hpos'
        rw [hops, hops'] at heq
        injection heq with hfeed
        injection hfeed with _ hlen
        exact .inl (by omega)
      · rw [hops, passwordOps_of_nonpos (not_lt.mp hpos')] at heq
        cases heq
    · by_cases hpos' : 0 < passLen'
      · obtain ⟨ops', hops'⟩ := passwordOps_of_pos hpos'
        rw [hops', passwordOps_of_nonpos (not_lt.mp hpos)] at heq
        cases heq
      · exact .inr ⟨not_lt.mp hpos, not_lt.mp hpos'⟩
  · rintro (rfl | ⟨h, h'⟩)
    · rfl
    · rw [passwordOps_of_nonpos h, passwordOps_of_nonpos h']

/-- A password of 128 bits is revealed next, in 192 wires. -/
theorem passwordOps_128 : ∃ ops, passwordOps 128 = .feed .alice 128 :: .reveal 192 :: ops := by
  have hfits : RecordFits 128 := by decide
  have hlen : (int32 (b64OutBytes 128 * 8)).toNat = 192 := by decide
  have hpos : ¬(128 : ℤ) ≤ 0 := by decide
  rw [passwordOps, if_neg hpos, show (128 : ℤ).toNat = 128 from rfl, authOps_of_fits hfits, hlen]
  exact ⟨_, by rw [List.cons_append, List.cons_append]⟩

/-- The feed of the gate cannot be mistaken for the feed of a password. -/
theorem passwordOps_ne_gate (passLen passLen' : ℤ) :
    passwordOps passLen ≠ .feed .alice 128 :: passwordOps passLen' := by
  intro heq
  by_cases hpos : 0 < passLen
  · obtain ⟨ops, hops⟩ := passwordOps_of_pos hpos
    have hlen : passLen.toNat = 128 := by
      rw [hops] at heq
      injection heq with hfeed
      injection hfeed
    obtain rfl : passLen = 128 := by omega
    obtain ⟨rest, hrest⟩ := passwordOps_128
    rw [hrest] at heq
    injection heq with _ htail
    by_cases hpos' : 0 < passLen'
    · obtain ⟨ops', hops'⟩ := passwordOps_of_pos hpos'
      rw [hops'] at htail
      injection htail with hclash
      cases hclash
    · rw [passwordOps_of_nonpos (not_lt.mp hpos')] at htail
      cases htail
  · rw [passwordOps_of_nonpos (not_lt.mp hpos)] at heq
    cases heq

theorem sessionOps_eq_iff {enableLlss : Bool} {epoch epoch' passLen passLen' : ℤ} :
    sessionOps enableLlss epoch epoch passLen = sessionOps enableLlss epoch epoch' passLen' ↔
      SameLength passLen passLen' ∧ (enableLlss = false ∨ epoch = epoch') := by
  have hgate : gateOps enableLlss epoch epoch = [] := by simp [gateOps]
  rw [sessionOps, sessionOps, hgate, List.nil_append, List.cons.injEq,
    and_iff_right rfl]
  by_cases hopen : enableLlss = true ∧ epoch ≠ epoch'
  · rw [gateOps, if_pos hopen, List.singleton_append]
    refine iff_of_false (passwordOps_ne_gate _ _) ?_
    rintro ⟨-, hfalse | hepoch⟩
    · exact absurd hopen.1 (by simp [hfalse])
    · exact hopen.2 hepoch
  · rw [gateOps, if_neg hopen, List.nil_append, passwordOps_eq_iff]
    refine (and_iff_left ?_).symm
    cases enableLlss with
    | false => exact .inl rfl
    | true => exact .inr (not_not.mp fun hne => hopen ⟨rfl, hne⟩)

/-- What one process starts a session with. -/
structure LocalInputs where
  env : Env
  machine : Machine
  /-- `CLUSTER_BFT_EPOCH`. -/
  epoch : ℤ
  myShard : List Bool

/-- `main` replaces BOB's `request_epoch` by the epoch that ALICE sends. -/
def LocalInputs.args (inputs : LocalInputs) (enableLlss : Bool) (hmac : HmacSha256)
    (circuit : BristolFashion) (party : Party) (requestEpoch : ℤ) : SessionArgs where
  enableLlss := enableLlss
  hmac := hmac
  party := party
  requestEpoch := requestEpoch
  clusterEpoch := inputs.epoch
  myShard := inputs.myShard
  circuit := circuit

/-- The joint operations that the process issues. -/
def LocalInputs.jointOps (inputs : LocalInputs) (args : SessionArgs) : List JointOp :=
  (executeMpcLogic args).observed (serve inputs.env) jointOp inputs.machine

/-- The parties stay in lockstep exactly when their password files have the same length and,
in an LLSS build, their epochs agree. -/
theorem jointOps_eq_iff (enableLlss : Bool) (hmac : HmacSha256) (circuit : BristolFashion)
    (alice bob : LocalInputs) {passAlice passBob : List UInt8}
    (halice : Ready enableLlss alice.env) (hbob : Ready enableLlss bob.env)
    (hpassAlice : alice.env.files (passShardPath .alice) = some passAlice)
    (hpassBob : bob.env.files (passShardPath .bob) = some passBob) :
    alice.jointOps (alice.args enableLlss hmac circuit .alice alice.epoch) =
        bob.jointOps (bob.args enableLlss hmac circuit .bob alice.epoch) ↔
      SameLength (int32 (8 * passAlice.length)) (int32 (8 * passBob.length)) ∧
        (enableLlss = false ∨ alice.epoch = bob.epoch) := by
  have hopsAlice := observed_executeMpcLogic
    (alice.args enableLlss hmac circuit .alice alice.epoch) halice hpassAlice alice.machine
  have hopsBob := observed_executeMpcLogic
    (bob.args enableLlss hmac circuit .bob alice.epoch) hbob hpassBob bob.machine
  rw [LocalInputs.jointOps, LocalInputs.jointOps, hopsAlice, hopsBob, length_pushBits,
    length_pushBits, Nat.cast_mul, Nat.cast_mul, Nat.cast_ofNat]
  exact sessionOps_eq_iff

def demoInputs (party : Party) (password : List UInt8) (epoch : ℤ) : LocalInputs where
  env := demoEnv party password
  machine := ⟨Host.start, none⟩
  epoch := epoch
  myShard := demoShard

/-- Password files of 16 bytes, different in content, and different epochs in a default build. -/
theorem jointOps_eq_of_equal_lengths :
    (demoInputs .alice (List.replicate 16 7) 3).jointOps
        ((demoInputs .alice (List.replicate 16 7) 3).args false demoMac demoCircuit .alice 3) =
      (demoInputs .bob (List.replicate 16 9) 4).jointOps
        ((demoInputs .bob (List.replicate 16 9) 4).args false demoMac demoCircuit .bob 3) := by
  have hiff := jointOps_eq_iff false demoMac demoCircuit
    (demoInputs .alice (List.replicate 16 7) 3) (demoInputs .bob (List.replicate 16 9) 4)
    (demoEnv_ready _ .alice _) (demoEnv_ready _ .bob _)
    (demoEnv_passShard .alice _) (demoEnv_passShard .bob _)
  exact hiff.mpr ⟨.inl rfl, .inl rfl⟩

/-- Password files of 16 and 17 bytes: the feeds differ. -/
theorem jointOps_ne_of_different_lengths :
    (demoInputs .alice (List.replicate 16 7) 3).jointOps
        ((demoInputs .alice (List.replicate 16 7) 3).args false demoMac demoCircuit .alice 3) ≠
      (demoInputs .bob (List.replicate 17 7) 3).jointOps
        ((demoInputs .bob (List.replicate 17 7) 3).args false demoMac demoCircuit .bob 3) := by
  have hopsAlice := observed_executeMpcLogic
    ((demoInputs .alice (List.replicate 16 7) 3).args false demoMac demoCircuit .alice 3)
    (demoEnv_ready _ .alice (List.replicate 16 7)) (demoEnv_passShard .alice _) ⟨Host.start, none⟩
  have hopsBob := observed_executeMpcLogic
    ((demoInputs .bob (List.replicate 17 7) 3).args false demoMac demoCircuit .bob 3)
    (demoEnv_ready _ .bob (List.replicate 17 7)) (demoEnv_passShard .bob _) ⟨Host.start, none⟩
  refine fun heq => absurd (hopsAlice.symm.trans (heq.trans hopsBob)) fun hops => ?_
  rcases (sessionOps_eq_iff.mp hops).1 with hlen | ⟨hnonpos, -⟩
  · exact absurd hlen (by rw [length_pushBits, length_pushBits]; decide)
  · exact absurd hnonpos (by rw [length_pushBits]; decide)

end Freehold.Server
