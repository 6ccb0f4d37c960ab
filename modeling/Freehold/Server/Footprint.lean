import Freehold.Server.Mpcauth

/-!
# What the steps of a session may touch

Everything before the identity commitment leaves the nullifier set and its file alone,
and evaluates no circuit but AES.
-/

namespace Freehold.Server

open Interaction Interaction.Program

/-- Operations of the phase before the identity commitment. -/
def Preliminary : Op → Prop
  | .compute _ _ | .finalizeZkBool | .nullifierCount _ | .nullifierInsert _ => False
  | .readNullifierDatabase | .appendNullifierDatabase _ => False
  | _ => True

/-- Preliminary operations that neither evaluate AES nor change the globals. -/
def Quiet : Op → Prop
  | .computeAes _ _ | .setGlobals _ => False
  | o => Preliminary o

theorem Quiet.preliminary {o : Op} (h : Quiet o) : Preliminary o := by
  cases o <;> trivial

/-- Operations of the session up to the nullifier check. -/
def BeforeCheck : Op → Prop
  | .compute _ _ => True
  | o => Preliminary o

theorem Preliminary.beforeCheck {o : Op} (h : Preliminary o) : BeforeCheck o := by
  cases o <;> trivial

/-- Operations up to the nullifier check that are none of the LLSS library's. -/
def WithoutLlss : Op → Prop
  | .llssSetup _ _ _ _ | .llssRun => False
  | o => BeforeCheck o

theorem WithoutLlss.beforeCheck {o : Op} (h : WithoutLlss o) : BeforeCheck o := by
  cases o <;> trivial

/-- Operations that build the record. -/
def BuildsRecord : Op → Prop
  | .compute _ _ => False
  | o => WithoutLlss o

theorem BuildsRecord.withoutLlss {o : Op} (h : BuildsRecord o) : WithoutLlss o := by
  cases o <;> trivial

theorem BuildsRecord.preliminary {o : Op} (h : BuildsRecord o) : Preliminary o := by
  cases o <;> trivial

/-- The set and the file of a machine. -/
def nullifierState (m : Machine) : Finset (List Char) × Disk :=
  (m.host.nullifierDatabase, m.disk)

theorem BeforeCheck.nullifierState_serve {env : Env} (o : Op) (m : Machine) (h : BeforeCheck o) :
    nullifierState (serve env o m).2 = nullifierState m := by
  cases o <;> first | rfl | exact h.elim

/-! ## Quiet steps -/

theorem feed_uses {P : Op → Prop} {role owner : Party} {bits : List Bool}
    (h : P (.feed role owner bits)) : (feed role owner bits).Uses P := .call h fun _ => uses_ret _

theorem probeAesPaths_uses {P : Op → Prop} (h : ∀ path, P (.fopen path)) (paths : List String) :
    (probeAesPaths paths).Uses P := by
  induction paths with
  | nil => exact uses_ret _
  | cons path paths ih =>
    simp only [probeAesPaths, perform_bind]
    exact .call (h path) fun opened => .ite (uses_ret _) ih

theorem llssNew_uses (party : Party) (epoch threshold : ℤ) (nodes : List ℤ)
    (circuitFile : String) :
    (LLSSContext.new party epoch threshold nodes circuitFile).Uses Quiet := by
  simp only [LLSSContext.new, perform_bind]
  exact .call trivial fun _ => .call trivial fun _ => .call trivial fun _ =>
    .ite (uses_ret _) (uses_throw _)

/-- A context that is constructed, before any gate. -/
theorem llssNew_reaches {party : Party} {epoch threshold : ℤ} {nodes : List ℤ}
    {circuitFile : String} {t : List (Event Mpc)} {llss : LLSSContext}
    (h : (LLSSContext.new party epoch threshold nodes circuitFile).Reaches t (.ret llss)) :
    llss = ⟨epoch, threshold, nodes, true⟩ ∧ ⟨.llssRun, true⟩ ∉ t := by
  simp only [LLSSContext.new, perform_bind] at h
  obtain _ | ⟨_ | @⟨_, _, connected, t, _, hrest⟩⟩ := h
  cases hrest with
  | @call _ _ setUp _ _ hrest =>
    cases setUp with
    | false => cases hrest
    | true =>
      obtain ⟨rfl, hret⟩ := hrest.ret_inv
      cases hret
      exact ⟨rfl, by simp⟩

theorem applyTransitionGate_uses (llss : LLSSContext) (role : Party)
    (oldShard : ℕ → UInt64 × UInt64) (len : ℕ) :
    (llss.applyTransitionGate role oldShard len).Uses Quiet := by
  simp only [LLSSContext.applyTransitionGate, perform_bind]
  exact .ite (uses_throw _) (.call trivial fun _ =>
    .ite (.call trivial fun _ => uses_ret _) (uses_throw _))

theorem epochTransition_uses (enableLlss : Bool) (party : Party)
    (requestEpoch clusterEpoch : ℤ) :
    (epochTransition enableLlss party requestEpoch clusterEpoch).Uses Quiet := by
  simp only [epochTransition, perform_bind]
  refine .ite ((llssNew_uses party clusterEpoch 3 _ _).bind fun llss => ?_) (uses_ret _)
  exact .ite (.call trivial fun _ => (applyTransitionGate_uses llss party _ _).bind fun _ =>
    uses_ret _) (uses_ret _)

theorem loadPassShard_uses {P : Op → Prop} (h : ∀ path, P (.readFile path)) (party : Party) :
    (loadPassShard party).Uses P := by
  simp only [loadPassShard, perform_bind]
  refine .call (h _) fun file => ?_
  cases file with
  | none => exact uses_throw _
  | some bytes => exact uses_ret _

/-! ## The record -/

theorem initTlsSessionFromShard_uses (hmac : HmacSha256) (shardBytes : List UInt8) :
    (initTlsSessionFromShard hmac shardBytes).Uses BuildsRecord := by
  rw [initTlsSessionFromShard_eq]
  exact .call trivial fun _ => .call trivial fun _ => uses_ret _

theorem getAesCircuit_uses : getAesCircuit.Uses BuildsRecord := by
  simp only [getAesCircuit, perform_bind]
  refine .call trivial fun g => .ite (uses_ret _) ?_
  refine (probeAesPaths_uses (fun _ => trivial) _).bind fun found => ?_
  exact .ite (.call trivial fun _ => uses_ret _) (uses_throw _)

theorem aesReveal_uses (role : Party) (keyBits : List Block) (block : Bytes 16) :
    (aesReveal role keyBits block).Uses BuildsRecord := by
  simp only [aesReveal, perform_bind, feed_bind]
  exact .call trivial fun _ => .call trivial fun _ => .call trivial fun _ => uses_ret _

theorem encryptBlock_uses (role : Party) (keyBits : List Block) (nonce : Bytes 12)
    (plaintext : List UInt8) (state : List UInt8 × List UInt8) (blk : ℕ) :
    (encryptBlock role keyBits nonce plaintext state blk).Uses BuildsRecord :=
  (aesReveal_uses role keyBits _).bind fun _ => .ite (uses_ret _) (uses_ret _)

theorem jesseQTlsEncrypt_uses (role : Party) (plaintext ciphertext : List UInt8) :
    (jesseQTlsEncrypt role plaintext ciphertext).Uses BuildsRecord := by
  simp only [jesseQTlsEncrypt, perform_bind, feed_bind]
  refine getAesCircuit_uses.bind fun _ => .call trivial fun g => .call trivial fun key => ?_
  refine (Uses.foldlM (fun state blk => encryptBlock_uses role _ _ plaintext state blk) _).bind
    fun state => ?_
  refine (aesReveal_uses role _ _).bind fun tagBytes => ?_
  exact .call trivial fun _ => .call trivial fun _ => uses_ret _

theorem encryptAuth_uses (role : Party) (ciphertextOut : List UInt8) (passLen : ℕ)
    (b64Result : ℕ → Bool) : (encryptAuth role ciphertextOut passLen b64Result).Uses BuildsRecord :=
  .ite (uses_throw _) ((jesseQTlsEncrypt_uses role _ _).bind fun _ => uses_ret _)

theorem authRecord_uses (role : Party) (ciphertextOut : List UInt8) (passLen : ℕ)
    (passBits : List Block) :
    (authRecord role ciphertextOut passLen passBits).Uses BuildsRecord := by
  rw [authRecord]
  generalize int32 (b64OutBytes passLen * 8) = b64OutLen
  simp only [perform_bind]
  exact .ite (uses_throw _) (.call trivial fun heap => .call trivial fun b64Result =>
    encryptAuth_uses role _ _ b64Result)

theorem jointSmtpAuthenticate_uses (role : Party) (ciphertextOut : List UInt8)
    (passwordShard : List Bool) :
    (jointSmtpAuthenticate role ciphertextOut passwordShard).Uses BuildsRecord := by
  simp only [jointSmtpAuthenticate]
  generalize int32 passwordShard.length = passLen
  refine .ite (uses_throw _) (.ite (uses_throw _) ?_)
  exact (feed_uses trivial).bind fun passBits =>
    authRecord_uses role ciphertextOut passLen.toNat passBits

/-! ## The session -/

/-- What `execute_mpc_logic` does behind the epoch transition, up to the identity commitment. -/
def recordPhase (args : SessionArgs) : Session Unit := do
  let passShard ← loadPassShard args.party
  initTlsSessionFromShard args.hmac (packShard args.myShard)
  let authCiphertext ← perform (E := Mpc) .authCiphertext
  let _ ← jointSmtpAuthenticate args.party (authBuffer authCiphertext) passShard
  pure ()

theorem smtpPhase_eq (args : SessionArgs) : smtpPhase args =
    .call (.setupZkBool args.party) fun _ =>
      epochTransition args.enableLlss args.party args.requestEpoch args.clusterEpoch >>= fun _ =>
        recordPhase args := rfl

theorem recordPhase_uses (args : SessionArgs) : (recordPhase args).Uses BuildsRecord := by
  simp only [recordPhase, perform_bind, pure_eq]
  refine (loadPassShard_uses (fun _ => trivial) _).bind fun passShard => ?_
  refine (initTlsSessionFromShard_uses _ _).bind fun _ => .call trivial fun stack => ?_
  exact (jointSmtpAuthenticate_uses _ _ _).bind fun _ => uses_ret _

theorem smtpPhase_uses (args : SessionArgs) : (smtpPhase args).Uses Preliminary := by
  rw [smtpPhase_eq]
  refine .call trivial fun _ => ?_
  refine ((epochTransition_uses _ _ _ _).mono fun _ => Quiet.preliminary).bind fun _ => ?_
  exact (recordPhase_uses args).mono fun _ => BuildsRecord.preliminary

theorem computeNullifier_uses (party : Party) (myShard : List Bool) (circuit : BristolFashion) :
    (computeNullifier party myShard circuit).Uses WithoutLlss := by
  simp only [computeNullifier, perform_bind, feed_bind, pure_eq]
  exact .call trivial fun _ => .call trivial fun _ => .call trivial fun _ =>
    .call trivial fun _ => .call trivial fun _ => uses_ret _

theorem identify_uses (args : SessionArgs) : (identify args).Uses BeforeCheck :=
  ((smtpPhase_uses args).mono fun _ => Preliminary.beforeCheck).bind fun _ =>
    (computeNullifier_uses _ _ _).mono fun _ => WithoutLlss.beforeCheck

/-- Until the nullifier is checked, nothing is recorded. -/
theorem nullifierState_identify (args : SessionArgs) (env : Env) (m : Machine) :
    nullifierState ((identify args).run (serve env) m).state = nullifierState m :=
  (identify_uses args).frame BeforeCheck.nullifierState_serve m

end Freehold.Server
