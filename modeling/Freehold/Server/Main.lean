import Freehold.Mail.SmtpClient
import Freehold.Server.Acceptance

/-!
# `main` of the server (`mpcauth_server.cpp`)

From the loading of the nullifier database to the verification e-mail: the epochs, the
session inside its `try`, and the call of `send_verification_email`.
-/

namespace Freehold.Server

open Interaction Interaction.Program
open Freehold.Mail (SmtpConfig VerificationPayload isSpace digitsValue)

/-! ## Epochs -/

/-- `stoi`; `none` where it throws. -/
def stoi (text : List Char) : Option ℤ :=
  let number (sign : ℤ) (digits : List Char) : Option ℤ :=
    if (digits.takeWhile Char.isDigit).isEmpty then none
    else
      let value := sign * digitsValue digits
      if -2 ^ 31 ≤ value ∧ value < 2 ^ 31 then some value else none
  match text.dropWhile isSpace with
  | '-' :: digits => number (-1) digits
  | '+' :: digits => number 1 digits
  | digits => number 1 digits

/-- The epoch that the value of `CLUSTER_BFT_EPOCH` stands for. -/
def epochOf (envEpoch : Option String) : ℤ := (envEpoch.bind fun text => stoi text.toList).getD 1

def getCurrentEpochFromConsensus : Session ℤ := do
  let envEpoch ← perform (E := Mpc) (.getenv "CLUSTER_BFT_EPOCH")
  pure (epochOf envEpoch)

/-- `request_epoch` after the exchange: ALICE sends hers and keeps it, BOB gets it. -/
def requestEpoch (party : Party) (clusterEpoch received : ℤ) : ℤ :=
  if party = .alice then clusterEpoch else received

/-! ## The command line -/

/-- What `main` uses of its arguments, and the build it belongs to. -/
structure Args where
  enableLlss : Bool
  hmac : HmacSha256
  party : Party
  shardBits : List Bool
  circuit : BristolFashion
  smtpHost : List Char
  smtpPort : ℕ
  emailFrom : List Char
  emailTo : List Char
  smtpUser : List Char
  smtpPass : List Char
  noStarttls : Bool
  petitionRef : List Char

/-- What `execute_mpc_logic` is called with. -/
def Args.session (args : Args) (clusterEpoch received : ℤ) : SessionArgs where
  enableLlss := args.enableLlss
  hmac := args.hmac
  party := args.party
  requestEpoch := requestEpoch args.party clusterEpoch received
  clusterEpoch := clusterEpoch
  myShard := args.shardBits
  circuit := args.circuit

def Args.smtpConfig (args : Args) : SmtpConfig where
  host := args.smtpHost
  port := args.smtpPort
  sender := args.emailFrom
  recipient := args.emailTo
  user := args.smtpUser
  pass := args.smtpPass
  starttls := !args.noStarttls

def Args.payload (args : Args) (clusterEpoch : ℤ) (nullifier : List Char) :
    VerificationPayload where
  nullifierHex := nullifier
  petitionRef := args.petitionRef
  epoch := clusterEpoch

/-! ## `main` -/

/-- The arguments of `send_verification_email`, if it is called. -/
def emailDelivery (args : Args) (clusterEpoch : ℤ) (nullifier : List Char) :
    Option (SmtpConfig × VerificationPayload) :=
  if args.party = .alice ∧ args.emailTo ≠ [] ∧ args.smtpHost ≠ [] ∧ nullifier ≠ [] then
    some (args.smtpConfig, args.payload clusterEpoch nullifier)
  else none

/-- The string that `nullifier` holds after the `try`. -/
def nullifierAfter : Except Failure (List Char) → List Char
  | .ok nullifier => nullifier
  | .error _ => []

/-- `received` is the epoch that BOB receives. -/
def main (args : Args) (received : ℤ) : Session (Option (SmtpConfig × VerificationPayload)) := do
  loadNullifierDatabase
  let clusterEpoch ← getCurrentEpochFromConsensus
  let result ← (executeMpcLogic (args.session clusterEpoch received)).attempt
  pure (emailDelivery args clusterEpoch (nullifierAfter result))

/-- The epoch of a process. -/
def Env.epoch (env : Env) : ℤ := epochOf (env.getenv "CLUSTER_BFT_EPOCH")

theorem main_run (args : Args) (received : ℤ) (env : Env) (disk : Disk) :
    let r := (executeMpcLogic (args.session env.epoch received)).run (serve env) (loaded disk)
    (main args received).run (serve env) ⟨Host.start, disk⟩ =
      ⟨.ok (emailDelivery args env.epoch (nullifierAfter r.result)), r.state,
        loading disk ++ ⟨.getenv "CLUSTER_BFT_EPOCH", env.getenv "CLUSTER_BFT_EPOCH"⟩ ::
          r.trace⟩ := by
  have hload := loadNullifierDatabase_run_start env disk
  have hok := congrArg Outcome.result hload
  rw [main, run_bind_of_ok _ hok, hload]
  simp only [getCurrentEpochFromConsensus, perform_bind, call_bind, run_call, pure_eq, ret_bind,
    run_bind, run_attempt, Outcome.andThen, run_ret, List.append_nil]
  rfl

/-- For the database, `main` is the process of `cluster`. -/
theorem main_state (args : Args) (received : ℤ) (env : Env) (disk : Disk) :
    ((main args received).run (serve env) ⟨Host.start, disk⟩).state =
      ((serverMain (args.session env.epoch received)).run (serve env)
        ⟨Host.start, disk⟩).state := by
  rw [main_run, serverMain_state]

/-! ## When the e-mail is sent -/

/-- What a verification e-mail about `nullifier` says, of a run on `disk`. -/
structure Justified {α : Type} (disk : Disk) (r : Outcome Mpc Failure α Machine)
    (nullifier : List Char) : Prop where
  new : nullifier ∉ nonemptyLines (disk.getD [])
  inserted : nullifier ∈ r.state.host.nullifierDatabase
  appended : r.state.disk = some (disk.getD [] ++ (nullifier ++ ['\n']))
  honest : ⟨.finalizeZkBool, false⟩ ∈ r.trace

theorem not_cheated_of_mem {α : Type} {p : Session α} {env : Env} {m : Machine}
    (h : ⟨.finalizeZkBool, false⟩ ∈ (p.run (serve env) m).trace) : env.cheated = false := by
  obtain ⟨m', hanswer⟩ := answer_of_mem_trace h
  exact hanswer.symm

/-- Nothing is justified by a session that leaves the set as it was loaded. -/
theorem not_justified {α : Type} {disk : Disk} {r : Outcome Mpc Failure α Machine}
    (h : r.state.host.nullifierDatabase = (loaded disk).host.nullifierDatabase) (ν : List Char) :
    ¬Justified disk r ν := by
  intro hν
  have hinserted := hν.inserted
  rw [h, mem_loaded] at hinserted
  exact hν.new hinserted

/-- The string that a session leaves tells whether it has recorded a nullifier honestly: it is
empty behind an exception, a duplicate and cheating alike. -/
theorem justified_iff (args : SessionArgs) {env : Env} (happends : env.appends = true)
    (disk : Disk) (ν : List Char) :
    Justified disk ((executeMpcLogic args).run (serve env) (loaded disk)) ν ↔
      ν ≠ [] ∧ ν = nullifierAfter
        ((executeMpcLogic args).run (serve env) (loaded disk)).result := by
  rcases hidentify : ((identify args).run (serve env) (loaded disk)).result with e | nullifier
  · have hstate := nullifierState_identify args env (loaded disk)
    rw [executeMpcLogic, run_bind_of_error _ hidentify]
    refine iff_of_false (not_justified ?_ ν) fun h => h.1 h.2
    exact congrArg Prod.fst hstate
  have hcommitment := identify_reaches (reaches_of_run_ok hidentify)
  by_cases hnew : nullifier ∈ (loaded disk).host.nullifierDatabase
  · obtain ⟨hstate, hresult⟩ := executeMpcLogic_run_of_known hidentify hnew
    rw [hresult]
    exact iff_of_false (not_justified (congrArg Prod.fst hstate) ν) fun h => h.1 h.2
  · obtain ⟨hstate, hresult, hfinalize⟩ := executeMpcLogic_run_of_new hidentify hnew
    have hdatabase := congrArg Prod.fst hstate
    have hdisk := congrArg Prod.snd hstate
    simp only [nullifierState, recordNullifier, happends, if_true] at hdatabase hdisk
    constructor
    · intro h
      have hinserted := h.inserted
      rw [hdatabase, Finset.mem_insert, mem_loaded] at hinserted
      have hν := hinserted.resolve_right h.new
      rw [hresult, not_cheated_of_mem h.honest, hν]
      exact ⟨hcommitment.ne_nil, rfl⟩
    · rintro ⟨hne, hν⟩
      rw [hresult] at hν
      cases hcheated : env.cheated with
      | true =>
        rw [hcheated] at hν
        exact absurd hν hne
      | false =>
        rw [hcheated] at hν hfinalize
        have hν : ν = nullifier := hν
        subst hν
        exact ⟨fun hmem => hnew (mem_loaded.mpr hmem),
          by rw [hdatabase]; exact Finset.mem_insert_self .., hdisk, hfinalize⟩

theorem justified_main_iff (args : Args) (received : ℤ) {env : Env} (happends : env.appends = true)
    (disk : Disk) (ν : List Char) :
    Justified disk ((main args received).run (serve env) ⟨Host.start, disk⟩) ν ↔
      ν ≠ [] ∧ ν = nullifierAfter ((executeMpcLogic (args.session env.epoch received)).run
        (serve env) (loaded disk)).result := by
  rw [← justified_iff _ happends, main_run]
  have hfinalize {t : List (Event Mpc)} :
      ⟨.finalizeZkBool, false⟩ ∈ loading disk ++
        ⟨.getenv "CLUSTER_BFT_EPOCH", env.getenv "CLUSTER_BFT_EPOCH"⟩ :: t ↔
      ⟨.finalizeZkBool, false⟩ ∈ t := by
    simp [loading]
  constructor
  · rintro ⟨hnew, hinserted, happended, hhonest⟩
    exact ⟨hnew, hinserted, happended, hfinalize.mp hhonest⟩
  · rintro ⟨hnew, hinserted, happended, hhonest⟩
    exact ⟨hnew, hinserted, happended, hfinalize.mpr hhonest⟩

theorem emailDelivery_eq_some {args : Args} {clusterEpoch : ℤ} {nullifier : List Char}
    {call : SmtpConfig × VerificationPayload} :
    emailDelivery args clusterEpoch nullifier = some call ↔
      (args.party = .alice ∧ args.emailTo ≠ [] ∧ args.smtpHost ≠ [] ∧ nullifier ≠ []) ∧
        call = (args.smtpConfig, args.payload clusterEpoch nullifier) := by
  rw [emailDelivery, Option.ite_none_right_eq_some, Option.some.injEq, eq_comm (b := call)]

/-- `send_verification_email` is called exactly at ALICE, with recipient and host configured, when
a nullifier that was not in the loaded database has been inserted and appended in this session
and `finalize` has reported no cheating; the payload then carries the line that was appended. -/
theorem main_email_iff (args : Args) (received : ℤ) {env : Env} (happends : env.appends = true)
    (disk : Disk) :
    ((∃ call, ((main args received).run (serve env) ⟨Host.start, disk⟩).result =
        .ok (some call)) ↔
      args.party = .alice ∧ args.emailTo ≠ [] ∧ args.smtpHost ≠ [] ∧
        ∃ ν, Justified disk ((main args received).run (serve env) ⟨Host.start, disk⟩) ν) ∧
    ∀ cfg payload, ((main args received).run (serve env) ⟨Host.start, disk⟩).result =
        .ok (some (cfg, payload)) →
      cfg = args.smtpConfig ∧ payload = args.payload env.epoch payload.nullifierHex ∧
        Justified disk ((main args received).run (serve env) ⟨Host.start, disk⟩)
          payload.nullifierHex := by
  have hjustified := justified_main_iff args received happends disk
  have hresult : ((main args received).run (serve env) ⟨Host.start, disk⟩).result =
      .ok (emailDelivery args env.epoch (nullifierAfter
        ((executeMpcLogic (args.session env.epoch received)).run (serve env)
          (loaded disk)).result)) := by
    rw [main_run]
  rw [hresult]
  simp only [hjustified, Except.ok.injEq, emailDelivery_eq_some]
  constructor
  · constructor
    · rintro ⟨call, ⟨hparty, hto, hhost, hne⟩, -⟩
      exact ⟨hparty, hto, hhost, _, hne, rfl⟩
    · rintro ⟨hparty, hto, hhost, ν, hne, rfl⟩
      exact ⟨_, ⟨hparty, hto, hhost, hne⟩, rfl⟩
  · rintro cfg payload ⟨⟨-, -, -, hne⟩, hcall⟩
    obtain ⟨rfl, rfl⟩ := Prod.mk.inj hcall
    exact ⟨rfl, rfl, hne, rfl⟩

/-- ALICE's process for the identity `demoShard`, with an e-mail to send. -/
def demoMain : Args where
  enableLlss := false
  hmac := demoMac
  party := .alice
  shardBits := demoShard
  circuit := demoCircuit
  smtpHost := "h".toList
  smtpPort := 25
  emailFrom := "a".toList
  emailTo := "b".toList
  smtpUser := []
  smtpPass := []
  noStarttls := false
  petitionRef := "DEMO-001".toList

/-- On an absent database the e-mail is sent. -/
theorem main_email_demo : ∃ call, ((main demoMain 1).run (serve (demoEnv .alice [7]))
    ⟨Host.start, none⟩).result = .ok (some call) := by
  have hresult := (executeMpcLogic_demo_new 0 (m := loaded none)
    (fun hmem => by simp [mem_loaded, nonemptyLines] at hmem)).1
  have hjustified : Justified none ((main demoMain 1).run (serve (demoEnv .alice [7]))
      ⟨Host.start, none⟩) demoNullifier :=
    (justified_main_iff demoMain 1 rfl none demoNullifier).mpr
      ⟨IsCommitment.ne_nil ⟨_, rfl⟩, (congrArg nullifierAfter hresult).symm⟩
  exact (main_email_iff demoMain 1 rfl none).1.mpr
    ⟨rfl, by decide, by decide, demoNullifier, hjustified⟩

end Freehold.Server
