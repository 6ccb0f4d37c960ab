import Freehold.Server.Footprint
import Freehold.Server.Lockstep

/-!
# The nullifier of a session

Which nullifier a session computes, and what the session leaves in the nullifier set
and its file.
-/

namespace Freehold.Server

open Interaction Interaction.Program

/-! ## The end of a session -/

/-- The wires of `in_bits`, as the feed of the `feeds`-th joint input stores them. -/
def identityWires (env : Env) (feeds : ℕ) (party : Party) (myShard : List Bool) : List Block :=
  wires shaInLen (fedBits env feeds party .alice (identityInput party myShard))

/-- The hexadecimal digest of what `reveal` shows of `out_bits`. -/
def commitment (env : Env) (circuit : BristolFashion) (inBits : List Block) : List Char :=
  let value := circuit.eval (values (circuitInputs circuit inBits (env.heap .inBits)))
  computeHashToHex (fun i => (values (outBits circuit value (env.heap .outBits))).getD i false)
    shaOutLen

@[simp] theorem length_identityInput (party : Party) (myShard : List Bool) :
    (identityInput party myShard).length = shaInLen := by
  simp [identityInput]

theorem computeNullifier_run (env : Env) (party : Party) (myShard : List Bool)
    (circuit : BristolFashion) (m : Machine) :
    ∃ trace, (computeNullifier party myShard circuit).run (serve env) m =
      ⟨.ok (commitment env circuit (identityWires env m.host.feeds party myShard)),
        { m with host.feeds := m.host.feeds + 1 }, trace⟩ := by
  simp only [computeNullifier, perform_bind, feed_bind, run_call, serve, length_identityInput]
  exact ⟨_, rfl⟩

/-- `insert` and `save_nullifier`. -/
def recordNullifier (env : Env) (nullifier : List Char) (m : Machine) : Machine where
  host := { m.host with nullifierDatabase := insert nullifier m.host.nullifierDatabase }
  disk := if env.appends then some (m.disk.getD [] ++ (nullifier ++ ['\n'])) else m.disk

theorem commitNullifier_run_of_mem {env : Env} {nullifier : List Char} {m : Machine}
    (h : nullifier ∈ m.host.nullifierDatabase) :
    (commitNullifier nullifier).run (serve env) m =
      ⟨.ok [], m, [⟨.nullifierCount nullifier, true⟩, ⟨.finalizeZkBool, env.cheated⟩]⟩ := by
  simp [commitNullifier, run_call, serve, h]

theorem commitNullifier_run_of_not_mem {env : Env} {nullifier : List Char} {m : Machine}
    (h : nullifier ∉ m.host.nullifierDatabase) :
    (commitNullifier nullifier).run (serve env) m =
      ⟨if env.cheated then
          .error (.runtimeError "ZK proof verification failed: cheating detected.")
        else .ok nullifier,
        recordNullifier env nullifier m,
        [⟨.nullifierCount nullifier, false⟩, ⟨.nullifierInsert nullifier, ()⟩,
          ⟨.appendNullifierDatabase (nullifier ++ ['\n']), ()⟩,
          ⟨.finalizeZkBool, env.cheated⟩]⟩ := by
  cases hcheated : env.cheated <;> cases happends : env.appends <;>
    simp [commitNullifier, saveNullifier, run_call, serve, h, recordNullifier, hcheated, happends]

/-- The session ends with `commitNullifier`, on a machine with the nullifiers of the start. -/
theorem executeMpcLogic_run_of_ok {args : SessionArgs} {env : Env} {m : Machine}
    {nullifier : List Char}
    (h : ((identify args).run (serve env) m).result = .ok nullifier) :
    ∃ m' t, nullifierState m' = nullifierState m ∧
      (executeMpcLogic args).run (serve env) m =
        { (commitNullifier nullifier).run (serve env) m' with
          trace := t ++ ((commitNullifier nullifier).run (serve env) m').trace } :=
  ⟨_, _, nullifierState_identify args env m, run_bind_of_ok commitNullifier h⟩

/-- A session that computes a nullifier tests it in the set of the start. -/
theorem executeMpcLogic_lookup {args : SessionArgs} {env : Env} {m : Machine}
    {nullifier : List Char} (h : ((identify args).run (serve env) m).result = .ok nullifier) :
    (⟨.nullifierCount nullifier, decide (nullifier ∈ m.host.nullifierDatabase)⟩ : Event Mpc) ∈
      ((executeMpcLogic args).run (serve env) m).trace := by
  obtain ⟨m', t, hstate, hrun⟩ := executeMpcLogic_run_of_ok h
  have hdatabase : m'.host.nullifierDatabase = m.host.nullifierDatabase := congrArg Prod.fst hstate
  rw [hrun, ← hdatabase]
  refine List.mem_append_right _ ?_
  by_cases hmem : nullifier ∈ m'.host.nullifierDatabase
  · simp [commitNullifier_run_of_mem hmem, hmem]
  · simp [commitNullifier_run_of_not_mem hmem, hmem]

/-- What a session commits to: the wires of one feed and unassigned memory decide it. -/
theorem identify_commitment {args : SessionArgs} {env : Env} {m : Machine} {nullifier : List Char}
    (h : ((identify args).run (serve env) m).result = .ok nullifier) :
    ∃ feeds, nullifier = commitment env args.circuit
      (identityWires env feeds args.party args.myShard) := by
  rw [identify] at h
  rcases hphase : ((smtpPhase args).run (serve env) m).result with e | ⟨⟨⟩⟩
  · rw [run_bind_of_error _ hphase] at h
    cases h
  · obtain ⟨t, hcompute⟩ := computeNullifier_run env args.party args.myShard args.circuit
      ((smtpPhase args).run (serve env) m).state
    rw [run_bind_of_ok _ hphase, hcompute] at h
    cases h
    exact ⟨_, rfl⟩

/-- What ALICE's session commits to depends on her shard, the circuit and unassigned memory. -/
theorem identify_result {args : SessionArgs} (hparty : args.party = .alice) {env : Env}
    {m : Machine} {nullifier : List Char}
    (h : ((identify args).run (serve env) m).result = .ok nullifier) :
    nullifier = commitment env args.circuit
      (wires shaInLen fun i => (identityInput .alice args.myShard).getD i false) := by
  obtain ⟨feeds, hnullifier⟩ := identify_commitment h
  rw [hnullifier, hparty, identityWires, fedBits_self]

/-! ## Cheating -/

theorem nullifierState_recordNullifier (env : Env) (nullifier : List Char) {m m' : Machine}
    (h : nullifierState m' = nullifierState m) :
    nullifierState (recordNullifier env nullifier m') =
      nullifierState (recordNullifier env nullifier m) := by
  simp only [nullifierState, Prod.mk.injEq] at h
  simp only [nullifierState, recordNullifier, h]

/-- A known nullifier is rejected, and nothing is recorded. -/
theorem executeMpcLogic_run_of_known {args : SessionArgs} {env : Env} {m : Machine}
    {nullifier : List Char} (h : ((identify args).run (serve env) m).result = .ok nullifier)
    (hold : nullifier ∈ m.host.nullifierDatabase) :
    nullifierState ((executeMpcLogic args).run (serve env) m).state = nullifierState m ∧
      ((executeMpcLogic args).run (serve env) m).result = .ok [] := by
  obtain ⟨m', t, hstate, hrun⟩ := executeMpcLogic_run_of_ok h
  have hold' : nullifier ∈ m'.host.nullifierDatabase := by
    rw [show m'.host.nullifierDatabase = m.host.nullifierDatabase from congrArg Prod.fst hstate]
    exact hold
  rw [hrun, commitNullifier_run_of_mem hold']
  exact ⟨hstate, rfl⟩

/-- A new nullifier is recorded whatever `finalize` reports. -/
theorem executeMpcLogic_run_of_new {args : SessionArgs} {env : Env} {m : Machine}
    {nullifier : List Char} (h : ((identify args).run (serve env) m).result = .ok nullifier)
    (hnew : nullifier ∉ m.host.nullifierDatabase) :
    nullifierState ((executeMpcLogic args).run (serve env) m).state =
        nullifierState (recordNullifier env nullifier m) ∧
      ((executeMpcLogic args).run (serve env) m).result =
        (if env.cheated then
          .error (.runtimeError "ZK proof verification failed: cheating detected.")
        else .ok nullifier) ∧
      (⟨.finalizeZkBool, env.cheated⟩ : Event Mpc) ∈
        ((executeMpcLogic args).run (serve env) m).trace := by
  obtain ⟨m', t, hstate, hrun⟩ := executeMpcLogic_run_of_ok h
  have hnew' : nullifier ∉ m'.host.nullifierDatabase := by
    rw [show m'.host.nullifierDatabase = m.host.nullifierDatabase from congrArg Prod.fst hstate]
    exact hnew
  rw [hrun, commitNullifier_run_of_not_mem hnew']
  exact ⟨nullifierState_recordNullifier env nullifier hstate, rfl, by simp⟩

/-- When `finalize` reports cheating and the session throws, the nullifier has been inserted
and appended: the set, and with it the state, is never what it was. -/
theorem nullifierState_of_cheated {args : SessionArgs} {env : Env} {m : Machine}
    (hcheated : (⟨.finalizeZkBool, true⟩ : Event Mpc) ∈
      ((executeMpcLogic args).run (serve env) m).trace)
    (hthrows : ∃ e, ((executeMpcLogic args).run (serve env) m).result = .error e) :
    nullifierState ((executeMpcLogic args).run (serve env) m).state ≠ nullifierState m ∧
      ∃ nullifier ∉ m.host.nullifierDatabase,
        nullifierState ((executeMpcLogic args).run (serve env) m).state =
          nullifierState (recordNullifier env nullifier m) := by
  obtain ⟨e, hthrows⟩ := hthrows
  rcases hidentify : ((identify args).run (serve env) m).result with e' | nullifier
  · rw [executeMpcLogic, run_bind_of_error _ hidentify] at hcheated
    exact ((identify_uses args).of_mem_trace hcheated).elim
  · by_cases hnew : nullifier ∈ m.host.nullifierDatabase
    · have hrejected := (executeMpcLogic_run_of_known hidentify hnew).2
      cases hrejected.symm.trans hthrows
    · have hstate := (executeMpcLogic_run_of_new hidentify hnew).1
      refine ⟨fun hsame => hnew ?_, nullifier, hnew, hstate⟩
      have hset : insert nullifier m.host.nullifierDatabase = m.host.nullifierDatabase :=
        congrArg Prod.fst (hstate.symm.trans hsame)
      exact Finset.insert_eq_self.mp hset

/-- A session of ALICE in the default build, at epoch 1. -/
def demoArgs (circuit : BristolFashion) (myShard : List Bool) : SessionArgs where
  enableLlss := false
  hmac := demoMac
  party := .alice
  requestEpoch := 1
  clusterEpoch := 1
  myShard := myShard
  circuit := circuit

/-- Surroundings with a password of one byte in which the verifier reports cheating. -/
def cheatedEnv : Env := { demoEnv .alice [7] with cheated := true }

theorem cheatedEnv_aesInstalled : AesInstalled cheatedEnv := demoEnv_aesInstalled .alice [7]

theorem identify_demo {env : Env} (haes : AesInstalled env)
    (hfile : env.files (passShardPath .alice) = some [7]) (circuit : BristolFashion)
    (myShard : List Bool) (m : Machine) :
    ∃ nullifier, ((identify (demoArgs circuit myShard)).run (serve env) m).result =
      .ok nullifier := by
  have hready : Ready (demoArgs circuit myShard).enableLlss env := ⟨haes, nofun, nofun⟩
  obtain ⟨⟨nullifier, hok, -⟩, -⟩ := identify_issues hready hfile (by decide) (by decide) m trivial
  exact ⟨nullifier, hok⟩

theorem executeMpcLogic_cheated :
    (⟨.finalizeZkBool, true⟩ : Event Mpc) ∈ ((executeMpcLogic (demoArgs demoCircuit demoShard)).run
        (serve cheatedEnv) ⟨Host.start, none⟩).trace ∧
      ((executeMpcLogic (demoArgs demoCircuit demoShard)).run (serve cheatedEnv)
        ⟨Host.start, none⟩).result =
          .error (.runtimeError "ZK proof verification failed: cheating detected.") := by
  obtain ⟨nullifier, hok⟩ := identify_demo cheatedEnv_aesInstalled
    (demoEnv_passShard .alice [7]) demoCircuit demoShard ⟨Host.start, none⟩
  obtain ⟨-, hresult, hfinalize⟩ := executeMpcLogic_run_of_new hok (Finset.notMem_empty _)
  exact ⟨hfinalize, hresult⟩

/-- A cheated session on an absent database leaves a nullifier in the set. -/
theorem nullifierState_of_cheated_demo :
    nullifierState ((executeMpcLogic (demoArgs demoCircuit demoShard)).run (serve cheatedEnv)
        ⟨Host.start, none⟩).state ≠ nullifierState ⟨Host.start, none⟩ ∧
      ∃ nullifier ∉ Host.start.nullifierDatabase,
        nullifierState ((executeMpcLogic (demoArgs demoCircuit demoShard)).run (serve cheatedEnv)
          ⟨Host.start, none⟩).state =
          nullifierState (recordNullifier cheatedEnv nullifier ⟨Host.start, none⟩) :=
  nullifierState_of_cheated executeMpcLogic_cheated.1 ⟨_, executeMpcLogic_cheated.2⟩

/-- The file of the cheated session is no longer absent. -/
theorem disk_of_cheated_demo :
    ((executeMpcLogic (demoArgs demoCircuit demoShard)).run (serve cheatedEnv)
        ⟨Host.start, none⟩).result =
          .error (.runtimeError "ZK proof verification failed: cheating detected.") ∧
      ((executeMpcLogic (demoArgs demoCircuit demoShard)).run (serve cheatedEnv)
        ⟨Host.start, none⟩).state.disk ≠ none := by
  obtain ⟨nullifier, hok⟩ := identify_demo cheatedEnv_aesInstalled
    (demoEnv_passShard .alice [7]) demoCircuit demoShard ⟨Host.start, none⟩
  obtain ⟨hstate, hresult, -⟩ := executeMpcLogic_run_of_new hok (Finset.notMem_empty _)
  refine ⟨hresult, fun hnone => ?_⟩
  have hdisk := congrArg Prod.snd hstate
  simp only [nullifierState, hnone, recordNullifier] at hdisk
  cases hdisk

end Freehold.Server
