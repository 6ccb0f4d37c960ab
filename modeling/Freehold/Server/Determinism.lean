import Freehold.Server.Nullifier
import Mathlib.Data.List.GetD

/-!
# Which circuit files give a deterministic nullifier

`in_bits` has 512 blocks and `out_bits` 256, whatever the header of the circuit file
declares. Two sessions of ALICE with the same shard agree, and every wire that the circuit
reads has been fed, exactly for the circuits that these two buffers fit.
-/

namespace Freehold.Server

open Interaction Interaction.Program

/-- The nullifier that a session looks up. -/
def lookedUp : Event Mpc → Option (List Char)
  | ⟨.nullifierCount nullifier, _⟩ => some nullifier
  | _ => none

/-- The blocks that the identity circuit reads. -/
def circuitReads : Event Mpc → Option (List Block)
  | ⟨.compute _ inputs, _⟩ => some inputs
  | _ => none

theorem circuitReads_compute (circuit : BristolFashion) (inputs : List Block)
    (answer : ℕ → Bool) : circuitReads ⟨.compute circuit inputs, answer⟩ = some inputs := rfl

/-- All that a session at ALICE depends on beyond the circuit and her shard. -/
structure AliceSession where
  enableLlss : Bool
  hmac : HmacSha256
  requestEpoch : ℤ
  clusterEpoch : ℤ
  env : Env
  machine : Machine

namespace AliceSession

variable (s : AliceSession) (circuit : BristolFashion) (myShard : List Bool)

def args : SessionArgs where
  enableLlss := s.enableLlss
  hmac := s.hmac
  party := .alice
  requestEpoch := s.requestEpoch
  clusterEpoch := s.clusterEpoch
  myShard := myShard
  circuit := circuit

/-- The nullifiers computed: one, unless the session throws before. -/
def nullifiers : List (List Char) :=
  (executeMpcLogic (s.args circuit myShard)).observed (serve s.env) lookedUp s.machine

/-- The buffers that `cf_sha.compute` reads. -/
def reads : List (List Block) :=
  (executeMpcLogic (s.args circuit myShard)).observed (serve s.env) circuitReads s.machine

end AliceSession

/-- Sessions with the same circuit and shard compute the same nullifier, and the circuit reads
only wires that have been assigned. -/
def DeterministicNullifier (circuit : BristolFashion) : Prop :=
  (∀ (myShard : List Bool) (s s' : AliceSession), ∀ nullifier ∈ s.nullifiers circuit myShard,
    ∀ nullifier' ∈ s'.nullifiers circuit myShard, nullifier = nullifier') ∧
  ∀ (myShard : List Bool) (s : AliceSession), ∀ inputs ∈ s.reads circuit myShard,
    ∀ block ∈ inputs, block.assigned = true

/-! ## What a session looks up and reads -/

theorem observed_commitNullifier_lookedUp (env : Env) (nullifier : List Char) (m : Machine) :
    (commitNullifier nullifier).observed (serve env) lookedUp m = [nullifier] := by
  by_cases h : nullifier ∈ m.host.nullifierDatabase
  · rw [observed, commitNullifier_run_of_mem h]
    rfl
  · rw [observed, commitNullifier_run_of_not_mem h]
    rfl

theorem observed_commitNullifier_circuitReads (env : Env) (nullifier : List Char) (m : Machine) :
    (commitNullifier nullifier).observed (serve env) circuitReads m = [] := by
  by_cases h : nullifier ∈ m.host.nullifierDatabase
  · rw [observed, commitNullifier_run_of_mem h]
    rfl
  · rw [observed, commitNullifier_run_of_not_mem h]
    rfl

theorem lookedUp_of_beforeCheck (e : Event Mpc) (h : BeforeCheck e.op) : lookedUp e = none := by
  obtain ⟨op, answer⟩ := e
  cases op <;> first | rfl | exact h.elim

theorem circuitReads_of_preliminary (e : Event Mpc) (h : Preliminary e.op) :
    circuitReads e = none := by
  obtain ⟨op, answer⟩ := e
  cases op <;> first | rfl | exact h.elim

variable {s : AliceSession} {circuit : BristolFashion} {myShard : List Bool}

/-- The wires of ALICE's shard. -/
def shardWires (myShard : List Bool) : List Block :=
  wires shaInLen fun i => (identityInput .alice myShard).getD i false

theorem nullifiers_of_ok {nullifier : List Char}
    (h : ((identify (s.args circuit myShard)).run (serve s.env) s.machine).result =
      .ok nullifier) :
    s.nullifiers circuit myShard = [commitment s.env circuit (shardWires myShard)] := by
  rw [AliceSession.nullifiers, executeMpcLogic, observed_bind_of_ok _ h,
    (identify_uses _).observed_eq_nil lookedUp_of_beforeCheck, observed_commitNullifier_lookedUp,
    identify_result rfl h]
  rfl

theorem eq_commitment_of_mem_nullifiers {nullifier : List Char}
    (h : nullifier ∈ s.nullifiers circuit myShard) :
    nullifier = commitment s.env circuit (shardWires myShard) := by
  rcases hidentify :
    ((identify (s.args circuit myShard)).run (serve s.env) s.machine).result with e | ν
  · rw [AliceSession.nullifiers, executeMpcLogic, observed_bind_of_error _ hidentify,
      (identify_uses _).observed_eq_nil lookedUp_of_beforeCheck] at h
    cases h
  · rw [nullifiers_of_ok hidentify] at h
    exact List.mem_singleton.mp h

theorem observed_computeNullifier_circuitReads (env : Env) (myShard : List Bool)
    (circuit : BristolFashion) (m : Machine) :
    (computeNullifier .alice myShard circuit).observed (serve env) circuitReads m =
      [circuitInputs circuit (shardWires myShard) (env.heap .inBits)] := by
  simp only [computeNullifier, perform_bind, feed_bind, pure_eq]
  rw [observed_call_of_hidden rfl, observed_call_of_hidden rfl, observed_call_of_hidden rfl,
    observed_call_of_shown (circuitReads_compute _ _ _), observed_call_of_hidden rfl, observed_ret,
    serve, serve, serve,
    fedBits_self, length_identityInput, shardWires]

theorem identify_observed_circuitReads_of_ok
    (h : ((smtpPhase (s.args circuit myShard)).run (serve s.env) s.machine).result = .ok ()) :
    (identify (s.args circuit myShard)).observed (serve s.env) circuitReads s.machine =
      [circuitInputs circuit (shardWires myShard) (s.env.heap .inBits)] := by
  rw [identify, observed_bind_of_ok _ h,
    (smtpPhase_uses _).observed_eq_nil circuitReads_of_preliminary, List.nil_append]
  exact observed_computeNullifier_circuitReads s.env myShard circuit _

/-- The nullifier check reads no circuit input. -/
theorem reads_eq : s.reads circuit myShard =
    (identify (s.args circuit myShard)).observed (serve s.env) circuitReads s.machine := by
  rcases h : ((identify (s.args circuit myShard)).run (serve s.env) s.machine).result with e | ν
  · rw [AliceSession.reads, executeMpcLogic, observed_bind_of_error _ h]
  · rw [AliceSession.reads, executeMpcLogic, observed_bind_of_ok _ h,
      observed_commitNullifier_circuitReads, List.append_nil]

theorem eq_circuitInputs_of_mem_reads {inputs : List Block}
    (h : inputs ∈ s.reads circuit myShard) :
    inputs = circuitInputs circuit (shardWires myShard) (s.env.heap .inBits) := by
  rw [reads_eq] at h
  rcases hphase :
    ((smtpPhase (s.args circuit myShard)).run (serve s.env) s.machine).result with e | ⟨⟨⟩⟩
  · rw [identify, observed_bind_of_error _ hphase,
      (smtpPhase_uses _).observed_eq_nil circuitReads_of_preliminary] at h
    cases h
  · rw [identify_observed_circuitReads_of_ok hphase] at h
    exact List.mem_singleton.mp h

/-! ## Buffers of 512 and 256 blocks -/

@[simp] theorem length_shardWires (myShard : List Bool) :
    (shardWires myShard).length = shaInLen := by
  simp [shardWires]

theorem mem_circuitInputs_assigned {heap : ℕ → Bool} (h : circuit.numInput ≤ shaInLen) :
    ∀ block ∈ circuitInputs circuit (shardWires myShard) heap, block.assigned = true := by
  intro block hblock
  obtain ⟨i, hi, rfl⟩ := List.mem_map.mp hblock
  have hlt : i < (shardWires myShard).length := by
    rw [length_shardWires]
    exact (List.mem_range.mp hi).trans_le h
  rw [List.getD_eq_getElem _ _ hlt]
  simp [shardWires, wires, Block.assigned]

/-- Block 512 is past the end of the buffer. -/
theorem exists_mem_circuitInputs_stale (myShard : List Bool) (heap : ℕ → Bool)
    (h : shaInLen < circuit.numInput) :
    ∃ block ∈ circuitInputs circuit (shardWires myShard) heap, block.assigned = false := by
  refine ⟨.stale (heap shaInLen), List.mem_map.mpr ⟨shaInLen, List.mem_range.mpr h, ?_⟩, rfl⟩
  exact List.getD_eq_default _ _ (by simp)

/-- The values that the circuit reads do not depend on the heap. -/
theorem circuitInputs_eq (heap heap' : ℕ → Bool) (h : circuit.numInput ≤ shaInLen) :
    circuitInputs circuit (shardWires myShard) heap =
      circuitInputs circuit (shardWires myShard) heap' := by
  refine List.map_congr_left fun i hi => ?_
  have hlt : i < (shardWires myShard).length := by
    rw [length_shardWires]
    exact (List.mem_range.mp hi).trans_le h
  rw [List.getD_eq_getElem _ _ hlt, List.getD_eq_getElem _ _ hlt]

theorem getD_values_outBits {value heap : ℕ → Bool} {i : ℕ} (hi : i < shaOutLen) :
    (values (outBits circuit value heap)).getD i false =
      if i < circuit.numOutput then value i else heap i := by
  rw [values, outBits, List.map_map, List.getD_eq_getElem _ _ (by simpa using hi)]
  simp only [List.getElem_map, List.getElem_range, Function.comp_apply]
  split <;> rfl

theorem outBits_eq (value heap heap' : ℕ → Bool) (h : shaOutLen ≤ circuit.numOutput) :
    outBits circuit value heap = outBits circuit value heap' := by
  refine List.map_congr_left fun i hi => ?_
  have hlt : i < circuit.numOutput := (List.mem_range.mp hi).trans_le h
  rw [if_pos hlt, if_pos hlt]

theorem commitment_eq {env env' : Env} (hin : circuit.numInput ≤ shaInLen)
    (hout : shaOutLen ≤ circuit.numOutput) :
    commitment env circuit (shardWires myShard) = commitment env' circuit (shardWires myShard) := by
  simp only [commitment]
  rw [circuitInputs_eq (env.heap .inBits) (env'.heap .inBits) hin,
    outBits_eq _ (env.heap .outBits) (env'.heap .outBits) hout]

/-- A session in which nothing fails, on unassigned memory of the given contents. -/
def demoSession (heap : Buffer → ℕ → Bool) : AliceSession where
  enableLlss := false
  hmac := demoMac
  requestEpoch := 1
  clusterEpoch := 1
  env := { demoEnv .alice [7] with heap := heap }
  machine := ⟨Host.start, none⟩

theorem identify_demoSession (heap : Buffer → ℕ → Bool) (circuit : BristolFashion)
    (myShard : List Bool) : ∃ nullifier, ((identify ((demoSession heap).args circuit myShard)).run
      (serve (demoSession heap).env) (demoSession heap).machine).result = .ok nullifier :=
  identify_demo (show AesInstalled (demoSession heap).env from demoEnv_aesInstalled .alice [7])
    (demoEnv_passShard .alice [7]) circuit myShard _

theorem nullifiers_demoSession (heap : Buffer → ℕ → Bool) (circuit : BristolFashion)
    (myShard : List Bool) : (demoSession heap).nullifiers circuit myShard =
      [commitment (demoSession heap).env circuit (shardWires myShard)] := by
  obtain ⟨nullifier, hok⟩ := identify_demoSession heap circuit myShard
  exact nullifiers_of_ok hok

theorem reads_demoSession (heap : Buffer → ℕ → Bool) (circuit : BristolFashion)
    (myShard : List Bool) : (demoSession heap).reads circuit myShard =
      [circuitInputs circuit (shardWires myShard) (heap .inBits)] := by
  obtain ⟨nullifier, hok⟩ := identify_demoSession heap circuit myShard
  rcases hphase : ((smtpPhase ((demoSession heap).args circuit myShard)).run
    (serve (demoSession heap).env) (demoSession heap).machine).result with e | ⟨⟨⟩⟩
  · rw [identify, run_bind_of_error _ hphase] at hok
    cases hok
  · rw [reads_eq, identify_observed_circuitReads_of_ok hphase]
    rfl

/-- An output block that the circuit does not store shows the memory under it. -/
theorem numOutput_ge_of_deterministic (h : DeterministicNullifier circuit) :
    shaOutLen ≤ circuit.numOutput := by
  by_contra hlt
  have hlt := not_le.mp hlt
  have heq := h.1 [] (demoSession fun buffer _ => buffer = .outBits) (demoSession fun _ _ => false)
    _ (by rw [nullifiers_demoSession]; exact List.mem_singleton_self _)
    _ (by rw [nullifiers_demoSession]; exact List.mem_singleton_self _)
  have hbit := eq_of_computeHashToHex_eq heq hlt
  rw [getD_values_outBits hlt, getD_values_outBits hlt, if_neg (lt_irrefl _),
    if_neg (lt_irrefl _)] at hbit
  cases hbit

/-- The nullifier is a function of circuit and shard, computed from assigned wires, exactly for
circuit files with at most 512 input and at least 256 output wires. -/
theorem deterministicNullifier_iff (circuit : BristolFashion) :
    DeterministicNullifier circuit ↔ circuit.numInput ≤ 512 ∧ 256 ≤ circuit.numOutput := by
  constructor
  · intro h
    refine ⟨?_, numOutput_ge_of_deterministic h⟩
    by_contra hgt
    obtain ⟨block, hmem, hstale⟩ := exists_mem_circuitInputs_stale []
      (fun _ => false) (not_le.mp hgt)
    have hassigned := h.2 [] (demoSession fun _ _ => false) _
      (by rw [reads_demoSession]; exact List.mem_singleton_self _) block hmem
    rw [hstale] at hassigned
    cases hassigned
  · rintro ⟨hin, hout⟩
    constructor
    · intro myShard s s' nullifier hmem nullifier' hmem'
      rw [eq_commitment_of_mem_nullifiers hmem, eq_commitment_of_mem_nullifiers hmem']
      exact commitment_eq hin hout
    · intro myShard s inputs hmem
      rw [eq_circuitInputs_of_mem_reads hmem]
      exact mem_circuitInputs_assigned hin

/-- A circuit of the declared width of `sha256.txt`, 512 + 256 inputs, that shows its first input
past the message block. -/
def wideCircuit : BristolFashion where
  numInput := 768
  numOutput := 256
  eval bits _ := bits.getD 512 false

theorem commitment_wideCircuit (heap : Buffer → ℕ → Bool) :
    commitment (demoSession heap).env wideCircuit (shardWires demoShard) =
      computeHashToHex (fun _ => heap .inBits 512) 256 := by
  refine computeHashToHex_congr fun i hi => ?_
  rw [getD_values_outBits hi, if_pos (show i < wideCircuit.numOutput from hi)]
  simp only [wideCircuit, values, circuitInputs, List.map_map]
  rw [List.getD_eq_getElem _ _ (by simp), List.getElem_map, List.getElem_range,
    Function.comp_apply, List.getD_eq_default _ _ (by simp [shaInLen])]
  rfl

/-- Two sessions with the same circuit and shard, and two nullifiers. -/
theorem nullifiers_wideCircuit :
    (demoSession fun _ _ => false).nullifiers wideCircuit demoShard = [List.replicate 64 '0'] ∧
      (demoSession fun _ _ => true).nullifiers wideCircuit demoShard = [List.replicate 64 'f'] := by
  rw [nullifiers_demoSession, nullifiers_demoSession, commitment_wideCircuit,
    commitment_wideCircuit]
  exact ⟨by decide, by decide⟩

end Freehold.Server
