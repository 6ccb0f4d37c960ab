import Freehold.Server.Nonce
import Freehold.Server.Nullifier

/-!
# Nonces across sessions and restarts

A history is a sequence of sessions at ALICE and of restarts of her server. A restart
gives the process new memory, so the sequence number is back at zero, and leaves the
disk as it is. The records of a history carry the number of the process that produced
them and their position among the records of that process.
-/

namespace Freehold.Server

open Interaction Interaction.Program

/-- A session at ALICE with what she finds around her. -/
structure AliceLaunch (hmac : HmacSha256) where
  env : Env
  args : SessionArgs
  hmac_eq : args.hmac = hmac
  party_eq : args.party = .alice

inductive Happening (hmac : HmacSha256) where
  | session (launch : AliceLaunch hmac)
  | restart (env : Env)

/-- A record with its origin: the process, the records produced there before, the shard. -/
structure Record where
  process : ℕ
  position : ℕ
  shard : List Bool
  key : List Bool
  nonce : List Bool

/-- Where a history has got to: the running process and the number of its records. -/
structure Progress where
  machine : Machine
  process : ℕ
  produced : ℕ

/-- A new process on the same disk, after `load_nullifier_database`. -/
def startProcess (env : Env) (disk : Disk) : Machine :=
  (loadNullifierDatabase.run (serve env) ⟨Host.start, disk⟩).state

def Progress.start (env : Env) (disk : Disk) : Progress := ⟨startProcess env disk, 0, 0⟩

variable {hmac : HmacSha256}

/-- Key and nonce of the records that a session produces. -/
def AliceLaunch.records (launch : AliceLaunch hmac) (m : Machine) : List (List Bool × List Bool) :=
  (executeMpcLogic launch.args).observed (serve launch.env) recordOf m

def Progress.next (p : Progress) : Happening hmac → Progress
  | .session launch =>
    { p with
      machine := ((executeMpcLogic launch.args).run (serve launch.env) p.machine).state
      produced := p.produced + (launch.records p.machine).length }
  | .restart env => ⟨startProcess env p.machine.disk, p.process + 1, 0⟩

def Progress.emitted (p : Progress) : Happening hmac → List Record
  | .session launch =>
    (launch.records p.machine).mapIdx fun i (key, nonce) =>
      ⟨p.process, p.produced + i, launch.args.myShard, key, nonce⟩
  | .restart _ => []

/-- The records of a history, in the order in which they are produced. -/
def Progress.records (p : Progress) : List (Happening hmac) → List Record
  | [] => []
  | happening :: history => p.emitted happening ++ (p.next happening).records history

/-! ## Key and nonce of a position -/

/-- Key and nonce that a shard leads to under a sequence number. -/
def shardRecord (hmac : HmacSha256) (shard : List Bool) (seq : UInt64) : List Bool × List Bool :=
  nextRecord (shardKeys hmac (packShard shard)
    { Host.start.globals.tls with sequenceNumber := seq })

theorem shardRecord_inj {shard : List Bool} {seq seq' : UInt64} :
    (shardRecord hmac shard seq).2 = (shardRecord hmac shard seq').2 ↔ seq = seq' :=
  ⟨fun h => recordNonce_injective (Subtype.ext (bytesToBools_injective h)), fun h => h ▸ rfl⟩

theorem uint64_ofNat_eq_iff {a b : ℕ} :
    UInt64.ofNat a = UInt64.ofNat b ↔ a % 2 ^ 64 = b % 2 ^ 64 := by
  rw [← UInt64.toNat_inj, UInt64.toNat_ofNat', UInt64.toNat_ofNat']

/-- The sequence number counts the records of the process. -/
def Progress.Counts (p : Progress) : Prop :=
  (tlsOf p.machine).sequenceNumber = UInt64.ofNat p.produced

/-- Key and nonce of a record follow from its shard and its position. -/
def Record.Determined (hmac : HmacSha256) (r : Record) : Prop :=
  (r.key, r.nonce) = shardRecord hmac r.shard (UInt64.ofNat r.position)

/-- Later in a history than `p`, from a new process or further on in the same one. -/
def Record.After (p : Progress) (r : Record) : Prop :=
  p.process < r.process ∨ p.process = r.process ∧ p.produced ≤ r.position

theorem startProcess_sequenceNumber (env : Env) (disk : Disk) :
    (tlsOf (startProcess env disk)).sequenceNumber = 0 := by
  have huses : loadNullifierDatabase.Uses KeepsTls := by
    simp only [loadNullifierDatabase, perform_bind]
    exact .call trivial fun text => .foldlM (fun _ _ => .call trivial fun _ => uses_ret _) ()
  rw [startProcess, huses.frame KeepsTls.tlsOf_serve]
  rfl

theorem Progress.counts_start (env : Env) (disk : Disk) : (Progress.start env disk).Counts :=
  startProcess_sequenceNumber env disk

/-- A session ends with one record more, or with an exception and none. -/
theorem AliceLaunch.records_cases (launch : AliceLaunch hmac) (m : Machine) :
    (launch.records m = [shardRecord hmac launch.args.myShard (tlsOf m).sequenceNumber] ∧
      (tlsOf ((executeMpcLogic launch.args).run (serve launch.env) m).state).sequenceNumber =
        (tlsOf m).sequenceNumber + 1) ∨
    (launch.records m = [] ∧
      (tlsOf ((executeMpcLogic launch.args).run (serve launch.env) m).state).sequenceNumber =
        (tlsOf m).sequenceNumber ∧
      ∃ e, ((executeMpcLogic launch.args).run (serve launch.env) m).result = .error e) := by
  obtain ⟨env, args, rfl, hparty⟩ := launch
  have hrecord : RecordsOnce env (tlsOf m) _ (executeMpcLogic args) := executeMpcLogic_record hparty
  exact hrecord m rfl

theorem Progress.counts_next {p : Progress} (hp : p.Counts) (happening : Happening hmac) :
    (p.next happening).Counts := by
  cases happening with
  | restart env => exact startProcess_sequenceNumber env p.machine.disk
  | session launch =>
    rw [Progress.Counts] at hp ⊢
    rcases launch.records_cases p.machine with ⟨hone, hseq⟩ | ⟨hnone, hseq, -⟩
    · simp only [Progress.next, hone, hseq, hp, List.length_singleton, UInt64.ofNat_add]
      rfl
    · simp only [Progress.next, hnone, hseq, hp, List.length_nil, Nat.add_zero]

/-- What one step emits: nothing, or the record of the current position. -/
theorem Progress.emitted_cases {p : Progress} (hp : p.Counts) (happening : Happening hmac) :
    (p.emitted happening = [] ∧ ∀ r : Record, r.After (p.next happening) → r.After p) ∨
    ∃ r, p.emitted happening = [r] ∧ r.Determined hmac ∧ r.After p ∧
      ∀ r' : Record, r'.After (p.next happening) →
        r'.After p ∧ (r.process = r'.process → r.position < r'.position) := by
  cases happening with
  | restart env =>
    refine .inl ⟨rfl, fun r hr => .inl ?_⟩
    rcases hr with hlt | ⟨heq, -⟩
    · exact Nat.lt_of_succ_lt hlt
    · exact Nat.lt_of_succ_le heq.le
  | session launch =>
    rcases launch.records_cases p.machine with ⟨hone, -⟩ | ⟨hnone, -, -⟩
    · refine .inr ⟨⟨p.process, p.produced, launch.args.myShard,
        (shardRecord hmac launch.args.myShard (tlsOf p.machine).sequenceNumber).1,
        (shardRecord hmac launch.args.myShard (tlsOf p.machine).sequenceNumber).2⟩,
        by rw [Progress.emitted, hone]; rfl, ?_, .inr ⟨rfl, le_rfl⟩, ?_⟩
      · rw [Record.Determined, ← hp]
      · rintro r' (hlt | ⟨heq, hle⟩)
        · exact ⟨.inl hlt, fun hsame => absurd hsame (Nat.ne_of_lt hlt)⟩
        · simp only [Progress.next, hone, List.length_singleton] at heq hle
          exact ⟨.inr ⟨heq, by omega⟩, fun _ => by simpa using hle⟩
    · refine .inl ⟨by rw [Progress.emitted, hnone]; rfl, fun r hr => ?_⟩
      simpa only [Record.After, Progress.next, hnone, List.length_nil, Nat.add_zero] using hr

/-! ## Whole histories -/

theorem Progress.determined_of_mem_records (history : List (Happening hmac)) {p : Progress}
    (hp : p.Counts) : ∀ r ∈ p.records history, r.Determined hmac ∧ r.After p := by
  induction history generalizing p with
  | nil => simp [Progress.records]
  | cons happening history ih =>
    intro r hr
    have hlater := ih (Progress.counts_next hp happening)
    rcases List.mem_append.mp hr with hr | hr
    · rcases Progress.emitted_cases hp happening with ⟨hnone, -⟩ | ⟨r₀, hone, hdet, hafter, -⟩
      · simp [hnone] at hr
      · obtain rfl : r = r₀ := by simpa [hone] using hr
        exact ⟨hdet, hafter⟩
    · refine ⟨(hlater r hr).1, ?_⟩
      rcases Progress.emitted_cases hp happening with ⟨-, hmono⟩ | ⟨_, -, -, -, hmono⟩
      · exact hmono r (hlater r hr).2
      · exact (hmono r (hlater r hr).2).1

/-- Within a process, the positions increase. -/
theorem Progress.pairwise_position (history : List (Happening hmac)) {p : Progress}
    (hp : p.Counts) : (p.records history).Pairwise fun r r' =>
      r.process = r'.process → r.position < r'.position := by
  induction history generalizing p with
  | nil => exact .nil
  | cons happening history ih =>
    have hnext := Progress.counts_next hp happening
    refine List.pairwise_append.mpr ⟨?_, ih hnext, ?_⟩
    · rcases Progress.emitted_cases hp happening with ⟨hnone, -⟩ | ⟨r₀, hone, -⟩
      · rw [hnone]
        exact .nil
      · rw [hone]
        exact List.pairwise_singleton _ _
    · intro r hr r' hr'
      rcases Progress.emitted_cases hp happening with ⟨hnone, -⟩ | ⟨r₀, hone, -, -, hmono⟩
      · simp [hnone] at hr
      · obtain rfl : r = r₀ := by simpa [hone] using hr
        exact (hmono r' (Progress.determined_of_mem_records history hnext r' hr').2).2

/-- Two records of one shard have the same key, and the same nonce exactly when their
positions agree in 64 bits. -/
theorem Record.Determined.compare {r r' : Record} (h : r.Determined hmac)
    (h' : r'.Determined hmac) (hshard : r.shard = r'.shard) :
    r.key = r'.key ∧ (r.nonce = r'.nonce ↔ r.position % 2 ^ 64 = r'.position % 2 ^ 64) := by
  rw [Record.Determined, Prod.ext_iff] at h h'
  obtain ⟨hkey, hnonce⟩ := h
  obtain ⟨hkey', hnonce'⟩ := h'
  simp only at hkey hnonce hkey' hnonce'
  rw [hkey, hkey', hnonce, hnonce', hshard, shardRecord_inj, uint64_ofNat_eq_iff]
  exact ⟨rfl, Iff.rfl⟩

/-- Records of one shard share the key. In one process their nonces differ as long as it
produces at most `2 ^ 64` records; records of different processes share the nonce exactly when
their positions in the processes agree in 64 bits. -/
theorem records_key_and_nonce (env : Env) (disk : Disk) (history : List (Happening hmac)) :
    ((Progress.start env disk).records history).Pairwise fun r r' => r.shard = r'.shard →
      r.key = r'.key ∧ (r.nonce = r'.nonce ↔ r.position % 2 ^ 64 = r'.position % 2 ^ 64) ∧
        (r.process = r'.process → r'.position < 2 ^ 64 → r.nonce ≠ r'.nonce) := by
  have hstart := Progress.counts_start env disk
  refine (Progress.pairwise_position history hstart).imp_of_mem fun {r r'} hr hr' hlt hshard => ?_
  obtain ⟨hkey, hnonce⟩ := (Progress.determined_of_mem_records history hstart r hr).1.compare
    (Progress.determined_of_mem_records history hstart r' hr').1 hshard
  refine ⟨hkey, hnonce, fun hprocess hbound hsame => ?_⟩
  have hpos := hlt hprocess
  have hmod := hnonce.mp hsame
  rw [Nat.mod_eq_of_lt hbound, Nat.mod_eq_of_lt (hpos.trans hbound)] at hmod
  exact hpos.ne hmod

/-! ## Two sessions around a restart -/

/-- Records of one shard, made in different sessions, never share key and nonce. -/
def FreshNonces (hmac : HmacSha256) : Prop :=
  ∀ (env : Env) (disk : Disk) (history : List (Happening hmac)),
    ((Progress.start env disk).records history).Pairwise fun r r' => r.shard = r'.shard →
      ¬(r.key = r'.key ∧ r.nonce = r'.nonce)

/-- A session that gets as far as the nullifier and is not cheated does not throw. -/
theorem executeMpcLogic_ok {args : SessionArgs} {env : Env} {m : Machine}
    (hcheated : env.cheated = false) {nullifier : List Char}
    (h : ((identify args).run (serve env) m).result = .ok nullifier) :
    ∃ answer, ((executeMpcLogic args).run (serve env) m).result = .ok answer := by
  obtain ⟨m', t, -, hrun⟩ := executeMpcLogic_run_of_ok h
  rw [hrun]
  by_cases hmem : nullifier ∈ m'.host.nullifierDatabase
  · exact ⟨[], by rw [commitNullifier_run_of_mem hmem]⟩
  · exact ⟨nullifier, by rw [commitNullifier_run_of_not_mem hmem, hcheated]; rfl⟩

/-- A session of the identity `demoShard` with a password of one byte. -/
def demoLaunch : AliceLaunch demoMac where
  env := demoEnv .alice [7]
  args := demoArgs demoCircuit demoShard
  hmac_eq := rfl
  party_eq := rfl

theorem demoLaunch_records (m : Machine) :
    demoLaunch.records m = [shardRecord demoMac demoShard (tlsOf m).sequenceNumber] := by
  rcases demoLaunch.records_cases m with ⟨hone, -⟩ | ⟨-, -, e, herror⟩
  · exact hone
  · obtain ⟨nullifier, hok⟩ := identify_demo (demoEnv_aesInstalled .alice [7])
      (demoEnv_passShard .alice [7]) demoCircuit demoShard m
    obtain ⟨answer, hanswer⟩ := executeMpcLogic_ok rfl hok
    cases herror.symm.trans hanswer

/-- The server is restarted between two sessions of one identity. -/
def restartHistory : List (Happening demoMac) :=
  [.session demoLaunch, .restart demoLaunch.env, .session demoLaunch]

theorem demoLaunch_emitted {p : Progress} (hp : (tlsOf p.machine).sequenceNumber = 0) :
    p.emitted (.session demoLaunch) = [⟨p.process, p.produced, demoShard,
      (shardRecord demoMac demoShard 0).1, (shardRecord demoMac demoShard 0).2⟩] := by
  rw [Progress.emitted, demoLaunch_records, hp]
  rfl

theorem not_freshNonces_restart : ¬ FreshNonces demoMac := by
  intro hfresh
  have hpair := hfresh demoLaunch.env none restartHistory
  have hfirst := demoLaunch_emitted (Progress.counts_start demoLaunch.env none)
  have hsecond (p : Progress) :
      (p.next (.restart demoLaunch.env : Happening demoMac)).emitted (.session demoLaunch) =
      [⟨p.process + 1, 0, demoShard, (shardRecord demoMac demoShard 0).1,
        (shardRecord demoMac demoShard 0).2⟩] :=
    demoLaunch_emitted (startProcess_sequenceNumber demoLaunch.env p.machine.disk)
  rw [restartHistory, Progress.records, Progress.records, Progress.records, Progress.records,
    hfirst, hsecond, Progress.emitted, List.nil_append, List.append_nil, List.singleton_append,
    List.pairwise_cons] at hpair
  exact hpair.1 _ (List.mem_singleton_self _) rfl ⟨rfl, rfl⟩

end Freehold.Server
