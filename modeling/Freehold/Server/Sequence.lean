import Freehold.Foundation.Once
import Freehold.Server.Acceptance

/-!
# Sessions one after the other

Each process loads the file, runs one session and exits before the next one starts. The file
then stands for a set of digests, one on each line: a session whose digest is in the set is a
duplicate, any other adds its digest.
-/

namespace Freehold.Server

open Interaction Interaction.Program

/-! ## Digests -/

/-- `hash_result`: the bits that `reveal` discloses of `out_bits`. -/
abbrev Digest := Fin shaOutLen → Bool

def hexDigest (d : Digest) : List Char :=
  computeHashToHex (fun i => if h : i < shaOutLen then d ⟨i, h⟩ else false) shaOutLen

/-- `compute_nullifier` up to `reveal`. -/
def revealHash (party : Party) (myShard : List Bool) (circuit : BristolFashion) :
    Session (ℕ → Bool) := do
  let inHeap ← perform (E := Mpc) (.newBlocks .inBits)
  let outHeap ← perform (E := Mpc) (.newBlocks .outBits)
  let inBits ← feed party .alice (identityInput party myShard)
  let value ← perform (E := Mpc) (.compute circuit (circuitInputs circuit inBits inHeap))
  perform (E := Mpc) (.reveal (outBits circuit value outHeap))

/-- Everything up to the hash. -/
def identifyHash (args : SessionArgs) : Session (ℕ → Bool) := do
  smtpPhase args
  revealHash args.party args.myShard args.circuit

theorem computeNullifier_eq (party : Party) (myShard : List Bool) (circuit : BristolFashion) :
    computeNullifier party myShard circuit = revealHash party myShard circuit >>=
      fun hashResult => .ret (computeHashToHex hashResult shaOutLen) := by
  simp only [computeNullifier, revealHash, perform_bind, feed_bind, call_bind, pure_eq]

theorem identify_eq (args : SessionArgs) : identify args =
    identifyHash args >>= fun hashResult => .ret (computeHashToHex hashResult shaOutLen) := by
  simp only [identify, identifyHash, computeNullifier_eq, Program.bind_assoc]

theorem identifyHash_uses (args : SessionArgs) : (identifyHash args).Uses BeforeCheck := by
  refine ((smtpPhase_uses args).mono fun _ => Preliminary.beforeCheck).bind fun _ => ?_
  simp only [revealHash, perform_bind, feed_bind]
  exact .call trivial fun _ => .call trivial fun _ => .call trivial fun _ =>
    .call trivial fun _ => .call trivial fun _ => uses_ret _

theorem hexDigest_restrict (hashResult : ℕ → Bool) :
    hexDigest (fun i => hashResult i) = computeHashToHex hashResult shaOutLen := by
  apply computeHashToHex_congr
  intro i hi
  simp [hi]

theorem isCommitment_hexDigest (d : Digest) : IsCommitment (hexDigest d) := ⟨_, rfl⟩

theorem hexDigest_injective : Function.Injective hexDigest := by
  intro d d' h
  funext i
  simpa using eq_of_computeHashToHex_eq h i.isLt

/-! ## One session on a file -/

namespace Launch

variable (launch : Launch) (disk : Disk)

/-- The whole run of a process that starts on the file. -/
def outcome : Outcome Mpc Failure (List Char) Machine :=
  (serverMain launch.args).run (serve launch.env) ⟨Host.start, disk⟩

/-- The digest of the session, if it gets to one. -/
def digest : Option Digest :=
  ((identifyHash launch.args).run (serve launch.env) (loaded disk)).result.toOption.map
    fun hashResult i => hashResult i

/-- `execute_mpc_logic` gets to `nullifier_database.insert`, with this digest. -/
def Inserts (d : Digest) : Prop :=
  launch.digest disk = some d ∧ insertion (hexDigest d) ∈
    ((executeMpcLogic launch.args).run (serve launch.env) (loaded disk)).trace

/-- `execute_mpc_logic` returns the empty string. -/
def Rejected : Prop := (launch.outcome disk).result = .ok []

variable {launch : Launch} {disk : Disk} {d : Digest}

theorem identify_of_digest (h : launch.digest disk = some d) :
    ((identify launch.args).run (serve launch.env) (loaded disk)).result = .ok (hexDigest d) := by
  rw [identify_eq]
  rcases hhash : ((identifyHash launch.args).run (serve launch.env) (loaded disk)).result
    with e | hashResult
  · simp [digest, hhash, Except.toOption] at h
  · have hd : (fun i : Fin shaOutLen => hashResult i) = d := by
      simpa [digest, hhash, Except.toOption] using h
    rw [result_bind_of_ok _ hhash, run_ret, ← hd, hexDigest_restrict]

theorem identify_of_no_digest (h : launch.digest disk = none) :
    ∃ e, ((identify launch.args).run (serve launch.env) (loaded disk)).result = .error e := by
  rw [identify_eq]
  rcases hhash : ((identifyHash launch.args).run (serve launch.env) (loaded disk)).result
    with e | hashResult
  · exact ⟨e, by rw [run_bind_of_error _ hhash]⟩
  · simp [digest, hhash, Except.toOption] at h

/-- The digest has nothing to do with the file. -/
theorem digest_eq (launch : Launch) (disk : Disk) : launch.digest disk = launch.digest none := by
  have hresult : ((identifyHash launch.args).run (serve launch.env) (loaded disk)).result =
      ((identifyHash launch.args).run (serve launch.env) (loaded none)).result := by
    refine (identifyHash_uses launch.args).result_congr
      (R := fun m m' => m.host.globals = m'.host.globals ∧ m.host.feeds = m'.host.feeds)
      ?_ ⟨rfl, rfl⟩
    rintro o m m' ho ⟨hglobals, hfeeds⟩
    cases o <;> simp_all [serve, BeforeCheck, Preliminary]
  rw [digest, hresult, digest]

theorem outcome_of_no_digest (h : launch.digest disk = none) :
    (∃ e, (launch.outcome disk).result = .error e) ∧ (launch.outcome disk).state.disk = disk := by
  obtain ⟨e, hidentify⟩ := identify_of_no_digest h
  rw [outcome, serverMain_result, serverMain_state, executeMpcLogic,
    run_bind_of_error _ hidentify]
  exact ⟨⟨e, rfl⟩, congrArg Prod.snd (nullifierState_identify launch.args launch.env _)⟩

theorem outcome_of_known (h : launch.digest disk = some d)
    (hknown : hexDigest d ∈ nonemptyLines (disk.getD [])) :
    (launch.outcome disk).result = .ok [] ∧ (launch.outcome disk).state.disk = disk := by
  obtain ⟨hstate, hresult⟩ := executeMpcLogic_run_of_known (identify_of_digest h)
    (mem_loaded.mpr hknown)
  rw [outcome, serverMain_result, serverMain_state]
  exact ⟨hresult, congrArg Prod.snd hstate⟩

theorem outcome_of_new (h : launch.digest disk = some d)
    (hnew : hexDigest d ∉ nonemptyLines (disk.getD [])) :
    (launch.outcome disk).result = (if launch.env.cheated then
        .error (.runtimeError "ZK proof verification failed: cheating detected.")
      else .ok (hexDigest d)) ∧
    (launch.outcome disk).state.disk = if launch.env.appends then
      some (disk.getD [] ++ (hexDigest d ++ ['\n'])) else disk := by
  obtain ⟨hstate, hresult, -⟩ := executeMpcLogic_run_of_new (identify_of_digest h)
    (mem_loaded.not.mpr hnew)
  rw [outcome, serverMain_result, serverMain_state]
  exact ⟨hresult, congrArg Prod.snd hstate⟩

/-- A session is rejected exactly if the file has its nullifier. -/
theorem rejected_iff : launch.Rejected disk ↔
    ∃ d, launch.digest disk = some d ∧ hexDigest d ∈ nonemptyLines (disk.getD []) := by
  constructor
  · intro hrejected
    cases h : launch.digest disk with
    | none =>
      obtain ⟨⟨e, herror⟩, -⟩ := outcome_of_no_digest h
      cases hrejected.symm.trans herror
    | some d =>
      refine ⟨d, rfl, ?_⟩
      by_contra hnew
      have hresult := hrejected.symm.trans (outcome_of_new h hnew).1
      split at hresult
      · cases hresult
      · exact (isCommitment_hexDigest d).ne_nil (Except.ok.inj hresult).symm
  · rintro ⟨d, hd, hknown⟩
    exact (outcome_of_known hd hknown).1

theorem insertion_iff {args : SessionArgs} {env : Env} {m : Machine} {nullifier ν : List Char}
    (h : ((identify args).run (serve env) m).result = .ok nullifier) :
    insertion ν ∈ ((executeMpcLogic args).run (serve env) m).trace ↔
      ν = nullifier ∧ nullifier ∉ m.host.nullifierDatabase := by
  have hdatabase := congrArg Prod.fst (nullifierState_identify args env m)
  simp only [nullifierState] at hdatabase
  have hbefore : insertion ν ∉ ((identify args).run (serve env) m).trace :=
    fun hmem => (identify_uses args).of_mem_trace hmem
  rw [executeMpcLogic, run_bind_of_ok _ h, List.mem_append, or_iff_right hbefore, ← hdatabase]
  by_cases hmem : nullifier ∈ ((identify args).run (serve env) m).state.host.nullifierDatabase
  · simp [commitNullifier_run_of_mem hmem, hmem]
  · simp [commitNullifier_run_of_not_mem hmem, hmem]

/-- A session inserts its digest exactly if the file does not have it. -/
theorem inserts_iff : launch.Inserts disk d ↔
    launch.digest disk = some d ∧ hexDigest d ∉ nonemptyLines (disk.getD []) := by
  refine and_congr_right fun hd => ?_
  rw [insertion_iff (identify_of_digest hd), mem_loaded]
  exact and_iff_right rfl

end Launch

/-! ## The file as a set of digests -/

/-- The file holds the hexadecimal forms of a set of digests, one on each line. -/
structure Stores (digests : Set Digest) (disk : Disk) : Prop where
  terminated : Terminated (disk.getD [])
  mem_iff : ∀ ν, ν ∈ nonemptyLines (disk.getD []) ↔ ∃ d ∈ digests, hexDigest d = ν

theorem Stores.hexDigest_mem_iff {digests : Set Digest} {disk : Disk} (h : Stores digests disk)
    {d : Digest} : hexDigest d ∈ nonemptyLines (disk.getD []) ↔ d ∈ digests := by
  rw [h.mem_iff]
  exact hexDigest_injective.mem_set_image

theorem stores_none : Stores ∅ none := ⟨.inl rfl, by simp [nonemptyLines]⟩

theorem Stores.insert {digests : Set Digest} {disk : Disk} (h : Stores digests disk) (d : Digest) :
    Stores (insert d digests) (some (disk.getD [] ++ (hexDigest d ++ ['\n']))) where
  terminated := h.terminated.append (terminated_line _)
  mem_iff ν := by
    rw [Option.getD_some, nonemptyLines_append h.terminated,
      (isCommitment_hexDigest d).nonemptyLines, List.mem_append, List.mem_singleton, h.mem_iff]
    simp [or_comm, eq_comm]

/-- A session adds its digest to the set. -/
theorem Stores.next {digests : Set Digest} {disk : Disk} (h : Stores digests disk)
    {launch : Launch} (happends : launch.env.appends = true) :
    Stores (digests ∪ {d | launch.digest disk = some d}) (launch.outcome disk).state.disk := by
  cases hd : launch.digest disk with
  | none =>
    rw [(Launch.outcome_of_no_digest hd).2]
    simpa using h
  | some d =>
    have hset : digests ∪ {d' | some d = some d'} = Insert.insert d digests := by
      ext d'
      simp [eq_comm]
    rw [hset]
    by_cases hknown : hexDigest d ∈ nonemptyLines (disk.getD [])
    · rw [(Launch.outcome_of_known hd hknown).2,
        Set.insert_eq_of_mem (h.hexDigest_mem_iff.mp hknown)]
      exact h
    · rw [(Launch.outcome_of_new hd hknown).2, if_pos happends]
      exact h.insert d

/-! ## Any number of sessions -/

/-- The file after some sessions. -/
def diskAfter (disk : Disk) (launches : List Launch) : Disk :=
  launches.foldl (fun disk launch => (launch.outcome disk).state.disk) disk

@[simp] theorem diskAfter_nil (disk : Disk) : diskAfter disk [] = disk := rfl

theorem diskAfter_snoc (disk : Disk) (launches : List Launch) (launch : Launch) :
    diskAfter disk (launches ++ [launch]) =
      (launch.outcome (diskAfter disk launches)).state.disk := by
  simp [diskAfter]

/-- One of the sessions gets to the insert step with this digest. -/
def Inserted (launches : List Launch) (d : Digest) : Prop :=
  ∃ before launch after, launches = before ++ launch :: after ∧
    launch.Inserts (diskAfter none before) d

/-- The digests of some sessions. -/
abbrev digestsOf (launches : List Launch) : Set Digest :=
  Once.known (fun launch => launch.digest none) launches

variable {launches : List Launch}

theorem stores_diskAfter (happends : ∀ launch ∈ launches, launch.env.appends = true) :
    Stores (digestsOf launches) (diskAfter none launches) := by
  induction launches using List.reverseRecOn with
  | nil => simpa [digestsOf, Once.known] using stores_none
  | append_singleton launches launch ih =>
    have hset : digestsOf (launches ++ [launch]) = digestsOf launches ∪
        {d | launch.digest (diskAfter none launches) = some d} := by
      ext d
      rw [Launch.digest_eq]
      exact Once.mem_known_snoc
    rw [hset, diskAfter_snoc]
    exact (ih fun l hl => happends l (List.mem_append_left _ hl)).next (happends launch (by simp))

/-- What has been inserted is what the sessions have computed. -/
theorem inserted_iff (happends : ∀ launch ∈ launches, launch.env.appends = true) {d : Digest} :
    Inserted launches d ↔ d ∈ digestsOf launches := by
  rw [Once.mem_known_iff_new, Inserted]
  refine exists_congr fun before => exists_congr fun launch => exists_congr fun after => ?_
  refine and_congr_right ?_
  rintro rfl
  have hstores := stores_diskAfter
    fun l hl => happends l (List.mem_append_left (launch :: after) hl)
  rw [Launch.inserts_iff, hstores.hexDigest_mem_iff, Launch.digest_eq]
  refine and_congr_right fun hd => ?_
  have hnew : Once.New (fun l : Launch => l.digest none) before launch ↔ d ∉ digestsOf before :=
    Once.new_iff hd
  exact hnew.symm

/-- With a file that can be opened for appending, the file is a set of digests: a session is a
duplicate exactly when an earlier one has inserted its digest, and what a process loads
afterwards are the digests that have been inserted. -/
theorem sessions_refine_set (before : List Launch) (launch : Launch)
    (happends : ∀ l ∈ before ++ [launch], l.env.appends = true) :
    (launch.Rejected (diskAfter none before) ↔
      ∃ d, launch.digest (diskAfter none before) = some d ∧ Inserted before d) ∧
    ∀ env, ((loadNullifierDatabase.run (serve env)
        ⟨Host.start, diskAfter none (before ++ [launch])⟩).state.host.nullifierDatabase :
          Set (List Char)) = Set.image hexDigest {d | Inserted (before ++ [launch]) d} := by
  have hbefore : ∀ l ∈ before, l.env.appends = true :=
    fun l hl => happends l (List.mem_append_left _ hl)
  constructor
  · rw [Launch.rejected_iff]
    refine exists_congr fun d => and_congr_right fun _ => ?_
    rw [(stores_diskAfter hbefore).hexDigest_mem_iff, inserted_iff hbefore]
  · intro env
    ext ν
    rw [loadNullifierDatabase_run_start]
    simp only [Finset.mem_coe, mem_loaded, (stores_diskAfter happends).mem_iff,
      inserted_iff happends, Set.mem_image, Set.mem_ofPred_eq]

/-- The second of two sessions of one identity finds what the first has inserted. -/
theorem sessions_refine_set_demo :
    ∃ d, (demoProcesses 1).digest (diskAfter none [demoProcesses 0]) = some d ∧
      Inserted [demoProcesses 0] d := by
  refine (sessions_refine_set [demoProcesses 0] (demoProcesses 1) ?_).1.mp ?_
  · intro l hl
    fin_cases hl <;> rfl
  · refine serverMain_demo_known 1 _ ?_
    obtain ⟨-, hdisk⟩ := serverMain_demo_new 0 none (by simp [nonemptyLines])
    have hcommitment : IsCommitment demoNullifier := ⟨_, rfl⟩
    have hafter : diskAfter none [demoProcesses 0] = some (demoNullifier ++ ['\n']) := hdisk
    rw [hafter, Option.getD_some, hcommitment.nonemptyLines]
    exact List.mem_singleton_self _

end Freehold.Server
