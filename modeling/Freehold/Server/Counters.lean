import Freehold.Server.Records

/-!
# The blocks given to AES in one process

The sequence number tells the records of an IV apart as long as it does not wrap, and the
counter tells the blocks of one record apart, `J0` included.
-/

namespace Freehold.Server

open Interaction Interaction.Program CounterMode

/-! ## Counter blocks -/

theorem counterBytes_injOn {a b : ℕ} (ha : a < 2 ^ 32) (hb : b < 2 ^ 32)
    (h : counterBytes a = counterBytes b) : a = b := by
  have hmod := counterBytes_inj.mp h
  rwa [Nat.mod_eq_of_lt ha, Nat.mod_eq_of_lt hb] at hmod

theorem counterBlock_inj {nonce nonce' : Bytes 12} {ctr ctr' : ℕ}
    (h : counterBlock nonce ctr = counterBlock nonce' ctr') :
    nonce = nonce' ∧ counterBytes ctr = counterBytes ctr' := by
  have happend := congrArg Subtype.val h
  obtain ⟨hnonce, hctr⟩ := List.append_inj happend (by simp)
  exact ⟨Subtype.ext hnonce, hctr⟩

theorem blockBits_injective : Function.Injective blockBits :=
  fun _ _ h => Subtype.ext (bytesToBools_injective h)

theorem exists_of_mem_recordBlocks {nonce : Bytes 12} {len : ℕ} {block : Bytes 16}
    (h : block ∈ recordBlocks nonce len) : ∃ ctr, block = counterBlock nonce ctr := by
  rcases List.mem_append.mp h with hdata | hJ0
  · obtain ⟨i, -, rfl⟩ := List.mem_map.mp hdata
    exact ⟨i + 2, rfl⟩
  · exact ⟨1, List.mem_singleton.mp hJ0⟩

/-- No block of a record repeats: the counters start at 2, and `J0` has 1. -/
theorem nodup_recordBlocks (nonce : Bytes 12) {len : ℕ} (hlen : len ≤ 65519) :
    (recordBlocks nonce len).Nodup := by
  have hblocks : blocks 16 len < 2 ^ 31 := by
    unfold blocks
    omega
  have hctr : ∀ i ∈ List.range (blocks 16 len), i + 2 < 2 ^ 32 := by
    intro i hi
    have hlt := List.mem_range.mp hi
    omega
  rw [recordBlocks, List.nodup_append]
  refine ⟨?_, List.nodup_singleton _, ?_⟩
  · apply List.Nodup.map_on _ List.nodup_range
    intro i hi j hj heq
    have hbytes := (counterBlock_inj heq).2
    have hij := counterBytes_injOn (hctr i hi) (hctr j hj) hbytes
    omega
  · intro block hblock J0 hJ0 heq
    obtain ⟨i, hi, rfl⟩ := List.mem_map.mp hblock
    rw [List.mem_singleton.mp hJ0] at heq
    have hone := counterBytes_injOn (hctr i hi) (by norm_num) (counterBlock_inj heq).2
    omega

/-- The blocks of records of the given lengths, from a sequence number on. -/
def sessionBlocks (iv : Bytes 12) : UInt64 → List ℕ → List (List Bool)
  | _, [] => []
  | seq, len :: lens =>
    (recordBlocks (recordNonce iv seq) len).map blockBits ++ sessionBlocks iv (seq + 1) lens

theorem add_ofNat_succ (seq : UInt64) (k : ℕ) : seq + .ofNat (k + 1) = seq + 1 + .ofNat k := by
  rw [UInt64.ofNat_add, UInt64.add_comm (.ofNat k), ← UInt64.add_assoc]
  rfl

theorem exists_of_mem_sessionBlocks {iv : Bytes 12} {seq : UInt64} {lens : List ℕ}
    {bits : List Bool} (h : bits ∈ sessionBlocks iv seq lens) :
    ∃ k < lens.length, ∃ ctr,
      bits = blockBits (counterBlock (recordNonce iv (seq + .ofNat k)) ctr) := by
  induction lens generalizing seq with
  | nil => cases h
  | cons len lens ih =>
    rcases List.mem_append.mp h with hfirst | hrest
    · obtain ⟨block, hblock, rfl⟩ := List.mem_map.mp hfirst
      obtain ⟨ctr, rfl⟩ := exists_of_mem_recordBlocks hblock
      exact ⟨0, Nat.succ_pos _, ctr, by simp⟩
    · obtain ⟨k, hk, ctr, rfl⟩ := ih hrest
      exact ⟨k + 1, Nat.succ_lt_succ hk, ctr, by rw [add_ofNat_succ]⟩

/-- A sequence number does not come back before `2 ^ 64` records. -/
theorem ne_add_ofNat_succ {seq : UInt64} {k : ℕ} (hk : k + 1 < 2 ^ 64) :
    seq ≠ seq + 1 + .ofNat k := by
  intro h
  have hnat := congrArg UInt64.toNat h
  rw [UInt64.add_assoc, UInt64.toNat_add, UInt64.toNat_add, UInt64.toNat_ofNat',
    UInt64.toNat_one] at hnat
  have hlt := seq.toNat_lt
  norm_num at hnat hlt hk
  omega

/-- Fewer than `2 ^ 64` records do not share a block. -/
theorem nodup_sessionBlocks (iv : Bytes 12) (seq : UInt64) {lens : List ℕ}
    (hcount : lens.length < 2 ^ 64) (hlens : ∀ len ∈ lens, len ≤ 65519) :
    (sessionBlocks iv seq lens).Nodup := by
  induction lens generalizing seq with
  | nil => exact List.nodup_nil
  | cons len lens ih =>
    have hlen := hlens len List.mem_cons_self
    rw [sessionBlocks, List.nodup_append]
    refine ⟨(nodup_recordBlocks _ hlen).map blockBits_injective,
      ih (seq + 1) (Nat.lt_of_succ_lt hcount) fun l hl => hlens l (List.mem_cons_of_mem _ hl), ?_⟩
    intro bits hfirst bits' hrest heq
    subst heq
    obtain ⟨block, hblock, rfl⟩ := List.mem_map.mp hfirst
    obtain ⟨ctr, rfl⟩ := exists_of_mem_recordBlocks hblock
    obtain ⟨k, hk, ctr', hsame⟩ := exists_of_mem_sessionBlocks hrest
    have hseq := recordNonce_injective (counterBlock_inj (blockBits_injective hsame)).1
    apply ne_add_ofNat_succ _ hseq
    rw [List.length_cons] at hcount
    omega

/-! ## A sequence of calls -/

/-- Each call with its plaintext and its output buffer; the caller catches what it throws. -/
def encryptAll (role : Party) (calls : List (List UInt8 × List UInt8)) :
    Session (List (Except Failure (List UInt8))) :=
  calls.mapM fun call => (jesseQTlsEncrypt role call.1 call.2).attempt

/-- The calls that have produced a record. -/
def records (results : List (Except Failure (List UInt8))) : ℕ :=
  results.countP fun result => result matches .ok _

@[simp] theorem records_error (e : Failure) (results : List (Except Failure (List UInt8))) :
    records (.error e :: results) = records results := rfl

@[simp] theorem records_ok (out : List UInt8) (results : List (Except Failure (List UInt8))) :
    records (.ok out :: results) = records results + 1 := by simp [records]

section Calls

variable {env : Env} {m : Machine}

/-- A call and then the others, on what it leaves. -/
theorem encryptAll_cons {ω : Type} (v : Event Mpc → Option ω) {role : Party}
    {call : List UInt8 × List UInt8} {calls : List (List UInt8 × List UInt8)}
    {first : Outcome Mpc Failure (List UInt8) Machine}
    (hfirst : (jesseQTlsEncrypt role call.1 call.2).run (serve env) m = first) :
    ((encryptAll role (call :: calls)).run (serve env) m).state =
        ((encryptAll role calls).run (serve env) first.state).state ∧
      ((encryptAll role (call :: calls)).run (serve env) m).result =
        ((encryptAll role calls).run (serve env) first.state).result.map (first.result :: ·) ∧
      (encryptAll role (call :: calls)).observed (serve env) v m =
        first.trace.filterMap v ++ (encryptAll role calls).observed (serve env) v first.state := by
  have hcatch := run_attempt (δ := Failure) (h := serve env)
    (jesseQTlsEncrypt role call.1 call.2) m
  simp only [encryptAll, List.mapM_cons, observed, run_bind, hcatch, hfirst, Outcome.andThen]
  cases (List.mapM (fun call => (jesseQTlsEncrypt role call.1 call.2).attempt) calls).run
    (serve env) first.state with
  | mk result state trace => cases result <;> simp [pure_eq, Except.map]

variable (env) in
/-- At ALICE the blocks are those of the records that have been produced. -/
theorem encryptAll_observed (calls : List (List UInt8 × List UInt8)) (m : Machine) :
    ∃ lens : List ℕ, lens.length ≤ calls.length ∧
      (∀ len ∈ lens, ∃ call ∈ calls, len = call.1.length) ∧
      (encryptAll .alice calls).observed (serve env) aesInput m =
        sessionBlocks (tlsOf m).clientWriteIv (tlsOf m).sequenceNumber lens := by
  induction calls generalizing m with
  | nil => exact ⟨[], le_rfl, by simp, rfl⟩
  | cons call calls ih =>
    obtain ⟨lens, hcount, hlens, hrest⟩ :=
      ih ((jesseQTlsEncrypt .alice call.1 call.2).run (serve env) m).state
    have hcalls : ∀ len ∈ lens, ∃ c ∈ call :: calls, len = c.1.length := by
      intro len hlen
      obtain ⟨c, hc, rfl⟩ := hlens len hlen
      exact ⟨c, List.mem_cons_of_mem _ hc, rfl⟩
    rw [(encryptAll_cons aesInput rfl).2.2, hrest]
    rcases jesseQTlsEncrypt_cases env m call.1 call.2 with
      ⟨-, hnone, hkept⟩ | ⟨⟨_, -, -, hnext⟩, hblocks⟩
    · rw [observed] at hnone
      exact ⟨lens, Nat.le_succ_of_le hcount, hcalls, by rw [hnone, hkept]; rfl⟩
    · rw [observed] at hblocks
      refine ⟨call.1.length :: lens, Nat.succ_le_succ hcount, ?_, ?_⟩
      · exact List.forall_mem_cons.mpr ⟨⟨call, List.mem_cons_self, rfl⟩, hcalls⟩
      · rw [hblocks, hnext]
        rfl

/-! ## Sequence numbers at either party -/

/-- The view of nothing. -/
def hidden : Event Mpc → Option Unit := fun _ => none

variable {tls : MpcTlsSession}

theorem aesReveal_tlsOf (role : Party) (keyBits : List Block) (block : Bytes 16) :
    Returns (serve env) hidden (fun m => tlsOf m = tls) (aesReveal role keyBits block)
      (fun _ m => tlsOf m = tls) [] :=
  fun _ hm => ⟨⟨_, rfl, hm⟩, rfl⟩

theorem encryptBlock_tlsOf (role : Party) (keyBits : List Block) (nonce : Bytes 12)
    (plaintext : List UInt8) (state : List UInt8 × List UInt8) (blk : ℕ) :
    Returns (serve env) hidden (fun m => tlsOf m = tls)
      (encryptBlock role keyBits nonce plaintext state blk) (fun _ m => tlsOf m = tls) [] := by
  refine Returns.bind (aesReveal_tlsOf role keyBits _) fun keystream => ?_
  split <;> exact .ret fun _ hm => hm

theorem encryptBlocks_tlsOf (role : Party) (keyBits : List Block) (nonce : Bytes 12)
    (plaintext : List UInt8) (state : List UInt8 × List UInt8) (blks : List ℕ) :
    Returns (serve env) hidden (fun m => tlsOf m = tls)
      (blks.foldlM (encryptBlock role keyBits nonce plaintext) state)
      (fun _ m => tlsOf m = tls) [] := by
  have hblock : ∀ state, ∀ blk ∈ blks, Returns (serve env) hidden (fun m => tlsOf m = tls)
      (encryptBlock role keyBits nonce plaintext state blk) (fun _ m => tlsOf m = tls) [] :=
    fun state blk _ => encryptBlock_tlsOf role keyBits nonce plaintext state blk
  have hloop := Returns.foldlM hblock state
  rwa [List.flatMap_eq_nil_iff.mpr fun _ _ => rfl] at hloop

variable (env m) in
/-- The number grows by one with a record, and stays where the circuit is missing. -/
theorem jesseQTlsEncrypt_tlsOf (role : Party) (plaintext out : List UInt8) :
    ((∃ e, ((jesseQTlsEncrypt role plaintext out).run (serve env) m).result = .error e) ∧
      tlsOf ((jesseQTlsEncrypt role plaintext out).run (serve env) m).state = tlsOf m) ∨
    (∃ ciphertext, ((jesseQTlsEncrypt role plaintext out).run (serve env) m).result =
          .ok ciphertext ∧
        tlsOf ((jesseQTlsEncrypt role plaintext out).run (serve env) m).state =
          { tlsOf m with sequenceNumber := (tlsOf m).sequenceNumber + 1 }) := by
  have hv : getAesCircuit.observed (serve env) hidden m = [] := List.filterMap_none _
  simp only [jesseQTlsEncrypt, perform_bind, feed_bind]
  refine (getAesCircuit_bind_cases hv (Q := fun _ m' =>
    tlsOf m' = { tlsOf m with sequenceNumber := (tlsOf m).sequenceNumber + 1 }) (w := []) ?_).imp
    (fun h => ⟨h.1, h.2.2⟩) (fun h => h.1)
  generalize tlsOf m = tls
  refine Returns.hidden (fun _ => rfl) (fun g m => g.tls = tls ∧ tlsOf m = tls)
    (fun m hm => ⟨hm, hm⟩) fun g => .pure_pre fun hg => ?_
  refine Returns.hidden (fun _ => rfl) (fun _ m => tlsOf m = tls) (fun m hm => hm) fun x => ?_
  refine Returns.bind (encryptBlocks_tlsOf role _ _ plaintext _ _) fun state => ?_
  refine Returns.bind (aesReveal_tlsOf role _ _) fun tagBytes => ?_
  refine Returns.hidden (fun _ => rfl) (fun g' _ => g'.tls = tls) (fun m hm => hm) fun g' => ?_
  refine Returns.hidden (fun _ => rfl)
    (fun _ m' => tlsOf m' = { tls with sequenceNumber := tls.sequenceNumber + 1 })
    (fun m hg' => ?_) fun _ => .ret fun m' hm' => hm'
  simp only [serve, tlsOf, hg']

theorem encryptAll_tlsOf (role : Party) (calls : List (List UInt8 × List UInt8)) (m : Machine) :
    ∃ results, ((encryptAll role calls).run (serve env) m).result = .ok results ∧
      results.length = calls.length ∧
      tlsOf ((encryptAll role calls).run (serve env) m).state =
        { tlsOf m with
          sequenceNumber := (tlsOf m).sequenceNumber + .ofNat (records results) } := by
  induction calls generalizing m with
  | nil => exact ⟨[], rfl, rfl, by simp [encryptAll, records, pure_eq]⟩
  | cons call calls ih =>
    obtain ⟨results, hresults, hlength, hrest⟩ :=
      ih ((jesseQTlsEncrypt role call.1 call.2).run (serve env) m).state
    obtain ⟨hstate, hresult, -⟩ :=
      encryptAll_cons hidden (rfl : (jesseQTlsEncrypt role call.1 call.2).run (serve env) m = _)
    rw [hresults] at hresult
    refine ⟨_, hresult, congrArg Nat.succ hlength, ?_⟩
    rw [hstate, hrest]
    rcases jesseQTlsEncrypt_tlsOf env m role call.1 call.2 with
      ⟨⟨e, he⟩, hkept⟩ | ⟨ciphertext, hok, hnext⟩
    · rw [hkept, he, records_error]
    · rw [hnext, hok, records_ok, add_ofNat_succ]

/-- For every IV and fewer than `2 ^ 64` calls with texts of up to 65519 bytes, AES is never given
a block twice, and the sequence number grows by one with every record and otherwise stays. -/
theorem encryptAll_blocks (env : Env) (m : Machine) (calls : List (List UInt8 × List UInt8))
    (hcount : calls.length < 2 ^ 64) (hlen : ∀ call ∈ calls, call.1.length ≤ 65519) :
    ((encryptAll .alice calls).observed (serve env) aesInput m).Nodup ∧
      ∀ role, ∃ results, ((encryptAll role calls).run (serve env) m).result = .ok results ∧
        results.length = calls.length ∧
        tlsOf ((encryptAll role calls).run (serve env) m).state =
          { tlsOf m with
            sequenceNumber := (tlsOf m).sequenceNumber + .ofNat (records results) } := by
  obtain ⟨lens, hlens, hcalls, hblocks⟩ := encryptAll_observed env calls m
  refine ⟨?_, fun role => encryptAll_tlsOf role calls m⟩
  rw [hblocks]
  apply nodup_sessionBlocks _ _ (hlens.trans_lt hcount)
  intro len hmem
  obtain ⟨call, hcall, rfl⟩ := hcalls len hmem
  exact hlen call hcall

end Calls

/-- Two records, of two blocks and of none. -/
theorem encryptAll_blocks_two_records :
    ((encryptAll .alice [(List.replicate 20 0, []), ([], [])]).observed
        (serve (demoEnv .alice [7])) aesInput ⟨Host.start, none⟩).Nodup :=
  (encryptAll_blocks (demoEnv .alice [7]) ⟨Host.start, none⟩ [(List.replicate 20 0, []), ([], [])]
    (by norm_num) (by decide)).1

end Freehold.Server
