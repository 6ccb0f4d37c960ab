import Freehold.Server.Nullifier

/-!
# Keys and nonces of the records

A record is recognised by its evaluation of AES on `J0`, the counter block with counter 1.
Key and IV are recomputed from the identity shard in every session, and the sequence number
lives in the memory of the process, so two records of one shard have the same key, and the
same nonce exactly when their processes had produced equally many records before.
-/

namespace Freehold.Server

open Interaction Interaction.Program

/-! ## Nonces -/

theorem xorBytes_left_cancel {iv xs ys : List UInt8} (hx : xs.length ≤ iv.length)
    (hlen : xs.length = ys.length) (h : xorBytes iv xs = xorBytes iv ys) : xs = ys := by
  induction iv generalizing xs ys with
  | nil =>
    rw [List.eq_nil_of_length_eq_zero (Nat.le_zero.mp hx)] at hlen ⊢
    exact (List.eq_nil_of_length_eq_zero hlen.symm).symm
  | cons b iv ih =>
    cases xs with
    | nil => exact (List.eq_nil_of_length_eq_zero hlen.symm).symm
    | cons x xs =>
      cases ys with
      | nil => cases hlen
      | cons y ys =>
        simp only [xorBytes, List.zipWith_cons_cons, List.cons.injEq] at h
        have htail := ih (Nat.le_of_succ_le_succ hx) (Nat.succ.inj hlen) h.2
        have hhead : x.toBitVec = y.toBitVec := by
          have := congrArg UInt8.toBitVec h.1
          rwa [UInt8.toBitVec_xor, UInt8.toBitVec_xor, BitVec.xor_right_inj] at this
        rw [htail, UInt8.toBitVec_inj.mp hhead]

theorem sequenceBytes_injective {seq seq' : UInt64}
    (h : sequenceBytes seq = sequenceBytes seq') : seq = seq' := by
  have hseq := seq.toNat_lt
  have hseq' := seq'.toNat_lt
  simp only [sequenceBytes, List.map_cons, List.map_nil, List.cons.injEq, and_true,
    ← UInt8.toNat_inj, UInt8.toNat_ofNat', Nat.shiftRight_eq_div_pow] at h
  refine UInt64.toNat_inj.mp ?_
  norm_num at h hseq hseq'
  omega

theorem recordNonce_injective {iv : Bytes 12} {seq seq' : UInt64}
    (h : recordNonce iv seq = recordNonce iv seq') : seq = seq' := by
  have hxor := congrArg Subtype.val h
  refine sequenceBytes_injective (List.append_cancel_left (xorBytes_left_cancel ?_ ?_ hxor))
  · simp [sequenceBytes]
  · simp [sequenceBytes]

theorem counterBytes_inj {a b : ℕ} :
    counterBytes a = counterBytes b ↔ a % 2 ^ 32 = b % 2 ^ 32 := by
  constructor
  · intro h
    simp only [counterBytes, List.map_cons, List.map_nil, List.cons.injEq, and_true,
      ← UInt8.toNat_inj, UInt8.toNat_ofNat', Nat.shiftRight_eq_div_pow] at h
    norm_num at h
    omega
  · intro h
    rw [counterBytes, counterBytes, h]

/-! ## Records -/

/-- Key and nonce of an AES evaluation on `J0`, as the values of the wires. -/
def recordOf : Event Mpc → Option (List Bool × List Bool)
  | ⟨.computeAes key plaintext, _⟩ =>
    if (values plaintext).drop 96 = bytesToBools (counterBytes 1) then
      some (values key, (values plaintext).take 96)
    else none
  | _ => none

/-- Key and nonce that the TLS session prescribes for its next record. -/
def nextRecord (tls : MpcTlsSession) : List Bool × List Bool :=
  (bytesToBools tls.clientWriteKeyShare,
    bytesToBools (recordNonce tls.clientWriteIv tls.sequenceNumber))

theorem bytesToBools_append (xs ys : List UInt8) :
    bytesToBools (xs ++ ys) = bytesToBools xs ++ bytesToBools ys := List.flatMap_append

theorem recordOf_computeAes (key : Bytes 16) (nonce : Bytes 12) (ctr : ℕ) (answer : ℕ → Bool) :
    recordOf ⟨.computeAes (wires 128 fun i => (bytesToBools key).getD i false)
        (wires 128 fun i => (bytesToBools (counterBlock nonce ctr)).getD i false), answer⟩ =
      if ctr % 2 ^ 32 = 1 then some (bytesToBools key, bytesToBools nonce) else none := by
  have hkey : values (wires 128 fun i => (bytesToBools key).getD i false) = bytesToBools key := by
    have := values_wires_getD (bytesToBools key)
    rwa [length_bytesToBools, Bytes.length_val] at this
  have hblock : values (wires 128 fun i => (bytesToBools (counterBlock nonce ctr)).getD i false) =
      bytesToBools nonce ++ bytesToBools (counterBytes ctr) := by
    have := values_wires_getD (bytesToBools (counterBlock nonce ctr))
    rw [length_bytesToBools, Bytes.length_val] at this
    rw [this, ← bytesToBools_append]
    rfl
  have hnonce : (bytesToBools nonce).length = 96 := by simp
  have hJ0 : bytesToBools (counterBytes ctr) = bytesToBools (counterBytes 1) ↔
      ctr % 2 ^ 32 = 1 :=
    ⟨fun h => counterBytes_inj.mp (bytesToBools_injective h),
      fun h => congrArg bytesToBools (counterBytes_inj.mpr h)⟩
  simp only [recordOf, hkey, hblock, ← hnonce, List.drop_left, List.take_left, hJ0]

/-- Globals, seen through the TLS session. -/
def tlsOf (m : Machine) : MpcTlsSession := m.host.globals.tls

/-- The wires of ALICE's key. -/
def keyWires (key : Bytes 16) : List Block := wires 128 fun i => (bytesToBools key).getD i false

variable {env : Env} {tls used : MpcTlsSession} {α β : Type}

theorem aesReveal_record (key : Bytes 16) (nonce : Bytes 12) (ctr : ℕ) :
    Returns (serve env) recordOf (fun m => tlsOf m = tls)
      (aesReveal .alice (keyWires key) (counterBlock nonce ctr)) (fun _ m => tlsOf m = tls)
      (if ctr % 2 ^ 32 = 1 then [(bytesToBools key, bytesToBools nonce)] else []) := by
  intro m hm
  refine ⟨⟨_, rfl, hm⟩, ?_⟩
  simp only [aesReveal, perform_bind, feed_bind, pure_eq]
  rw [observed_call_of_hidden rfl, observed_call, observed_call_of_hidden rfl, observed_ret,
    serve, fedBits_self, length_bytesToBools, Bytes.length_val, keyWires, recordOf_computeAes]
  split <;> rfl

theorem encryptBlock_record (key : Bytes 16) (nonce : Bytes 12) (plaintext : List UInt8)
    (state : List UInt8 × List UInt8) {blk : ℕ} (hblk : blk < 2 ^ 31) :
    Returns (serve env) recordOf (fun m => tlsOf m = tls)
      (encryptBlock .alice (keyWires key) nonce plaintext state blk) (fun _ m => tlsOf m = tls)
      [] := by
  have hreveal : Returns (serve env) recordOf (fun m => tlsOf m = tls) _ _ _ :=
    aesReveal_record key nonce (blk + 2)
  rw [if_neg (by omega)] at hreveal
  exact hreveal.bind fun keystream => .ret fun _ hm => hm

/-- The block loop and the tag, with the key wires fed. -/
theorem seal_record (key : Bytes 16) (nonce : Bytes 12) {plaintext : List UInt8}
    (hlen : plaintext.length < 2 ^ 31) (state : List UInt8 × List UInt8)
    {f : List UInt8 × List UInt8 → Bytes 16 → Session β} {Q : β → Machine → Prop}
    (hf : ∀ state tag, Returns (serve env) recordOf (fun m => tlsOf m = tls) (f state tag) Q []) :
    Returns (serve env) recordOf (fun m => tlsOf m = tls)
      ((List.range ((plaintext.length + 15) / 16)).foldlM
          (encryptBlock .alice (keyWires key) nonce plaintext) state >>= fun state =>
        aesReveal .alice (keyWires key) (counterBlock nonce 1) >>= f state)
      Q [(bytesToBools key, bytesToBools nonce)] := by
  have hblock : ∀ state, ∀ blk ∈ List.range ((plaintext.length + 15) / 16),
      Returns (serve env) recordOf (fun m => tlsOf m = tls)
        (encryptBlock .alice (keyWires key) nonce plaintext state blk)
        (fun _ m => tlsOf m = tls) [] := by
    intro state blk hblk
    have hlt := List.mem_range.mp hblk
    exact encryptBlock_record key nonce plaintext state (by omega)
  have hloop := Returns.foldlM hblock state
  rw [List.flatMap_eq_nil_iff.mpr fun _ _ => rfl] at hloop
  rw [← List.nil_append [_]]
  refine hloop.bind fun state => ?_
  have htag : Returns (serve env) recordOf (fun m => tlsOf m = tls) _ _ _ :=
    aesReveal_record key nonce 1
  rw [if_pos (by norm_num : 1 % 2 ^ 32 = 1)] at htag
  rw [← List.append_nil [_]]
  exact htag.bind (hf state)

/-! ## One record in a session -/

/-- Operations that neither evaluate AES nor change the globals. -/
def KeepsTls : Op → Prop
  | .computeAes _ _ | .setGlobals _ => False
  | _ => True

theorem KeepsTls.tlsOf_serve (o : Op) (m : Machine) (h : KeepsTls o) :
    tlsOf (serve env o m).2 = tlsOf m := by
  cases o with
  | appendNullifierDatabase line =>
    cases happends : env.appends <;> simp [serve, happends, tlsOf]
  | computeAes key plaintext => exact h.elim
  | setGlobals globals => exact h.elim
  | _ => rfl

theorem KeepsTls.recordOf_eq_none (e : Event Mpc) (h : KeepsTls e.op) : recordOf e = none := by
  obtain ⟨op, answer⟩ := e
  cases op <;> first | rfl | exact h.elim

theorem Quiet.keepsTls {o : Op} (h : Quiet o) : KeepsTls o := by
  cases o <;> trivial

/-- No record, and the TLS session as before. -/
def Silent (env : Env) (tls : MpcTlsSession) (p : Session α) : Prop :=
  ∀ m, tlsOf m = tls →
    p.observed (serve env) recordOf m = [] ∧ tlsOf (p.run (serve env) m).state = tls

/-- The run produces the next record under `used` and advances the sequence number, unless
it throws before and leaves the number as it was. -/
def RecordsOnce (env : Env) (tls used : MpcTlsSession) (p : Session α) : Prop :=
  ∀ m, tlsOf m = tls →
    (p.observed (serve env) recordOf m = [nextRecord used] ∧
      (tlsOf (p.run (serve env) m).state).sequenceNumber = used.sequenceNumber + 1) ∨
    (p.observed (serve env) recordOf m = [] ∧
      (tlsOf (p.run (serve env) m).state).sequenceNumber = used.sequenceNumber ∧
      ∃ e, (p.run (serve env) m).result = .error e)

theorem Silent.of_uses {p : Session α} (hp : p.Uses KeepsTls) : Silent env tls p :=
  fun m hm => ⟨hp.observed_eq_nil KeepsTls.recordOf_eq_none m,
    (hp.frame KeepsTls.tlsOf_serve m).trans hm⟩

theorem RecordsOnce.throw (hseq : tls.sequenceNumber = used.sequenceNumber) (e : Failure) :
    RecordsOnce env tls used (.throw e : Session α) :=
  fun _ hm => .inr ⟨rfl, (congrArg MpcTlsSession.sequenceNumber hm).trans hseq, e, rfl⟩

theorem RecordsOnce.of_returns {p : Session α}
    (hp : Returns (serve env) recordOf (fun m => tlsOf m = tls) p
      (fun _ m => (tlsOf m).sequenceNumber = tls.sequenceNumber + 1) [nextRecord tls]) :
    RecordsOnce env tls tls p := by
  intro m hm
  obtain ⟨⟨a, -, hseq⟩, hrecord⟩ := hp m hm
  exact .inl ⟨hrecord, hseq⟩

theorem Silent.bind_record {p : Session α} {f : α → Session β} (hp : Silent env tls p)
    (hseq : tls.sequenceNumber = used.sequenceNumber)
    (hf : ∀ a, RecordsOnce env tls used (f a)) : RecordsOnce env tls used (p >>= f) := by
  intro m hm
  obtain ⟨hnil, hkept⟩ := hp m hm
  rcases hresult : (p.run (serve env) m).result with e | a
  · rw [observed_bind_of_error f hresult, run_bind_of_error f hresult]
    exact .inr ⟨hnil, by rw [hkept, hseq], e, rfl⟩
  · rw [observed_bind_of_ok f hresult, run_bind_of_ok f hresult, hnil, List.nil_append]
    exact hf a _ hkept

theorem RecordsOnce.bind {p : Session α} {f : α → Session β}
    (hp : RecordsOnce env tls used p) (hf : ∀ a, (f a).Uses KeepsTls) :
    RecordsOnce env tls used (p >>= f) := by
  intro m hm
  rcases hresult : (p.run (serve env) m).result with e | a
  · rw [observed_bind_of_error f hresult, run_bind_of_error f hresult]
    exact (hp m hm).imp_right fun ⟨hnil, hseq, _⟩ => ⟨hnil, hseq, e, rfl⟩
  · obtain ⟨hnil, hkept⟩ := Silent.of_uses (hf a) _ rfl
    rw [observed_bind_of_ok f hresult, run_bind_of_ok f hresult, hnil, List.append_nil, hkept]
    rcases hp m hm with hrecord | ⟨-, -, e, herror⟩
    · exact .inl hrecord
    · cases hresult.symm.trans herror

theorem RecordsOnce.call {o : Op} {next : Mpc.Answer o → Session α} (ho : KeepsTls o)
    (hseq : tls.sequenceNumber = used.sequenceNumber)
    (hnext : ∀ x, RecordsOnce env tls used (next x)) :
    RecordsOnce env tls used (.call o next) :=
  (Silent.of_uses (uses_perform.mpr ho)).bind_record hseq hnext

theorem RecordsOnce.ite {c : Prop} [Decidable c] {p q : Session α}
    (hp : RecordsOnce env tls used p) (hq : RecordsOnce env tls used q) :
    RecordsOnce env tls used (if c then p else q) := by
  split
  · exact hp
  · exact hq

theorem Silent.ite {c : Prop} [Decidable c] {p q : Session α} (hp : Silent env tls p)
    (hq : Silent env tls q) : Silent env tls (if c then p else q) := by
  split
  · exact hp
  · exact hq

/-- The globals may be replaced by others with the same TLS session. -/
theorem Silent.setGlobals {g : Globals} (hg : g.tls = tls) :
    Silent env tls (perform (E := Mpc) (.setGlobals g)) := fun _ _ => ⟨rfl, hg⟩

theorem Silent.bind {p : Session α} {f : α → Session β} (hp : Silent env tls p)
    (hf : ∀ a, Silent env tls (f a)) : Silent env tls (p >>= f) := by
  intro m hm
  obtain ⟨hnil, hkept⟩ := hp m hm
  rcases hresult : (p.run (serve env) m).result with e | a
  · rw [observed_bind_of_error f hresult, run_bind_of_error f hresult]
    exact ⟨hnil, hkept⟩
  · rw [observed_bind_of_ok f hresult, run_bind_of_ok f hresult, hnil, List.nil_append]
    exact hf a _ hkept

theorem getAesCircuit_silent : Silent env tls getAesCircuit := by
  intro m hm
  have hprobe : Silent env tls (probeAesPaths aesPaths) :=
    .of_uses (probeAesPaths_uses (fun _ => trivial) aesPaths)
  have hrest : Silent env tls (if m.host.globals.aesCircuit then pure () else
      probeAesPaths aesPaths >>= fun found => if found then
        perform (E := Mpc) (.setGlobals { m.host.globals with aesCircuit := true })
      else .throw (.runtimeError "AES-non-expanded.txt circuit not found")) :=
    .ite (.of_uses (uses_ret _)) (hprobe.bind fun found =>
      .ite (.setGlobals hm) (.of_uses (uses_throw _)))
  exact hrest m hm

/-- ALICE takes the state of the TLS session and feeds its key. -/
theorem returns_keyed {α ω : Type} {v : Event Mpc → Option ω} {w : List ω}
    {next : Globals → (ℕ → Bool) → Session α} {Q : α → Machine → Prop}
    (hglobals : ∀ g, v ⟨.globals, g⟩ = none)
    (hfeed : ∀ bits x, v ⟨.feed .alice .alice bits, x⟩ = none)
    (hnext : ∀ g, g.tls = tls → Returns (serve env) v (fun m => tlsOf m = g.tls)
      (next g fun i => (bytesToBools g.tls.clientWriteKeyShare).getD i false) Q w) :
    Returns (serve env) v (fun m => tlsOf m = tls)
      (.call .globals fun g => .call (.feed .alice .alice (rawKey .alice g.tls.clientWriteKeyShare))
        (next g)) Q w := by
  refine Returns.hidden hglobals (fun g m => g.tls = tls ∧ tlsOf m = tls)
    (fun m hm => ⟨hm, hm⟩) fun g => .pure_pre fun hg => ?_
  subst hg
  refine Returns.hidden (hfeed _)
    (fun x m => x = (fun i => (bytesToBools g.tls.clientWriteKeyShare).getD i false) ∧
      tlsOf m = g.tls)
    (fun m hm => ⟨by rw [serve, fedBits_self]; rfl, hm⟩) fun x => .pure_pre fun hx => ?_
  subst hx
  exact hnext g rfl

theorem jesseQTlsEncrypt_record {plaintext : List UInt8} (hlen : plaintext.length < 2 ^ 31)
    (ciphertext : List UInt8) :
    RecordsOnce env tls tls (jesseQTlsEncrypt .alice plaintext ciphertext) := by
  simp only [jesseQTlsEncrypt, perform_bind, feed_bind]
  refine getAesCircuit_silent.bind_record rfl fun _ => .of_returns ?_
  refine returns_keyed (fun _ => rfl) (fun _ _ => rfl) fun g hg => ?_
  subst hg
  rw [length_rawKey]
  refine seal_record _ _ hlen _ fun state tag => ?_
  refine Returns.hidden (fun _ => rfl) (fun g' _ => g'.tls = g.tls) (fun m hm => hm) fun g' => ?_
  refine Returns.hidden (fun _ => rfl)
    (fun _ m => (tlsOf m).sequenceNumber = g.tls.sequenceNumber + 1) ?_ fun _ => .ret fun _ h => h
  intro m hg'
  simp only [serve, tlsOf, hg']

theorem encryptAuth_record {ciphertextOut : List UInt8} (hmax : ciphertextOut.length < 2 ^ 31)
    (passLen : ℕ) (b64Result : ℕ → Bool) :
    RecordsOnce env tls tls (encryptAuth .alice ciphertextOut passLen b64Result) := by
  rw [encryptAuth]
  split
  · exact .throw rfl _
  · next hfits =>
    refine (jesseQTlsEncrypt_record ?_ _).bind fun _ => uses_ret _
    rw [length_authPlaintext]
    unfold authCiphertextLen at hfits
    omega

theorem authRecord_record {ciphertextOut : List UInt8} (hmax : ciphertextOut.length < 2 ^ 31)
    (passLen : ℕ) (passBits : List Block) :
    RecordsOnce env tls tls (authRecord .alice ciphertextOut passLen passBits) := by
  rw [authRecord]
  generalize int32 (b64OutBytes passLen * 8) = b64OutLen
  simp only [perform_bind]
  refine .ite (.throw rfl _) ?_
  exact .call trivial rfl fun heap => .call trivial rfl fun b64Result =>
    encryptAuth_record hmax passLen b64Result

theorem jointSmtpAuthenticate_record {ciphertextOut : List UInt8}
    (hmax : ciphertextOut.length < 2 ^ 31) (passwordShard : List Bool) :
    RecordsOnce env tls tls (jointSmtpAuthenticate .alice ciphertextOut passwordShard) := by
  simp only [jointSmtpAuthenticate]
  generalize int32 passwordShard.length = passLen
  refine .ite (.throw rfl _) (.ite (.throw rfl _) ?_)
  refine (Silent.of_uses (feed_uses trivial)).bind_record rfl fun passBits => ?_
  exact authRecord_record hmax _ passBits

/-- Key derivation replaces keys and IV, and keeps the sequence number. -/
theorem initTlsSessionFromShard_record {hmac : HmacSha256} {shardBytes : List UInt8}
    {f : Unit → Session β}
    (hf : RecordsOnce env (shardKeys hmac shardBytes tls) (shardKeys hmac shardBytes tls)
      (f ())) :
    RecordsOnce env tls (shardKeys hmac shardBytes tls)
      (initTlsSessionFromShard hmac shardBytes >>= f) := by
  intro m hm
  rw [initTlsSessionFromShard_eq]
  exact hf { m with host.globals := _ } (congrArg (shardKeys hmac shardBytes) hm)

theorem smtpPhase_record {args : SessionArgs} (hparty : args.party = .alice) :
    RecordsOnce env tls (shardKeys args.hmac (packShard args.myShard) tls)
      (smtpPhase args) := by
  simp only [smtpPhase, hparty, perform_bind]
  refine .call trivial rfl fun _ => ?_
  refine (Silent.of_uses ((epochTransition_uses _ _ _ _).mono fun _ => Quiet.keepsTls)).bind_record
    rfl fun _ => ?_
  refine (Silent.of_uses (loadPassShard_uses (fun _ => trivial) _)).bind_record
    rfl fun passShard => ?_
  refine initTlsSessionFromShard_record ?_
  refine .call trivial rfl fun stack => ?_
  refine (jointSmtpAuthenticate_record ?_ passShard).bind fun _ => uses_ret _
  norm_num [authBuffer, authCiphertextMax]

theorem computeNullifier_keepsTls (party : Party) (myShard : List Bool)
    (circuit : BristolFashion) : (computeNullifier party myShard circuit).Uses KeepsTls := by
  simp only [computeNullifier, perform_bind, feed_bind, pure_eq]
  exact .call trivial fun _ => .call trivial fun _ => .call trivial fun _ =>
    .call trivial fun _ => .call trivial fun _ => uses_ret _

theorem commitNullifier_keepsTls (nullifier : List Char) :
    (commitNullifier nullifier).Uses KeepsTls := by
  simp only [commitNullifier, saveNullifier, perform_bind]
  refine .call trivial fun known => .ite (.call trivial fun _ => uses_ret _) ?_
  exact .call trivial fun _ => .call trivial fun _ => .call trivial fun _ =>
    .ite (uses_throw _) (uses_ret _)

/-- A session at ALICE produces one record, under the keys of her shard. -/
theorem executeMpcLogic_record {args : SessionArgs} (hparty : args.party = .alice) :
    RecordsOnce env tls (shardKeys args.hmac (packShard args.myShard) tls)
      (executeMpcLogic args) := by
  rw [executeMpcLogic, identify]
  exact ((smtpPhase_record hparty).bind fun _ => computeNullifier_keepsTls _ _ _).bind fun _ =>
    commitNullifier_keepsTls _

end Freehold.Server
