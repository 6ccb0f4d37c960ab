import Freehold.Server.Main

/-!
# Membership over many transitions (`llss_mpc.h`)

An `LLSSContext` outlives a gate that throws, so `apply_transition_gate` is here a method that
changes the fields of its object one after the other. Every gate that completes removes a node,
whatever the threshold.

## Main results

* `GateCall.apply_cases` — what one gate does to the object.
* `afterGates_eq` — the object after any sequence of gates.
* `kept_iff` — how many gates may complete.
-/

namespace Freehold.Server

open Interaction Interaction.Program

/-! ## Methods of the object -/

/-- What a method has changed before it throws stays changed. -/
abbrev Method := ExceptT Failure (StateM LLSSContext)

section Method

variable {α β : Type} (llss : LLSSContext)

theorem run_method_bind (x : Method α) (f : α → Method β) :
    (x >>= f).run.run llss =
      match x.run.run llss with
      | (.ok a, llss') => (f a).run.run llss'
      | (.error e, llss') => (.error e, llss') := by
  have hbind : (x >>= f).run.run llss =
      match x.run.run llss with
      | (a, llss') => (ExceptT.bindCont f a).run llss' := rfl
  rw [hbind]
  rcases x.run.run llss with ⟨_ | a, llss'⟩ <;> rfl

theorem run_method_except (x : Except Failure α) :
    (liftM x : Method α).run.run llss = (x, llss) := rfl

theorem run_method_throw (e : Failure) :
    (MonadExcept.throw e : Method α).run.run llss = (.error e, llss) := rfl

theorem run_method_get : (get : Method LLSSContext).run.run llss = (.ok llss, llss) := rfl

theorem run_method_modify (f : LLSSContext → LLSSContext) :
    (modify f : Method Unit).run.run llss = (.ok (), f llss) := rfl

theorem run_method_pure (a : α) : (pure a : Method α).run.run llss = (.ok a, llss) := rfl

end Method

/-- The arguments of a call, and what the LLSS library and `feed` do in it. -/
structure GateCall where
  oldShard : ℕ → UInt64 × UInt64
  len : ℤ
  run : Except Failure Unit
  feed : List Bool → Except Failure (ℕ → Bool)

namespace GateCall

/-- The bits that the call feeds. -/
def oldBits (call : GateCall) : List Bool :=
  (List.range call.len.toNat).map fun i => blockBit call.oldShard i

/-- `apply_transition_gate`, with the wires it stores in `new_shard`. -/
def gate (call : GateCall) : Method (List Block) := do
  if !(← get).llssProtocol then throw (.runtimeError "LLSS Protocol uninitialized")
  call.run
  -- `new bool[len]` refuses a negative length.
  if call.len < 0 then throw .badArrayNewLength
  let newShard ← call.feed call.oldBits
  modify fun llss => { llss with currentEpoch := int32 (llss.currentEpoch + 1) }
  modify fun llss => { llss with activeNodes := llss.activeNodes.dropLast }
  return wires call.len.toNat newShard

/-- How a call ends, and the object afterwards. -/
def apply (call : GateCall) (llss : LLSSContext) : Except Failure (List Block) × LLSSContext :=
  call.gate.run.run llss

/-- Nothing throws in the call. -/
def completes (call : GateCall) : Bool :=
  call.run.isOk && decide (0 ≤ call.len) && (call.feed call.oldBits).isOk

end GateCall

/-- The object after the calls, whether they have thrown or not. -/
def LLSSContext.afterGates (llss : LLSSContext) (calls : List GateCall) : LLSSContext :=
  calls.foldl (fun llss call => (call.apply llss).2) llss

/-! ## One gate -/

/-- What a gate that completes leaves. -/
def LLSSContext.next (llss : LLSSContext) : LLSSContext :=
  { llss with
    currentEpoch := int32 (llss.currentEpoch + 1)
    activeNodes := llss.activeNodes.dropLast }

/-- A gate completes, or it throws and leaves the object as it was. -/
theorem GateCall.apply_cases (call : GateCall) {llss : LLSSContext}
    (hprotocol : llss.llssProtocol = true) :
    (call.completes = true ∧ ∃ newShard, call.apply llss = (.ok newShard, llss.next)) ∨
      (call.completes = false ∧ ∃ e, call.apply llss = (.error e, llss)) := by
  obtain ⟨epoch, threshold, nodes, protocol⟩ := llss
  obtain rfl : protocol = true := hprotocol
  simp only [apply, gate, completes, LLSSContext.next, run_method_bind, run_method_get,
    run_method_except, Bool.not_true, Bool.false_eq_true, if_false]
  cases call.run with
  | error e => exact .inr ⟨rfl, e, rfl⟩
  | ok =>
    by_cases hlen : call.len < 0
    · simp only [hlen, if_true, run_method_bind, run_method_throw]
      exact .inr ⟨by simp [hlen], .badArrayNewLength, rfl⟩
    · simp only [hlen, if_false, run_method_bind, run_method_except, run_method_pure,
        run_method_modify]
      cases call.feed call.oldBits with
      | error e => exact .inr ⟨Bool.and_false _, e, rfl⟩
      | ok newShard => exact .inl ⟨by simpa [Except.isOk, Except.toBool] using hlen, _, rfl⟩

/-- The call in a session of `execute_mpc_logic`. -/
def sessionCall (env : Env) (m : Machine) (role : Party) (oldShard : ℕ → UInt64 × UInt64)
    (len : ℕ) : GateCall where
  oldShard := oldShard
  len := len
  run := if env.llssRun then .ok () else .error .llssNetwork
  feed bits := .ok (fedBits env m.host.feeds role .alice bits)

/-- The gate of a session is the method, run on the session's object. -/
theorem applyTransitionGate_eq_apply (env : Env) (m : Machine) (role : Party)
    (oldShard : ℕ → UInt64 × UInt64) (len : ℕ) {llss : LLSSContext}
    (hprotocol : llss.llssProtocol = true) :
    ((llss.applyTransitionGate role oldShard len).run (serve env) m).result =
      match (sessionCall env m role oldShard len).apply llss with
      | (.ok newShard, llss') => .ok (llss', newShard)
      | (.error e, _) => .error e := by
  obtain ⟨epoch, threshold, nodes, protocol⟩ := llss
  obtain rfl : protocol = true := hprotocol
  have hlen : ¬(len : ℤ) < 0 := by omega
  by_cases hrun : env.llssRun = true
  · simp only [GateCall.apply, GateCall.gate, sessionCall, run_method_bind, run_method_get,
      run_method_except, run_method_pure, run_method_modify, hrun, hlen, Bool.not_true,
      Bool.false_eq_true, if_true, if_false, LLSSContext.applyTransitionGate, perform_bind,
      run_call,
      serve]
    rfl
  · simp only [GateCall.apply, GateCall.gate, sessionCall, run_method_bind, run_method_get,
      run_method_except, hrun, Bool.not_true, Bool.false_eq_true, if_false,
      LLSSContext.applyTransitionGate, perform_bind, run_call, serve]
    rfl

/-! ## Many gates -/

variable {llss : LLSSContext}

/-- How many of the calls complete. -/
def completed (calls : List GateCall) : ℕ := calls.countP GateCall.completes

theorem completed_snoc (calls : List GateCall) (call : GateCall) :
    completed (calls ++ [call]) = completed calls + if call.completes then 1 else 0 := by
  simp [completed, List.countP_append, List.countP_singleton]

theorem afterGates_snoc (calls : List GateCall) (call : GateCall) :
    llss.afterGates (calls ++ [call]) = (call.apply (llss.afterGates calls)).2 := by
  simp [LLSSContext.afterGates]

theorem int32_add_one (n : ℤ) : int32 (int32 n + 1) = int32 (n + 1) := Int.bmod_add_bmod

theorem int32_eq_self {n : ℤ} (hlow : -2 ^ 31 ≤ n) : int32 n = n ↔ n < 2 ^ 31 := by
  rw [int32, Int.bmod_def]
  split <;> omega

/-- The object after any calls: every gate that has completed has counted the epoch up and taken
the last node away, and the others have done nothing. -/
theorem afterGates_eq (hprotocol : llss.llssProtocol = true) (hepoch : int32 llss.currentEpoch =
    llss.currentEpoch) (calls : List GateCall) :
    llss.afterGates calls =
      { llss with
        currentEpoch := int32 (llss.currentEpoch + completed calls)
        activeNodes := llss.activeNodes.take (llss.activeNodes.length - completed calls) } := by
  induction calls using List.reverseRecOn with
  | nil => simp [LLSSContext.afterGates, completed, hepoch]
  | append_singleton calls call ih =>
    have hstill : (llss.afterGates calls).llssProtocol = true := by rw [ih]; exact hprotocol
    rw [afterGates_snoc, completed_snoc]
    rcases call.apply_cases hstill with ⟨hcompletes, newShard, happly⟩ | ⟨hthrows, e, happly⟩
    · rw [happly, ih, if_pos hcompletes]
      have hepoch' : llss.currentEpoch + completed calls + 1 =
          llss.currentEpoch + (completed calls + 1 : ℕ) := by
        push_cast
        ring
      have hnodes :
          min (min (llss.activeNodes.length - completed calls) llss.activeNodes.length - 1)
          (llss.activeNodes.length - completed calls) =
          llss.activeNodes.length - (completed calls + 1) := by omega
      simp only [LLSSContext.next, int32_add_one, List.dropLast_eq_take, List.take_take,
        List.length_take, hepoch', hnodes]
    · rw [happly, ih, hthrows]
      rfl

/-- What is expected of the object in every state. -/
structure Kept (llss : LLSSContext) (calls : List GateCall) : Prop where
  members : llss.threshold ≤ (llss.afterGates calls).activeNodes.length
  epoch : (llss.afterGates calls).currentEpoch = llss.currentEpoch + completed calls
  thrown : ∀ (call : GateCall) e, (call.apply (llss.afterGates calls)).1 = .error e →
    (llss.afterGates (calls ++ [call])).currentEpoch = (llss.afterGates calls).currentEpoch ∧
      (llss.afterGates (calls ++ [call])).activeNodes = (llss.afterGates calls).activeNodes

/-- How many gates may complete: the epoch is an `int`, and each gate removes a node. -/
def MayComplete (llss : LLSSContext) (n : ℕ) : Prop :=
  (llss.threshold ≤ 0 ∨ n + llss.threshold ≤ llss.activeNodes.length) ∧
    llss.currentEpoch + n < 2 ^ 31

instance (llss : LLSSContext) (n : ℕ) : Decidable (MayComplete llss n) :=
  inferInstanceAs (Decidable (_ ∧ _))

theorem kept_calls_iff (hprotocol : llss.llssProtocol = true)
    (hepoch : int32 llss.currentEpoch = llss.currentEpoch) (calls : List GateCall) :
    Kept llss calls ↔ MayComplete llss (completed calls) := by
  have hafter := afterGates_eq hprotocol hepoch calls
  have hlow : -2 ^ 31 ≤ llss.currentEpoch := by
    rw [← hepoch, int32, Int.bmod_def]
    split <;> omega
  have hrange :
      int32 (llss.currentEpoch + completed calls) = llss.currentEpoch + completed calls ↔ _ :=
    int32_eq_self (by omega)
  have hlength : ((llss.activeNodes.take (llss.activeNodes.length - completed calls)).length : ℤ) =
      (llss.activeNodes.length - completed calls : ℕ) := by
    rw [List.length_take]
    omega
  constructor
  · intro h
    have hmem := h.members
    have hep := h.epoch
    rw [hafter] at hmem hep
    refine ⟨?_, hrange.mp hep⟩
    rw [hlength] at hmem
    omega
  · rintro ⟨hnodes, hmax⟩
    refine ⟨?_, ?_, fun call e hthrown => ?_⟩
    · rw [hafter, hlength]
      omega
    · rw [hafter]
      exact hrange.mpr hmax
    · have hstill : (llss.afterGates calls).llssProtocol = true := by rw [hafter]; exact hprotocol
      rcases call.apply_cases hstill with ⟨-, newShard, happly⟩ | ⟨-, e', happly⟩
      · rw [happly] at hthrown
        cases hthrown
      · rw [afterGates_snoc, happly]
        exact ⟨rfl, rfl⟩

/-- All states of a run are as expected exactly if the gates that complete do not outnumber the
nodes beyond the threshold, unless that is not positive, nor count the epoch beyond an `int`. -/
theorem kept_iff {party : Party} {epoch : Int32} {threshold : ℤ} {nodes : List ℤ}
    {circuitFile : String} {t : List (Event Mpc)}
    (hconstructed : (LLSSContext.new party epoch.toInt threshold nodes circuitFile).Reaches t
      (.ret llss)) (calls : List GateCall) :
    (∀ earlier, earlier <+: calls → Kept llss earlier) ↔ MayComplete llss (completed calls) := by
  obtain ⟨rfl, -⟩ := llssNew_reaches hconstructed
  have hepoch : int32 epoch.toInt = epoch.toInt := by
    have := epoch.toInt_lt
    have := epoch.le_toInt
    rw [int32_eq_self (by omega)]
    omega
  have hkept (calls : List GateCall) : Kept ⟨epoch.toInt, threshold, nodes, true⟩ calls ↔
      MayComplete ⟨epoch.toInt, threshold, nodes, true⟩ (completed calls) :=
    @kept_calls_iff ⟨epoch.toInt, threshold, nodes, true⟩ rfl hepoch calls
  constructor
  · intro h
    exact (hkept calls).mp (h calls (List.prefix_refl calls))
  · rintro ⟨hnodes, hmax⟩ earlier ⟨later, rfl⟩
    have hle : completed earlier ≤ completed (earlier ++ later) := by
      simp [completed, List.countP_append]
    refine (hkept earlier).mpr ⟨?_, ?_⟩
    · dsimp only at hnodes ⊢
      omega
    · dsimp only at hmax ⊢
      omega

/-- A gate in which nothing throws. -/
def demoGate : GateCall where
  oldShard := fun _ => (0, 0)
  len := 128
  run := .ok ()
  feed := fun _ => .ok fun _ => false

/-- How `execute_mpc_logic` constructs the context. -/
theorem llssNew_reaches_five (epoch : Int32) : ∃ t,
    (LLSSContext.new .alice epoch.toInt 3 [1, 2, 3, 4, 5] "mpcauth_dynamic.txt").Reaches t
      (.ret ⟨epoch.toInt, 3, [1, 2, 3, 4, 5], true⟩) := by
  refine ⟨[⟨.getenv "LLSS_IP_PREV", none⟩, ⟨.getenv "LLSS_IP_NEXT", none⟩,
    ⟨.llssSetup .alice "mpcauth_dynamic.txt" "127.0.0.1" "127.0.0.1", true⟩], ?_⟩
  exact .call (.call (.call (.refl _)))

theorem kept_iff_two_gates : ∃ t, (LLSSContext.new .alice (1 : Int32).toInt 3 [1, 2, 3, 4, 5]
      "mpcauth_dynamic.txt").Reaches t (.ret ⟨1, 3, [1, 2, 3, 4, 5], true⟩) ∧
    ((∀ earlier, earlier <+: [demoGate, demoGate] → Kept ⟨1, 3, [1, 2, 3, 4, 5], true⟩ earlier) ↔
      MayComplete ⟨1, 3, [1, 2, 3, 4, 5], true⟩ (completed [demoGate, demoGate])) := by
  obtain ⟨t, ht⟩ := llssNew_reaches_five 1
  exact ⟨t, ht, kept_iff ht [demoGate, demoGate]⟩

/-- After three gates two nodes are left. -/
theorem not_kept_three_gates : ∃ t, (LLSSContext.new .alice (1 : Int32).toInt 3 [1, 2, 3, 4, 5]
      "mpcauth_dynamic.txt").Reaches t (.ret ⟨1, 3, [1, 2, 3, 4, 5], true⟩) ∧
    (LLSSContext.afterGates ⟨1, 3, [1, 2, 3, 4, 5], true⟩
      [demoGate, demoGate, demoGate]).activeNodes = [1, 2] ∧
    ¬Kept ⟨1, 3, [1, 2, 3, 4, 5], true⟩ [demoGate, demoGate, demoGate] := by
  obtain ⟨t, ht⟩ := llssNew_reaches_five 1
  have hafter : (LLSSContext.afterGates ⟨1, 3, [1, 2, 3, 4, 5], true⟩
      [demoGate, demoGate, demoGate]).activeNodes = [1, 2] := by
    rw [afterGates_eq rfl (by decide)]
    rfl
  refine ⟨t, ht, hafter, fun h => ?_⟩
  have hmembers := h.members
  rw [hafter] at hmembers
  exact absurd hmembers (by decide)

end Freehold.Server
