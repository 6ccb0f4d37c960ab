import Freehold.Server.Main

/-!
# Epochs and the transition gate

Each party decides on its own, from the epoch it holds and the one that ALICE has sent,
whether it executes the transition gate before its session. The default build has no gate.
-/

namespace Freehold.Server

open Interaction Interaction.Program

/-- `llss_protocol->run()` has returned: the gate is executed. -/
abbrev gate : Event Mpc := ⟨.llssRun, true⟩

/-- The run gets to the nullifier check after the events `before`. -/
def ReachesCommit (t before : List (Event Mpc)) : Prop :=
  ∃ ν known after, t = before ++ lookup ν known :: after

/-! ## The session up to its check -/

theorem applyTransitionGate_reaches {llss : LLSSContext} (hprotocol : llss.llssProtocol = true)
    {role : Party} {oldShard : ℕ → UInt64 × UInt64} {len : ℕ} {t : List (Event Mpc)}
    {result : LLSSContext × List Block}
    (h : (llss.applyTransitionGate role oldShard len).Reaches t (.ret result)) : gate ∈ t := by
  simp only [LLSSContext.applyTransitionGate, hprotocol, Bool.not_true, Bool.false_eq_true,
    if_false, perform_bind] at h
  cases h with
  | @call _ _ returned _ _ hrest =>
    cases returned with
    | false => cases hrest
    | true => exact List.mem_cons_self

/-- A transition that returns has gone through the gate exactly if the build has one and the
epochs differ. -/
theorem epochTransition_reaches {enableLlss : Bool} {party : Party} {requestEpoch clusterEpoch : ℤ}
    {t : List (Event Mpc)}
    (h : (epochTransition enableLlss party requestEpoch clusterEpoch).Reaches t (.ret ())) :
    gate ∈ t ↔ enableLlss = true ∧ requestEpoch ≠ clusterEpoch := by
  unfold epochTransition at h
  cases enableLlss with
  | false =>
    obtain ⟨rfl, -⟩ := h.ret_inv
    simp
  | true =>
    rw [if_pos rfl] at h
    obtain ⟨t₁, t₂, llss, rfl, hnew, hrest⟩ := h.of_bind_ret
    obtain ⟨rfl, hgate⟩ := llssNew_reaches hnew
    by_cases hepochs : requestEpoch ≠ clusterEpoch
    · rw [if_pos hepochs, perform_bind] at hrest
      cases hrest with
      | call hrest =>
        obtain ⟨t₃, t₄, result, rfl, happly, -⟩ := hrest.of_bind_ret
        have hmem := applyTransitionGate_reaches rfl happly
        simp [hepochs, hmem]
    · rw [if_neg hepochs] at hrest
      obtain ⟨rfl, -⟩ := hrest.ret_inv
      simp [hepochs, hgate]

theorem identify_gate_iff {args : SessionArgs} {t : List (Event Mpc)} {ν : List Char}
    (h : (identify args).Reaches t (.ret ν)) :
    gate ∈ t ↔ args.enableLlss = true ∧ args.requestEpoch ≠ args.clusterEpoch := by
  obtain ⟨t₁, t₂, ⟨⟩, rfl, hphase, hcompute⟩ := h.of_bind_ret
  rw [smtpPhase_eq] at hphase
  cases hphase with
  | @call _ _ _ t₁ _ hrest =>
    obtain ⟨t₃, t₄, ⟨⟩, rfl, htransition, hrecord⟩ := hrest.of_bind_ret
    have hno {t : List (Event Mpc)} (ht : ∀ e ∈ t, WithoutLlss e.op) : gate ∉ t :=
      fun hmem => ht gate hmem
    have h₄ : gate ∉ t₄ := hno (((recordPhase_uses args).mono
      fun _ => BuildsRecord.withoutLlss).of_reaches hrecord).2
    have h₂ : gate ∉ t₂ := hno ((computeNullifier_uses _ _ _).of_reaches hcompute).2
    rw [← epochTransition_reaches htransition]
    simp [h₂, h₄]

/-- The check comes after the identification, and there is only one. -/
theorem executeMpcLogic_gate_iff {args : SessionArgs} {t : List (Event Mpc)}
    {q : Session (List Char)} (h : (executeMpcLogic args).Reaches t q) {before : List (Event Mpc)}
    (hcommit : ReachesCommit t before) :
    gate ∈ before ↔ args.enableLlss = true ∧ args.requestEpoch ≠ args.clusterEpoch := by
  obtain ⟨ν, known, after, ht⟩ := hcommit
  have hmem : lookup ν known ∈ t := by simp [ht]
  obtain ⟨t₁, t₂, nullifier, rfl, hbefore, hidentify, hcheck, hmem₂⟩ :=
    h.of_bind_of_mem (identify_uses args) hmem id
  obtain ⟨known', rest, rfl, hrest⟩ := commitNullifier_reaches hcheck hmem₂
  have hnotMem : lookup ν known ∉ t₁ := fun hmem₁ => hbefore _ hmem₁
  have hunique : lookup ν known ∉ rest := fun hlater =>
    ((afterLookup_uses _ _).of_reaches hrest).2 _ hlater ν rfl
  obtain ⟨rfl, -, -⟩ := (List.append_cons_inj_of_notMem hnotMem hunique).mp ht
  exact identify_gate_iff hidentify

/-- An element that is not in the front lies behind it. -/
theorem eq_append_of_notMem {α : Type} {front back before after : List α} {a : α}
    (h : front ++ back = before ++ a :: after) (ha : a ∉ front) :
    ∃ before', before = front ++ before' ∧ back = before' ++ a :: after := by
  rcases List.append_eq_append_iff.mp h with ⟨before', hbefore, hback⟩ | ⟨c, hfront, hback⟩
  · exact ⟨before', hbefore, hback⟩
  · cases c with
    | nil => exact ⟨[], by simpa using hfront.symm, by simpa using hback.symm⟩
    | cons b c =>
      obtain ⟨rfl, -⟩ := List.cons.inj hback
      exact absurd (by simp [hfront]) ha

/-! ## Both parties -/

theorem main_gate_iff {args : Args} {received : ℤ} {env : Env} {disk : Disk}
    {before : List (Event Mpc)}
    (hcommit : ReachesCommit ((main args received).run (serve env) ⟨Host.start, disk⟩).trace
      before) :
    gate ∈ before ↔
      args.enableLlss = true ∧ requestEpoch args.party env.epoch received ≠ env.epoch := by
  obtain ⟨ν, known, after, ht⟩ := hcommit
  rw [main_run] at ht
  have hloading : lookup ν known ∉ loading disk := by simp [loading]
  obtain ⟨before, rfl, hrest⟩ := eq_append_of_notMem ht hloading
  rcases List.cons_eq_append_iff.mp hrest with ⟨-, hhead⟩ | ⟨before, rfl, hsession⟩
  · cases hhead
  · obtain ⟨q, hreach⟩ := reaches_run (serve env)
      (executeMpcLogic (args.session env.epoch received)) (loaded disk)
    have hgate := executeMpcLogic_gate_iff hreach ⟨ν, known, after, hsession⟩
    rw [show args.enableLlss = (args.session env.epoch received).enableLlss from rfl]
    refine Iff.trans ?_ hgate
    simp [loading]

/-- The epochs decide which party has gone through the gate when both commit: in the default
build neither has, in the other build BOB has exactly if the epochs differ, and with equal
epochs neither has. -/
theorem gate_of_commit {alice bob : Args} (halice : alice.party = .alice) (hbob : bob.party = .bob)
    (hbuild : alice.enableLlss = bob.enableLlss) {envA envB : Env} {diskA diskB : Disk}
    {received : ℤ} {beforeA beforeB : List (Event Mpc)}
    (hcommitA : ReachesCommit
      ((main alice received).run (serve envA) ⟨Host.start, diskA⟩).trace beforeA)
    (hcommitB : ReachesCommit
      ((main bob envA.epoch).run (serve envB) ⟨Host.start, diskB⟩).trace beforeB) :
    (bob.enableLlss = false → gate ∉ beforeA ∧ gate ∉ beforeB) ∧
      (bob.enableLlss = true → (gate ∈ beforeB ↔ envA.epoch ≠ envB.epoch)) ∧
      (envA.epoch = envB.epoch → gate ∉ beforeA ∧ gate ∉ beforeB) := by
  have hgateA := main_gate_iff hcommitA
  have hgateB := main_gate_iff hcommitB
  rw [halice, requestEpoch, if_pos rfl] at hgateA
  rw [hbob, requestEpoch, if_neg Party.noConfusion] at hgateB
  rw [hgateA, hgateB, hbuild]
  refine ⟨fun hdefault => ?_, fun hllss => ?_, fun hepochs => ?_⟩
  · simp [hdefault]
  · simp [hllss]
  · simp [hepochs]

/-! ## A mismatch in the default build -/

theorem main_reachesCommit {args : Args} {received : ℤ} {env : Env} {disk : Disk} {ν : List Char}
    (h : ((identify (args.session env.epoch received)).run (serve env) (loaded disk)).result =
      .ok ν) :
    ∃ before, ReachesCommit
      ((main args received).run (serve env) ⟨Host.start, disk⟩).trace before := by
  obtain ⟨m, t, -, hrun⟩ := executeMpcLogic_run_of_ok h
  have hcommit : ∃ known rest,
      ((commitNullifier ν).run (serve env) m).trace = lookup ν known :: rest := by
    rw [commitNullifier_eq, run_call]
    exact ⟨_, _, rfl⟩
  obtain ⟨known, rest, hcommit⟩ := hcommit
  refine ⟨loading disk ++ ⟨.getenv "CLUSTER_BFT_EPOCH", env.getenv "CLUSTER_BFT_EPOCH"⟩ :: t,
    ν, known, rest, ?_⟩
  rw [main_run]
  simp only [hrun, hcommit, List.append_assoc, List.cons_append]

/-- A process of either party at a given epoch. -/
def epochArgs (party : Party) : Args := { demoMain with party := party }

def epochEnv (party : Party) (clusterEpoch : String) : Env :=
  { demoEnv party [7] with getenv := fun _ => some clusterEpoch }

theorem exists_reachesCommit (args : Args) (clusterEpoch : String) (received : ℤ) :
    ∃ before, ReachesCommit ((main args received).run
      (serve (epochEnv args.party clusterEpoch)) ⟨Host.start, none⟩).trace before := by
  have hready : Ready args.enableLlss (epochEnv args.party clusterEpoch) :=
    ⟨demoEnv_aesInstalled args.party [7], fun _ => rfl, fun _ => rfl⟩
  have hissues : Issues (epochEnv args.party clusterEpoch)
      (identify (args.session (epochEnv args.party clusterEpoch).epoch received)) _ :=
    identify_issues hready (demoEnv_passShard args.party [7]) (by decide) (by decide)
  obtain ⟨⟨ν, hok, -⟩, -⟩ := hissues (loaded none) trivial
  exact main_reachesCommit hok

/-- ALICE at epoch 1 and BOB at epoch 2 both commit, without the gate. -/
theorem commit_without_gate : ∃ beforeA beforeB,
    ReachesCommit ((main (epochArgs .alice) 1).run (serve (epochEnv .alice "1"))
      ⟨Host.start, none⟩).trace beforeA ∧
    ReachesCommit ((main (epochArgs .bob) (epochEnv .alice "1").epoch).run
      (serve (epochEnv .bob "2")) ⟨Host.start, none⟩).trace beforeB ∧
    (epochEnv .alice "1").epoch ≠ (epochEnv .bob "2").epoch ∧ gate ∉ beforeA ∧
    gate ∉ beforeB := by
  obtain ⟨beforeA, hA⟩ := exists_reachesCommit (epochArgs .alice) "1" 1
  obtain ⟨beforeB, hB⟩ := exists_reachesCommit (epochArgs .bob) "2" (epochEnv .alice "1").epoch
  refine ⟨beforeA, beforeB, hA, hB, by decide, ?_, ?_⟩
  · rw [main_gate_iff hA]
    exact fun h => Bool.false_ne_true h.1
  · rw [main_gate_iff hB]
    exact fun h => Bool.false_ne_true h.1

/-- The same with the gate in the build. -/
def llssArgs (party : Party) : Args := { epochArgs party with enableLlss := true }

/-- There BOB has gone through the gate. -/
theorem gate_of_commit_demo : ∃ beforeA beforeB,
    ReachesCommit ((main (llssArgs .alice) 1).run (serve (epochEnv .alice "1"))
      ⟨Host.start, none⟩).trace beforeA ∧
    ReachesCommit ((main (llssArgs .bob) (epochEnv .alice "1").epoch).run
      (serve (epochEnv .bob "2")) ⟨Host.start, none⟩).trace beforeB ∧ gate ∈ beforeB := by
  obtain ⟨beforeA, hA⟩ := exists_reachesCommit (llssArgs .alice) "1" 1
  obtain ⟨beforeB, hB⟩ := exists_reachesCommit (llssArgs .bob) "2"
    (epochEnv .alice "1").epoch
  have halice : (llssArgs .alice).party = .alice := rfl
  have hbob : (llssArgs .bob).party = .bob := rfl
  have hepochs : (epochEnv .alice "1").epoch ≠ (epochEnv .bob "2").epoch := by decide
  exact ⟨beforeA, beforeB, hA, hB, ((gate_of_commit halice hbob rfl hA hB).2.1 rfl).mpr hepochs⟩

end Freehold.Server
