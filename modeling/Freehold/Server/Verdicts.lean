import Mathlib.Data.List.GetD
import Freehold.Server.Acceptance

/-!
# The verdicts of the two parties of a session

ALICE and BOB test the nullifier of their session, each in the set that it loaded when it
started. They agree exactly when nobody has appended the nullifier between the two loads.
-/

namespace Freehold.Server

open Interaction Interaction.Program

section Interleavings

variable {ι : Type} {launch : ι → Launch} {disk : Disk} {history : List (Label ι Mpc)}

/-- What a step adds to the file. -/
def appendedBy (launch : ι → Launch) : Label ι Mpc → List Char
  | .act i event => written (launch i).env event
  | .start _ => []

/-- The text of the file after a history, from the text it had at first. -/
def textAfter (launch : ι → Launch) (disk : Disk) (history : List (Label ι Mpc)) : List Char :=
  disk.getD [] ++ history.flatMap (appendedBy launch)

theorem textAfter_snoc (launch : ι → Launch) (disk : Disk) (history : List (Label ι Mpc))
    (l : Label ι Mpc) :
    textAfter launch disk (history ++ [l]) =
      textAfter launch disk history ++ appendedBy launch l := by
  simp [textAfter]

/-- The nullifier is a line of the file when process `i` loads it. -/
def KnownAtLoad (launch : ι → Launch) (disk : Disk) (history : List (Label ι Mpc)) (i : ι)
    (ν : List Char) : Prop :=
  ∃ h₁ text h₂, history = h₁ ++ .act i (reading text) :: h₂ ∧
    ν ∈ nonemptyLines (textAfter launch disk h₁)

variable [DecidableEq ι] {P : Pool ι Mpc Failure (List Char) Host Disk}

theorem shared_eq_of_run (hrun : (cluster launch).Run disk history P) :
    P.shared.getD [] = textAfter launch disk history := by
  refine hrun.shared_induction (I := fun history now => now.getD [] = textAfter launch disk history)
    ?_ ?_ ?_
  · simp [textAfter]
  · intro history i now h
    rw [textAfter_snoc, h]
    exact (List.append_nil _).symm
  · intro history i t o next host now _ h
    rw [textAfter_snoc, ← h]
    exact serve_text (launch i).env o ⟨host, now⟩

theorem text_of_reading {h₁ h₂ : List (Label ι Mpc)} {i : ι} {text : Disk}
    (hrun : (cluster launch).Run disk (h₁ ++ .act i (reading text) :: h₂) P) :
    text.getD [] = textAfter launch disk h₁ := by
  obtain ⟨P₁, P₂, hearlier, hstep⟩ := hrun.before
  obtain ⟨next, host, -, htext⟩ := hstep.act_inv
  rw [show text = P₁.shared from htext, shared_eq_of_run hearlier]

/-- A process decides by the file as it was when the process loaded it. -/
theorem lookup_iff_knownAtLoad (hrun : (cluster launch).Run disk history P) {i : ι} {ν : List Char}
    {known : Bool} (h : .act i (lookup ν known) ∈ history) :
    known = true ↔ KnownAtLoad launch disk history i ν := by
  obtain ⟨text, hread, hknown⟩ := lookup_of_run hrun h
  rw [hknown]
  constructor
  · intro hmem
    obtain ⟨h₁, h₂, rfl⟩ := List.append_of_mem ((hread text).mpr rfl)
    refine ⟨h₁, text, h₂, rfl, ?_⟩
    rwa [text_of_reading hrun] at hmem
  · rintro ⟨h₁, text', h₂, rfl, hmem⟩
    obtain rfl : text' = text := (hread text').mp (by simp)
    rwa [text_of_reading hrun]

/-- Two processes that test the same nullifier agree exactly if it was in the file at both of
their loads or at neither. -/
theorem verdicts_agree_iff (hrun : (cluster launch).Run disk history P) {alice bob : ι}
    {ν : List Char} {verdictA verdictB : Bool}
    (halice : .act alice (lookup ν verdictA) ∈ history)
    (hbob : .act bob (lookup ν verdictB) ∈ history) :
    verdictA = verdictB ↔
      (KnownAtLoad launch disk history alice ν ↔ KnownAtLoad launch disk history bob ν) := by
  rw [← lookup_iff_knownAtLoad hrun halice, ← lookup_iff_knownAtLoad hrun hbob]
  exact Bool.eq_iff_iff

end Interleavings

/-! ## Two sessions that overlap -/

/-- Even processes run at BOB, odd ones at ALICE. The identity bits are all zero. -/
def demoParty (i : ℕ) : Party := if i % 2 = 0 then .bob else .alice

def demoParties (i : ℕ) : Launch where
  env := demoEnv (demoParty i) [7]
  args := { demoArgs demoCircuit [false] with party := demoParty i }

def jointNullifier : List Char :=
  commitment (demoEnv .alice [7]) demoCircuit (wires shaInLen fun _ => false)

theorem fedBits_demoParties (i feeds : ℕ) :
    fedBits (demoParties i).env feeds (demoParty i) .alice (identityInput (demoParty i) [false]) =
      fun _ => false := by
  unfold fedBits
  split
  · next halice =>
    rw [halice]
    funext k
    have hzero : identityInput .alice [false] = List.replicate shaInLen false := by
      decide +kernel
    rw [hzero, List.getD_eq_getElem?_getD, List.getElem?_getD_replicate_default_eq]
  · rfl

/-- ALICE and BOB compute the same nullifier. -/
theorem identify_demoParties (i : ℕ) (m : Machine) :
    ((identify (demoParties i).args).run (serve (demoParties i).env) m).result =
      .ok jointNullifier := by
  have hready : Ready false (demoParties i).env := ⟨demoEnv_aesInstalled _ _, nofun, nofun⟩
  have hissues : Issues (demoParties i).env (identify (demoParties i).args) _ :=
    identify_issues hready (demoEnv_passShard _ _) (by decide) (by decide)
  obtain ⟨⟨ν, hok, -⟩, -⟩ := hissues m trivial
  obtain ⟨feeds, hν⟩ := identify_commitment hok
  rw [identityWires] at hν
  rw [hok, hν]
  exact congrArg (fun bits => Except.ok (commitment (demoEnv .alice [7]) demoCircuit
    (wires shaInLen bits))) (fedBits_demoParties i feeds)

section Demo

variable {history : List (Label ℕ Mpc)} {P : Pool ℕ Mpc Failure (List Char) Host Disk}

/-- A process that starts when the nullifier is in the file finds it there. -/
theorem solo_finds_known {launch : ℕ → Launch} (hrun : (cluster launch).Run none history P) {i : ℕ}
    (hi : P.processes i = none) {ν : List Char}
    (hν : ((identify (launch i).args).run (serve (launch i).env) (loaded P.shared)).result = .ok ν)
    (hknown : ν ∈ nonemptyLines (P.shared.getD [])) :
    ∃ t P' host, (cluster launch).Run none (history ++ t) P' ∧ .act i (lookup ν true) ∈ t ∧
      P'.processes = Function.update P.processes i (some (.ret [], host)) := by
  have hmem := mem_loaded.mpr hknown
  have hresult : ((serverMain (launch i).args).run (serve (launch i).env)
      ⟨Host.start, P.shared⟩).result = .ok [] := by
    rw [serverMain_result]
    exact (executeMpcLogic_run_of_known hν hmem).2
  have hlookup : lookup ν true ∈ ((serverMain (launch i).args).run (serve (launch i).env)
      ⟨Host.start, P.shared⟩).trace := by
    have hexecute := executeMpcLogic_lookup hν
    rw [decide_eq_true hmem] at hexecute
    rw [serverMain_run]
    exact List.mem_append_right _ hexecute
  have hsolo := (hrun.snoc (.start hi)).solo (Function.update_self ..) (a := [])
    (by rw [cluster_handler, cluster_state]; exact hresult)
  rw [List.append_assoc] at hsolo
  exact ⟨_, _, _, hsolo, List.mem_append_right _ (List.mem_map_of_mem hlookup),
    Function.update_idem ..⟩

/-- BOB of the second session (0) has loaded the file before the first session (1 and 2) appends
to it, ALICE of the second session (3) loads it after: she finds the nullifier there, he does
not. -/
theorem verdicts_differ_of_overlap : ∃ history P, (cluster demoParties).Run none history P ∧
    (demoParties 3).args.party = .alice ∧ (demoParties 0).args.party = .bob ∧
    .act 3 (lookup jointNullifier true) ∈ history ∧
    .act 0 (lookup jointNullifier false) ∈ history := by
  have hcommitment : IsCommitment jointNullifier := ⟨_, rfl⟩
  obtain ⟨_, P₀, hrun₀, hshared₀, hP₀⟩ := start_and_read demoParties (i := 0) .init rfl rfl
  obtain ⟨_, P₁, hrun₁, hshared₁, hP₁⟩ := start_and_read demoParties (i := 1) hrun₀ hshared₀
    (by rw [hP₀]; rfl)
  obtain ⟨_, P₂, hrun₂, hshared₂, hP₂⟩ := start_and_read demoParties (i := 2) hrun₁ hshared₁
    (by rw [hP₁, hP₀]; rfl)
  obtain ⟨_, P₃, _, hrun₃, -, hP₃, hshared₃⟩ := solo_finds_new (i := 1) hrun₂
    (by rw [hP₂, hP₁]; rfl) (identify_demoParties 1 _) rfl rfl
  obtain ⟨_, P₄, _, hrun₄, -, hP₄, hshared₄⟩ := solo_finds_new (i := 2) hrun₃
    (by rw [hP₃, hP₂]; rfl) (identify_demoParties 2 _) rfl rfl
  have hline₃ : jointNullifier ++ ['\n'] = P₃.shared.getD [] := by
    rw [hshared₃, hshared₂]
    rfl
  have hknown : jointNullifier ∈ nonemptyLines (P₄.shared.getD []) := by
    rw [hshared₄, ← hline₃, Option.getD_some, nonemptyLines_append (terminated_line _),
      hcommitment.nonemptyLines]
    exact List.mem_append_left _ (List.mem_singleton_self _)
  obtain ⟨t₅, P₅, _, hrun₅, htrue, hP₅⟩ := solo_finds_known (i := 3) hrun₄
    (by rw [hP₄, hP₃, hP₂, hP₁, hP₀]; rfl) (identify_demoParties 3 _) hknown
  obtain ⟨t₆, P₆, _, hrun₆, hfalse, -⟩ := solo_finds_new (i := 0) hrun₅
    (by rw [hP₅, hP₄, hP₃, hP₂, hP₁, hP₀]; rfl) (identify_demoParties 0 _) rfl rfl
  exact ⟨_, P₆, hrun₆, rfl, rfl, List.mem_append_left _ (List.mem_append_right _ htrue),
    List.mem_append_right _ hfalse⟩

/-- Both processes of one session load the absent file. -/
theorem verdicts_agree_demo : ∃ history P, (cluster demoParties).Run none history P ∧
    .act 1 (lookup jointNullifier false) ∈ history ∧
    .act 0 (lookup jointNullifier false) ∈ history ∧
    (KnownAtLoad demoParties none history 1 jointNullifier ↔
      KnownAtLoad demoParties none history 0 jointNullifier) := by
  obtain ⟨_, P₀, hrun₀, hshared₀, hP₀⟩ := start_and_read demoParties (i := 0) .init rfl rfl
  obtain ⟨h₁, P₁, hrun₁, hshared₁, hP₁⟩ := start_and_read demoParties (i := 1) hrun₀ hshared₀
    (by rw [hP₀]; rfl)
  obtain ⟨t₂, P₂, _, hrun₂, halice, hP₂, -⟩ := solo_finds_new (i := 1) hrun₁ (by rw [hP₁]; rfl)
    (identify_demoParties 1 _) rfl rfl
  obtain ⟨t₃, P₃, _, hrun₃, hbob, -⟩ := solo_finds_new (i := 0) hrun₂
    (by rw [hP₂, hP₁, hP₀]; rfl) (identify_demoParties 0 _) rfl rfl
  have halice' := List.mem_append_left t₃ (List.mem_append_right h₁ halice)
  have hbob' := List.mem_append_right (h₁ ++ t₂) hbob
  exact ⟨_, P₃, hrun₃, halice', hbob', (verdicts_agree_iff hrun₃ halice' hbob').mp rfl⟩

end Demo

end Freehold.Server
