import Freehold.Server.Determinism
import Freehold.Server.Main
import Freehold.Server.Sequence

/-!
# Signatures and petitions

A history is a sequence of sessions of ALICE's server, each for an identity and a petition, in
which nobody cheats and nothing fails. The petition is named in the verification e-mail alone:
the nullifier comes from the identity, so an identity signs once, whatever the petition.
-/

namespace Freehold.Server

open Interaction Interaction.Program

/-- A session of ALICE's server with all that it needs at hand, and an honest outcome. -/
structure Signing where
  env : Env
  args : Args
  received : ℤ
  alice : args.party = .alice
  ready : Ready args.enableLlss env
  password : List UInt8
  passShard : env.files (passShardPath .alice) = some password
  password_pos : 0 < int32 (pushBits password).length
  record_fits : RecordFits (int32 (pushBits password).length).toNat
  honest : env.cheated = false
  appends : env.appends = true

namespace Signing

variable (s : Signing)

/-- The process of the session. -/
def launch : Launch := ⟨s.env, s.args.session s.env.epoch s.received⟩

/-- The identity shard and the petition. -/
def signature : List Bool × List Char := (s.args.shardBits, s.args.petitionRef)

/-- The hexadecimal digest that the circuit makes of the identity shard. -/
def nullifier : List Char := commitment s.env s.args.circuit (shardWires s.args.shardBits)

/-- On this file, `execute_mpc_logic` returns a nullifier. -/
def Accepted (disk : Disk) : Prop := ∃ ν ≠ [], (s.launch.outcome disk).result = .ok ν

variable {s} {disk : Disk}

theorem identify_eq_ok (m : Machine) :
    ((identify s.launch.args).run (serve s.env) m).result = .ok s.nullifier := by
  have hfile : s.env.files (passShardPath s.launch.args.party) = some s.password := by
    rw [show s.launch.args.party = .alice from s.alice]
    exact s.passShard
  have hissues : Issues s.env (identify s.launch.args) _ :=
    identify_issues s.ready hfile s.password_pos s.record_fits
  obtain ⟨⟨ν, hok, -⟩, -⟩ := hissues m trivial
  have hν : ν = commitment s.env s.launch.args.circuit
      (wires shaInLen fun i => (identityInput .alice s.launch.args.myShard).getD i false) :=
    identify_result s.alice hok
  rw [hok, hν]
  rfl

/-- The session gets to the digest that its nullifier prints. -/
theorem exists_digest (s : Signing) (disk : Disk) :
    ∃ d, s.launch.digest disk = some d ∧ hexDigest d = s.nullifier := by
  have hok := identify_eq_ok (s := s) (loaded disk)
  cases hd : s.launch.digest disk with
  | none =>
    obtain ⟨e, herror⟩ := Launch.identify_of_no_digest hd
    cases hok.symm.trans herror
  | some d =>
    exact ⟨d, rfl, Except.ok.inj ((Launch.identify_of_digest hd).symm.trans hok)⟩

/-- A session is accepted exactly if the file does not have its nullifier. -/
theorem accepted_iff : s.Accepted disk ↔ s.nullifier ∉ nonemptyLines (disk.getD []) := by
  obtain ⟨d, hd, hν⟩ := s.exists_digest disk
  rw [← hν]
  constructor
  · rintro ⟨ν, hne, hok⟩ hknown
    exact hne (Except.ok.inj (hok.symm.trans (Launch.outcome_of_known hd hknown).1))
  · intro hnew
    refine ⟨_, (isCommitment_hexDigest d).ne_nil, (Launch.outcome_of_new hd hnew).1.trans ?_⟩
    exact if_neg (by simp [launch, s.honest])

end Signing

/-- The file after some processes have run `main`, absent at first. -/
def fileAfter (sessions : List Signing) : Disk :=
  sessions.foldl (fun disk s =>
    ((main s.args s.received).run (serve s.env) ⟨Host.start, disk⟩).state.disk) none

theorem fileAfter_eq (sessions : List Signing) :
    fileAfter sessions = diskAfter none (sessions.map Signing.launch) := by
  rw [diskAfter, List.foldl_map, fileAfter]
  congr
  funext disk s
  rw [main_state]
  rfl

theorem mem_fileAfter_iff {sessions : List Signing} {ν : List Char} :
    ν ∈ nonemptyLines ((fileAfter sessions).getD []) ↔ ∃ s ∈ sessions, s.nullifier = ν := by
  have happends : ∀ launch ∈ sessions.map Signing.launch, launch.env.appends = true := by
    intro launch hmem
    obtain ⟨s, -, rfl⟩ := List.mem_map.mp hmem
    exact s.appends
  rw [fileAfter_eq, (stores_diskAfter happends).mem_iff]
  constructor
  · rintro ⟨d, hd, rfl⟩
    obtain ⟨launch, hmem, hdigest⟩ := hd
    obtain ⟨s, hs, rfl⟩ := List.mem_map.mp hmem
    obtain ⟨d', hd', hν⟩ := s.exists_digest none
    obtain rfl : d' = d := Option.some.inj (hd'.symm.trans hdigest)
    exact ⟨s, hs, hν.symm⟩
  · rintro ⟨s, hs, rfl⟩
    obtain ⟨d, hd, hν⟩ := s.exists_digest none
    exact ⟨d, ⟨s.launch, List.mem_map_of_mem hs, hd⟩, hν⟩

/-- After earlier sessions, a session is accepted exactly if its nullifier is new. -/
theorem accepted_fileAfter_iff {sessions : List Signing} {s : Signing} :
    s.Accepted (fileAfter sessions) ↔ Once.New (some ∘ Signing.nullifier) sessions s := by
  rw [Signing.accepted_iff, mem_fileAfter_iff, Once.new_some_iff]

/-- A session is accepted exactly if no earlier accepted session had the same identity shard and
the same petition. -/
def OneSignaturePerPetition (sessions : List Signing) : Prop :=
  ∀ before s after, sessions = before ++ s :: after →
    (s.Accepted (fileAfter before) ↔
      ¬∃ before' s' after', before = before' ++ s' :: after' ∧ s'.Accepted (fileAfter before') ∧
        s'.signature = s.signature)

theorem oneSignaturePerPetition_iff_oncePer {sessions : List Signing} :
    OneSignaturePerPetition sessions ↔
      Once.OncePer Signing.nullifier Signing.signature sessions := by
  simp only [OneSignaturePerPetition, Once.OncePer, accepted_fileAfter_iff]

/-- Each identity signs each petition once exactly if the nullifier of a session has occurred
before where its identity has signed its petition before, and only there. -/
theorem oneSignaturePerPetition_iff (sessions : List Signing) :
    OneSignaturePerPetition sessions ↔
      ∀ before s after, sessions = before ++ s :: after →
        ((∃ s' ∈ before, s'.nullifier = s.nullifier) ↔
          ∃ s' ∈ before, s'.args.shardBits = s.args.shardBits ∧
            s'.args.petitionRef = s.args.petitionRef) := by
  rw [oneSignaturePerPetition_iff_oncePer, Once.oncePer_iff]
  simp only [Once.SameRepeats, Signing.signature, Prod.mk.injEq]

/-- The identity `demoShard` signs a petition. -/
def demoSigning (petitionRef : List Char) : Signing where
  env := demoEnv .alice [7]
  args := { demoMain with petitionRef := petitionRef }
  received := 1
  alice := rfl
  ready := demoEnv_ready false .alice [7]
  password := [7]
  passShard := demoEnv_passShard .alice [7]
  password_pos := by decide
  record_fits := by decide
  honest := rfl
  appends := rfl

theorem nullifier_demoSigning (petitionRef : List Char) :
    (demoSigning petitionRef).nullifier =
      commitment (demoEnv .alice [7]) demoCircuit (shardWires demoShard) := rfl

/-- The second petition of an identity is rejected. -/
theorem not_oneSignaturePerPetition_demo :
    ¬OneSignaturePerPetition [demoSigning "DEMO-001".toList, demoSigning "DEMO-002".toList] := by
  intro h
  have hsecond := h [demoSigning "DEMO-001".toList] (demoSigning "DEMO-002".toList) [] rfl
  rw [accepted_fileAfter_iff, Once.new_some_iff, not_iff_not] at hsecond
  have hknown : ∃ s ∈ [demoSigning "DEMO-001".toList],
      s.nullifier = (demoSigning "DEMO-002".toList).nullifier := by
    refine ⟨_, List.mem_cons_self, ?_⟩
    rw [nullifier_demoSigning, nullifier_demoSigning]
  obtain ⟨before, s, after, hsplit, -, hsignature⟩ := hsecond.mp hknown
  obtain rfl : s = demoSigning "DEMO-001".toList :=
    List.mem_singleton.mp (hsplit ▸ by simp)
  exact absurd (congrArg Prod.snd hsignature) (by decide)

end Freehold.Server
