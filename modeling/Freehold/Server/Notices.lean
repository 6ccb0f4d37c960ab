import Freehold.Mail.Message
import Freehold.Server.Main
import Freehold.Server.Sequence

/-!
# The e-mails of a history (`mpcauth_server.cpp`, `smtp_client.cpp`)

Processes run one after the other on one file, each with its own surroundings, and may fail or
be cheated. Where `main` calls it, `send_verification_email` talks to a mail server.

## Main results

- `countP_transcript`: what one process writes to its mail server about a nullifier.
- `notices_of_history`: who writes the e-mail about a nullifier, and that nobody else does.
-/

namespace Freehold.Server

open Interaction Interaction.Program
open Freehold.Mail (Smtp Notice sendVerificationEmail)

/-- A process with its mail server. -/
structure Process where
  env : Env
  args : Args
  /-- The epoch that BOB receives. -/
  received : ℤ
  mail : Mail.Env
  /-- What the mail server answers. -/
  replies : List (List Char)

namespace Process

/-- The process without the e-mail. -/
def launch (p : Process) : Launch := ⟨p.env, p.args.session p.env.epoch p.received⟩

/-- `main` on the file, up to the e-mail. -/
def outcome (p : Process) (disk : Disk) :
    Outcome Mpc Failure (Option (Mail.SmtpConfig × Mail.VerificationPayload)) Machine :=
  (main p.args p.received).run (serve p.env) ⟨Host.start, disk⟩

/-- The file that the process leaves. -/
def file (p : Process) (disk : Disk) : Disk := (p.outcome disk).state.disk

/-- What `send_verification_email` and the mail server say to each other. -/
def dialogue (p : Process) (cfg : Mail.SmtpConfig) (payload : Mail.VerificationPayload) :
    List (Event Smtp) :=
  ((sendVerificationEmail cfg payload).run (Mail.serve p.mail) ⟨p.replies, 0⟩).trace

/-- All that the process and the mail server say to each other. -/
def transcript (p : Process) (disk : Disk) : List (Event Smtp) :=
  match (p.outcome disk).result with
  | .ok (some (cfg, payload)) => p.dialogue cfg payload
  | _ => []

/-- The session gets to the nullifier `ν`. -/
def Computes (p : Process) (ν : List Char) : Prop :=
  ∃ d, p.launch.digest none = some d ∧ hexDigest d = ν

/-- ALICE's process gets to `ν` with an e-mail to send, has not been cheated, and its mail server
lets it get to the message and write it. -/
structure Reports (p : Process) (ν : List Char) : Prop where
  computes : p.Computes ν
  alice : p.args.party = .alice
  recipient : p.args.emailTo ≠ []
  host : p.args.smtpHost ≠ []
  honest : p.env.cheated = false
  written : ∃ e ∈ p.dialogue p.args.smtpConfig (p.args.payload p.env.epoch ν), Notice ν e

variable {p : Process} {disk : Disk} {ν : List Char}

theorem Computes.ne_nil (h : p.Computes ν) : ν ≠ [] := by
  obtain ⟨d, -, rfl⟩ := h
  exact (isCommitment_hexDigest d).ne_nil

theorem file_eq (p : Process) (disk : Disk) :
    p.file disk = (p.launch.outcome disk).state.disk :=
  congrArg Machine.disk (main_state p.args p.received p.env disk)

theorem result_outcome (p : Process) (disk : Disk) : (p.outcome disk).result =
    .ok (emailDelivery p.args p.env.epoch (nullifierAfter (p.launch.outcome disk).result)) := by
  rw [outcome, main_run, Launch.outcome, serverMain_result]
  rfl

/-- The nullifier that the session leaves to `main`. -/
theorem nullifierAfter_outcome_iff (hν : ν ≠ []) :
    nullifierAfter (p.launch.outcome disk).result = ν ↔
      p.Computes ν ∧ p.env.cheated = false ∧ ν ∉ nonemptyLines (disk.getD []) := by
  cases hd : p.launch.digest disk with
  | none =>
    obtain ⟨⟨e, herror⟩, -⟩ := Launch.outcome_of_no_digest hd
    rw [herror]
    refine iff_of_false (fun h => hν h.symm) ?_
    rintro ⟨⟨d, hnone, -⟩, -⟩
    rw [← Launch.digest_eq _ disk, hd] at hnone
    cases hnone
  | some d =>
    have hcomputes : p.Computes ν ↔ hexDigest d = ν := by
      rw [Computes, ← Launch.digest_eq _ disk, hd]
      simp
    rw [hcomputes]
    by_cases hknown : hexDigest d ∈ nonemptyLines (disk.getD [])
    · rw [(Launch.outcome_of_known hd hknown).1]
      refine iff_of_false (fun h => hν h.symm) ?_
      rintro ⟨rfl, -, hnew⟩
      exact hnew hknown
    · rw [(Launch.outcome_of_new hd hknown).1]
      show nullifierAfter (if p.env.cheated = true then _ else _) = ν ↔ _
      cases p.env.cheated with
      | true => exact iff_of_false (fun h => hν h.symm) fun h => by cases h.2.1
      | false =>
        refine ⟨?_, fun h => h.1⟩
        rintro rfl
        exact ⟨rfl, rfl, hknown⟩

/-- An e-mail about `ν` is one message, by a process that finds `ν` new. -/
theorem countP_transcript (p : Process) (disk : Disk) (ν : List Char) :
    (p.transcript disk).countP (Notice ν) ≤ 1 ∧
      (0 < (p.transcript disk).countP (Notice ν) ↔
        p.Reports ν ∧ ν ∉ nonemptyLines (disk.getD [])) := by
  have hafter (hν : ν ≠ []) := @nullifierAfter_outcome_iff p disk ν hν
  rw [transcript, result_outcome]
  generalize nullifierAfter (p.launch.outcome disk).result = nullifier at hafter
  by_cases hsends : p.args.party = .alice ∧ p.args.emailTo ≠ [] ∧ p.args.smtpHost ≠ [] ∧
      nullifier ≠ []
  · rw [emailDelivery, if_pos hsends]
    show (p.dialogue p.args.smtpConfig (p.args.payload p.env.epoch nullifier)).countP _ ≤ 1 ∧ _
    refine ⟨Mail.countP_notice_le_one _ _, ?_⟩
    by_cases hnullifier : nullifier = ν
    · subst hnullifier
      obtain ⟨hcomputes, hhonest, hnew⟩ := (hafter hsends.2.2.2).mp rfl
      rw [List.countP_pos_iff]
      exact ⟨fun h => ⟨⟨hcomputes, hsends.1, hsends.2.1, hsends.2.2.1, hhonest, h⟩, hnew⟩,
        fun h => h.1.written⟩
    · refine iff_of_false ?_ fun h => hnullifier ((hafter h.1.computes.ne_nil).mpr
        ⟨h.1.computes, h.1.honest, h.2⟩)
      exact (Mail.countP_notice_of_ne _ _ hnullifier).not_gt
  · rw [emailDelivery, if_neg hsends]
    refine ⟨Nat.zero_le _, iff_of_false (lt_irrefl 0) fun h => hsends ?_⟩
    obtain rfl := (hafter h.1.computes.ne_nil).mpr ⟨h.1.computes, h.1.honest, h.2⟩
    exact ⟨h.1.alice, h.1.recipient, h.1.host, h.1.computes.ne_nil⟩

end Process

/-! ## One after the other -/

/-- The file that the processes leave. -/
def files (processes : List Process) : Disk :=
  processes.foldl (fun disk p => p.file disk) none

/-- What the processes and their mail servers say to each other, from no file on. -/
def transcripts (processes : List Process) : List (Event Smtp) :=
  (processes.foldl (fun (r : Disk × List (Event Smtp)) p =>
    (p.file r.1, r.2 ++ p.transcript r.1)) (none, [])).2

/-- The first of the processes to get to `ν` reports it. -/
def FirstReports (processes : List Process) (ν : List Char) : Prop :=
  ∃ before p after, processes = before ++ p :: after ∧ p.Reports ν ∧ ∀ q ∈ before, ¬q.Computes ν

variable {processes : List Process} {p : Process} {ν : List Char}

theorem files_eq (processes : List Process) :
    files processes = diskAfter none (processes.map Process.launch) := by
  rw [files, diskAfter, List.foldl_map]
  congr 1
  funext disk p
  exact p.file_eq disk

theorem transcripts_snoc (processes : List Process) (p : Process) :
    transcripts (processes ++ [p]) = transcripts processes ++ p.transcript (files processes) := by
  have hfile : ∀ (l : List Process) (disk : Disk) (events : List (Event Smtp)),
      (l.foldl (fun (r : Disk × List (Event Smtp)) p =>
        (p.file r.1, r.2 ++ p.transcript r.1)) (disk, events)).1 =
          l.foldl (fun disk p => p.file disk) disk := by
    intro l
    induction l with
    | nil => exact fun _ _ => rfl
    | cons q l ih => exact fun _ _ => ih _ _
  rw [transcripts, List.foldl_append, List.foldl_cons, List.foldl_nil, hfile]
  rfl

/-- The file has the nullifiers that the processes have got to. -/
theorem mem_files_iff (happends : ∀ p ∈ processes, p.env.appends = true) :
    ν ∈ nonemptyLines ((files processes).getD []) ↔ ∃ q ∈ processes, q.Computes ν := by
  have hstores : Stores (digestsOf (processes.map Process.launch)) (files processes) := by
    rw [files_eq]
    refine stores_diskAfter fun launch hlaunch => ?_
    obtain ⟨p, hp, rfl⟩ := List.mem_map.mp hlaunch
    exact happends p hp
  rw [hstores.mem_iff]
  constructor
  · rintro ⟨d, ⟨launch, hlaunch, hd⟩, hν⟩
    obtain ⟨p, hp, rfl⟩ := List.mem_map.mp hlaunch
    exact ⟨p, hp, d, hd, hν⟩
  · rintro ⟨p, hp, d, hd, hν⟩
    exact ⟨d, ⟨p.launch, List.mem_map_of_mem hp, hd⟩, hν⟩

theorem firstReports_snoc : FirstReports (processes ++ [p]) ν ↔
    FirstReports processes ν ∨ p.Reports ν ∧ ∀ q ∈ processes, ¬q.Computes ν := by
  constructor
  · rintro ⟨before, q, after, heq, hreports, hfirst⟩
    rcases List.eq_nil_or_concat after with rfl | ⟨after, last, rfl⟩
    · obtain ⟨rfl, hq⟩ := List.append_inj' heq rfl
      cases hq
      exact .inr ⟨hreports, hfirst⟩
    · rw [List.concat_eq_append, ← List.cons_append, ← List.append_assoc] at heq
      exact .inl ⟨before, q, after, (List.append_inj' heq rfl).1, hreports, hfirst⟩
  · rintro (⟨before, q, after, rfl, hreports, hfirst⟩ | ⟨hreports, hfirst⟩)
    · exact ⟨before, q, after ++ [p], by simp, hreports, hfirst⟩
    · exact ⟨processes, p, [], rfl, hreports, hfirst⟩

theorem FirstReports.exists_computes (h : FirstReports processes ν) :
    ∃ q ∈ processes, q.Computes ν := by
  obtain ⟨before, q, after, rfl, hreports, -⟩ := h
  exact ⟨q, by simp, hreports.computes⟩

theorem countP_transcripts (ν : List Char)
    (happends : ∀ p ∈ processes, p.env.appends = true) :
    (transcripts processes).countP (Notice ν) ≤ 1 ∧
      (0 < (transcripts processes).countP (Notice ν) ↔ FirstReports processes ν) := by
  induction processes using List.reverseRecOn with
  | nil => simp [transcripts, FirstReports]
  | append_singleton processes p ih =>
    have hbefore : ∀ q ∈ processes, q.env.appends = true :=
      fun q hq => happends q (List.mem_append_left _ hq)
    obtain ⟨hle, hpos⟩ := ih hbefore
    obtain ⟨hle', hpos'⟩ := p.countP_transcript (files processes) ν
    have hnew : ν ∉ nonemptyLines ((files processes).getD []) ↔ ∀ q ∈ processes, ¬q.Computes ν := by
      rw [mem_files_iff hbefore]
      push Not
      rfl
    rw [hnew] at hpos'
    rw [transcripts_snoc, List.countP_append, firstReports_snoc, ← hpos, ← hpos']
    -- Who reports `ν` after somebody else has got to it does not say it.
    have hexclusive : ¬(0 < (transcripts processes).countP (Notice ν) ∧
        0 < (p.transcript (files processes)).countP (Notice ν)) := by
      rw [hpos, hpos']
      rintro ⟨hreported, -, hfirst⟩
      obtain ⟨q, hq, hcomputes⟩ := hreported.exists_computes
      exact hfirst q hq hcomputes
    omega

/-- With a file that can be opened for appending, at most one message about a nullifier is ever
written, and one is exactly if the first process that gets to the nullifier reports it. Whoever
comes later does not make up for one that does not: another party, a process without a mail
server, one that is cheated, one whose mail server does not let it get to the message, or one
that fails to write it. -/
theorem notices_of_history (processes : List Process)
    (happends : ∀ p ∈ processes, p.env.appends = true) (ν : List Char) :
    (transcripts processes).countP (Notice ν) = 1 ∧ FirstReports processes ν ∨
      (transcripts processes).countP (Notice ν) = 0 ∧ ¬FirstReports processes ν := by
  obtain ⟨hle, hpos⟩ := countP_transcripts ν happends
  rw [← hpos]
  omega

/-- ALICE's process for the identity `demoShard`, with a mail server that accepts all commands. -/
def demoProcess : Process where
  env := demoEnv .alice [7]
  args := demoMain
  received := 1
  mail := ⟨true, fun _ => true, true, true, [], []⟩
  replies := ["220 h\r\n", "250 h\r\n", "250 h\r\n", "250 h\r\n", "354 h\r\n",
    "250 h\r\n"].map String.toList

theorem demoProcess_reports : demoProcess.Reports demoNullifier := by
  have hne : demoNullifier ≠ [] := IsCommitment.ne_nil ⟨_, rfl⟩
  have hresult : (demoProcess.launch.outcome none).result = .ok demoNullifier :=
    (serverMain_demo_new 0 none (by simp [nonemptyLines])).1
  have hcomputes := ((Process.nullifierAfter_outcome_iff hne).mp
    (congrArg nullifierAfter hresult)).1
  refine ⟨hcomputes, rfl, by decide, by decide, rfl, ?_⟩
  generalize demoNullifier = ν
  refine ⟨⟨.send false (.message demoMain.smtpConfig (demoMain.payload demoProcess.env.epoch ν)
    [] []), true⟩, List.mem_of_getElem? (i := 12) rfl, ?_⟩
  rw [Mail.notice_message, Bool.true_and, decide_eq_true_eq]
  rfl

/-- The second of two processes for one identity sends nothing. -/
theorem notices_of_history_demo :
    (transcripts [demoProcess, demoProcess]).countP (Notice demoNullifier) = 1 := by
  have hreports : FirstReports [demoProcess, demoProcess] demoNullifier :=
    ⟨[], demoProcess, [demoProcess], rfl, demoProcess_reports, by simp⟩
  rcases notices_of_history [demoProcess, demoProcess]
    (by simp [demoProcess, demoEnv]) demoNullifier with h | h
  · exact h.1
  · exact absurd hreports h.2

end Freehold.Server
