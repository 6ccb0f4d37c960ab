import Freehold.Foundation.Interleaving
import Freehold.Server.Nullifier

/-!
# Server processes that share a nullifier database

Each process loads `nullifier_database.txt` when it starts and runs one session on the
set it has loaded. The steps of the processes interleave in any order. A nullifier is
accepted by two of them when both have loaded the file before either has appended to it.
-/

namespace Freehold.Server

open Interaction Interaction.Program

/-- What a server process is started with. -/
structure Launch where
  env : Env
  args : SessionArgs

/-- The part of `main` that concerns the database. -/
def serverMain (args : SessionArgs) : Session (List Char) := do
  loadNullifierDatabase
  executeMpcLogic args

def machineState : Host × Disk ≃ Machine where
  toFun s := ⟨s.1, s.2⟩
  invFun m := (m.host, m.disk)
  left_inv _ := rfl
  right_inv _ := rfl

/-- The processes that share the file. -/
def cluster {ι : Type} (launch : ι → Launch) :
    System ι Mpc Failure (List Char) Machine Host Disk where
  code i := serverMain (launch i).args
  handler i := serve (launch i).env
  state := machineState
  fresh := Host.start

@[simp] theorem cluster_handler {ι : Type} (launch : ι → Launch) (i : ι) :
    (cluster launch).handler i = serve (launch i).env := rfl

@[simp] theorem cluster_state {ι : Type} (launch : ι → Launch) (s : Host × Disk) :
    (cluster launch).state s = ⟨s.1, s.2⟩ := rfl

/-- A non-empty string is returned by `execute_mpc_logic` at ALICE. -/
def Accepts {ι : Type} (launch : ι → Launch) (P : Pool ι Mpc Failure (List Char) Host Disk)
    (i : ι) (nullifier : List Char) : Prop :=
  (launch i).args.party = .alice ∧ nullifier ≠ [] ∧ ∃ m, P.processes i = some (.ret nullifier, m)

/-! ## Lines of the database file -/

/-- The file ends with a complete line. -/
def Terminated (text : List Char) : Prop := text = [] ∨ ∃ front, text = front ++ ['\n']

theorem Terminated.append {text rest : List Char} (htext : Terminated text)
    (hrest : Terminated rest) : Terminated (text ++ rest) := by
  rcases hrest with rfl | ⟨front, rfl⟩
  · rwa [List.append_nil]
  · exact .inr ⟨text ++ front, (List.append_assoc ..).symm⟩

theorem terminated_line (line : List Char) : Terminated (line ++ ['\n']) := .inr ⟨line, rfl⟩

theorem nonemptyLines_append {text : List Char} (htext : Terminated text) (rest : List Char) :
    nonemptyLines (text ++ rest) = nonemptyLines text ++ nonemptyLines rest := by
  have hsplit (xs ys : List Char) :
      nonemptyLines (xs ++ '\n' :: ys) = nonemptyLines xs ++ nonemptyLines ys := by
    rw [nonemptyLines, List.splitOn_append_cons_self, List.filter_append]
    rfl
  rcases htext with rfl | ⟨front, rfl⟩
  · rfl
  · have hfront : nonemptyLines (front ++ ['\n']) = nonemptyLines front := by
      rw [hsplit]
      exact List.append_nil _
    rw [List.append_assoc, hfront]
    exact hsplit front rest

theorem nonemptyLines_line {line : List Char} (hne : line ≠ []) (hline : '\n' ∉ line) :
    nonemptyLines (line ++ ['\n']) = [line] := by
  rw [nonemptyLines, List.splitOn_append_cons_self, List.splitOn_eq_singleton hline]
  simp [hne]

/-- What an event adds to the file. -/
def written (env : Env) : Event Mpc → List Char
  | ⟨.appendNullifierDatabase line, _⟩ => if env.appends then line else []
  | _ => []

theorem serve_text (env : Env) (o : Op) (m : Machine) :
    (serve env o m).2.disk.getD [] = m.disk.getD [] ++ written env ⟨o, (serve env o m).1⟩ := by
  cases o with
  | appendNullifierDatabase line => cases happends : env.appends <;> simp [serve, written, happends]
  | _ => simp [serve, written]

/-! ## What one process does -/

/-- A hexadecimal digest of the length that `execute_mpc_logic` computes. -/
def IsCommitment (nullifier : List Char) : Prop :=
  ∃ hashResult, nullifier = computeHashToHex hashResult shaOutLen

theorem IsCommitment.ne_nil {nullifier : List Char} (h : IsCommitment nullifier) :
    nullifier ≠ [] := by
  obtain ⟨hashResult, rfl⟩ := h
  refine List.ne_nil_of_length_pos ?_
  rw [length_computeHashToHex]
  decide

theorem IsCommitment.newline_notMem {ν : List Char} (h : IsCommitment ν) : '\n' ∉ ν := by
  obtain ⟨hashResult, rfl⟩ := h
  exact newline_notMem_computeHashToHex hashResult shaOutLen

theorem IsCommitment.nonemptyLines {nullifier : List Char} (h : IsCommitment nullifier) :
    nonemptyLines (nullifier ++ ['\n']) = [nullifier] :=
  nonemptyLines_line h.ne_nil h.newline_notMem

/-- `nullifier_database.insert`. -/
abbrev insertion (nullifier : List Char) : Event Mpc := ⟨.nullifierInsert nullifier, ()⟩

/-- `nullifier_database.count` with its answer. -/
abbrev lookup (nullifier : List Char) (known : Bool) : Event Mpc :=
  ⟨.nullifierCount nullifier, known⟩

/-- `ifstream f(NULLIFIER_DB_PATH)`, with the text that it reads. -/
abbrev reading (text : Disk) : Event Mpc := ⟨.readNullifierDatabase, text⟩

/-- What `load_nullifier_database` does on a text. -/
def loading (text : Disk) : List (Event Mpc) :=
  reading text :: (nonemptyLines (text.getD [])).map insertion

/-- Operations of `load_nullifier_database`. -/
def Loads : Op → Prop
  | .readNullifierDatabase | .nullifierInsert _ => True
  | _ => False

/-- Operations of the nullifier check, for one nullifier. -/
def Commits (nullifier : List Char) : Op → Prop
  | .nullifierCount ν | .nullifierInsert ν => ν = nullifier
  | .appendNullifierDatabase line => line = nullifier ++ ['\n']
  | .finalizeZkBool => True
  | _ => False

theorem loadNullifierDatabase_uses : loadNullifierDatabase.Uses Loads := by
  simp only [loadNullifierDatabase, perform_bind]
  exact .call trivial fun text => .foldlM (fun _ _ => .call trivial fun _ => uses_ret _) ()

theorem commitNullifier_uses (nullifier : List Char) :
    (commitNullifier nullifier).Uses (Commits nullifier) := by
  simp only [commitNullifier, saveNullifier, perform_bind]
  refine .call rfl fun known => .ite (.call trivial fun _ => uses_ret _) ?_
  exact .call rfl fun _ => .call rfl fun _ => .call trivial fun _ =>
    .ite (uses_throw _) (uses_ret _)

theorem written_eq_nil {env : Env} {e : Event Mpc} (h : Loads e.op ∨ BeforeCheck e.op) :
    written env e = [] := by
  obtain ⟨o, answer⟩ := e
  cases o with
  | appendNullifierDatabase line => exact h.elim False.elim False.elim
  | _ => rfl

theorem flatMap_written_eq_nil {env : Env} {t : List (Event Mpc)}
    (h : ∀ e ∈ t, Loads e.op ∨ BeforeCheck e.op) : t.flatMap (written env) = [] :=
  List.flatMap_eq_nil_iff.mpr fun e he => written_eq_nil (h e he)

theorem loads_of_mem_loading {text : Disk} {e : Event Mpc} (he : e ∈ loading text) :
    Loads e.op := by
  rcases List.mem_cons.mp he with rfl | he
  · trivial
  · obtain ⟨line, -, rfl⟩ := List.mem_map.mp he
    trivial

theorem insertLines_reaches {lines : List (List Char)} {t : List (Event Mpc)}
    (h : (lines.foldlM (fun _ line => perform (E := Mpc) (.nullifierInsert line)) () :
      Session Unit).Reaches t (.ret ())) :
    t = lines.map insertion := by
  induction lines generalizing t with
  | nil => exact h.ret_inv.1
  | cons line lines ih =>
    rw [List.foldlM_cons, perform_bind] at h
    cases h with
    | call hrest =>
      rw [ih hrest]
      rfl

theorem loadNullifierDatabase_reaches {t : List (Event Mpc)}
    (h : loadNullifierDatabase.Reaches t (.ret ())) :
    ∃ text, t = loading text := by
  rw [loadNullifierDatabase, perform_bind] at h
  cases h with
  | @call _ _ text _ _ hrest => exact ⟨text, by rw [insertLines_reaches hrest, loading]⟩

theorem computeNullifier_reaches {party : Party} {myShard : List Bool} {circuit : BristolFashion}
    {t : List (Event Mpc)} {nullifier : List Char}
    (h : (computeNullifier party myShard circuit).Reaches t (.ret nullifier)) :
    IsCommitment nullifier := by
  simp only [computeNullifier, perform_bind, feed_bind, pure_eq] at h
  obtain _ | ⟨_ | ⟨_ | ⟨_ | ⟨_ | hrest⟩⟩⟩⟩ := h
  obtain ⟨-, hret⟩ := hrest.ret_inv
  cases hret
  exact ⟨_, rfl⟩

theorem identify_reaches {args : SessionArgs} {t : List (Event Mpc)} {nullifier : List Char}
    (h : (identify args).Reaches t (.ret nullifier)) : IsCommitment nullifier := by
  obtain ⟨_, _, _, -, -, hcompute⟩ := h.of_bind_ret
  exact computeNullifier_reaches hcompute

/-- The events of a process that has got to its nullifier check. -/
structure Checking (t : List (Event Mpc)) (q : Session (List Char)) where
  text : Disk
  before : List (Event Mpc)
  nullifier : List Char
  after : List (Event Mpc)
  isCommitment : IsCommitment nullifier
  beforeCheck : ∀ e ∈ before, BeforeCheck e.op
  reaches : (commitNullifier nullifier).Reaches after q
  events_eq : t = loading text ++ before ++ after

/-- An event of the check shows that the process has got there. -/
theorem serverMain_checking {args : SessionArgs} {t : List (Event Mpc)}
    {q : Session (List Char)} (h : (serverMain args).Reaches t q) {e : Event Mpc} (he : e ∈ t)
    (hload : ¬Loads e.op) (hbefore : ¬BeforeCheck e.op) :
    ∃ c : Checking t q, e ∈ c.after := by
  obtain ⟨t₁, t₂, ⟨⟩, rfl, -, hloaded, hrest, he₂⟩ :=
    h.of_bind_of_mem loadNullifierDatabase_uses he hload
  obtain ⟨text, rfl⟩ := loadNullifierDatabase_reaches hloaded
  obtain ⟨t₃, t₄, nullifier, rfl, ht₃, hidentify, hcommit, he₄⟩ :=
    hrest.of_bind_of_mem (identify_uses args) he₂ hbefore
  exact ⟨⟨text, t₃, nullifier, t₄, identify_reaches hidentify, ht₃, hcommit,
    (List.append_assoc ..).symm⟩, he₄⟩

/-- The set holds what has been inserted, and a lookup tells what had been inserted before. -/
structure Remembers (t : List (Event Mpc)) (database : Finset (List Char)) : Prop where
  mem_iff : ∀ ν, ν ∈ database ↔ insertion ν ∈ t
  lookup_iff : ∀ t₁ t₂ ν known, t = t₁ ++ lookup ν known :: t₂ →
    (known = true ↔ insertion ν ∈ t₁)

theorem remembers_start : Remembers [] Host.start.nullifierDatabase where
  mem_iff ν := by simp [Host.start]
  lookup_iff t₁ t₂ ν known hnil := by simp at hnil

theorem Remembers.mem_serve {t : List (Event Mpc)} {m : Machine}
    (h : Remembers t m.host.nullifierDatabase) (env : Env) (o : Op) (ν : List Char) :
    ν ∈ (serve env o m).2.host.nullifierDatabase ↔
      insertion ν ∈ t ++ [⟨o, (serve env o m).1⟩] := by
  cases o with
  | nullifierInsert ν' =>
    simp [serve, h.mem_iff, or_comm]
  | appendNullifierDatabase line =>
    cases happends : env.appends <;> simp [serve, h.mem_iff, happends]
  | _ => simp [serve, h.mem_iff]

theorem Remembers.snoc {t : List (Event Mpc)} {m : Machine}
    (h : Remembers t m.host.nullifierDatabase) (env : Env) (o : Op) :
    Remembers (t ++ [⟨o, (serve env o m).1⟩]) (serve env o m).2.host.nullifierDatabase where
  mem_iff := h.mem_serve env o
  lookup_iff t₁ t₂ ν known heq := by
    rcases List.eq_nil_or_concat t₂ with rfl | ⟨t₂, e, rfl⟩
    · obtain ⟨rfl, hlast⟩ := List.append_inj' heq rfl
      have hevent := List.head_eq_of_cons_eq hlast
      obtain rfl : o = .nullifierCount ν := congrArg Event.op hevent
      simp only [serve, Event.mk.injEq, heq_eq_eq, true_and] at hevent
      rw [← hevent, decide_eq_true_eq, h.mem_iff]
    · have hsplit : t ++ [⟨o, (serve env o m).1⟩] =
          (t₁ ++ lookup ν known :: t₂) ++ [e] := by
        rw [heq, List.append_assoc, List.cons_append, List.concat_eq_append]
      exact h.lookup_iff t₁ t₂ ν known (List.append_inj' hsplit rfl).1

/-- No membership test. -/
def NoLookup (o : Op) : Prop := ∀ ν, o ≠ .nullifierCount ν

/-- What the check does once it has the answer of the membership test. -/
def afterLookup (nullifier : List Char) (known : Bool) : Session (List Char) := do
  if known then do
    let _ ← perform (E := Mpc) .finalizeZkBool
    pure []
  else do
    perform (E := Mpc) (.nullifierInsert nullifier)
    saveNullifier nullifier
    if ← perform (E := Mpc) .finalizeZkBool then
      .throw (.runtimeError "ZK proof verification failed: cheating detected.")
    else pure nullifier

theorem commitNullifier_eq (nullifier : List Char) :
    commitNullifier nullifier = .call (.nullifierCount nullifier) (afterLookup nullifier) := rfl

theorem afterLookup_uses (nullifier : List Char) (known : Bool) :
    (afterLookup nullifier known).Uses NoLookup := by
  simp only [afterLookup, saveNullifier, perform_bind]
  refine .ite (.call (by simp [NoLookup]) fun _ => uses_ret _) ?_
  exact .call (by simp [NoLookup]) fun _ => .call (by simp [NoLookup]) fun _ =>
    .call (by simp [NoLookup]) fun _ => .ite (uses_throw _) (uses_ret _)

/-- The result tells the answer of the membership test. -/
theorem afterLookup_reaches_ret {nullifier ν : List Char} {known : Bool} {t : List (Event Mpc)}
    (h : (afterLookup nullifier known).Reaches t (.ret ν)) :
    ν = if known then [] else nullifier := by
  simp only [afterLookup, saveNullifier, perform_bind, pure_eq] at h
  cases known with
  | true =>
    obtain _ | ⟨hrest⟩ := h
    obtain ⟨-, hret⟩ := hrest.ret_inv
    cases hret
    rfl
  | false =>
    obtain _ | ⟨_ | ⟨_ | @⟨_, _, cheated, _, _, hrest⟩⟩⟩ := h
    cases cheated with
    | true => cases hrest
    | false =>
      obtain ⟨-, hret⟩ := hrest.ret_inv
      cases hret
      rfl

/-- The check is one membership test, then the rest. -/
theorem commitNullifier_reaches {nullifier : List Char} {t : List (Event Mpc)}
    {q : Session (List Char)} (h : (commitNullifier nullifier).Reaches t q) {e : Event Mpc}
    (he : e ∈ t) : ∃ known rest, t = lookup nullifier known :: rest ∧
      (afterLookup nullifier known).Reaches rest q := by
  rw [commitNullifier_eq] at h
  cases h with
  | refl => simp at he
  | @call _ _ known rest _ hrest => exact ⟨known, rest, rfl, hrest⟩

namespace Checking

variable {t : List (Event Mpc)} {q : Session (List Char)} (c : Checking t q)

theorem commits {e : Event Mpc} (he : e ∈ c.after) : Commits c.nullifier e.op :=
  ((commitNullifier_uses c.nullifier).of_reaches c.reaches).2 e he

theorem mem_iff {e : Event Mpc} : e ∈ t ↔
    ((e = reading c.text ∨ ∃ line ∈ nonemptyLines (c.text.getD []), insertion line = e) ∨
      e ∈ c.before) ∨ e ∈ c.after := by
  have hmem : e ∈ t ↔ e ∈ loading c.text ++ c.before ++ c.after :=
    iff_of_eq (congrArg (e ∈ ·) c.events_eq)
  rw [hmem, loading]
  simp only [List.mem_append, List.mem_cons, List.mem_map]

/-- The process reads the file once. -/
theorem reading_iff {text : Disk} : reading text ∈ t ↔ text = c.text := by
  rw [c.mem_iff]
  constructor
  · rintro (((heq | ⟨line, -, heq⟩) | hbefore) | hafter)
    · cases heq
      rfl
    · cases heq
    · exact (c.beforeCheck _ hbefore).elim
    · exact (c.commits hafter).elim
  · rintro rfl
    exact .inl (.inl (.inl rfl))

theorem insertion_iff {ν : List Char} :
    insertion ν ∈ loading c.text ++ c.before ↔ ν ∈ nonemptyLines (c.text.getD []) := by
  simp only [loading, List.mem_append, List.mem_cons, List.mem_map]
  constructor
  · rintro ((heq | ⟨line, hline, heq⟩) | hbefore)
    · cases heq
    · cases heq
      exact hline
    · exact (c.beforeCheck _ hbefore).elim
  · exact fun hline => .inl (.inr ⟨ν, hline, rfl⟩)

theorem lookup_mem_after {ν : List Char} {known : Bool} (h : lookup ν known ∈ t) :
    lookup ν known ∈ c.after := by
  rcases c.mem_iff.mp h with ((heq | ⟨line, -, heq⟩) | hbefore) | hafter
  · cases heq
  · cases heq
  · exact (c.beforeCheck _ hbefore).elim
  · exact hafter

/-- The one membership test, and what follows it. -/
theorem lookup_unique {ν : List Char} {known : Bool} (h : lookup ν known ∈ t) :
    ν = c.nullifier ∧ ∃ rest, c.after = lookup c.nullifier known :: rest ∧
      (afterLookup c.nullifier known).Reaches rest q := by
  have hafter := c.lookup_mem_after h
  obtain ⟨known', rest, hrest, hreach⟩ := commitNullifier_reaches c.reaches hafter
  have hfirst : lookup ν known = lookup c.nullifier known' := by
    refine (List.mem_cons.mp (hrest ▸ hafter)).resolve_right fun hlater => ?_
    exact ((afterLookup_uses _ _).of_reaches hreach).2 _ hlater ν rfl
  cases hfirst
  exact ⟨rfl, rest, hrest, hreach⟩

/-- The answer of the membership test says whether the file that was loaded had the line. -/
theorem lookup_iff {database : Finset (List Char)} (hmem : Remembers t database)
    {ν : List Char} {known : Bool} (h : lookup ν known ∈ t) :
    known = true ↔ ν ∈ nonemptyLines (c.text.getD []) := by
  obtain ⟨rfl, rest, hrest, -⟩ := c.lookup_unique h
  have hsplit : t = (loading c.text ++ c.before) ++ lookup c.nullifier known :: rest := by
    rw [← hrest]
    exact c.events_eq
  exact (hmem.lookup_iff _ rest _ _ hsplit).trans c.insertion_iff

end Checking

/-! ## The file -/

section Interleavings

variable {ι : Type}

/-- A completed append of the nullifier: the file could be opened. -/
def Appended (launch : ι → Launch) (history : List (Label ι Mpc)) (nullifier : List Char) : Prop :=
  ∃ i, (launch i).env.appends = true ∧
    .act i ⟨.appendNullifierDatabase (nullifier ++ ['\n']), ()⟩ ∈ history

/-- The file consists of complete lines: those of the beginning and what has been appended. -/
structure FileInvariant (launch : ι → Launch) (disk : Disk) (history : List (Label ι Mpc))
    (now : Disk) : Prop where
  terminated : Terminated (now.getD [])
  mem_iff : ∀ ν, ν ∈ nonemptyLines (now.getD []) ↔
    ν ∈ nonemptyLines (disk.getD []) ∨ Appended launch history ν

variable {launch : ι → Launch} {disk : Disk} {history : List (Label ι Mpc)}

/-- Only nullifiers are appended, each on a line. -/
theorem append_isCommitment {args : SessionArgs} {t : List (Event Mpc)} {line : List Char}
    {next : Unit → Session (List Char)}
    (h : (serverMain args).Reaches t (.call (.appendNullifierDatabase line) next)) :
    ∃ nullifier, IsCommitment nullifier ∧ line = nullifier ++ ['\n'] := by
  obtain ⟨c, hafter⟩ := serverMain_checking (h.snoc ())
    (List.mem_append_right _ (List.mem_singleton_self _)) id id
  exact ⟨c.nullifier, c.isCommitment, c.commits hafter⟩

theorem appended_snoc_start {i : ι} {ν : List Char} :
    Appended launch (history ++ [.start i]) ν ↔ Appended launch history ν := by
  simp [Appended]

theorem appended_snoc_act {i : ι} {e : Event Mpc} {ν : List Char} :
    Appended launch (history ++ [.act i e]) ν ↔ Appended launch history ν ∨
      ((launch i).env.appends = true ∧ e = ⟨.appendNullifierDatabase (ν ++ ['\n']), ()⟩) := by
  simp only [Appended, List.mem_append, List.mem_singleton, Label.act.injEq]
  constructor
  · rintro ⟨j, happends, hold | ⟨rfl, rfl⟩⟩
    · exact .inl ⟨j, happends, hold⟩
    · exact .inr ⟨happends, rfl⟩
  · rintro (⟨j, happends, hold⟩ | ⟨happends, rfl⟩)
    · exact ⟨j, happends, .inl hold⟩
    · exact ⟨i, happends, .inr ⟨rfl, rfl⟩⟩

theorem serve_disk {env : Env} {o : Op} (ho : ∀ line, o ≠ .appendNullifierDatabase line)
    (m : Machine) : (serve env o m).2.disk = m.disk := by
  cases o <;> first | rfl | exact absurd rfl (ho _)

theorem FileInvariant.snoc {now : Disk} (h : FileInvariant launch disk history now) {i : ι}
    {t : List (Event Mpc)} {o : Op} {next : Mpc.Answer o → Session (List Char)}
    (hreach : (serverMain (launch i).args).Reaches t (.call o next)) (host : Host) :
    FileInvariant launch disk (history ++ [.act i ⟨o, (serve (launch i).env o ⟨host, now⟩).1⟩])
      (serve (launch i).env o ⟨host, now⟩).2.disk := by
  by_cases ho : ∀ line, o ≠ .appendNullifierDatabase line
  · rw [serve_disk ho]
    refine ⟨h.terminated, fun ν => ?_⟩
    rw [h.mem_iff, appended_snoc_act, or_iff_left (a := Appended launch history ν)]
    rintro ⟨-, heq⟩
    exact ho _ (congrArg Event.op heq)
  · obtain ⟨line, rfl⟩ := not_forall_not.mp ho
    obtain ⟨nullifier, hcommitment, rfl⟩ := append_isCommitment hreach
    have hline (ν : List Char) :
        (⟨.appendNullifierDatabase (nullifier ++ ['\n']), ()⟩ : Event Mpc) =
        ⟨.appendNullifierDatabase (ν ++ ['\n']), ()⟩ ↔ ν = nullifier := by
      simp [eq_comm]
    cases happends : (launch i).env.appends with
    | false =>
      refine ⟨by simpa [serve, happends] using h.terminated, fun ν => ?_⟩
      rw [appended_snoc_act, happends]
      simpa [serve, happends] using h.mem_iff ν
    | true =>
      have hdisk : (serve (launch i).env (.appendNullifierDatabase (nullifier ++ ['\n']))
          ⟨host, now⟩).2.disk = some (now.getD [] ++ (nullifier ++ ['\n'])) := by
        simp [serve, happends]
      rw [hdisk]
      refine ⟨h.terminated.append (terminated_line nullifier), fun ν => ?_⟩
      rw [Option.getD_some, nonemptyLines_append h.terminated, hcommitment.nonemptyLines,
        List.mem_append, List.mem_singleton, h.mem_iff, appended_snoc_act, serve, hline, happends,
        or_assoc]
      simp

/-! ## Every interleaving -/

variable [DecidableEq ι] {P : Pool ι Mpc Failure (List Char) Host Disk}

theorem fileInvariant_of_run (hdisk : Terminated (disk.getD []))
    (hrun : (cluster launch).Run disk history P) :
    FileInvariant launch disk history P.shared := by
  refine hrun.shared_induction (I := FileInvariant launch disk) ?_ ?_ ?_
  · exact ⟨hdisk, fun ν => by simp [Appended]⟩
  · intro history i now h
    exact ⟨h.terminated, fun ν => by rw [h.mem_iff, appended_snoc_start]⟩
  · intro history i t o next host now hreach h
    exact h.snoc hreach host

theorem remembers_of_run (hrun : (cluster launch).Run disk history P) {i : ι}
    {p : Session (List Char)} {host : Host} (hi : P.processes i = some (p, host)) :
    Remembers (eventsOf i history) host.nullifierDatabase := by
  exact hrun.process_induction (K := fun _ t _ host => Remembers t host.nullifierDatabase)
    (fun _ => remembers_start) (fun i t o next host now h => h.snoc (m := ⟨host, now⟩) _ o) hi

/-- What the membership test of a process depends on: the text that the process has read. -/
theorem lookup_of_run (hrun : (cluster launch).Run disk history P) {i : ι} {ν : List Char}
    {known : Bool} (h : .act i (lookup ν known) ∈ history) :
    ∃ text, (∀ text', .act i (reading text') ∈ history ↔ text' = text) ∧
      (known = true ↔ ν ∈ nonemptyLines (text.getD [])) := by
  rw [← mem_eventsOf] at h
  rcases hi : P.processes i with _ | ⟨p, host⟩
  · rw [hrun.eventsOf_eq_nil hi] at h
    simp at h
  · obtain ⟨c, -⟩ := serverMain_checking (hrun.reaches hi) h id id
    refine ⟨c.text, fun text' => ?_, c.lookup_iff (remembers_of_run hrun hi) h⟩
    rw [← mem_eventsOf]
    exact c.reading_iff

/-- A process reads the lines of the beginning and those appended before. -/
theorem reading_of_run (hdisk : Terminated (disk.getD [])) {h₁ h₂ : List (Label ι Mpc)} {i : ι}
    {text : Disk} (hrun : (cluster launch).Run disk (h₁ ++ .act i (reading text) :: h₂) P)
    (ν : List Char) : ν ∈ nonemptyLines (text.getD []) ↔
      ν ∈ nonemptyLines (disk.getD []) ∨ Appended launch h₁ ν := by
  obtain ⟨P₁, P₂, hearlier, hstep⟩ := hrun.before
  obtain ⟨next, host, -, htext⟩ := hstep.act_inv
  rw [show text = P₁.shared from htext]
  exact (fileInvariant_of_run hdisk hearlier).mem_iff ν

/-- ALICE's process `i` has found the nullifier new. -/
def FoundNew (launch : ι → Launch) (history : List (Label ι Mpc)) (i : ι) (ν : List Char) : Prop :=
  (launch i).args.party = .alice ∧ .act i (lookup ν false) ∈ history

/-- Whenever a process at ALICE tests a nullifier that another one has found new, an append
of it had completed when the process read the file. -/
def Orderly (launch : ι → Launch) (history : List (Label ι Mpc)) : Prop :=
  ∀ h h' i ν known, history = h ++ .act i (lookup ν known) :: h' →
    (launch i).args.party = .alice → (∃ j ≠ i, FoundNew launch h j ν) →
    ∃ h₁ text h₂, h = h₁ ++ .act i (reading text) :: h₂ ∧ Appended launch h₁ ν

theorem foundNew_of_accepts (hrun : (cluster launch).Run disk history P) {i : ι} {ν : List Char}
    (h : Accepts launch P i ν) : FoundNew launch history i ν := by
  obtain ⟨hparty, hne, host, hi⟩ := h
  refine ⟨hparty, mem_eventsOf.mp ?_⟩
  obtain ⟨t₁, t₂, ⟨⟩, ht, -, hexecute⟩ := (hrun.reaches hi).of_bind_ret
  obtain ⟨t₃, t₄, nullifier, rfl, -, hcommit⟩ := hexecute.of_bind_ret
  rw [commitNullifier_eq] at hcommit
  cases hcommit with
  | call hrest =>
    have hret := afterLookup_reaches_ret hrest
    split at hret
    · exact absurd hret hne
    · next hnew =>
      rw [hret, ht, ← Bool.eq_false_of_not_eq_true hnew]
      exact List.mem_append_right _ (List.mem_append_right _ List.mem_cons_self)

/-- A process that returns the empty string has not found its nullifier new. -/
theorem not_foundNew_of_rejected (hrun : (cluster launch).Run disk history P) {i : ι} {host : Host}
    (hi : P.processes i = some (.ret [], host)) (ν : List Char) :
    ¬FoundNew launch history i ν := by
  rintro ⟨-, hnew⟩
  rw [← mem_eventsOf] at hnew
  obtain ⟨c, -⟩ := serverMain_checking (hrun.reaches hi) hnew id id
  obtain ⟨-, rest, -, hreach⟩ := c.lookup_unique hnew
  exact c.isCommitment.ne_nil (afterLookup_reaches_ret hreach).symm

/-- Of two steps of a history, one comes first. -/
theorem mem_split_or {α : Type} {l : List α} {a b : α} (ha : a ∈ l) (hb : b ∈ l) (hab : a ≠ b) :
    (∃ h h', l = h ++ a :: h' ∧ b ∈ h) ∨ ∃ h h', l = h ++ b :: h' ∧ a ∈ h := by
  obtain ⟨h, h', rfl⟩ := List.append_of_mem ha
  rcases List.mem_append.mp hb with hmem | hmem
  · exact .inl ⟨h, h', rfl, hmem⟩
  · obtain ⟨k, k', rfl⟩ := List.append_of_mem ((List.mem_cons.mp hmem).resolve_left hab.symm)
    exact .inr ⟨h ++ a :: k, k', by simp, by simp⟩

/-- With the order kept, the second process reads the nullifier and rejects it. -/
theorem not_foundNew_second (hdisk : Terminated (disk.getD []))
    (hrun : (cluster launch).Run disk history P) (horderly : Orderly launch history) {i j : ι}
    (hij : j ≠ i) {ν : List Char} {h h' : List (Label ι Mpc)}
    (hsplit : history = h ++ .act i (lookup ν false) :: h') (hi : (launch i).args.party = .alice)
    (hj : FoundNew launch h j ν) : False := by
  obtain ⟨h₁, text, h₂, rfl, happended⟩ := horderly h h' i ν false hsplit hi ⟨j, hij, hj⟩
  obtain ⟨text', hread, hknown⟩ := lookup_of_run hrun
    (by rw [hsplit]; simp : .act i (lookup ν false) ∈ history)
  obtain rfl : text = text' := (hread text).mp (by rw [hsplit]; simp)
  rw [hsplit, List.append_assoc, List.cons_append] at hrun
  exact Bool.false_ne_true (hknown.mpr ((reading_of_run hdisk hrun ν).mpr (.inr happended)))

/-- A line of the first file is new to nobody. -/
theorem foundNew_notMem (hdisk : Terminated (disk.getD []))
    (hrun : (cluster launch).Run disk history P) {i : ι} {ν : List Char}
    (hi : FoundNew launch history i ν) : ν ∉ nonemptyLines (disk.getD []) := by
  intro hmem
  obtain ⟨text, hread, hknown⟩ := lookup_of_run hrun hi.2
  obtain ⟨h₁, h₂, rfl⟩ := List.append_of_mem ((hread text).mpr rfl)
  exact Bool.false_ne_true (hknown.mpr ((reading_of_run hdisk hrun ν).mpr (.inl hmem)))

/-- Processes keep the order exactly when each nullifier is new to one of them at most. -/
theorem orderly_iff (hdisk : Terminated (disk.getD []))
    (hrun : (cluster launch).Run disk history P) :
    Orderly launch history ↔ ∀ ν i j, FoundNew launch history i ν → FoundNew launch history j ν →
      i = j := by
  constructor
  · intro horderly ν i j hi hj
    by_contra hij
    have hne : Label.act (E := Mpc) i (lookup ν false) ≠ .act j (lookup ν false) := by
      simpa using hij
    rcases mem_split_or hi.2 hj.2 hne with ⟨h, h', hsplit, hmem⟩ | ⟨h, h', hsplit, hmem⟩
    · exact not_foundNew_second hdisk hrun horderly (Ne.symm hij) hsplit hi.1 ⟨hj.1, hmem⟩
    · exact not_foundNew_second hdisk hrun horderly hij hsplit hj.1 ⟨hi.1, hmem⟩
  · rintro hunique h h' i ν known rfl hi ⟨j, hji, hj⟩
    obtain ⟨P₁, P₂, hearlier, hstep⟩ := hrun.before
    have hknown : known = true := by
      by_contra hfalse
      rw [Bool.not_eq_true] at hfalse
      subst hfalse
      exact hji (hunique ν j i ⟨hj.1, List.mem_append_left _ hj.2⟩ ⟨hi, by simp⟩)
    obtain ⟨text, hread, hlines⟩ := lookup_of_run (hearlier.snoc hstep)
      (List.mem_append_right h (List.mem_singleton_self _))
    have hmem : .act i (reading text) ∈ h := by
      simpa using (hread text).mpr rfl
    obtain ⟨h₁, h₂, rfl⟩ := List.append_of_mem hmem
    refine ⟨h₁, text, h₂, rfl, ?_⟩
    exact ((reading_of_run hdisk hearlier ν).mp (hlines.mp hknown)).resolve_left
      (foundNew_notMem hdisk hearlier hj)

/-- In every run that keeps the order, each nullifier is accepted at most once. -/
theorem accepts_subsingleton (hdisk : Terminated (disk.getD []))
    (hrun : (cluster launch).Run disk history P) (horderly : Orderly launch history)
    (ν : List Char) : {i | Accepts launch P i ν}.Subsingleton :=
  fun i hi j hj => (orderly_iff hdisk hrun).mp horderly ν i j (foundNew_of_accepts hrun hi)
    (foundNew_of_accepts hrun hj)

end Interleavings

/-! ## Two sessions of one identity -/

/-- Every process runs a session of the identity `demoShard` at ALICE. -/
def demoProcesses (_ : ℕ) : Launch where
  env := demoEnv .alice [7]
  args := demoArgs demoCircuit demoShard

def demoNullifier : List Char :=
  commitment (demoEnv .alice [7]) demoCircuit
    (wires shaInLen fun i => (identityInput .alice demoShard).getD i false)

theorem identify_demoProcesses (i : ℕ) (m : Machine) :
    ((identify (demoProcesses i).args).run (serve (demoProcesses i).env) m).result =
      .ok demoNullifier := by
  obtain ⟨ν, hok⟩ := identify_demo (demoEnv_aesInstalled .alice [7])
    (demoEnv_passShard .alice [7]) demoCircuit demoShard m
  have hν := identify_result rfl hok
  rw [hν] at hok
  exact hok

theorem executeMpcLogic_demo_new (i : ℕ) {m : Machine}
    (hnew : demoNullifier ∉ m.host.nullifierDatabase) :
    ((executeMpcLogic (demoProcesses i).args).run (serve (demoProcesses i).env) m).result =
        .ok demoNullifier ∧
      ((executeMpcLogic (demoProcesses i).args).run (serve (demoProcesses i).env) m).state.disk =
        some (m.disk.getD [] ++ (demoNullifier ++ ['\n'])) := by
  obtain ⟨hstate, hresult, -⟩ := executeMpcLogic_run_of_new (identify_demoProcesses i m) hnew
  exact ⟨hresult, congrArg Prod.snd hstate⟩

theorem executeMpcLogic_demo_known (i : ℕ) {m : Machine}
    (hknown : demoNullifier ∈ m.host.nullifierDatabase) :
    ((executeMpcLogic (demoProcesses i).args).run (serve (demoProcesses i).env) m).result =
      .ok [] :=
  (executeMpcLogic_run_of_known (identify_demoProcesses i m) hknown).2

theorem insertLines_run (env : Env) (lines : List (List Char)) (m : Machine) :
    (lines.foldlM (fun _ line => perform (E := Mpc) (.nullifierInsert line)) () :
      Session Unit).run (serve env) m =
      ⟨.ok (), { m with host.nullifierDatabase := m.host.nullifierDatabase ∪ lines.toFinset },
        lines.map insertion⟩ := by
  induction lines generalizing m with
  | nil => simp
  | cons line lines ih =>
    rw [List.foldlM_cons, perform_bind, run_call, ih]
    simp [serve, Finset.union_insert, Finset.insert_union]

/-- `load_nullifier_database` adds the lines of the file to the set. -/
theorem loadNullifierDatabase_run (env : Env) (m : Machine) :
    loadNullifierDatabase.run (serve env) m =
      ⟨.ok (), { m with host.nullifierDatabase :=
        m.host.nullifierDatabase ∪ (nonemptyLines (m.disk.getD [])).toFinset },
        loading m.disk⟩ := by
  rw [loadNullifierDatabase, perform_bind, run_call, insertLines_run]
  rfl

/-- The machine behind `load_nullifier_database`. -/
def loaded (disk : Disk) : Machine :=
  ⟨{ Host.start with nullifierDatabase := (nonemptyLines (disk.getD [])).toFinset }, disk⟩

theorem mem_loaded {disk : Disk} {ν : List Char} :
    ν ∈ (loaded disk).host.nullifierDatabase ↔ ν ∈ nonemptyLines (disk.getD []) := by
  simp [loaded]

theorem loadNullifierDatabase_run_start (env : Env) (disk : Disk) :
    loadNullifierDatabase.run (serve env) ⟨Host.start, disk⟩ =
      ⟨.ok (), loaded disk, loading disk⟩ := by
  have hload := loadNullifierDatabase_run env ⟨Host.start, disk⟩
  rwa [show Host.start.nullifierDatabase = ∅ from rfl, Finset.empty_union] at hload

/-- The rest of `main` runs on the set that has been loaded. -/
theorem serverMain_run (args : SessionArgs) (env : Env) (disk : Disk) :
    (serverMain args).run (serve env) ⟨Host.start, disk⟩ =
      { (executeMpcLogic args).run (serve env) (loaded disk) with
        trace := loading disk ++
          ((executeMpcLogic args).run (serve env) (loaded disk)).trace } := by
  have hload := loadNullifierDatabase_run_start env disk
  have hok := congrArg Outcome.result hload
  rw [serverMain, run_bind_of_ok _ hok, hload]

theorem serverMain_result (args : SessionArgs) (env : Env) (disk : Disk) :
    ((serverMain args).run (serve env) ⟨Host.start, disk⟩).result =
      ((executeMpcLogic args).run (serve env) (loaded disk)).result := by
  rw [serverMain_run]

theorem serverMain_state (args : SessionArgs) (env : Env) (disk : Disk) :
    ((serverMain args).run (serve env) ⟨Host.start, disk⟩).state =
      ((executeMpcLogic args).run (serve env) (loaded disk)).state := by
  rw [serverMain_run]

theorem serverMain_demo_new (i : ℕ) (disk : Disk)
    (hnew : demoNullifier ∉ nonemptyLines (disk.getD [])) :
    ((serverMain (demoProcesses i).args).run (serve (demoProcesses i).env)
        ⟨Host.start, disk⟩).result = .ok demoNullifier ∧
      ((serverMain (demoProcesses i).args).run (serve (demoProcesses i).env)
        ⟨Host.start, disk⟩).state.disk = some (disk.getD [] ++ (demoNullifier ++ ['\n'])) := by
  rw [serverMain_result, serverMain_state]
  exact executeMpcLogic_demo_new i (mem_loaded.not.mpr hnew)

theorem serverMain_demo_known (i : ℕ) (disk : Disk)
    (hknown : demoNullifier ∈ nonemptyLines (disk.getD [])) :
    ((serverMain (demoProcesses i).args).run (serve (demoProcesses i).env)
        ⟨Host.start, disk⟩).result = .ok [] := by
  rw [serverMain_result]
  exact executeMpcLogic_demo_known i (mem_loaded.mpr hknown)

section Demo

variable {history : List (Label ℕ Mpc)} {P : Pool ℕ Mpc Failure (List Char) Host Disk}

/-- A process starts and reads the absent file. -/
theorem start_and_read (launch : ℕ → Launch) (hrun : (cluster launch).Run none history P)
    (hshared : P.shared = none) {i : ℕ} (hi : P.processes i = none) :
    ∃ history' P', (cluster launch).Run none history' P' ∧ P'.shared = none ∧
      P'.processes = Function.update P.processes i
        (some (executeMpcLogic (launch i).args, Host.start)) := by
  have hread := (hrun.snoc (.start hi)).snoc (.act (i := i) (o := Op.readNullifierDatabase)
    (Function.update_self ..))
  refine ⟨_, _, hread, hshared, ?_⟩
  simp only [Pool.set, Function.update_idem]
  rw [hshared]
  rfl

/-- Once it has read the absent file, a process finds its nullifier new and appends it, whatever
the others have done since. -/
theorem solo_finds_new {launch : ℕ → Launch} (hrun : (cluster launch).Run none history P) {i : ℕ}
    (hi : P.processes i = some (executeMpcLogic (launch i).args, Host.start)) {ν : List Char}
    (hν : ((identify (launch i).args).run (serve (launch i).env) ⟨Host.start, P.shared⟩).result =
      .ok ν) (hhonest : (launch i).env.cheated = false) (happends : (launch i).env.appends = true) :
    ∃ t P' host, (cluster launch).Run none (history ++ t) P' ∧ .act i (lookup ν false) ∈ t ∧
      P'.processes = Function.update P.processes i (some (.ret ν, host)) ∧
      P'.shared = some (P.shared.getD [] ++ (ν ++ ['\n'])) := by
  have hnew : ν ∉ Host.start.nullifierDatabase := Finset.notMem_empty _
  obtain ⟨hstate, hresult, -⟩ := executeMpcLogic_run_of_new hν hnew
  have hlookup := executeMpcLogic_lookup hν
  rw [decide_eq_false hnew] at hlookup
  have hok : ((executeMpcLogic (launch i).args).run (serve (launch i).env)
      ⟨Host.start, P.shared⟩).result = .ok ν := by
    rw [hresult, if_neg (by simp [hhonest])]
  have hsolo := hrun.solo hi (a := ν) (by rw [cluster_handler, cluster_state]; exact hok)
  refine ⟨_, _, _, hsolo, List.mem_map_of_mem hlookup, rfl, (congrArg Prod.snd hstate).trans ?_⟩
  exact if_pos happends

/-- Both processes read the absent file, then both run to their end. -/
theorem accepts_twice_of_overlap : ∃ history P, (cluster demoProcesses).Run none history P ∧
    Accepts demoProcesses P 0 demoNullifier ∧ Accepts demoProcesses P 1 demoNullifier := by
  have hne : demoNullifier ≠ [] := IsCommitment.ne_nil ⟨_, rfl⟩
  obtain ⟨_, P₁, hrun₁, hshared₁, hP₁⟩ := start_and_read demoProcesses (i := 0) .init rfl rfl
  obtain ⟨_, P₂, hrun₂, hshared₂, hP₂⟩ := start_and_read demoProcesses (i := 1) hrun₁ hshared₁
    (by rw [hP₁]; rfl)
  obtain ⟨_, P₃, host₀, hrun₃, -, hP₃, -⟩ := solo_finds_new (i := 0) hrun₂ (by rw [hP₂, hP₁]; rfl)
    (identify_demoProcesses 0 _) rfl rfl
  obtain ⟨_, P₄, host₁, hrun₄, -, hP₄, -⟩ := solo_finds_new (i := 1) hrun₃ (by rw [hP₃, hP₂]; rfl)
    (identify_demoProcesses 1 _) rfl rfl
  refine ⟨_, P₄, hrun₄, ⟨rfl, hne, host₀, ?_⟩, ⟨rfl, hne, host₁, ?_⟩⟩
  · rw [hP₄, hP₃]
    rfl
  · rw [hP₄]
    rfl

/-- The processes run one after the other: the second reads the nullifier of the first. -/
theorem accepts_subsingleton_of_sequence : ∃ history P,
    (cluster demoProcesses).Run none history P ∧ Accepts demoProcesses P 0 demoNullifier ∧
      {i | Accepts demoProcesses P i demoNullifier}.Subsingleton := by
  have hcommitment : IsCommitment demoNullifier := ⟨_, rfl⟩
  obtain ⟨hok₀, hdisk₀⟩ := serverMain_demo_new 0 none (by simp [nonemptyLines])
  generalize hm₀ : ((serverMain (demoProcesses 0).args).run (serve (demoProcesses 0).env)
    ⟨Host.start, none⟩).state = m₀ at hdisk₀
  obtain ⟨_, hrun₀⟩ := (System.Run.init (S := cluster demoProcesses)).start_solo
    (i := 0) rfl hok₀ hm₀
  have hok₁ := serverMain_demo_known 1 m₀.disk (by simp [hdisk₀, hcommitment.nonemptyLines])
  obtain ⟨history, hrun₁⟩ := hrun₀.start_solo (i := 1) (by simp [Pool.set]) hok₁ rfl
  refine ⟨history, _, hrun₁, ⟨rfl, hcommitment.ne_nil, _, rfl⟩, ?_⟩
  refine accepts_subsingleton (.inl rfl) hrun₁ ?_ demoNullifier
  refine (orderly_iff (.inl rfl) hrun₁).mpr fun ν i j hi hj => ?_
  have honly (k : ℕ) (hk : FoundNew demoProcesses history k ν) : k = 0 := by
    rcases k with _ | _ | k
    · rfl
    · exact absurd hk (not_foundNew_of_rejected hrun₁ (Function.update_self ..) ν)
    · have hevents := hrun₁.eventsOf_eq_nil (i := k + 2) (by simp [Pool.set])
      exact absurd (mem_eventsOf.mpr hk.2) (by simp [hevents])
  rw [honly i hi, honly j hj]

end Demo

end Freehold.Server
