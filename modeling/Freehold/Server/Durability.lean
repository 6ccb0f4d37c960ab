import Freehold.Server.Acceptance

/-!
# Crashes of the server

A process may stop after any of its operations, and an append that it is in may leave any
part of its line in the file. Processes run one after the other on what the earlier ones have
left. A line that follows a torn one is glued to it and lost.
-/

namespace Freehold.Server

open Interaction Interaction.Program

/-! ## Lives of a process -/

/-- A process that performs `ops` operations and stops. If the next one is an append, `torn`
says how much of it has got to the file; `none` if the file had not been opened. -/
structure Life where
  launch : Launch
  ops : ℕ
  torn : Option ℕ

/-- What a crash before, or in the midst of, the next operation leaves of it. -/
def tornWrite (env : Env) (torn : Option ℕ) (disk : Disk) : Session (List Char) → Disk
  | .call (.appendNullifierDatabase line) _ =>
    match torn with
    | some bytes => if env.appends then some (disk.getD [] ++ line.take bytes) else disk
    | none => disk
  | _ => disk

/-- The call `save_nullifier(nullifier)`, completed. -/
abbrev save (nullifier : List Char) : Event Mpc :=
  ⟨.appendNullifierDatabase (nullifier ++ ['\n']), ()⟩

namespace Life

variable (life : Life) (disk : Disk)

def halt : Halt Mpc Failure (List Char) Machine :=
  (serverMain life.launch.args).halt (serve life.launch.env) life.ops ⟨Host.start, disk⟩

/-- The file that the process leaves. -/
def leaves : Disk :=
  tornWrite life.launch.env life.torn (life.halt disk).state.disk (life.halt disk).rest

def Saves (nullifier : List Char) : Prop := save nullifier ∈ (life.halt disk).trace

variable {life : Life} {disk : Disk} {ν : List Char}

theorem halt_text (life : Life) (disk : Disk) : (life.halt disk).state.disk.getD [] =
    disk.getD [] ++ (life.halt disk).trace.flatMap (written life.launch.env) := by
  refine halt_induction (K := fun t (m : Machine) => m.disk.getD [] =
    disk.getD [] ++ t.flatMap (written life.launch.env)) ?_ _ _ (by simp)
  intro t o m h
  rw [serve_text, h]
  simp

theorem tornWrite_text (env : Env) (torn : Option ℕ) (disk : Disk) (p : Session (List Char)) :
    ∃ rest, (tornWrite env torn disk p).getD [] = disk.getD [] ++ rest := by
  unfold tornWrite
  split
  · split
    · split
      · exact ⟨_, rfl⟩
      · exact ⟨[], (List.append_nil _).symm⟩
    · exact ⟨[], (List.append_nil _).symm⟩
  · exact ⟨[], (List.append_nil _).symm⟩

/-- A process only adds to the file. -/
theorem leaves_text (life : Life) (disk : Disk) :
    ∃ rest, (life.leaves disk).getD [] = disk.getD [] ++ rest := by
  obtain ⟨rest, hrest⟩ := tornWrite_text life.launch.env life.torn (life.halt disk).state.disk
    (life.halt disk).rest
  rw [leaves, hrest, life.halt_text, List.append_assoc]
  exact ⟨_, rfl⟩

theorem remembers (life : Life) (disk : Disk) :
    Remembers (life.halt disk).trace (life.halt disk).state.host.nullifierDatabase := by
  exact halt_induction (K := fun t (m : Machine) => Remembers t m.host.nullifierDatabase)
    (fun t o m h => h.snoc _ o) _ _ remembers_start

/-- A process that has done anything has first read the file. -/
theorem text_eq_disk {q : Session (List Char)} (c : Checking (life.halt disk).trace q) :
    c.text = disk := by
  obtain ⟨text, before, nullifier, after, -, -, -, htrace⟩ := c
  rw [Life.halt, serverMain, loadNullifierDatabase, perform_bind, call_bind] at htrace
  cases hops : life.ops with
  | zero =>
    rw [hops] at htrace
    simp [Program.halt, loading] at htrace
  | succ n =>
    rw [hops] at htrace
    have hfirst := (List.cons.inj htrace).1
    simpa [serve] using hfirst.symm

/-- A check that has saved a nullifier has found it new, and is done with the file. -/
theorem afterLookup_saves {nullifier : List Char} {known : Bool} {t : List (Event Mpc)}
    {q : Session (List Char)} (h : (afterLookup nullifier known).Reaches t q) (hmem : save ν ∈ t)
    (env : Env) (torn : Option ℕ) :
    known = false ∧ ν = nullifier ∧
      t.flatMap (written env) = (if env.appends then nullifier ++ ['\n'] else []) ∧
      ∀ disk, tornWrite env torn disk q = disk := by
  simp only [afterLookup, saveNullifier, perform_bind, pure_eq] at h
  cases known with
  | true =>
    obtain _ | ⟨hrest⟩ := h
    · cases hmem
    · obtain ⟨rfl, -⟩ := hrest.ret_inv
      simp at hmem
  | false =>
    obtain _ | ⟨_ | ⟨_ | @⟨_, _, cheated, _, _, hrest⟩⟩⟩ := h
    · cases hmem
    · simp at hmem
    · simp_all [written, tornWrite]
    · cases cheated with
      | true =>
        cases hrest
        simp_all [written, tornWrite]
      | false =>
        obtain ⟨rfl, rfl⟩ := hrest.ret_inv
        simp_all [written, tornWrite]

/-- A process that has saved a nullifier had not found it in the file, and has added its line
and nothing else. -/
theorem saves_spec (h : life.Saves disk ν) :
    IsCommitment ν ∧ ν ∉ nonemptyLines (disk.getD []) ∧
      (life.leaves disk).getD [] =
        disk.getD [] ++ if life.launch.env.appends then ν ++ ['\n'] else [] := by
  obtain ⟨c, hafter⟩ := serverMain_checking (halt_reaches ..) h id id
  obtain ⟨known, rest, hrest, hreach⟩ := commitNullifier_reaches c.reaches hafter
  have hmem : save ν ∈ rest := by simpa [hrest] using hafter
  obtain ⟨rfl, rfl, hwritten, htorn⟩ :=
    afterLookup_saves hreach hmem life.launch.env life.torn
  refine ⟨c.isCommitment, ?_, ?_⟩
  · have hlookup : lookup c.nullifier false ∈ (life.halt disk).trace :=
      c.mem_iff.mpr (.inr (by simp [hrest]))
    have hknown := c.lookup_iff (life.remembers disk) hlookup
    rw [text_eq_disk c] at hknown
    exact fun hline => Bool.false_ne_true (hknown.mpr hline)
  · have htext : (life.leaves disk).getD [] = (life.halt disk).state.disk.getD [] :=
      congrArg (Option.getD · []) (htorn _)
    have hloading : (loading c.text).flatMap (written life.launch.env) = [] :=
      flatMap_written_eq_nil fun e he => .inl (loads_of_mem_loading he)
    have hbefore : c.before.flatMap (written life.launch.env) = [] :=
      flatMap_written_eq_nil fun e he => .inr (c.beforeCheck e he)
    have hevents : (life.halt disk).trace = loading c.text ++ c.before ++ c.after := c.events_eq
    rw [htext, life.halt_text, hevents, hrest, List.flatMap_append, List.flatMap_append, hloading,
      hbefore, List.flatMap_cons, hwritten]
    rfl

end Life

/-! ## Torn lines -/

/-- A text is some complete lines and the beginning of one more. -/
theorem exists_torn (text : List Char) :
    ∃ front part, text = front ++ part ∧ Terminated front ∧ '\n' ∉ part := by
  induction text using List.reverseRecOn with
  | nil => exact ⟨[], [], rfl, .inl rfl, List.not_mem_nil⟩
  | append_singleton text c ih =>
    obtain ⟨front, part, rfl, hfront, hpart⟩ := ih
    by_cases hc : c = '\n'
    · subst hc
      exact ⟨front ++ part ++ ['\n'], [], (List.append_nil _).symm, terminated_line _,
        List.not_mem_nil⟩
    · refine ⟨front, part ++ [c], List.append_assoc .., hfront, ?_⟩
      simpa [hpart] using Ne.symm hc

/-- A nullifier that is appended behind a torn line is glued to it. -/
theorem notMem_nonemptyLines_of_torn {text ν : List Char} (htext : ¬Terminated text)
    (hν : IsCommitment ν) (hnew : ν ∉ nonemptyLines text) :
    ν ∉ nonemptyLines (text ++ (ν ++ ['\n'])) := by
  obtain ⟨front, part, rfl, hfront, hpart⟩ := exists_torn text
  have hne : part ≠ [] := by
    rintro rfl
    exact htext (by simpa using hfront)
  rw [nonemptyLines_append hfront] at hnew
  have hglued : nonemptyLines ((part ++ ν) ++ ['\n']) = [part ++ ν] :=
    nonemptyLines_line (by simp [hne]) (by simp [hpart, hν.newline_notMem])
  rw [List.append_assoc, ← List.append_assoc part, nonemptyLines_append hfront, hglued,
    List.mem_append, List.mem_singleton, not_or]
  refine ⟨fun hmem => hnew (List.mem_append_left _ hmem), fun heq => hne ?_⟩
  exact List.self_eq_append_left.mp heq

/-! ## Any number of lives -/

/-- The file after some processes. -/
def diskAfterLives (disk : Disk) (lives : List Life) : Disk :=
  lives.foldl (fun disk life => life.leaves disk) disk

theorem diskAfterLives_append (disk : Disk) (lives lives' : List Life) :
    diskAfterLives disk (lives ++ lives') = diskAfterLives (diskAfterLives disk lives) lives' :=
  List.foldl_append ..

@[simp] theorem diskAfterLives_cons (disk : Disk) (life : Life) (lives : List Life) :
    diskAfterLives disk (life :: lives) = diskAfterLives (life.leaves disk) lives := rfl

theorem diskAfterLives_text (disk : Disk) (lives : List Life) :
    ∃ rest, (diskAfterLives disk lives).getD [] = disk.getD [] ++ rest := by
  induction lives generalizing disk with
  | nil => exact ⟨[], (List.append_nil _).symm⟩
  | cons life lives ih =>
    obtain ⟨rest, hrest⟩ := life.leaves_text disk
    obtain ⟨rest', hrest'⟩ := ih (life.leaves disk)
    exact ⟨rest ++ rest', by rw [diskAfterLives_cons, hrest', hrest, List.append_assoc]⟩

/-- Each nullifier whose `save_nullifier` completed is in the set that any later
`load_nullifier_database` builds. -/
def Durable (disk : Disk) (lives : List Life) : Prop :=
  ∀ before life between after ν, lives = before ++ life :: (between ++ after) →
    life.Saves (diskAfterLives disk before) ν →
    ∀ env, ν ∈ (loadNullifierDatabase.run (serve env)
      ⟨Host.start, diskAfterLives disk (before ++ life :: between)⟩).state.host.nullifierDatabase

theorem durable_iff_lines {disk : Disk} {lives : List Life} : Durable disk lives ↔
    ∀ before life between after ν, lives = before ++ life :: (between ++ after) →
      life.Saves (diskAfterLives disk before) ν →
      ν ∈ nonemptyLines ((diskAfterLives disk (before ++ life :: between)).getD []) := by
  constructor
  · intro h before life between after ν hlives hsaves
    simpa only [loadNullifierDatabase_run_start, mem_loaded]
      using h before life between after ν hlives hsaves life.launch.env
  · intro h before life between after ν hlives hsaves env
    simpa only [loadNullifierDatabase_run_start, mem_loaded]
      using h before life between after ν hlives hsaves

/-- A saved line survives exactly if it has got to the file, behind complete lines. -/
theorem Life.Saves.mem_iff {life : Life} {disk : Disk} {ν : List Char} (h : life.Saves disk ν) :
    ν ∈ nonemptyLines ((life.leaves disk).getD []) ↔
      life.launch.env.appends = true ∧ Terminated (disk.getD []) := by
  obtain ⟨hν, hnew, htext⟩ := Life.saves_spec h
  rw [htext]
  cases life.launch.env.appends with
  | false => simpa using hnew
  | true =>
    by_cases hterminated : Terminated (disk.getD [])
    · simp [nonemptyLines_append hterminated, hν.nonemptyLines, hterminated]
    · simpa [hterminated] using notMem_nonemptyLines_of_torn hterminated hν hnew

/-- Every saved nullifier survives exactly if each save could open the file and found it empty or
at the end of a line. -/
theorem durable_iff (disk : Disk) (lives : List Life) :
    Durable disk lives ↔
      ∀ before life after ν, lives = before ++ life :: after →
        life.Saves (diskAfterLives disk before) ν →
        life.launch.env.appends = true ∧ Terminated ((diskAfterLives disk before).getD []) := by
  rw [durable_iff_lines]
  constructor
  · intro h before life after ν hlives hsaves
    have hline := h before life [] after ν hlives hsaves
    rw [diskAfterLives_append, diskAfterLives_cons] at hline
    exact hsaves.mem_iff.mp hline
  · intro h before life between after ν hlives hsaves
    have hfile := h before life (between ++ after) ν hlives hsaves
    have hline := hsaves.mem_iff.mpr hfile
    obtain ⟨rest, hrest⟩ := diskAfterLives_text (life.leaves (diskAfterLives disk before)) between
    have hterminated : Terminated ((life.leaves (diskAfterLives disk before)).getD []) := by
      rw [(Life.saves_spec hsaves).2.2, if_pos hfile.1]
      exact hfile.2.append (terminated_line ν)
    rw [diskAfterLives_append, diskAfterLives_cons, hrest, nonemptyLines_append hterminated]
    exact List.mem_append_left _ hline

/-! ## A crash in the midst of an append -/

/-- The events of a session that finds its nullifier new. -/
theorem serverMain_trace_of_new (launch : Launch) (disk : Disk) {ν : List Char}
    (h : ((identify launch.args).run (serve launch.env) (loaded disk)).result = .ok ν)
    (hnew : ν ∉ nonemptyLines (disk.getD [])) :
    ∃ t e, ((serverMain launch.args).run (serve launch.env) ⟨Host.start, disk⟩).trace =
      t ++ save ν :: [e] ∧ t.flatMap (written launch.env) = [] := by
  have hdatabase := congrArg Prod.fst
    (nullifierState_identify launch.args launch.env (loaded disk))
  simp only [nullifierState] at hdatabase
  have hnew' : ν ∉ ((identify launch.args).run (serve launch.env)
      (loaded disk)).state.host.nullifierDatabase := by
    rw [hdatabase]
    exact mem_loaded.not.mpr hnew
  have htrace := congrArg Outcome.trace
    (@commitNullifier_run_of_not_mem launch.env _ _ hnew')
  refine ⟨loading disk ++ (((identify launch.args).run (serve launch.env) (loaded disk)).trace ++
    [lookup ν false, insertion ν]), ⟨.finalizeZkBool, launch.env.cheated⟩, ?_, ?_⟩
  · rw [serverMain_run, executeMpcLogic, run_bind_of_ok _ h]
    simp only [htrace, List.append_assoc, List.cons_append, List.nil_append]
  · have hloading : (loading disk).flatMap (written launch.env) = [] :=
      flatMap_written_eq_nil fun e he => .inl (loads_of_mem_loading he)
    have hidentify : (((identify launch.args).run (serve launch.env)
        (loaded disk)).trace).flatMap (written launch.env) = [] :=
      flatMap_written_eq_nil fun e he => .inr ((identify_uses _).of_mem_trace he)
    simp [List.flatMap_append, hloading, hidentify, written]

/-- The first session of the identity `demoShard` crashes when one byte of its line is in the
file. -/
theorem exists_torn_demo : ∃ ops c, c ≠ '\n' ∧
    ((⟨demoProcesses 0, ops, some 1⟩ : Life).leaves none).getD [] = [c] := by
  have hcommitment : IsCommitment demoNullifier := ⟨_, rfl⟩
  obtain ⟨c, line, hline⟩ := List.exists_cons_of_ne_nil hcommitment.ne_nil
  obtain ⟨t, e, htrace, hwritten⟩ := serverMain_trace_of_new (demoProcesses 0) none
    (identify_demoProcesses 0 _) (by simp [nonemptyLines])
  obtain ⟨next, hrest, hhalt⟩ := exists_halt htrace
  refine ⟨t.length, c, ?_, ?_⟩
  · rintro rfl
    exact hcommitment.newline_notMem (by simp [hline])
  · have htext := Life.halt_text ⟨demoProcesses 0, t.length, some 1⟩ none
    rw [Life.halt, hhalt, hwritten] at htext
    have hleaves : (⟨demoProcesses 0, t.length, some 1⟩ : Life).leaves none = some
        ((Life.halt ⟨demoProcesses 0, t.length, some 1⟩ none).state.disk.getD [] ++
          (demoNullifier ++ ['\n']).take 1) := by
      rw [Life.leaves, Life.halt, hrest]
      rfl
    rw [hleaves, Option.getD_some, Life.halt, htext, hline]
    rfl

/-- The second session saves the nullifier if the file does not have it. -/
theorem exists_saves_demo {disk : Disk} (hnew : demoNullifier ∉ nonemptyLines (disk.getD [])) :
    ∃ ops, (⟨demoProcesses 1, ops, none⟩ : Life).Saves disk demoNullifier := by
  obtain ⟨t, e, htrace, -⟩ := serverMain_trace_of_new (demoProcesses 1) disk
    (identify_demoProcesses 1 _) hnew
  refine ⟨(t ++ save demoNullifier :: [e]).length, ?_⟩
  rw [Life.Saves, Life.halt, (halt_eq_run (by rw [htrace])).1, htrace]
  simp

theorem not_terminated_singleton {c : Char} (hc : c ≠ '\n') : ¬Terminated [c] := by
  rintro (hnil | ⟨front, hfront⟩)
  · cases hnil
  · have hlast := List.append_inj' (show [] ++ [c] = front ++ ['\n'] from hfront) rfl
    exact hc (List.singleton_inj.mp hlast.2)

/-- The second process appends its line behind the torn one: the line that the next process reads
is not the nullifier. -/
theorem not_durable_of_torn : ∃ ops ops', ¬Durable none
    [⟨demoProcesses 0, ops, some 1⟩, ⟨demoProcesses 1, ops', none⟩] := by
  have hlength : demoNullifier.length = 64 := length_computeHashToHex ..
  obtain ⟨ops, c, hc, hfile⟩ := exists_torn_demo
  generalize hfirst : (⟨demoProcesses 0, ops, some 1⟩ : Life) = first at hfile
  have hlines : nonemptyLines [c] = [[c]] := by
    simp [nonemptyLines, List.splitOn_eq_singleton, Ne.symm hc]
  have hnew : demoNullifier ∉ nonemptyLines ((first.leaves none).getD []) := by
    rw [hfile, hlines, List.mem_singleton]
    intro heq
    simp [heq] at hlength
  obtain ⟨ops', hsaves⟩ := exists_saves_demo hnew
  refine ⟨ops, ops', fun hdurable => ?_⟩
  rw [durable_iff_lines, hfirst] at hdurable
  have hsurvives := hdurable [first] _ [] [] demoNullifier rfl hsaves
  have hterminated := (hsaves.mem_iff.mp hsurvives).2
  rw [hfile] at hterminated
  exact not_terminated_singleton hc hterminated

end Freehold.Server
