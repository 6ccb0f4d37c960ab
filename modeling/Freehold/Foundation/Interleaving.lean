import Freehold.Foundation.Interaction

/-!
# Programs that run side by side

A `System` has one program for each process name. Every process has a memory of its own,
and all act on one shared state; the operations are the atomic steps. A process that
crashes takes no further step, and a restart is the start of a new process.

A `Run` lists the steps in the order in which they happened. Seen from one process, it is
a partial execution of its program (`Run.reaches`).
-/

namespace Interaction

/-- A handler acts on the memory of its process and the shared state together. -/
structure System (ι : Type) (E : Interface) (ε α σ own common : Type) where
  code : ι → Program E ε α
  handler : ι → Handler E σ
  state : own × common ≃ σ
  /-- The memory of a process that has just started. -/
  fresh : own

/-- The processes that have been started, with what each has left to do. -/
structure Pool (ι : Type) (E : Interface) (ε α own common : Type) where
  processes : ι → Option (Program E ε α × own)
  shared : common

inductive Label (ι : Type) (E : Interface) where
  | start (i : ι)
  | act (i : ι) (event : Event E)

variable {ι : Type} [DecidableEq ι] {E : Interface} {ε α σ own common : Type}

/-- `i` goes on with `p` and the state `s`. -/
def Pool.set (P : Pool ι E ε α own common) (S : System ι E ε α σ own common) (i : ι)
    (p : Program E ε α) (s : σ) : Pool ι E ε α own common where
  processes := Function.update P.processes i (some (p, (S.state.symm s).1))
  shared := (S.state.symm s).2

namespace System

variable (S : System ι E ε α σ own common)

inductive Step : Pool ι E ε α own common → Label ι E → Pool ι E ε α own common → Prop where
  | start {P : Pool ι E ε α own common} {i : ι} (h : P.processes i = none) :
      Step P (.start i) ⟨Function.update P.processes i (some (S.code i, S.fresh)), P.shared⟩
  | act {P : Pool ι E ε α own common} {i : ι} {o : E.Op} {next : E.Answer o → Program E ε α}
      {m : own} (h : P.processes i = some (.call o next, m)) :
      Step P (.act i ⟨o, (S.handler i o (S.state (m, P.shared))).1⟩)
        (P.set S i (next (S.handler i o (S.state (m, P.shared))).1)
          (S.handler i o (S.state (m, P.shared))).2)

/-- The steps that lead from no process and the shared state `s₀` to a pool. -/
inductive Run (s₀ : common) : List (Label ι E) → Pool ι E ε α own common → Prop where
  | init : Run s₀ [] ⟨fun _ => none, s₀⟩
  | snoc {history P l P'} : Run s₀ history P → S.Step P l P' → Run s₀ (history ++ [l]) P'

end System

theorem System.Step.act_inv {S : System ι E ε α σ own common} {P P' : Pool ι E ε α own common}
    {i : ι} {e : Event E} (h : S.Step P (.act i e) P') :
    ∃ next m, P.processes i = some (.call e.op next, m) ∧
      e.answer = (S.handler i e.op (S.state (m, P.shared))).1 := by
  generalize hl : Label.act i e = l at h
  cases h with
  | start _ => cases hl
  | act hi =>
    cases hl
    exact ⟨_, _, hi, rfl⟩

/-- The event of a step, if `i` took it. -/
def Label.eventOf (i : ι) : Label ι E → Option (Event E)
  | .start _ => none
  | .act j event => if j = i then some event else none

/-- What `i` did. -/
def eventsOf (i : ι) (history : List (Label ι E)) : List (Event E) :=
  history.filterMap (Label.eventOf i)

theorem Label.eventOf_eq_some_iff {i : ι} {l : Label ι E} {event : Event E} :
    l.eventOf i = some event ↔ l = .act i event := by
  cases l with
  | start j => simp [Label.eventOf]
  | act j e =>
    simp only [Label.eventOf, Option.ite_none_right_eq_some, Option.some.injEq, Label.act.injEq]

theorem mem_eventsOf {i : ι} {history : List (Label ι E)} {event : Event E} :
    event ∈ eventsOf i history ↔ .act i event ∈ history := by
  simp only [eventsOf, List.mem_filterMap, Label.eventOf_eq_some_iff, exists_eq_right]

@[simp] theorem eventsOf_snoc_start (i j : ι) (history : List (Label ι E)) :
    eventsOf i (history ++ [.start j]) = eventsOf i history := by
  simp [eventsOf, List.filterMap_cons, Label.eventOf]

@[simp] theorem eventsOf_snoc_act (i : ι) (history : List (Label ι E)) (event : Event E) :
    eventsOf i (history ++ [.act i event]) = eventsOf i history ++ [event] := by
  simp [eventsOf, Label.eventOf]

theorem eventsOf_snoc_of_ne {i j : ι} (hij : i ≠ j) (history : List (Label ι E))
    (event : Event E) : eventsOf i (history ++ [.act j event]) = eventsOf i history := by
  simp [eventsOf, Label.eventOf, hij.symm]

namespace System.Run

variable {S : System ι E ε α σ own common} {s₀ : common} {history : List (Label ι E)}
  {P : Pool ι E ε α own common}

theorem snoc_inv {l : Label ι E} (hrun : S.Run s₀ (history ++ [l]) P) :
    ∃ P₁, S.Run s₀ history P₁ ∧ S.Step P₁ l P := by
  generalize hl : history ++ [l] = history' at hrun
  cases hrun with
  | init => exact absurd hl (List.append_ne_nil_of_right_ne_nil _ (List.cons_ne_nil _ _))
  | snoc hrun hstep =>
    obtain ⟨rfl, hlast⟩ := List.append_inj' hl rfl
    cases hlast
    exact ⟨_, hrun, hstep⟩

/-- The state of affairs when a step of the history was taken. -/
theorem before {h₁ h₂ : List (Label ι E)} {l : Label ι E} (hrun : S.Run s₀ (h₁ ++ l :: h₂) P) :
    ∃ P₁ P₂, S.Run s₀ h₁ P₁ ∧ S.Step P₁ l P₂ := by
  induction h₂ using List.reverseRecOn generalizing P with
  | nil =>
    obtain ⟨P₁, hearlier, hstep⟩ := hrun.snoc_inv
    exact ⟨P₁, P, hearlier, hstep⟩
  | append_singleton h₂ l' ih =>
    rw [← List.cons_append, ← List.append_assoc] at hrun
    obtain ⟨P', hearlier, -⟩ := hrun.snoc_inv
    exact ih hearlier

/-- A process that has not been started has done nothing. -/
theorem eventsOf_eq_nil (hrun : S.Run s₀ history P) {i : ι} (hi : P.processes i = none) :
    eventsOf i history = [] := by
  induction hrun with
  | init => rfl
  | snoc _ hstep ih =>
    cases hstep with
    | @start j hj =>
      by_cases hij : i = j
      · subst hij
        simp at hi
      · rw [eventsOf_snoc_start]
        exact ih (by simpa only [Function.update_of_ne hij] using hi)
    | @act j o next m hj =>
      by_cases hij : i = j
      · subst hij
        simp [Pool.set] at hi
      · rw [eventsOf_snoc_of_ne hij]
        exact ih (by simpa only [Pool.set, Function.update_of_ne hij] using hi)

/-- What holds of a fresh process and is kept by its own steps holds of every process:
`K i t p m` speaks of the events `t` so far, the program `p` left and the memory `m`. -/
theorem process_induction {K : ι → List (Event E) → Program E ε α → own → Prop}
    (hfresh : ∀ i, K i [] (S.code i) S.fresh)
    (hact : ∀ i t o next m s, K i t (.call o next) m →
      K i (t ++ [⟨o, (S.handler i o (S.state (m, s))).1⟩]) (next (S.handler i o (S.state (m, s))).1)
        (S.state.symm (S.handler i o (S.state (m, s))).2).1)
    (hrun : S.Run s₀ history P) {i : ι} {p : Program E ε α} {m : own}
    (hi : P.processes i = some (p, m)) : K i (eventsOf i history) p m := by
  induction hrun generalizing p m with
  | init => cases hi
  | snoc hrun hstep ih =>
    cases hstep with
    | @start j hj =>
      rw [eventsOf_snoc_start]
      by_cases hij : i = j
      · subst hij
        simp only [Function.update_self, Option.some.injEq, Prod.mk.injEq] at hi
        rw [← hi.1, ← hi.2, hrun.eventsOf_eq_nil hj]
        exact hfresh i
      · exact ih (by simpa only [Function.update_of_ne hij] using hi)
    | @act j o next m' hj =>
      by_cases hij : i = j
      · subst hij
        simp only [Pool.set, Function.update_self, Option.some.injEq, Prod.mk.injEq] at hi
        rw [eventsOf_snoc_act, ← hi.1, ← hi.2]
        exact hact i _ o next m' _ (ih hj)
      · rw [eventsOf_snoc_of_ne hij]
        exact ih (by simpa only [Pool.set, Function.update_of_ne hij] using hi)

/-- Every process executes its program. -/
theorem reaches (hrun : S.Run s₀ history P) {i : ι} {p : Program E ε α} {m : own}
    (hi : P.processes i = some (p, m)) : (S.code i).Reaches (eventsOf i history) p :=
  hrun.process_induction (K := fun i t p _ => (S.code i).Reaches t p) (fun _ => .refl _)
    (fun _ _ _ _ _ _ hreach => hreach.snoc _) hi

/-- What holds of the shared state at first, and is kept by the operations of the processes,
holds after every run. -/
theorem shared_induction {I : List (Label ι E) → common → Prop} (hinit : I [] s₀)
    (hstart : ∀ history i s, I history s → I (history ++ [.start i]) s)
    (hact : ∀ history i t o next m s, (S.code i).Reaches t (.call o next) → I history s →
      I (history ++ [.act i ⟨o, (S.handler i o (S.state (m, s))).1⟩])
        (S.state.symm (S.handler i o (S.state (m, s))).2).2)
    (hrun : S.Run s₀ history P) : I history P.shared := by
  induction hrun with
  | init => exact hinit
  | snoc hrun hstep ih =>
    cases hstep with
    | start hi => exact hstart _ _ _ ih
    | act hi => exact hact _ _ _ _ _ _ _ (hrun.reaches hi) ih

/-- A process can run to its end with nobody else taking a step. -/
theorem solo {p : Program E ε α} {i : ι} {m : own} {a : α} (hrun : S.Run s₀ history P)
    (hi : P.processes i = some (p, m))
    (ha : (p.run (S.handler i) (S.state (m, P.shared))).result = .ok a) :
    S.Run s₀ (history ++ (p.run (S.handler i) (S.state (m, P.shared))).trace.map (Label.act i))
      (P.set S i (.ret a) (p.run (S.handler i) (S.state (m, P.shared))).state) := by
  induction p generalizing history P m with
  | throw e => cases ha
  | ret b =>
    obtain rfl : b = a := by simpa using ha
    have hP : P.set S i (.ret b) (S.state (m, P.shared)) = P := by
      simp [Pool.set, ← hi]
    simpa [hP] using hrun
  | call o next ih =>
    have hnext := ih _ (hrun.snoc (.act hi)) (Function.update_self ..)
    simp only [Pool.set, Prod.mk.eta, Equiv.apply_symm_apply, Function.update_idem] at hnext
    rw [Program.run_call, List.map_cons, List.append_cons]
    exact hnext ha

/-- A process can be started and run to its end with nobody else taking a step. -/
theorem start_solo {i : ι} {a : α} {s : σ} (hrun : S.Run s₀ history P)
    (hi : P.processes i = none)
    (ha : ((S.code i).run (S.handler i) (S.state (S.fresh, P.shared))).result = .ok a)
    (hs : ((S.code i).run (S.handler i) (S.state (S.fresh, P.shared))).state = s) :
    ∃ history', S.Run s₀ history' (P.set S i (.ret a) s) := by
  subst hs
  have hsolo := (hrun.snoc (.start hi)).solo (Function.update_self ..) ha
  simp only [Pool.set, Function.update_idem] at hsolo
  exact ⟨_, hsolo⟩

end System.Run

end Interaction
