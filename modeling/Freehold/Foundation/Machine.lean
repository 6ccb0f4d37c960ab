import Mathlib.Tactic

/-!
# Machines

A machine takes a step for an input, where it can. A `Run` lists the inputs, each with the
state that it met. What every step keeps holds after every run (`Run.invariant`), and a list
of inputs that can all be taken makes a run (`Run.of_foldlM`). What a run has done of late is
said with `Since`.
-/

namespace Machine

variable {σ α : Type*}

inductive Run (step : σ → α → Option σ) (s₀ : σ) : List (σ × α) → σ → Prop where
  | init : Run step s₀ [] s₀
  | snoc {path s a s'} (hrun : Run step s₀ path s) (hstep : step s a = some s') :
      Run step s₀ (path ++ [(s, a)]) s'

variable {step : σ → α → Option σ} {s₀ s s' : σ} {path path' : List (σ × α)}

/-- `I` speaks of the inputs so far and of the state. -/
theorem Run.invariant {I : List (σ × α) → σ → Prop} (hinit : I [] s₀)
    (hkeeps : ∀ path s a s', I path s → step s a = some s' → I (path ++ [(s, a)]) s')
    (hrun : Run step s₀ path s) : I path s := by
  induction hrun with
  | init => exact hinit
  | snoc _ hstep ih => exact hkeeps _ _ _ _ ih hstep

theorem Run.append (hrun : Run step s₀ path s) (hmore : Run step s path' s') :
    Run step s₀ (path ++ path') s' := by
  induction hmore with
  | init => rwa [List.append_nil]
  | snoc _ hstep ih =>
    rw [← List.append_assoc]
    exact ih.snoc hstep

theorem Run.of_foldlM {inputs : List α} (h : inputs.foldlM step s₀ = some s) :
    ∃ path, path.map Prod.snd = inputs ∧ Run step s₀ path s := by
  induction inputs generalizing s₀ with
  | nil =>
    cases h
    exact ⟨[], rfl, .init⟩
  | cons a inputs ih =>
    rw [List.foldlM_cons, Option.bind_eq_bind, Option.bind_eq_some_iff] at h
    obtain ⟨s₁, hstep, hrest⟩ := h
    obtain ⟨path, hinputs, hrun⟩ := ih hrest
    refine ⟨[(s₀, a)] ++ path, ?_, ?_⟩
    · rw [List.map_append, hinputs]
      rfl
    · have hfirst : Run step s₀ [(s₀, a)] s₁ := Run.init.snoc hstep
      exact hfirst.append hrun

/-! ## What was done of late -/

/-- `P` was done, and `Q` has not been done since. -/
def Since {τ : Type*} (P Q : τ → Prop) (path : List τ) : Prop :=
  ∃ before x after, path = before ++ x :: after ∧ P x ∧ ∀ y ∈ after, ¬Q y

variable {τ : Type*} {P Q : τ → Prop} {x : τ} {xs : List τ}

theorem not_since_nil : ¬Since P Q [] := by
  rintro ⟨before, x, after, h, -⟩
  exact absurd h (by simp)

theorem since_snoc : Since P Q (xs ++ [x]) ↔ P x ∨ Since P Q xs ∧ ¬Q x := by
  constructor
  · rintro ⟨before, y, after, h, hy, hafter⟩
    rcases List.eq_nil_or_concat after with rfl | ⟨after, z, rfl⟩
    · obtain ⟨-, hlast⟩ := List.append_inj' h rfl
      cases hlast
      exact .inl hy
    · have hassoc : before ++ y :: (after ++ [z]) = (before ++ y :: after) ++ [z] := by simp
      rw [List.concat_eq_append] at h hafter
      rw [hassoc] at h
      obtain ⟨rfl, hlast⟩ := List.append_inj' h rfl
      cases hlast
      rw [List.forall_mem_append, List.forall_mem_singleton] at hafter
      exact .inr ⟨⟨before, y, after, rfl, hy, hafter.1⟩, hafter.2⟩
  · rintro (hx | ⟨⟨before, y, after, rfl, hy, hafter⟩, hx⟩)
    · exact ⟨xs, x, [], rfl, hx, by simp⟩
    · refine ⟨before, y, after ++ [x], by simp, hy, ?_⟩
      rw [List.forall_mem_append, List.forall_mem_singleton]
      exact ⟨hafter, hx⟩

end Machine
