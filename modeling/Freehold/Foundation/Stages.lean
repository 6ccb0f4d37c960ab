import Freehold.Foundation.Interaction

/-!
# Programs that go through stages

Each stage says whether it has succeeded; the first that has not ends the program with `false`.
So a stage begins only when all stages before it have succeeded, and what follows the stages
only when all have.
-/

namespace Interaction.Program

variable {E : Interface} {ε α β σ : Type}

/-- The stages, and then `last`. -/
def inOrder : List (Program E ε Bool) → Program E ε Bool → Program E ε Bool
  | [], last => last
  | p :: ps, last => do if ← p then inOrder ps last else pure false

/-- The events of a stage that has succeeded. -/
def Succeeds (p : Program E ε Bool) (t : List (Event E)) : Prop := p.Reaches t (.ret true)

/-- The events fall into consecutive parts, one for each of the predicates. -/
def InTurn : List (List (Event E) → Prop) → List (Event E) → Prop
  | [], t => t = []
  | D :: Ds, t => ∃ t₁ t₂, t = t₁ ++ t₂ ∧ D t₁ ∧ InTurn Ds t₂

variable {ps : List (Program E ε Bool)} {last : Program E ε Bool} {t t₁ t₂ : List (Event E)}

theorem inOrder_append (ps ps' : List (Program E ε Bool)) (last : Program E ε Bool) :
    inOrder (ps ++ ps') last = inOrder ps (inOrder ps' last) := by
  induction ps with
  | nil => rfl
  | cons p ps ih => rw [List.cons_append, inOrder, inOrder, ih]

theorem inTurn_append {Ds Ds' : List (List (Event E) → Prop)} (h : InTurn Ds t₁)
    (h' : InTurn Ds' t₂) : InTurn (Ds ++ Ds') (t₁ ++ t₂) := by
  induction Ds generalizing t₁ with
  | nil =>
    cases h
    exact h'
  | cons D Ds ih =>
    obtain ⟨t, t', rfl, hD, hDs⟩ := h
    exact ⟨t, t' ++ t₂, List.append_assoc _ _ _, hD, ih hDs⟩

theorem InTurn.split {Ds Ds' : List (List (Event E) → Prop)} (h : InTurn (Ds ++ Ds') t) :
    ∃ t₁ t₂, t = t₁ ++ t₂ ∧ InTurn Ds t₁ ∧ InTurn Ds' t₂ := by
  induction Ds generalizing t with
  | nil => exact ⟨[], t, rfl, rfl, h⟩
  | cons D Ds ih =>
    obtain ⟨t₁, t₂, rfl, hD, hDs⟩ := h
    obtain ⟨t₃, t₄, rfl, h₃, h₄⟩ := ih hDs
    exact ⟨t₁ ++ t₃, t₄, (List.append_assoc _ _ _).symm, ⟨t₁, t₃, rfl, hD, h₃⟩, h₄⟩

/-! ## Partial executions -/

theorem Reaches.bind {p : Program E ε α} {a : α} {f : α → Program E ε β} {q : Program E ε β}
    (hp : p.Reaches t₁ (.ret a)) (hf : (f a).Reaches t₂ q) : (p >>= f).Reaches (t₁ ++ t₂) q := by
  generalize hr : Program.ret a = r at hp
  induction hp with
  | refl p =>
    subst hr
    exact hf
  | call _ ih => exact .call (ih hr)

theorem reaches_ret_ret_iff {a b : α} :
    (Program.ret a : Program E ε α).Reaches t (.ret b) ↔ t = [] ∧ a = b := by
  constructor
  · intro h
    obtain ⟨rfl, hb⟩ := h.ret_inv
    cases hb
    exact ⟨rfl, rfl⟩
  · rintro ⟨rfl, rfl⟩
    exact .refl _

theorem reaches_call_ret_iff {o : E.Op} {next : E.Answer o → Program E ε α} {b : α} :
    (Program.call o next).Reaches t (.ret b) ↔
      ∃ x t', t = ⟨o, x⟩ :: t' ∧ (next x).Reaches t' (.ret b) := by
  constructor
  · intro h
    cases h with
    | @call _ _ x t _ h => exact ⟨x, t, rfl, h⟩
  · rintro ⟨x, t', rfl, h⟩
    exact .call h

theorem reaches_bind_ret_iff {p : Program E ε α} {f : α → Program E ε β} {b : β} :
    (p >>= f).Reaches t (.ret b) ↔
      ∃ t₁ t₂ a, t = t₁ ++ t₂ ∧ p.Reaches t₁ (.ret a) ∧ (f a).Reaches t₂ (.ret b) := by
  constructor
  · exact Reaches.of_bind_ret
  · rintro ⟨t₁, t₂, a, rfl, hp, hf⟩
    exact hp.bind hf

/-- An operation of a composition is one of the first part, or comes after its end. -/
theorem Reaches.of_bind_call {p : Program E ε α} {f : α → Program E ε β} {o : E.Op}
    {next : E.Answer o → Program E ε β} (h : (p >>= f).Reaches t (.call o next)) :
    (∃ next', p.Reaches t (.call o next')) ∨
      ∃ t₁ t₂ a, t = t₁ ++ t₂ ∧ p.Reaches t₁ (.ret a) ∧ (f a).Reaches t₂ (.call o next) := by
  rcases h.of_bind with ⟨p', hp, hq⟩ | hsplit
  · cases p' with
    | ret a => exact .inr ⟨t, [], a, (List.append_nil t).symm, hp, hq ▸ .refl _⟩
    | throw e => cases hq
    | call o' next' =>
      cases hq
      exact .inl ⟨next', hp⟩
  · exact .inr hsplit

/-- A run that begins with the events of a partial execution goes on from there. -/
theorem Reaches.exists_run {h : Handler E σ} {p q : Program E ε α} {s : σ}
    (hp : p.Reaches t₁ q) (ht : (p.run h s).trace = t₁ ++ t₂) :
    ∃ s', (p.run h s).result = (q.run h s').result := by
  induction hp generalizing s with
  | refl p => exact ⟨s, rfl⟩
  | @call o next x t q _ ih =>
    rw [run_call, List.cons_append] at ht
    obtain ⟨hevent, hrest⟩ := List.cons.inj ht
    cases hevent
    exact ih hrest

/-- Before any of its events a run has the operation to perform. -/
theorem exists_reaches_call {h : Handler E σ} {p : Program E ε α} {s : σ} {e : Event E}
    (ht : (p.run h s).trace = t₁ ++ e :: t₂) : ∃ next, p.Reaches t₁ (.call e.op next) := by
  obtain ⟨next, hrest, htrace⟩ := exists_halt ht
  have hreaches := halt_reaches h t₁.length p s
  rw [hrest, htrace] at hreaches
  exact ⟨next, hreaches⟩

/-! ## Stages in order -/

theorem inOrder_reaches_of_inTurn {q : Program E ε Bool} (hps : InTurn (ps.map Succeeds) t₁)
    (hlast : last.Reaches t₂ q) : (inOrder ps last).Reaches (t₁ ++ t₂) q := by
  induction ps generalizing t₁ with
  | nil =>
    cases hps
    exact hlast
  | cons p ps ih =>
    obtain ⟨t, t', rfl, hp, hps⟩ := hps
    rw [List.append_assoc]
    exact hp.bind (ih hps)

/-- Only all stages lead to `true`. -/
theorem inTurn_of_reaches_true (h : (inOrder ps last).Reaches t (.ret true)) :
    ∃ t₁ t₂, t = t₁ ++ t₂ ∧ InTurn (ps.map Succeeds) t₁ ∧ last.Reaches t₂ (.ret true) := by
  induction ps generalizing t with
  | nil => exact ⟨[], t, rfl, rfl, h⟩
  | cons p ps ih =>
    obtain ⟨t₁, t₂, ok, rfl, hp, hrest⟩ := h.of_bind_ret
    cases ok with
    | false => cases (Reaches.ret_inv hrest).2
    | true =>
      obtain ⟨t₃, t₄, rfl, hps, hlast⟩ := ih hrest
      exact ⟨t₁ ++ t₃, t₄, (List.append_assoc _ _ _).symm, ⟨t₁, t₃, rfl, hp, hps⟩, hlast⟩

/-- An operation of a stage comes after the stages before it, and one of `last` after all. -/
theorem inTurn_of_reaches_call {o : E.Op} {next : E.Answer o → Program E ε Bool}
    (h : (inOrder ps last).Reaches t (.call o next)) :
    (∃ before p after t₁ t₂ next', ps = before ++ p :: after ∧ t = t₁ ++ t₂ ∧
      InTurn (before.map Succeeds) t₁ ∧ p.Reaches t₂ (.call o next')) ∨
    ∃ t₁ t₂, t = t₁ ++ t₂ ∧ InTurn (ps.map Succeeds) t₁ ∧ last.Reaches t₂ (.call o next) := by
  induction ps generalizing t with
  | nil => exact .inr ⟨[], t, rfl, rfl, h⟩
  | cons p ps ih =>
    rcases h.of_bind_call with ⟨next', hp⟩ | ⟨t₁, t₂, ok, rfl, hp, hrest⟩
    · exact .inl ⟨[], p, ps, [], t, next', rfl, rfl, rfl, hp⟩
    · cases ok with
      | false => cases (Reaches.ret_inv hrest).2
      | true =>
        rcases ih hrest with ⟨before, p', after, t₃, t₄, next', rfl, rfl, hbefore, hp'⟩ |
          ⟨t₃, t₄, rfl, hps, hlast⟩
        · exact .inl ⟨p :: before, p', after, t₁ ++ t₃, t₄, next', rfl,
            (List.append_assoc _ _ _).symm, ⟨t₁, t₃, rfl, hp, hbefore⟩, hp'⟩
        · exact .inr ⟨t₁ ++ t₃, t₄, (List.append_assoc _ _ _).symm, ⟨t₁, t₃, rfl, hp, hps⟩, hlast⟩

end Interaction.Program
