import Freehold.Foundation.Interaction

/-!
# Rules for what a run lets an observer see

A view picks out the events that matter to an observer. `Returns` is a total-correctness
triple that also fixes the sequence of views over the run, `Throws` the same for a run
that ends with an exception. The rules follow the syntax of programs.
-/

namespace Interaction.Program

variable {E : Interface} {ε α β σ ω : Type}

/-- What the view sees of a run. -/
def observed (h : Handler E σ) (v : Event E → Option ω) (p : Program E ε α) (s : σ) : List ω :=
  (p.run h s).trace.filterMap v

/-- From a state in `P` the program returns, in `Q`, and the view sees `w`. -/
def Returns (h : Handler E σ) (v : Event E → Option ω) (P : σ → Prop) (p : Program E ε α)
    (Q : α → σ → Prop) (w : List ω) : Prop :=
  ∀ s, P s → (∃ a, (p.run h s).result = .ok a ∧ Q a (p.run h s).state) ∧ p.observed h v s = w

/-- From a state in `P` the program throws, and the view sees `w`. -/
def Throws (h : Handler E σ) (v : Event E → Option ω) (P : σ → Prop) (p : Program E ε α)
    (w : List ω) : Prop :=
  ∀ s, P s → (∃ e, (p.run h s).result = .error e) ∧ p.observed h v s = w

variable {h : Handler E σ} {v : Event E → Option ω} {P : σ → Prop} {w w' : List ω}

@[simp] theorem observed_ret (a : α) (s : σ) :
    (Program.ret a : Program E ε α).observed h v s = [] := rfl

@[simp] theorem observed_throw (e : ε) (s : σ) :
    (Program.throw e : Program E ε α).observed h v s = [] := rfl

theorem observed_call (o : E.Op) (next : E.Answer o → Program E ε α) (s : σ) :
    (Program.call o next).observed h v s =
      (v ⟨o, (h o s).1⟩).toList ++ (next (h o s).1).observed h v (h o s).2 := by
  rw [observed, run_call, List.filterMap_cons]
  cases v ⟨o, (h o s).1⟩ <;> rfl

theorem observed_call_of_hidden {o : E.Op} {next : E.Answer o → Program E ε α} {s : σ}
    (hv : v ⟨o, (h o s).1⟩ = none) :
    (Program.call o next).observed h v s = (next (h o s).1).observed h v (h o s).2 := by
  rw [observed_call, hv, Option.toList_none, List.nil_append]

theorem observed_call_of_shown {o : E.Op} {next : E.Answer o → Program E ε α} {s : σ} {y : ω}
    (hv : v ⟨o, (h o s).1⟩ = some y) :
    (Program.call o next).observed h v s = y :: (next (h o s).1).observed h v (h o s).2 := by
  rw [observed_call, hv, Option.toList_some, List.singleton_append]

theorem observed_bind_of_ok {p : Program E ε α} {s : σ} {a : α} (f : α → Program E ε β)
    (hp : (p.run h s).result = .ok a) :
    (p >>= f).observed h v s =
      p.observed h v s ++ (f a).observed h v (p.run h s).state := by
  rw [observed, run_bind_of_ok f hp, List.filterMap_append]
  rfl

theorem observed_bind_of_error {p : Program E ε α} {s : σ} {e : ε} (f : α → Program E ε β)
    (hp : (p.run h s).result = .error e) : (p >>= f).observed h v s = p.observed h v s := by
  rw [observed, run_bind_of_error f hp]
  rfl

/-! ## Programs that return -/

theorem Returns.ret {a : α} {Q : α → σ → Prop} (hQ : ∀ s, P s → Q a s) :
    Returns h v P (.ret a : Program E ε α) Q [] :=
  fun s hs => ⟨⟨a, rfl, hQ s hs⟩, rfl⟩

/-- An operation outside the view. -/
theorem Returns.hidden {o : E.Op} {next : E.Answer o → Program E ε α} {Q : α → σ → Prop}
    (hv : ∀ x, v ⟨o, x⟩ = none) (R : E.Answer o → σ → Prop)
    (hR : ∀ s, P s → R (h o s).1 (h o s).2)
    (hnext : ∀ x, Returns h v (R x) (next x) Q w) : Returns h v P (.call o next) Q w := by
  intro s hs
  obtain ⟨hrun, hw⟩ := hnext _ _ (hR s hs)
  exact ⟨hrun, by rw [observed_call_of_hidden (hv _), hw]⟩

theorem Returns.shown {o : E.Op} {next : E.Answer o → Program E ε α} {Q : α → σ → Prop} {y : ω}
    (hv : ∀ x, v ⟨o, x⟩ = some y) (R : E.Answer o → σ → Prop)
    (hR : ∀ s, P s → R (h o s).1 (h o s).2)
    (hnext : ∀ x, Returns h v (R x) (next x) Q w) : Returns h v P (.call o next) Q (y :: w) := by
  intro s hs
  obtain ⟨hrun, hw⟩ := hnext _ _ (hR s hs)
  exact ⟨hrun, by rw [observed_call_of_shown (hv _), hw]⟩

theorem Returns.bind {p : Program E ε α} {f : α → Program E ε β} {R : α → σ → Prop}
    {Q : β → σ → Prop} (hp : Returns h v P p R w) (hf : ∀ a, Returns h v (R a) (f a) Q w') :
    Returns h v P (p >>= f) Q (w ++ w') := by
  intro s hs
  obtain ⟨⟨a, ha, hR⟩, hw⟩ := hp s hs
  obtain ⟨⟨b, hb, hQ⟩, hw'⟩ := hf a _ hR
  rw [observed_bind_of_ok f ha, run_bind_of_ok f ha]
  exact ⟨⟨b, hb, hQ⟩, by rw [hw, hw']⟩

/-- What the first part says of its result alone can be assumed of the second. -/
theorem Returns.bind_value {p : Program E ε α} {f : α → Program E ε β} {φ : α → Prop}
    {Q : β → σ → Prop} (hp : Returns h v P p (fun a _ => φ a) w)
    (hf : ∀ a, φ a → Returns h v (fun _ => True) (f a) Q w') :
    Returns h v P (p >>= f) Q (w ++ w') :=
  hp.bind fun a s ha => hf a ha s trivial

/-- A fact that does not depend on the state can be assumed. -/
theorem Returns.pure_pre {p : Program E ε α} {φ : Prop} {Q : α → σ → Prop}
    (hp : φ → Returns h v P p Q w) : Returns h v (fun s => φ ∧ P s) p Q w :=
  fun s hs => hp hs.1 s hs.2

/-- A loop: every turn keeps the invariant and shows the observer its part. -/
theorem Returns.foldlM {f : β → α → Program E ε β} {I : β → σ → Prop} {part : α → List ω}
    {l : List α} (hf : ∀ b, ∀ a ∈ l, Returns h v (I b) (f b a) I (part a)) (b : β) :
    Returns h v (I b) (l.foldlM f b) I (l.flatMap part) := by
  induction l generalizing b with
  | nil => exact .ret fun _ hs => hs
  | cons a l ih =>
    rw [List.foldlM_cons, List.flatMap_cons]
    exact (hf b a List.mem_cons_self).bind fun c =>
      ih (fun b a ha => hf b a (List.mem_cons_of_mem _ ha)) c

/-! ## Programs that throw -/

theorem Throws.throw {e : ε} : Throws h v P (.throw e : Program E ε α) [] :=
  fun _ _ => ⟨⟨e, rfl⟩, rfl⟩

theorem Throws.hidden {o : E.Op} {next : E.Answer o → Program E ε α}
    (hv : ∀ x, v ⟨o, x⟩ = none) (R : E.Answer o → σ → Prop) (hR : ∀ s, P s → R (h o s).1 (h o s).2)
    (hnext : ∀ x, Throws h v (R x) (next x) w) : Throws h v P (.call o next) w := by
  intro s hs
  obtain ⟨hrun, hw⟩ := hnext _ _ (hR s hs)
  exact ⟨hrun, by rw [observed_call_of_hidden (hv _), hw]⟩

theorem Throws.shown {o : E.Op} {next : E.Answer o → Program E ε α} {y : ω}
    (hv : ∀ x, v ⟨o, x⟩ = some y) (R : E.Answer o → σ → Prop)
    (hR : ∀ s, P s → R (h o s).1 (h o s).2)
    (hnext : ∀ x, Throws h v (R x) (next x) w) : Throws h v P (.call o next) (y :: w) := by
  intro s hs
  obtain ⟨hrun, hw⟩ := hnext _ _ (hR s hs)
  exact ⟨hrun, by rw [observed_call_of_shown (hv _), hw]⟩

/-- What follows an exception does not run. -/
theorem Throws.bind {p : Program E ε α} (hp : Throws h v P p w) (f : α → Program E ε β) :
    Throws h v P (p >>= f) w := by
  intro s hs
  obtain ⟨⟨e, he⟩, hw⟩ := hp s hs
  rw [observed_bind_of_error f he, run_bind_of_error f he]
  exact ⟨⟨e, rfl⟩, hw⟩

theorem Returns.bind_throws {p : Program E ε α} {f : α → Program E ε β} {R : α → σ → Prop}
    (hp : Returns h v P p R w) (hf : ∀ a, Throws h v (R a) (f a) w') :
    Throws h v P (p >>= f) (w ++ w') := by
  intro s hs
  obtain ⟨⟨a, ha, hR⟩, hw⟩ := hp s hs
  obtain ⟨he, hw'⟩ := hf a _ hR
  rw [observed_bind_of_ok f ha, run_bind_of_ok f ha]
  exact ⟨he, by rw [hw, hw']⟩

theorem Returns.bind_value_throws {p : Program E ε α} {f : α → Program E ε β} {φ : α → Prop}
    (hp : Returns h v P p (fun a _ => φ a) w)
    (hf : ∀ a, φ a → Throws h v (fun _ => True) (f a) w') : Throws h v P (p >>= f) (w ++ w') :=
  hp.bind_throws fun a s ha => hf a ha s trivial

/-- A view that none of the permitted operations shows in stays empty. -/
theorem Uses.observed_eq_nil {p : Program E ε α} {A : E.Op → Prop} (hp : p.Uses A)
    (hv : ∀ e : Event E, A e.op → v e = none) (s : σ) : p.observed h v s = [] := by
  refine List.filterMap_eq_nil_iff.mpr fun e he => hv _ (hp.of_mem_trace he)

end Interaction.Program
