import Mathlib.Data.List.Basic
import Mathlib.Tactic

/-!
# Programs that interact with their surroundings

A `Program` performs operations of an `Interface` one at a time and continues with
the answer it gets. The same syntax is read in two ways: `Program.run` lets a
stateful handler answer every operation, and `Program.Reaches` lists the operations
performed so far together with what is left to do, whatever the answers were.

`Program.Uses` bounds the operations a program can perform. Handlers that leave part
of their state alone on those operations leave it alone over the whole run.
-/

namespace Interaction

/-- Operations and the type of the answer to each. -/
structure Interface where
  Op : Type
  Answer : Op → Type

inductive Program (E : Interface) (ε α : Type) : Type where
  | ret (a : α)
  | throw (e : ε)
  | call (o : E.Op) (next : E.Answer o → Program E ε α)

/-- An operation with the answer it got. -/
structure Event (E : Interface) where
  op : E.Op
  answer : E.Answer op

variable {E : Interface} {ε α β γ σ τ : Type}

namespace Program

def bind : Program E ε α → (α → Program E ε β) → Program E ε β
  | .ret a, f => f a
  | .throw e, _ => .throw e
  | .call o next, f => .call o fun x => (next x).bind f

instance : Monad (Program E ε) where
  pure := .ret
  bind := .bind

/-- Perform one operation and return its answer. -/
def perform (o : E.Op) : Program E ε (E.Answer o) := .call o .ret

@[simp] theorem pure_eq (a : α) : (pure a : Program E ε α) = .ret a := rfl
@[simp] theorem ret_bind (a : α) (f : α → Program E ε β) : (Program.ret a >>= f) = f a := rfl
@[simp] theorem throw_bind (e : ε) (f : α → Program E ε β) :
    ((Program.throw e : Program E ε α) >>= f) = .throw e := rfl
@[simp] theorem call_bind (o : E.Op) (next : E.Answer o → Program E ε α)
    (f : α → Program E ε β) : (Program.call o next >>= f) = .call o fun x => next x >>= f := rfl

/-- The answer type is left out of the index: at a given operation it reduces. -/
@[simp] theorem perform_bind (o : E.Op) (f : E.Answer o → Program E ε β) :
    @Bind.bind (Program E ε) _ (no_index (E.Answer o)) β (perform o) f = .call o f := rfl

theorem bind_ret (p : Program E ε α) : (p >>= Program.ret) = p := by
  induction p with
  | ret a => rfl
  | throw e => rfl
  | call o next ih => rw [call_bind]; exact congrArg _ (funext ih)

theorem bind_assoc (p : Program E ε α) (f : α → Program E ε β) (g : β → Program E ε γ) :
    ((p >>= f) >>= g) = p >>= fun a => f a >>= g := by
  induction p with
  | ret a => rfl
  | throw e => rfl
  | call o next ih => simp only [call_bind]; exact congrArg _ (funext ih)

instance : LawfulMonad (Program E ε) := LawfulMonad.mk' (Program E ε)
  (fun p => bind_ret p) (fun _ _ => rfl) bind_assoc

end Program

/-! ## Running against a handler -/

abbrev Handler (E : Interface) (σ : Type) := (o : E.Op) → σ → E.Answer o × σ

/-- How a run ends: its result, the handler's state and the events in order. -/
structure Outcome (E : Interface) (ε α σ : Type) where
  result : Except ε α
  state : σ
  trace : List (Event E)

/-- Continue after a normal result; an exception ends the run. -/
def Outcome.andThen (r : Outcome E ε α σ) (f : α → σ → Outcome E ε β σ) : Outcome E ε β σ :=
  match r.result with
  | .ok a => { f a r.state with trace := r.trace ++ (f a r.state).trace }
  | .error e => ⟨.error e, r.state, r.trace⟩

namespace Program

def run (h : Handler E σ) : Program E ε α → σ → Outcome E ε α σ
  | .ret a, s => ⟨.ok a, s, []⟩
  | .throw e, s => ⟨.error e, s, []⟩
  | .call o next, s =>
    let r := (next (h o s).1).run h (h o s).2
    { r with trace := ⟨o, (h o s).1⟩ :: r.trace }

variable {h : Handler E σ}

@[simp] theorem run_ret (a : α) (s : σ) :
    (Program.ret a : Program E ε α).run h s = ⟨.ok a, s, []⟩ := rfl
@[simp] theorem run_throw (e : ε) (s : σ) :
    (Program.throw e : Program E ε α).run h s = ⟨.error e, s, []⟩ := rfl
theorem run_call (o : E.Op) (next : E.Answer o → Program E ε α) (s : σ) :
    (Program.call o next).run h s =
      { (next (h o s).1).run h (h o s).2 with
        trace := ⟨o, (h o s).1⟩ :: ((next (h o s).1).run h (h o s).2).trace } := rfl

theorem result_call (o : E.Op) (next : E.Answer o → Program E ε α) (s : σ) :
    ((Program.call o next).run h s).result = ((next (h o s).1).run h (h o s).2).result := rfl

/-- Sequential composition runs the parts one after the other. -/
theorem run_bind (p : Program E ε α) (f : α → Program E ε β) (s : σ) :
    (p >>= f).run h s = (p.run h s).andThen fun a t => (f a).run h t := by
  induction p generalizing s with
  | ret a => simp [Outcome.andThen]
  | throw e => simp [Outcome.andThen]
  | call o next ih =>
    rw [call_bind, run_call, run_call, ih]
    unfold Outcome.andThen
    cases ((next (h o s).1).run h (h o s).2).result <;> rfl

theorem run_bind_of_ok {p : Program E ε α} {s : σ} {a : α} (f : α → Program E ε β)
    (hp : (p.run h s).result = .ok a) :
    (p >>= f).run h s = { (f a).run h (p.run h s).state with
      trace := (p.run h s).trace ++ ((f a).run h (p.run h s).state).trace } := by
  rw [run_bind, Outcome.andThen, hp]

theorem result_bind_of_ok {p : Program E ε α} {s : σ} {a : α} (f : α → Program E ε β)
    (hp : (p.run h s).result = .ok a) :
    ((p >>= f).run h s).result = ((f a).run h (p.run h s).state).result := by
  rw [run_bind_of_ok f hp]

theorem run_bind_of_error {p : Program E ε α} {s : σ} {e : ε} (f : α → Program E ε β)
    (hp : (p.run h s).result = .error e) :
    (p >>= f).run h s = ⟨.error e, (p.run h s).state, (p.run h s).trace⟩ := by
  rw [run_bind, Outcome.andThen, hp]

/-- Every answer in a trace is the handler's. -/
theorem answer_of_mem_trace {p : Program E ε α} {s : σ} {e : Event E}
    (he : e ∈ (p.run h s).trace) : ∃ s', e.answer = (h e.op s').1 := by
  induction p generalizing s with
  | ret a => simp at he
  | throw e => simp at he
  | call o next ih =>
    rw [run_call] at he
    rcases List.mem_cons.mp he with rfl | he
    · exact ⟨s, rfl⟩
    · exact ih _ he

/-- Run a program and return how it ended: `try` around it, with a `catch` of everything. -/
def attempt {δ : Type} : Program E ε α → Program E δ (Except ε α)
  | .ret a => .ret (.ok a)
  | .throw e => .ret (.error e)
  | .call o next => .call o fun x => (next x).attempt

theorem run_attempt {δ : Type} (p : Program E ε α) (s : σ) :
    (p.attempt : Program E δ _).run h s =
      ⟨.ok (p.run h s).result, (p.run h s).state, (p.run h s).trace⟩ := by
  induction p generalizing s with
  | ret a => rfl
  | throw e => rfl
  | call o next ih => rw [attempt, run_call, ih, run_call]

/-! ## Bounding the operations -/

/-- Whatever the answers, every operation performed satisfies `P`. -/
def Uses (P : E.Op → Prop) : Program E ε α → Prop
  | .ret _ => True
  | .throw _ => True
  | .call o next => P o ∧ ∀ x, (next x).Uses P

variable {P Q : E.Op → Prop}

@[simp] theorem uses_ret (a : α) : (Program.ret a : Program E ε α).Uses P := trivial
@[simp] theorem uses_throw (e : ε) : (Program.throw e : Program E ε α).Uses P := trivial
@[simp] theorem uses_perform {o : E.Op} :
    (perform o : Program E ε _).Uses P ↔ P o := by simp [perform, Uses]

theorem uses_call {o : E.Op} {next : E.Answer o → Program E ε α} :
    (Program.call o next).Uses P ↔ P o ∧ ∀ x, (next x).Uses P := Iff.rfl

theorem Uses.call {o : E.Op} {next : E.Answer o → Program E ε α} (ho : P o)
    (hnext : ∀ x, (next x).Uses P) : (Program.call o next).Uses P := ⟨ho, hnext⟩

theorem Uses.ite {c : Prop} [Decidable c] {p q : Program E ε α} (hp : p.Uses P)
    (hq : q.Uses P) : (if c then p else q).Uses P := by
  split
  · exact hp
  · exact hq

theorem Uses.bind {p : Program E ε α} {f : α → Program E ε β} (hp : p.Uses P)
    (hf : ∀ a, (f a).Uses P) : (p >>= f).Uses P := by
  induction p with
  | ret a => exact hf a
  | throw e => trivial
  | call o next ih => exact ⟨hp.1, fun x => ih x (hp.2 x)⟩

theorem Uses.mono (hPQ : ∀ o, P o → Q o) {p : Program E ε α} (hp : p.Uses P) : p.Uses Q := by
  induction p with
  | ret a => trivial
  | throw e => trivial
  | call o next ih => exact ⟨hPQ o hp.1, fun x => ih x (hp.2 x)⟩

theorem Uses.foldlM {f : β → α → Program E ε β} {l : List α} (hf : ∀ b a, (f b a).Uses P)
    (b : β) : (l.foldlM f b).Uses P := by
  induction l generalizing b with
  | nil => trivial
  | cons a l ih =>
    rw [List.foldlM_cons]
    exact (hf b a).bind ih

/-- Only permitted operations show up in a trace. -/
theorem Uses.of_mem_trace {p : Program E ε α} (hp : p.Uses P) {s : σ} {e : Event E}
    (he : e ∈ (p.run h s).trace) : P e.op := by
  induction p generalizing s with
  | ret a => simp at he
  | throw e => simp at he
  | call o next ih =>
    rw [run_call] at he
    rcases List.mem_cons.mp he with rfl | he
    · exact hp.1
    · exact ih _ (hp.2 _) he

/-- The frame rule: what the permitted operations leave alone, the run leaves alone. -/
theorem Uses.frame {p : Program E ε α} (hp : p.Uses P) {view : σ → τ}
    (hview : ∀ o s, P o → view (h o s).2 = view s) (s : σ) :
    view (p.run h s).state = view s := by
  induction p generalizing s with
  | ret a => rfl
  | throw e => rfl
  | call o next ih => exact (ih _ (hp.2 _) _).trans (hview o s hp.1)

/-- Two runs go the same way, when the permitted operations answer alike in related states. -/
theorem Uses.result_congr {p : Program E ε α} (hp : p.Uses P) {R : σ → σ → Prop}
    (hR : ∀ o s s', P o → R s s' → (h o s).1 = (h o s').1 ∧ R (h o s).2 (h o s').2) {s s' : σ}
    (hs : R s s') : (p.run h s).result = (p.run h s').result := by
  induction p generalizing s s' with
  | ret a => rfl
  | throw e => rfl
  | call o next ih =>
    obtain ⟨hanswer, hnext⟩ := hR o s s' hp.1 hs
    rw [run_call, run_call, ← hanswer]
    exact ih _ (hp.2 _) hnext

-- The rules are complete; unfolding would evaluate the program instead.
attribute [irreducible] Uses

/-! ## Operations performed once at most -/

/-- Whatever the answers, at most one operation performed satisfies `P`. -/
inductive AtMostOnce (P : E.Op → Prop) : Program E ε α → Prop where
  | ret (a) : AtMostOnce P (.ret a)
  | throw (e) : AtMostOnce P (.throw e)
  | call {o next} (hnext : ∀ x, AtMostOnce P (next x))
      (ho : P o → ∀ x, (next x).Uses fun o => ¬P o) : AtMostOnce P (.call o next)

theorem Uses.atMostOnce {p : Program E ε α} (hp : p.Uses fun o => ¬P o) : AtMostOnce P p := by
  induction p with
  | ret a => exact .ret a
  | throw e => exact .throw e
  | call o next ih =>
    obtain ⟨ho, hnext⟩ := uses_call.mp hp
    exact .call (fun x => ih x (hnext x)) fun h => absurd h ho

/-- The one operation is performed in the second part. -/
theorem AtMostOnce.bind_right {p : Program E ε α} {f : α → Program E ε β}
    (hp : p.Uses fun o => ¬P o) (hf : ∀ a, AtMostOnce P (f a)) : AtMostOnce P (p >>= f) := by
  induction p with
  | ret a => exact hf a
  | throw e => exact .throw e
  | call o next ih =>
    obtain ⟨ho, hnext⟩ := uses_call.mp hp
    exact .call (fun x => ih x (hnext x)) fun h => absurd h ho

/-- The one operation is performed in the first part. -/
theorem AtMostOnce.bind_left {p : Program E ε α} {f : α → Program E ε β} (hp : AtMostOnce P p)
    (hf : ∀ a, (f a).Uses fun o => ¬P o) : AtMostOnce P (p >>= f) := by
  induction hp with
  | ret a => exact (hf a).atMostOnce
  | throw e => exact .throw e
  | call _ ho ih => exact .call ih fun h x => (ho h x).bind hf

theorem AtMostOnce.countP_le_one {p : Program E ε α} {test : Event E → Bool}
    (hp : AtMostOnce P p) (htest : ∀ e, test e → P e.op) (s : σ) :
    (p.run h s).trace.countP test ≤ 1 := by
  induction hp generalizing s with
  | ret a => simp
  | throw e => simp
  | @call o next _ ho ih =>
    rw [run_call, List.countP_cons]
    split
    · rename_i hfirst
      have hnone : ((next (h o s).1).run h (h o s).2).trace.countP test = 0 := by
        rw [List.countP_eq_zero]
        intro e he hsecond
        exact (ho (htest _ hfirst) _).of_mem_trace he (htest e hsecond)
      omega
    · exact ih _ _

/-! ## Partial executions -/

/-- After the events `t` the program `q` is left. -/
inductive Reaches : Program E ε α → List (Event E) → Program E ε α → Prop where
  | refl (p) : Reaches p [] p
  | call {o : E.Op} {next : E.Answer o → Program E ε α} {x t q} :
      Reaches (next x) t q → Reaches (.call o next) (⟨o, x⟩ :: t) q

/-- One more operation. -/
theorem Reaches.snoc {p : Program E ε α} {t : List (Event E)} {o : E.Op}
    {next : E.Answer o → Program E ε α} (hp : p.Reaches t (.call o next)) (x : E.Answer o) :
    p.Reaches (t ++ [⟨o, x⟩]) (next x) := by
  generalize hq : Program.call o next = q at hp
  induction hp with
  | refl p => subst hq; exact .call (.refl _)
  | call _ ih => exact .call (ih hq)

theorem Reaches.ret_inv {a : α} {t : List (Event E)} {q : Program E ε α}
    (hp : (Program.ret a).Reaches t q) : t = [] ∧ q = .ret a := by
  cases hp
  exact ⟨rfl, rfl⟩

/-- Only permitted operations have been performed, and only such are left. -/
theorem Uses.of_reaches {P : E.Op → Prop} {p q : Program E ε α} {t : List (Event E)}
    (hp : p.Uses P) (hpq : p.Reaches t q) : q.Uses P ∧ ∀ e ∈ t, P e.op := by
  induction hpq with
  | refl p => exact ⟨hp, by simp⟩
  | call _ ih =>
    obtain ⟨ho, hnext⟩ := uses_call.mp hp
    obtain ⟨hq, ht⟩ := ih (hnext _)
    exact ⟨hq, List.forall_mem_cons.mpr ⟨ho, ht⟩⟩

/-- A partial execution of a composition is one of the first part, or has finished it. -/
theorem Reaches.of_bind {p : Program E ε α} {f : α → Program E ε β} {t : List (Event E)}
    {q : Program E ε β} (hp : (p >>= f).Reaches t q) :
    (∃ p', p.Reaches t p' ∧ q = p' >>= f) ∨
      ∃ t₁ t₂ a, t = t₁ ++ t₂ ∧ p.Reaches t₁ (.ret a) ∧ (f a).Reaches t₂ q := by
  induction p generalizing t with
  | ret a => exact .inr ⟨[], t, a, rfl, .refl _, hp⟩
  | throw e =>
    cases hp
    exact .inl ⟨_, .refl _, rfl⟩
  | call o next ih =>
    rw [call_bind] at hp
    cases hp with
    | refl => exact .inl ⟨_, .refl _, rfl⟩
    | @call _ _ x t _ hrest =>
      rcases ih x hrest with ⟨p', hfirst, hq⟩ | ⟨t₁, t₂, a, rfl, h₁, h₂⟩
      · exact .inl ⟨p', .call hfirst, hq⟩
      · exact .inr ⟨⟨o, x⟩ :: t₁, t₂, a, rfl, .call h₁, h₂⟩

/-- A finished composition splits into a finished first part and the rest. -/
theorem Reaches.of_bind_ret {p : Program E ε α} {f : α → Program E ε β} {t : List (Event E)}
    {b : β} (hp : (p >>= f).Reaches t (.ret b)) :
    ∃ t₁ t₂ a, t = t₁ ++ t₂ ∧ p.Reaches t₁ (.ret a) ∧ (f a).Reaches t₂ (.ret b) := by
  rcases hp.of_bind with ⟨p', hfirst, hq⟩ | hsplit
  · cases p' with
    | ret a => exact ⟨t, [], a, (List.append_nil t).symm, hfirst, hq ▸ .refl _⟩
    | throw e => cases hq
    | call o next => cases hq
  · exact hsplit

/-- An event that the first part cannot perform comes after its end. -/
theorem Reaches.of_bind_of_mem {P : E.Op → Prop} {p : Program E ε α} {f : α → Program E ε β}
    {t : List (Event E)} {q : Program E ε β} (hp : (p >>= f).Reaches t q) (huses : p.Uses P)
    {e : Event E} (he : e ∈ t) (hP : ¬P e.op) :
    ∃ t₁ t₂ a, t = t₁ ++ t₂ ∧ (∀ e ∈ t₁, P e.op) ∧ p.Reaches t₁ (.ret a) ∧
      (f a).Reaches t₂ q ∧ e ∈ t₂ := by
  rcases hp.of_bind with ⟨p', hfirst, -⟩ | ⟨t₁, t₂, a, rfl, h₁, h₂⟩
  · exact absurd ((huses.of_reaches hfirst).2 e he) hP
  · have hmem := (huses.of_reaches h₁).2
    refine ⟨t₁, t₂, a, rfl, hmem, h₁, h₂, ?_⟩
    exact (List.mem_append.mp he).resolve_left fun he₁ => hP (hmem e he₁)

/-- Every run is an execution. -/
theorem reaches_run (h : Handler E σ) (p : Program E ε α) (s : σ) :
    ∃ q, p.Reaches (p.run h s).trace q := by
  induction p generalizing s with
  | ret a => exact ⟨_, .refl _⟩
  | throw e => exact ⟨_, .refl _⟩
  | call o next ih =>
    obtain ⟨q, hq⟩ := ih (h o s).1 (h o s).2
    exact ⟨q, .call hq⟩

theorem reaches_of_run_ok {p : Program E ε α} {s : σ} {a : α}
    (hp : (p.run h s).result = .ok a) : p.Reaches (p.run h s).trace (.ret a) := by
  induction p generalizing s with
  | ret b => cases hp; exact .refl _
  | throw e => cases hp
  | call o next ih => exact .call (ih _ hp)

/-! ## Runs that stop on the way -/

/-- Where a run has got to. -/
structure Halt (E : Interface) (ε α σ : Type) where
  rest : Program E ε α
  state : σ
  trace : List (Event E)

/-- The run stops after `n` operations, or earlier at its end. -/
def halt (h : Handler E σ) : ℕ → Program E ε α → σ → Halt E ε α σ
  | 0, p, s => ⟨p, s, []⟩
  | _ + 1, .ret a, s => ⟨.ret a, s, []⟩
  | _ + 1, .throw e, s => ⟨.throw e, s, []⟩
  | n + 1, .call o next, s =>
    let r := halt h n (next (h o s).1) (h o s).2
    { r with trace := ⟨o, (h o s).1⟩ :: r.trace }

theorem halt_reaches (h : Handler E σ) (n : ℕ) (p : Program E ε α) (s : σ) :
    p.Reaches (p.halt h n s).trace (p.halt h n s).rest := by
  induction n generalizing p s with
  | zero => exact .refl p
  | succ n ih =>
    cases p with
    | ret a => exact .refl _
    | throw e => exact .refl _
    | call o next => exact .call (ih _ _)

/-- What holds at first, and is kept by every operation, holds where the run stops. -/
theorem halt_induction {h : Handler E σ} {K : List (Event E) → σ → Prop}
    (hstep : ∀ t o s, K t s → K (t ++ [⟨o, (h o s).1⟩]) (h o s).2) (n : ℕ) (p : Program E ε α)
    {s : σ} (hs : K [] s) : K (p.halt h n s).trace (p.halt h n s).state := by
  have key : ∀ n (p : Program E ε α) t s, K t s →
      K (t ++ (p.halt h n s).trace) (p.halt h n s).state := by
    intro n
    induction n with
    | zero => exact fun p t s hs => by simpa [halt] using hs
    | succ n ih =>
      intro p t s hs
      cases p with
      | ret a => simpa [halt] using hs
      | throw e => simpa [halt] using hs
      | call o next =>
        have hnext := ih (next (h o s).1) _ _ (hstep t o s hs)
        rwa [List.append_assoc] at hnext
  exact key n p [] s hs

/-- A run can be stopped before any of its operations. -/
theorem exists_halt {h : Handler E σ} {p : Program E ε α} {s : σ} {t₁ t₂ : List (Event E)}
    {e : Event E} (ht : (p.run h s).trace = t₁ ++ e :: t₂) :
    ∃ next, (p.halt h t₁.length s).rest = .call e.op next ∧
      (p.halt h t₁.length s).trace = t₁ := by
  induction t₁ generalizing p s with
  | nil =>
    cases p with
    | ret a => simp at ht
    | throw e' => simp at ht
    | call o next =>
      rw [run_call] at ht
      obtain ⟨rfl, -⟩ := List.cons.inj ht
      exact ⟨next, rfl, rfl⟩
  | cons e' t₁ ih =>
    cases p with
    | ret a => simp at ht
    | throw e'' => simp at ht
    | call o next =>
      rw [run_call] at ht
      obtain ⟨rfl, hrest⟩ := List.cons.inj ht
      obtain ⟨next', hcall, htrace⟩ := ih hrest
      exact ⟨next', hcall, congrArg (List.cons _) htrace⟩

/-- A run that is not stopped early gets to its end. -/
theorem halt_eq_run {h : Handler E σ} {p : Program E ε α} {s : σ} {n : ℕ}
    (hn : (p.run h s).trace.length ≤ n) :
    (p.halt h n s).trace = (p.run h s).trace ∧ (p.halt h n s).state = (p.run h s).state := by
  induction n generalizing p s with
  | zero =>
    cases p with
    | ret a => exact ⟨rfl, rfl⟩
    | throw e => exact ⟨rfl, rfl⟩
    | call o next => simp [run_call] at hn
  | succ n ih =>
    cases p with
    | ret a => exact ⟨rfl, rfl⟩
    | throw e => exact ⟨rfl, rfl⟩
    | call o next =>
      rw [run_call] at hn ⊢
      obtain ⟨htrace, hstate⟩ := ih (Nat.le_of_succ_le_succ hn)
      exact ⟨congrArg (List.cons _) htrace, hstate⟩

end Program

end Interaction
