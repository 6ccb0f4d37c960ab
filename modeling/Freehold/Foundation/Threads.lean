import Freehold.Foundation.Interaction

/-!
# Threads that start threads

A thread runs the code of a point and goes on at the point that the code returns, so a loop
is a point to which its body returns. An operation may change the shared state in several
ways, and may start a thread.

A `Discipline` says which operations a thread may perform with what it holds
(`Discipline.Follows`). If the code of every point follows it, a run can be told with a
ledger of what each thread holds (`Threads.Run.ledger_induction`).

Of a thread that goes on alone, `Threads.Asserts` says what holds before each operation and at
the end; with an assertion for each point it holds however far the thread gets
(`Threads.Plays.asserts`).
-/

namespace Interaction

structure Threads (κ : Type) (E : Interface) (ε σ : Type) where
  /-- The code ends with the point at which the thread goes on. -/
  code : κ → Program E ε (Option κ)
  effect : (o : E.Op) → σ → E.Answer o → σ → Prop
  /-- The point at which a thread is started. -/
  started : (o : E.Op) → E.Answer o → Option κ

/-- A thread that was started at `root`. -/
structure Thread (κ : Type) (E : Interface) (ε : Type) where
  root : κ
  rest : Program E ε (Option κ)

variable {κ : Type} {E : Interface} {ε σ ρ α β : Type}

namespace Threads

variable (T : Threads κ E ε σ)

def begin (k : κ) : Thread κ E ε := ⟨k, T.code k⟩

/-- The steps from threads at `roots` and the state `s₀`, where each event meets `C` in the
state before it. -/
inductive Run (C : Event E → σ → Prop) (roots : List κ) (s₀ : σ) :
    List (Event E) → List (Thread κ E ε) → σ → Prop where
  | init : Run C roots s₀ [] (roots.map T.begin) s₀
  | goto {history threads s i root k} (hrun : Run C roots s₀ history threads s)
      (hi : threads[i]? = some ⟨root, .ret (some k)⟩) :
      Run C roots s₀ history (threads.set i ⟨root, T.code k⟩) s
  | act {history threads s i root o next x s'} (hrun : Run C roots s₀ history threads s)
      (hi : threads[i]? = some ⟨root, .call o next⟩) (heffect : T.effect o s x s')
      (hC : C ⟨o, x⟩ s) :
      Run C roots s₀ (history ++ [⟨o, x⟩])
        (threads.set i ⟨root, next x⟩ ++ ((T.started o x).map T.begin).toList) s'

variable {T} {C C' : Event E → σ → Prop} {roots : List κ} {s₀ s : σ} {history : List (Event E)}
  {threads : List (Thread κ E ε)}

theorem Run.mono (hC : ∀ e s, C e s → C' e s) (hrun : T.Run C roots s₀ history threads s) :
    T.Run C' roots s₀ history threads s := by
  induction hrun with
  | init => exact .init
  | goto _ hi ih => exact ih.goto hi
  | act _ hi heffect hmeets ih => exact ih.act hi heffect (hC _ _ hmeets)

/-- Every event of a run comes at a moment of the run. -/
theorem Run.exists_of_split {before after : List (Event E)} {e : Event E}
    (hrun : T.Run C roots s₀ history threads s) (h : history = before ++ e :: after) :
    ∃ threads' s' s'', T.Run C roots s₀ before threads' s' ∧ T.effect e.op s' e.answer s'' := by
  induction hrun generalizing after with
  | init => cases before <;> cases h
  | goto _ _ ih => exact ih h
  | @act history threads s i root o next x s' hrun _ heffect _ ih =>
    rcases List.eq_nil_or_concat after with rfl | ⟨after, last, rfl⟩
    · obtain ⟨rfl, he⟩ := List.append_inj' h rfl
      cases he
      exact ⟨threads, s, s', hrun, heffect⟩
    · rw [List.concat_eq_append, ← List.cons_append, ← List.append_assoc] at h
      exact ih (List.append_inj' h rfl).1

/-- One thread goes on alone: `t` is what it does, and `new` lists the threads it starts. -/
inductive Plays (T : Threads κ E ε σ) (C : Event E → σ → Prop) :
    Program E ε (Option κ) → σ → List (Event E) → List κ → Program E ε (Option κ) → σ → Prop where
  | refl {p s} : Plays T C p s [] [] p s
  | goto {k s t new q s'} (h : Plays T C (T.code k) s t new q s') :
      Plays T C (.ret (some k)) s t new q s'
  | act {o next s x s₁ t new q s'} (heffect : T.effect o s x s₁) (hC : C ⟨o, x⟩ s)
      (h : Plays T C (next x) s₁ t new q s') :
      Plays T C (.call o next) s (⟨o, x⟩ :: t) ((T.started o x).toList ++ new) q s'

theorem Run.plays {i : ℕ} {root : κ} {p q : Program E ε (Option κ)} {t : List (Event E)}
    {new : List κ} {s' : σ} (hrun : T.Run C roots s₀ history threads s)
    (hi : threads[i]? = some ⟨root, p⟩) (h : T.Plays C p s t new q s') :
    T.Run C roots s₀ (history ++ t) (threads.set i ⟨root, q⟩ ++ new.map T.begin) s' := by
  induction h generalizing history threads with
  | refl =>
    obtain ⟨hlt, heq⟩ := List.getElem?_eq_some_iff.mp hi
    rw [← heq, List.set_getElem_self, List.map_nil, List.append_nil, List.append_nil]
    exact hrun
  | goto _ ih =>
    have hlt := (List.getElem?_eq_some_iff.mp hi).1
    have hnext := ih (hrun.goto hi) (List.getElem?_set_self hlt)
    rwa [List.set_set] at hnext
  | @act o next s x s₁ t new q s' heffect hC _ ih =>
    have hlt := (List.getElem?_eq_some_iff.mp hi).1
    have hset : i < (threads.set i ⟨root, next x⟩).length := by rwa [List.length_set]
    have hget : (threads.set i ⟨root, next x⟩ ++ ((T.started o x).map T.begin).toList)[i]? =
        some ⟨root, next x⟩ := by
      rw [List.getElem?_append_left hset, List.getElem?_set_self hlt]
    have hnext := ih (hrun.act hi heffect hC) hget
    rw [List.set_append_left _ _ hset, List.set_set] at hnext
    rw [List.append_cons, List.map_append, ← List.append_assoc, ← Option.toList_map]
    exact hnext

end Threads

/-! ## What holds along the way of a thread -/

namespace Threads

/-- Each operation is performed where `A` holds of it, and `Q` holds at the end. -/
def Asserts (T : Threads κ E ε σ) (C : Event E → σ → Prop) (A : E.Op → σ → Prop)
    (Q : α → σ → Prop) : Program E ε α → σ → Prop
  | .ret a, s => Q a s
  | .throw _, _ => True
  | .call o next, s =>
    A o s ∧ ∀ x s', T.effect o s x s' → C ⟨o, x⟩ s → Asserts T C A Q (next x) s'

/-- `K` holds at the point at which the thread goes on. -/
def Continues (K : κ → σ → Prop) : Option κ → σ → Prop
  | none, _ => True
  | some k, s => K k s

variable {T : Threads κ E ε σ} {C : Event E → σ → Prop} {A : E.Op → σ → Prop} {Q : α → σ → Prop}
  {Q' : β → σ → Prop} {K : κ → σ → Prop} {s s' : σ}

theorem Asserts.bind {p : Program E ε α} {f : α → Program E ε β} (hp : T.Asserts C A Q p s)
    (hf : ∀ a s', Q a s' → T.Asserts C A Q' (f a) s') : T.Asserts C A Q' (p >>= f) s := by
  induction p generalizing s with
  | ret a => exact hf a s hp
  | throw e => trivial
  | call o next ih =>
    obtain ⟨ho, hnext⟩ := hp
    exact ⟨ho, fun x s' heffect hC => ih x (hnext x s' heffect hC)⟩

/-- Where `I` holds and is kept, all is asserted that `I` is enough for. -/
theorem Asserts.of_invariant {I : σ → Prop} {p : Program E ε α}
    (heffect : ∀ o s x s', I s → T.effect o s x s' → I s') (hA : ∀ o s, I s → A o s)
    (hQ : ∀ a s, I s → Q a s) (h : I s) : T.Asserts C A Q p s := by
  induction p generalizing s with
  | ret a => exact hQ a s h
  | throw e => trivial
  | call o next ih => exact ⟨hA o s h, fun x s' hstep _ => ih x (heffect o s x s' h hstep)⟩

/-- However far a thread gets, what is asserted holds of the rest. -/
theorem Plays.asserts {p q : Program E ε (Option κ)} {t : List (Event E)} {new : List κ}
    (hcode : ∀ k s, K k s → T.Asserts C A (Continues K) (T.code k) s)
    (h : T.Plays C p s t new q s') (hp : T.Asserts C A (Continues K) p s) :
    T.Asserts C A (Continues K) q s' := by
  induction h with
  | refl => exact hp
  | goto _ ih => exact ih (hcode _ _ hp)
  | act heffect hC _ ih => exact ih (hp.2 _ _ heffect hC)

end Threads

/-! ## What a thread holds -/

/-- `after r o x` is held after `o` has been answered with `x`. -/
structure Discipline (κ : Type) (E : Interface) (ρ : Type) where
  allows : ρ → E.Op → Prop
  after : ρ → (o : E.Op) → E.Answer o → ρ
  /-- What is held at a point. -/
  given : κ → ρ
  /-- What a thread may hold when it ends. -/
  final : ρ → Prop

namespace Discipline

variable (D : Discipline κ E ρ)

/-- Whatever the answers are, only what is allowed is done, and `Q` holds at the end. -/
inductive Follows (Q : α → ρ → Prop) : ρ → Program E ε α → Prop where
  | ret {r a} (h : Q a r) : Follows Q r (.ret a)
  | call {r o next} (ho : D.allows r o) (hnext : ∀ x, Follows Q (D.after r o x) (next x)) :
      Follows Q r (.call o next)

/-- A thread goes on with what is held at the next point. -/
def Continues : Option κ → ρ → Prop
  | none, r => D.final r
  | some k, r => D.given k = r

variable {D} {Q : α → ρ → Prop} {Q' : β → ρ → Prop} {r : ρ}

theorem Follows.bind {p : Program E ε α} {f : α → Program E ε β} (hp : D.Follows Q r p)
    (hf : ∀ a r', Q a r' → D.Follows Q' r' (f a)) : D.Follows Q' r (p >>= f) := by
  induction hp with
  | ret h => exact hf _ _ h
  | call ho _ ih => exact .call ho ih

theorem Follows.call_inv {o : E.Op} {next : E.Answer o → Program E ε α}
    (h : D.Follows Q r (.call o next)) :
    D.allows r o ∧ ∀ x, D.Follows Q (D.after r o x) (next x) := by
  cases h with
  | call ho hnext => exact ⟨ho, hnext⟩

theorem Follows.ret_inv {a : α} (h : D.Follows Q r (.ret a : Program E ε α)) : Q a r := by
  cases h with
  | ret h => exact h

theorem Follows.imp {Q' : α → ρ → Prop} {p : Program E ε α} (h : D.Follows Q r p)
    (hQ : ∀ a r', Q a r' → Q' a r') : D.Follows Q' r p := by
  induction h with
  | ret h => exact .ret (hQ _ _ h)
  | call ho _ ih => exact .call ho ih

/-! ### Two disciplines at once -/

variable {ρ' : Type} {D' : Discipline κ E ρ'}

def prod (D : Discipline κ E ρ) (D' : Discipline κ E ρ') : Discipline κ E (ρ × ρ') where
  allows r o := D.allows r.1 o ∧ D'.allows r.2 o
  after r o x := (D.after r.1 o x, D'.after r.2 o x)
  given k := (D.given k, D'.given k)
  final r := D.final r.1 ∧ D'.final r.2

theorem Follows.prod {Q' : α → ρ' → Prop} {r' : ρ'} {p : Program E ε α} (h : D.Follows Q r p)
    (h' : D'.Follows Q' r' p) :
    (D.prod D').Follows (fun a r => Q a r.1 ∧ Q' a r.2) (r, r') p := by
  induction h generalizing r' with
  | ret h => exact .ret ⟨h, h'.ret_inv⟩
  | call ho _ ih => exact .call ⟨ho, h'.call_inv.1⟩ fun x => ih x (h'.call_inv.2 x)

/-- Code that follows two disciplines, each with what it gives a point, follows both. -/
theorem follows_prod {k : κ} {code : Program E ε (Option κ)}
    (h : D.Follows D.Continues (D.given k) code) (h' : D'.Follows D'.Continues (D'.given k) code) :
    (D.prod D').Follows (D.prod D').Continues ((D.prod D').given k) code := by
  refine (h.prod h').imp fun next r hr => ?_
  cases next with
  | none => exact hr
  | some k => exact Prod.ext hr.1 hr.2

end Discipline

/-- The entry of a thread: where it was started and what it holds. -/
abbrev Ledger (κ ρ : Type) := ℕ → Option (κ × ρ)

/-- Each thread is entered with what it holds. -/
def Ledger.Records (ledger : Ledger κ ρ) (D : Discipline κ E ρ) (threads : List (Thread κ E ε)) :
    Prop :=
  ∀ i, Option.Rel (fun entry t => entry.1 = t.root ∧ D.Follows D.Continues entry.2 t.rest)
    (ledger i) threads[i]?

namespace Ledger

variable {D : Discipline κ E ρ} {ledger : Ledger κ ρ} {threads : List (Thread κ E ε)} {i : ℕ}
  {t : Thread κ E ε}

theorem Records.get (h : ledger.Records D threads) (hi : threads[i]? = some t) :
    ∃ r, ledger i = some (t.root, r) ∧ D.Follows D.Continues r t.rest := by
  have hrel := h i
  rw [hi] at hrel
  cases hentry : ledger i with
  | none =>
    rw [hentry] at hrel
    cases hrel
  | some entry =>
    rw [hentry] at hrel
    cases hrel with
    | some hrel => exact ⟨entry.2, by rw [← hrel.1], hrel.2⟩

theorem Records.get_of_some {entry : κ × ρ} (h : ledger.Records D threads)
    (hi : ledger i = some entry) :
    ∃ t, threads[i]? = some t ∧ entry.1 = t.root ∧ D.Follows D.Continues entry.2 t.rest := by
  have hrel := h i
  rw [hi] at hrel
  cases ht : threads[i]? with
  | none =>
    rw [ht] at hrel
    cases hrel
  | some t =>
    rw [ht] at hrel
    cases hrel with
    | some hrel => exact ⟨t, rfl, hrel⟩

theorem Records.length_eq_none (h : ledger.Records D threads) : ledger threads.length = none := by
  have hrel := h threads.length
  rw [List.getElem?_eq_none le_rfl] at hrel
  cases hentry : ledger threads.length with
  | none => rfl
  | some entry =>
    rw [hentry] at hrel
    cases hrel

theorem Records.set {r : ρ} {p : Program E ε (Option κ)} (h : ledger.Records D threads) (root : κ)
    (hi : i < threads.length) (hp : D.Follows D.Continues r p) :
    Records (Function.update ledger i (some (root, r))) D (threads.set i ⟨root, p⟩) := by
  intro j
  by_cases hij : j = i
  · subst hij
    rw [Function.update_self, List.getElem?_set_self hi]
    exact .some ⟨rfl, hp⟩
  · rw [Function.update_of_ne hij, List.getElem?_set_ne (Ne.symm hij)]
    exact h j

theorem Records.snoc {k : κ} {p : Program E ε (Option κ)} {r : ρ} (h : ledger.Records D threads)
    (hp : D.Follows D.Continues r p) :
    Records (Function.update ledger threads.length (some (k, r))) D (threads ++ [⟨k, p⟩]) := by
  intro j
  by_cases hj : j = threads.length
  · subst hj
    rw [Function.update_self, List.getElem?_concat_length]
    exact .some ⟨rfl, hp⟩
  · rw [Function.update_of_ne hj]
    rcases Nat.lt_or_gt_of_ne hj with hlt | hgt
    · rw [List.getElem?_append_left hlt]
      exact h j
    · have hnone : (threads ++ [(⟨k, p⟩ : Thread κ E ε)])[j]? = none := by
        refine List.getElem?_eq_none ?_
        rw [List.length_append, List.length_singleton]
        omega
      have hrel := h j
      rw [List.getElem?_eq_none (by omega)] at hrel
      rw [hnone]
      exact hrel

end Ledger

/-- What is kept by the steps of threads that follow a discipline holds after every run.
`I` speaks of the events so far, of what each thread holds and of the state. -/
theorem Threads.Run.ledger_induction {T : Threads κ E ε σ} {D : Discipline κ E ρ}
    {C : Event E → σ → Prop} {roots : List κ} {s₀ s : σ} {history : List (Event E)}
    {threads : List (Thread κ E ε)} {I : List (Event E) → Ledger κ ρ → σ → Prop}
    (hcode : ∀ k, D.Follows D.Continues (D.given k) (T.code k))
    (hinit : I [] (fun i => roots[i]?.map fun k => (k, D.given k)) s₀)
    (hact : ∀ history ledger s i root r o x s', I history ledger s → ledger i = some (root, r) →
      D.allows r o → T.effect o s x s' → C ⟨o, x⟩ s → T.started o x = none →
      I (history ++ [⟨o, x⟩]) (Function.update ledger i (some (root, D.after r o x))) s')
    (hstart : ∀ history ledger s i root r o x s' j k, I history ledger s →
      ledger i = some (root, r) → D.allows r o → T.effect o s x s' → C ⟨o, x⟩ s →
      T.started o x = some k → ledger j = none →
      I (history ++ [⟨o, x⟩])
        (Function.update (Function.update ledger i (some (root, D.after r o x))) j
          (some (k, D.given k))) s')
    (hrun : T.Run C roots s₀ history threads s) :
    ∃ ledger : Ledger κ ρ, ledger.Records D threads ∧ I history ledger s := by
  induction hrun with
  | init =>
    refine ⟨_, fun i => ?_, hinit⟩
    rw [List.getElem?_map]
    cases roots[i]? with
    | none => exact .none
    | some k => exact .some ⟨rfl, hcode k⟩
  | @goto history threads s i root k _ hi ih =>
    obtain ⟨ledger, hrecords, hI⟩ := ih
    obtain ⟨r, hentry, hfollows⟩ := hrecords.get hi
    obtain rfl : D.given k = r := hfollows.ret_inv
    have hlt := (List.getElem?_eq_some_iff.mp hi).1
    refine ⟨ledger, ?_, hI⟩
    have hset := hrecords.set root hlt (hcode k)
    rwa [← hentry, Function.update_eq_self] at hset
  | @act history threads s i root o next x s' _ hi heffect hC ih =>
    obtain ⟨ledger, hrecords, hI⟩ := ih
    obtain ⟨r, hentry, hfollows⟩ := hrecords.get hi
    obtain ⟨ho, hnext⟩ := hfollows.call_inv
    have hlt := (List.getElem?_eq_some_iff.mp hi).1
    have hset := hrecords.set root hlt (hnext x)
    cases hstarted : T.started o x with
    | none =>
      refine ⟨_, ?_, hact _ _ _ _ _ _ _ _ _ hI hentry ho heffect hC hstarted⟩
      rwa [Option.map_none, Option.toList_none, List.append_nil]
    | some k =>
      refine ⟨_, hset.snoc (hcode k),
        hstart _ _ _ _ _ _ _ _ _ _ _ hI hentry ho heffect hC hstarted ?_⟩
      rw [List.length_set]
      exact hrecords.length_eq_none

end Interaction
