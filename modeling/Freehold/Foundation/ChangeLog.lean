import Mathlib.Tactic

/-!
# What a register reports

A register is written by a trusted source and by others, and marks stand between the writes.
The report lists the marks and the changes: a write of the value that is already there is not
reported. Leaving out the entries of the others leaves the report as it is exactly if none of
them is a mark and each of their writes repeats what the trusted source has just written or
comes right before it (`report_trusted_eq_iff`).
-/

namespace ChangeLog

structure Entry (μ α : Type) where
  trusted : Bool
  item : μ ⊕ α

variable {μ α : Type} {l pre : List (Entry μ α)} {a b x : α} {m : μ} {cur prev : Option α}
  {tr pending : Bool}

/-- The report on a register that holds `cur` at first. -/
def report [DecidableEq α] (cur : Option α) : List (Entry μ α) → List (μ ⊕ α)
  | [] => []
  | ⟨_, .inl m⟩ :: l => .inl m :: report cur l
  | ⟨_, .inr a⟩ :: l => if some a = cur then report cur l else .inr a :: report (some a) l

/-- The entries of the trusted source. -/
def trustedOnly (l : List (Entry μ α)) : List (Entry μ α) := l.filter Entry.trusted

/-- The trusted source has written `a`, and nobody has written anything else since. -/
def Standing (a : α) (before : List (Entry μ α)) : Prop :=
  ∃ earlier later, before = earlier ++ ⟨true, .inr a⟩ :: later ∧
    ∀ e ∈ later, ∀ b, e.item = .inr b → b = a

/-- The trusted source is going to write `a`, and until then there are only writes of `a`. -/
def Upcoming (a : α) (after : List (Entry μ α)) : Prop :=
  ∃ earlier later, after = earlier ++ ⟨true, .inr a⟩ :: later ∧ ∀ e ∈ earlier, e.item = .inr a

/-- The others set no mark and write nothing that the trusted source does not write with them. -/
structure Harmless (l : List (Entry μ α)) : Prop where
  marks : ∀ e ∈ l, e.item.isLeft → e.trusted
  writes : ∀ before a after, l = before ++ ⟨false, .inr a⟩ :: after →
    Standing a before ∨ Upcoming a after

/-- What the register holds in the end. -/
def held (cur : Option α) : List (Entry μ α) → Option α
  | [] => cur
  | ⟨_, .inl _⟩ :: l => held cur l
  | ⟨_, .inr a⟩ :: l => held (some a) l

/-- The marks, in their order. -/
def marks (l : List (Entry μ α)) : List μ := l.filterMap fun e => e.item.getLeft?

@[simp] theorem trustedOnly_trusted (i : μ ⊕ α) :
    trustedOnly (⟨true, i⟩ :: l) = ⟨true, i⟩ :: trustedOnly l := rfl

@[simp] theorem trustedOnly_untrusted (i : μ ⊕ α) :
    trustedOnly (⟨false, i⟩ :: l) = trustedOnly l := rfl

@[simp] theorem held_append (cur : Option α) (l l' : List (Entry μ α)) :
    held cur (l ++ l') = held (held cur l) l' := by
  induction l generalizing cur with
  | nil => rfl
  | cons e l ih =>
    match e with
    | ⟨tr, .inl m⟩ => exact ih cur
    | ⟨tr, .inr a⟩ => exact ih (some a)

@[simp] theorem marks_append (l l' : List (Entry μ α)) : marks (l ++ l') = marks l ++ marks l' :=
  List.filterMap_append

/-! ## Looking back and ahead -/

theorem standing_snoc {e : Entry μ α} : Standing a (pre ++ [e]) ↔
    e = ⟨true, .inr a⟩ ∨ (Standing a pre ∧ ∀ b, e.item = .inr b → b = a) := by
  constructor
  · rintro ⟨earlier, later, hpre, hlater⟩
    induction later using List.reverseRecOn with
    | nil =>
      obtain ⟨-, he⟩ := List.append_inj' hpre rfl
      exact .inl (List.singleton_inj.mp he)
    | append_singleton later e' _ =>
      rw [← List.cons_append, ← List.append_assoc] at hpre
      obtain ⟨rfl, he⟩ := List.append_inj' hpre rfl
      obtain rfl := List.singleton_inj.mp he
      rw [List.forall_mem_append, List.forall_mem_singleton] at hlater
      exact .inr ⟨⟨earlier, later, rfl, hlater.1⟩, hlater.2⟩
  · rintro (rfl | ⟨⟨earlier, later, rfl, hlater⟩, he⟩)
    · exact ⟨pre, [], rfl, by simp⟩
    · refine ⟨earlier, later ++ [e], by simp, ?_⟩
      intro e' he'
      rcases List.mem_append.mp he' with he' | he'
      · exact hlater e' he'
      · rw [List.mem_singleton.mp he']
        exact he

theorem upcoming_cons {e : Entry μ α} : Upcoming a (e :: l) ↔
    e = ⟨true, .inr a⟩ ∨ (e.item = .inr a ∧ Upcoming a l) := by
  constructor
  · rintro ⟨earlier, later, hl, hearlier⟩
    cases earlier with
    | nil => exact .inl (List.cons.inj hl).1
    | cons e' earlier =>
      obtain ⟨rfl, rfl⟩ := List.cons.inj hl
      rw [List.forall_mem_cons] at hearlier
      exact .inr ⟨hearlier.1, earlier, later, rfl, hearlier.2⟩
  · rintro (rfl | ⟨he, earlier, later, rfl, hearlier⟩)
    · exact ⟨[], l, rfl, by simp⟩
    · exact ⟨e :: earlier, later, rfl, List.forall_mem_cons.mpr ⟨he, hearlier⟩⟩

/-- The writes of the others in `l`, after `pre`, go with writes of the trusted source. -/
def Matched (pre l : List (Entry μ α)) : Prop :=
  ∀ before a after, l = before ++ ⟨false, .inr a⟩ :: after →
    Standing a (pre ++ before) ∨ Upcoming a after

theorem matched_cons {e : Entry μ α} : Matched pre (e :: l) ↔
    (∀ a, e = ⟨false, .inr a⟩ → Standing a pre ∨ Upcoming a l) ∧ Matched (pre ++ [e]) l := by
  constructor
  · intro h
    refine ⟨fun a he => ?_, fun before a after hl => ?_⟩
    · simpa using h [] a l (by rw [he]; rfl)
    · simpa using h (e :: before) a after (by rw [hl]; rfl)
  · rintro ⟨hhead, htail⟩ before a after hl
    cases before with
    | nil =>
      obtain ⟨he, rfl⟩ := List.cons.inj hl
      simpa using hhead a he
    | cons e' before =>
      obtain ⟨rfl, hl'⟩ := List.cons.inj hl
      simpa using htail before a after hl'

/-- The register holds `cur` after `pre`, and `pending` says that the trusted source has not
written it yet. -/
structure Tracks (pre : List (Entry μ α)) (cur : Option α) (pending : Bool) : Prop where
  standing : ∀ a, Standing a pre → cur = some a
  settled : ∀ a, cur = some a → (pending = false ↔ Standing a pre)
  empty : cur = none → pending = false

theorem Tracks.start : Tracks ([] : List (Entry μ α)) none false :=
  ⟨by rintro a ⟨_, _, h, -⟩; simp at h, by simp, fun _ => rfl⟩

theorem Tracks.mark (h : Tracks pre cur pending) : Tracks (pre ++ [⟨tr, .inl m⟩]) cur pending := by
  have hsame : ∀ a, Standing a (pre ++ [⟨tr, .inl m⟩]) ↔ Standing a pre := fun a => by
    simp [standing_snoc]
  exact ⟨fun a ha => h.standing a ((hsame a).mp ha),
    fun a ha => (h.settled a ha).trans (hsame a).symm,
    h.empty⟩

theorem Tracks.trusted : Tracks (pre ++ [⟨true, .inr a⟩]) (some a) false := by
  refine ⟨fun b hb => ?_, fun b hb => ?_, fun _ => rfl⟩
  · rcases standing_snoc.mp hb with he | ⟨-, he⟩
    · cases he
      rfl
    · rw [he a rfl]
  · cases hb
    exact iff_of_true rfl (standing_snoc.mpr (.inl rfl))

theorem Tracks.repeated (h : Tracks pre (some a) pending) :
    Tracks (pre ++ [⟨false, .inr a⟩]) (some a) pending := by
  refine ⟨fun b hb => ?_, fun b hb => ?_, fun h => by cases h⟩
  · rcases standing_snoc.mp hb with he | ⟨hb, -⟩
    · cases he
    · exact h.standing b hb
  · cases hb
    rw [h.settled a rfl, standing_snoc]
    simp

theorem Tracks.overwritten (h : Tracks pre cur pending) (ha : some a ≠ cur) :
    Tracks (pre ++ [⟨false, .inr a⟩]) (some a) true := by
  refine ⟨fun b hb => ?_, fun b hb => ?_, fun h => by cases h⟩
  · rcases standing_snoc.mp hb with he | ⟨-, he⟩
    · cases he
    · rw [he a rfl]
  · cases hb
    refine iff_of_false (by simp) fun hstanding => ?_
    rcases standing_snoc.mp hstanding with he | ⟨hstanding, -⟩
    · cases he
    · exact ha (h.standing a hstanding).symm

/-- A pending value is there. -/
theorem Tracks.exists_of_pending (h : Tracks pre cur true) : ∃ x, cur = some x := by
  cases cur with
  | none => cases h.empty rfl
  | some x => exact ⟨x, rfl⟩

/-! ## Without looking back -/

section Report

variable [DecidableEq α]

@[simp] theorem report_nil : report cur ([] : List (Entry μ α)) = [] := rfl

@[simp] theorem report_mark : report cur (⟨tr, .inl m⟩ :: l) = .inl m :: report cur l := rfl

@[simp] theorem report_same : report (some a) (⟨tr, .inr a⟩ :: l) = report (some a) l := if_pos rfl

theorem report_change (h : some a ≠ cur) :
    report cur (⟨tr, .inr a⟩ :: l) = .inr a :: report (some a) l := if_neg h

/-- Leaving out entries saves changes, up to the one that a different start makes. -/
theorem length_report_le (prev cur : Option α) (l : List (Entry μ α)) :
    (report prev (trustedOnly l)).length ≤
      (report cur l).length + if prev = cur then 0 else 1 := by
  induction l generalizing prev cur with
  | nil => exact Nat.zero_le _
  | cons e l ih =>
    match e with
    | ⟨true, .inl m⟩ =>
      have hl := ih prev cur
      simp only [trustedOnly_trusted, report_mark, List.length_cons]
      omega
    | ⟨false, .inl m⟩ =>
      have hl := ih prev cur
      simp only [trustedOnly_untrusted, report_mark, List.length_cons]
      omega
    | ⟨true, .inr a⟩ =>
      have hl := ih (some a) (some a)
      rw [if_pos rfl] at hl
      simp only [trustedOnly_trusted, report]
      split_ifs <;> grind
    | ⟨false, .inr a⟩ =>
      have hl := ih prev (some a)
      simp only [trustedOnly_untrusted, report]
      split_ifs at hl ⊢ <;> grind

/-- Two changes that the trusted source has not made are never caught up with. -/
theorem not_overtaken {i : μ ⊕ α}
    (h : report prev (trustedOnly l) = i :: .inr a :: report (some a) l) : False := by
  have hlength := length_report_le prev (some a) l
  rw [h, List.length_cons, List.length_cons] at hlength
  split_ifs at hlength <;> omega

/-- Whether the report stays as it is, from a register that holds `cur`; a pending value is one
that the trusted source has not written yet. -/
def Accepts : Option α → Bool → List (Entry μ α) → Prop
  | _, pending, [] => pending = false
  | cur, pending, ⟨tr, .inl _⟩ :: l => tr = true ∧ pending = false ∧ Accepts cur false l
  | cur, pending, ⟨true, .inr a⟩ :: l => (pending = true → some a = cur) ∧ Accepts (some a) false l
  | cur, pending, ⟨false, .inr a⟩ :: l =>
    if some a = cur then Accepts cur pending l else pending = false ∧ Accepts (some a) true l

/-- The reports of both agree, or what the others have written last is still to be reported. -/
theorem accepts_iff (l : List (Entry μ α)) :
    (∀ cur, Accepts cur false l ↔ report cur (trustedOnly l) = report cur l) ∧
    ∀ prev x, some x ≠ prev →
      (Accepts (some x) true l ↔ report prev (trustedOnly l) = .inr x :: report (some x) l) := by
  induction l with
  | nil =>
    exact ⟨fun cur => by simp [Accepts, trustedOnly],
      fun prev x _ => by simp [Accepts, trustedOnly]⟩
  | cons e l ih =>
    obtain ⟨hsync, hpending⟩ := ih
    match e with
    | ⟨true, .inl m⟩ =>
      refine ⟨fun cur => ?_, fun prev x _ => ?_⟩
      · simp [Accepts, hsync]
      · simp [Accepts]
    | ⟨false, .inl m⟩ =>
      refine ⟨fun cur => ?_, fun prev x _ => ?_⟩
      · have hlength := length_report_le cur cur l
        rw [if_pos rfl] at hlength
        refine iff_of_false (by simp [Accepts]) fun h => ?_
        have := congrArg List.length h
        simp only [trustedOnly_untrusted, report_mark, List.length_cons] at this
        omega
      · have hlength := length_report_le prev (some x) l
        refine iff_of_false (by simp [Accepts]) fun h => ?_
        have := congrArg List.length h
        simp only [trustedOnly_untrusted, report_mark, List.length_cons] at this
        split_ifs at hlength <;> omega
    | ⟨true, .inr a⟩ =>
      refine ⟨fun cur => ?_, fun prev x hx => ?_⟩
      · by_cases ha : some a = cur
        · subst ha
          simp [Accepts, hsync]
        · simp [Accepts, report_change ha, hsync]
      · by_cases hax : a = x
        · subst hax
          simp [Accepts, report_change hx, hsync]
        · refine iff_of_false (by simp [Accepts, hax]) fun h => ?_
          have hne : some a ≠ some x := by simpa using hax
          rw [trustedOnly_trusted, report_change hne] at h
          by_cases ha : some a = prev
          · subst ha
            rw [report_same] at h
            exact not_overtaken h
          · rw [report_change ha] at h
            exact hax (Sum.inr.inj (List.cons.inj h).1)
    | ⟨false, .inr a⟩ =>
      refine ⟨fun cur => ?_, fun prev x hx => ?_⟩
      · by_cases ha : some a = cur
        · subst ha
          simp [Accepts, hsync]
        · simp [Accepts, ha, report_change ha, hpending cur a ha]
      · by_cases hax : a = x
        · subst hax
          simp [Accepts, hpending prev a hx]
        · have hne : some a ≠ some x := by simpa using hax
          refine iff_of_false (by simp [Accepts, hax]) fun h => ?_
          rw [trustedOnly_untrusted, report_change hne] at h
          exact not_overtaken h

theorem accepts_iff_matched (l : List (Entry μ α)) (h : Tracks pre cur pending) :
    Accepts cur pending l ↔
      (∀ e ∈ l, e.item.isLeft → e.trusted) ∧ Matched pre l ∧
        (pending = true → ∀ x, cur = some x → Upcoming x l) := by
  induction l generalizing pre cur pending with
  | nil =>
    cases pending with
    | false => simp [Accepts, Matched]
    | true =>
      obtain ⟨x, rfl⟩ := h.exists_of_pending
      simp [Accepts, Upcoming]
  | cons e l ih =>
    rw [matched_cons, List.forall_mem_cons]
    match e with
    | ⟨tr, .inl m⟩ =>
      cases pending with
      | false =>
        have hmark : Tracks (pre ++ [⟨tr, .inl m⟩]) cur false := h.mark
        simp only [Accepts, ih hmark, Sum.isLeft_inl, true_implies, Entry.mk.injEq, reduceCtorEq,
          and_false, false_implies, implies_true, true_and, Bool.false_eq_true, and_true, and_assoc]
      | true =>
        obtain ⟨x, rfl⟩ := h.exists_of_pending
        simp [Accepts, upcoming_cons]
    | ⟨true, .inr a⟩ =>
      have hwrite : Tracks (pre ++ [⟨true, .inr a⟩]) (some a) false := .trusted
      have hcur : (pending = true → some a = cur) ↔
          (pending = true → ∀ x, cur = some x → Upcoming x (⟨true, .inr a⟩ :: l)) := by
        refine forall_congr' fun hpending => ?_
        subst hpending
        obtain ⟨x, rfl⟩ := h.exists_of_pending
        rw [Option.some.injEq]
        constructor
        · rintro rfl y hy
          cases hy
          exact upcoming_cons.mpr (.inl rfl)
        · intro hx
          rcases upcoming_cons.mp (hx x rfl) with he | ⟨he, -⟩
          · cases he
            rfl
          · exact Sum.inr.inj he
      rw [← hcur]
      simp only [Accepts, ih hwrite, Bool.false_eq_true, IsEmpty.forall_iff, and_true,
        Sum.isLeft_inr, implies_true, true_and, Entry.mk.injEq, Bool.true_eq_false, false_and]
      tauto
    | ⟨false, .inr a⟩ =>
      by_cases ha : some a = cur
      · subst ha
        simp only [Accepts, if_pos, ih h.repeated]
        cases pending with
        | false =>
          have hstanding : Standing a pre := (h.settled a rfl).mp rfl
          simp [hstanding]
        | true =>
          simp only [Option.some.injEq, forall_eq', forall_const, Sum.isLeft_inr,
            Bool.false_eq_true,
            imp_self, true_and, Entry.mk.injEq, Sum.inr.injEq, upcoming_cons, false_and, false_or]
          tauto
      · have hstanding : ¬Standing a pre := fun hstanding => ha (h.standing a hstanding).symm
        simp only [Accepts, if_neg ha, ih (h.overwritten ha)]
        cases pending with
        | false =>
          simp only [Option.some.injEq, forall_eq', forall_const, true_and, Sum.isLeft_inr,
            Bool.false_eq_true, imp_self, Entry.mk.injEq, Sum.inr.injEq, hstanding, false_or,
            IsEmpty.forall_iff, and_true]
          tauto
        | true =>
          obtain ⟨x, rfl⟩ := h.exists_of_pending
          have hne : a ≠ x := by simpa using ha
          simp [upcoming_cons, hne]

/-- The report on all entries is the report on those of the trusted source exactly if the others
are harmless. -/
theorem report_trusted_eq_iff (l : List (Entry μ α)) :
    report none (trustedOnly l) = report none l ↔ Harmless l := by
  rw [← (accepts_iff l).1 none, accepts_iff_matched l .start]
  constructor
  · rintro ⟨hmarks, hwrites, -⟩
    exact ⟨hmarks, hwrites⟩
  · intro h
    exact ⟨h.marks, h.writes, fun h => by cases h⟩

/-! ## What the report tells -/

@[simp] theorem report_append (cur : Option α) (l l' : List (Entry μ α)) :
    report cur (l ++ l') = report cur l ++ report (held cur l) l' := by
  induction l generalizing cur with
  | nil => rfl
  | cons e l ih =>
    match e with
    | ⟨tr, .inl m⟩ => simp [held, ih]
    | ⟨tr, .inr a⟩ =>
      by_cases ha : some a = cur
      · subst ha
        simp [held, ih]
      · simp [held, report_change ha, ih]

theorem held_eq (cur : Option α) (l : List (Entry μ α)) :
    held cur l = ((report cur l).filterMap Sum.getRight?).getLast?.or cur := by
  induction l generalizing cur with
  | nil => rfl
  | cons e l ih =>
    match e with
    | ⟨tr, .inl m⟩ => simp [held, ih]
    | ⟨tr, .inr a⟩ =>
      by_cases ha : some a = cur
      · subst ha
        simp [held, ih]
      · rw [held, ih, report_change ha]
        cases hlast : ((report (some a) l).filterMap Sum.getRight?).getLast? with
        | none => simp [List.getLast?_cons, hlast]
        | some b => simp [List.getLast?_cons, hlast]

theorem marks_eq (cur : Option α) (l : List (Entry μ α)) :
    marks l = (report cur l).filterMap Sum.getLeft? := by
  induction l generalizing cur with
  | nil => rfl
  | cons e l ih =>
    match e with
    | ⟨tr, .inl m⟩ => simpa [marks] using ih cur
    | ⟨tr, .inr a⟩ =>
      by_cases ha : some a = cur
      · subst ha
        simpa [marks, List.filterMap_cons] using ih (some a)
      · rw [report_change ha]
        simpa [marks, List.filterMap_cons] using ih (some a)

end Report

end ChangeLog
