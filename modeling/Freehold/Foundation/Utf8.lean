import Mathlib.Tactic

/-!
# UTF-8

A character stands for a byte here. The bytes are read one at a time; between two encoded
characters the reader is at `start`.
-/

namespace Utf8

/-- Within an encoded character `owed` bytes are missing, the next one between `low` and
`high`. -/
inductive State where
  | start
  | within (owed low high : ℕ) (tail : 0x80 ≤ low)

/-- A byte at the start of a character. -/
def lead (byte : ℕ) : Option State :=
  if byte ≤ 0x7F then some .start
  else if 0xC2 ≤ byte ∧ byte ≤ 0xDF then some (.within 1 0x80 0xBF (by norm_num))
  else if byte = 0xE0 then some (.within 2 0xA0 0xBF (by norm_num))
  else if byte = 0xED then some (.within 2 0x80 0x9F (by norm_num))
  else if 0xE1 ≤ byte ∧ byte ≤ 0xEF then some (.within 2 0x80 0xBF (by norm_num))
  else if byte = 0xF0 then some (.within 3 0x90 0xBF (by norm_num))
  else if 0xF1 ≤ byte ∧ byte ≤ 0xF3 then some (.within 3 0x80 0xBF (by norm_num))
  else if byte = 0xF4 then some (.within 3 0x80 0x8F (by norm_num))
  else none

def step : State → Char → Option State
  | .start, c => lead c.toNat
  | .within owed low high _, c =>
    if low ≤ c.toNat ∧ c.toNat ≤ high then
      some (if owed ≤ 1 then .start else .within (owed - 1) 0x80 0xBF (by norm_num))
    else none

def State.isStart : State → Bool
  | .start => true
  | _ => false

def State.valid (state : State) (text : List Char) : Bool :=
  ((text.foldlM step state).map State.isStart).getD false

/-- The bytes are the encoding of some text. -/
def valid (text : List Char) : Bool := State.start.valid text

def isAscii (c : Char) : Bool := c.toNat ≤ 0x7F

variable {c : Char} {s t : List Char}

/-- No encoded character contains an ASCII byte. -/
theorem step_ascii (hc : isAscii c) (state : State) :
    step state c = if state.isStart then some .start else none := by
  have hle : c.toNat ≤ 0x7F := by simpa [isAscii] using hc
  cases state with
  | start => simp [step, lead, hle, State.isStart]
  | within owed low high tail =>
    have hlow : ¬(low ≤ c.toNat ∧ c.toNat ≤ high) := by omega
    simp [step, hlow, State.isStart]

@[simp] theorem valid_nil : valid [] = true := rfl

theorem State.valid_append_ascii_cons (hc : isAscii c) (state : State) :
    state.valid (s ++ c :: t) = (state.valid s && Utf8.valid t) := by
  unfold Utf8.valid State.valid
  rw [List.foldlM_append]
  cases s.foldlM step state with
  | none => rfl
  | some state' =>
    simp only [Option.bind_eq_bind, Option.bind_some, List.foldlM_cons, step_ascii hc]
    cases state' <;> rfl

/-- An ASCII byte separates. -/
theorem valid_append_ascii_cons (hc : isAscii c) :
    valid (s ++ c :: t) = (valid s && valid t) := State.valid_append_ascii_cons hc .start

theorem valid_ascii_cons (hc : isAscii c) : valid (c :: t) = valid t := by
  have h := valid_append_ascii_cons (s := []) (t := t) hc
  simpa using h

theorem valid_ascii_append (hs : ∀ c ∈ s, isAscii c) : valid (s ++ t) = valid t := by
  induction s with
  | nil => rfl
  | cons c s ih =>
    rw [List.cons_append, valid_ascii_cons (hs c List.mem_cons_self),
      ih fun d hd => hs d (List.mem_cons_of_mem c hd)]

/-- ASCII text on the right separates too. -/
theorem valid_append_ascii (ht : ∀ c ∈ t, isAscii c) : valid (s ++ t) = valid s := by
  cases t with
  | nil => rw [List.append_nil]
  | cons c t =>
    have htail : valid t = true := by
      have h := valid_ascii_append (t := []) fun d hd => ht d (List.mem_cons_of_mem c hd)
      simpa using h
    rw [valid_append_ascii_cons (ht c List.mem_cons_self), htail, Bool.and_true]

end Utf8
