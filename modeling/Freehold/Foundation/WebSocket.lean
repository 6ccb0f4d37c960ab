import Mathlib.Data.List.Basic
import Mathlib.Tactic

/-!
# WebSocket frames

A frame is two bytes, a length of two or eight more bytes if the second byte says so, a masking
key of four bytes if its highest bit is set, and the payload. `value` is the number that a byte
stands for.

## Main results

* `frame_append` — a frame is taken off whatever follows it.
* `Boundary.append`, `frames_append_right` — what comes behind a stream moves no boundary and
  changes no frame in front.
* `frames_flatten` — what is made of frames one after the other is read back frame by frame.
-/

namespace WebSocket

variable {α : Type} (value : α → ℕ)

/-- How many bytes the length has behind the second byte. -/
def extendedSize (second : α) : ℕ :=
  if value second % 128 = 126 then 2 else if value second % 128 = 127 then 8 else 0

def maskSize (second : α) : ℕ := if 128 ≤ value second then 4 else 0

def bigEndian (bytes : List α) : ℕ := bytes.foldl (fun n b => n * 256 + value b) 0

/-- The length of the payload. -/
def payloadLength (second : α) (extended : List α) : ℕ :=
  if extendedSize value second = 0 then value second % 128 else bigEndian value extended

/-- The opcode and the payload of a frame, and what follows it. -/
def frame : List α → Option ((ℕ × List α) × List α)
  | first :: second :: bytes =>
    let header := extendedSize value second + maskSize value second
    let length := payloadLength value second (bytes.take (extendedSize value second))
    if header + length ≤ bytes.length then
      some ((value first % 16, (bytes.drop header).take length), bytes.drop (header + length))
    else none
  | _ => none

variable {value}

theorem extendedSize_short {second : α} (h : value second % 128 < 126) :
    extendedSize value second = 0 := by
  rw [extendedSize, if_neg (by omega), if_neg (by omega)]

theorem extendedSize_two {second : α} (h : value second % 128 = 126) :
    extendedSize value second = 2 := if_pos h

theorem extendedSize_eight {second : α} (h : value second % 128 = 127) :
    extendedSize value second = 8 := by
  rw [extendedSize, if_neg (by omega), if_pos h]

theorem extendedSize_eq_zero_iff {second : α} :
    extendedSize value second = 0 ↔ value second % 128 < 126 := by
  have hbyte := Nat.mod_lt (value second) (show 0 < 128 by decide)
  unfold extendedSize
  split_ifs <;> simp <;> omega

theorem payloadLength_short {second : α} (h : value second % 128 < 126) (extended : List α) :
    payloadLength value second extended = value second % 128 := if_pos (extendedSize_short h)

theorem payloadLength_long {second : α} (h : 126 ≤ value second % 128) (extended : List α) :
    payloadLength value second extended = bigEndian value extended := by
  refine if_neg ?_
  unfold extendedSize
  split_ifs
  · decide
  · decide
  · omega

theorem length_of_frame {bytes rest : List α} {content : ℕ × List α}
    (h : frame value bytes = some (content, rest)) : rest.length < bytes.length := by
  match bytes, h with
  | first :: second :: bytes, h =>
    simp only [frame, Option.ite_none_right_eq_some, Option.some.injEq, Prod.mk.injEq] at h
    rw [← h.2.2, List.length_drop, List.length_cons, List.length_cons]
    omega

/-- A frame whose header says where it ends. -/
theorem frame_eq_some {first second : α} {bytes : List α} {header length : ℕ}
    (hheader : header = extendedSize value second + maskSize value second)
    (hlength : length = payloadLength value second (bytes.take (extendedSize value second)))
    (h : header + length ≤ bytes.length) : frame value (first :: second :: bytes) =
      some ((value first % 16, (bytes.drop header).take length), bytes.drop (header + length)) := by
  subst hheader hlength
  exact if_pos h

/-- A whole frame is the same in front of more. -/
theorem frame_append_right {bytes rest : List α} {content : ℕ × List α}
    (h : frame value bytes = some (content, rest)) (more : List α) :
    frame value (bytes ++ more) = some (content, rest ++ more) := by
  match bytes, h with
  | first :: second :: bytes, h =>
    simp only [frame, Option.ite_none_right_eq_some, Option.some.injEq, Prod.mk.injEq] at h
    obtain ⟨hlength, rfl, rfl⟩ := h
    have htake : (bytes ++ more).take (extendedSize value second) =
        bytes.take (extendedSize value second) := List.take_append_of_le_length (by omega)
    have hmore : extendedSize value second + maskSize value second + payloadLength value second
        ((bytes ++ more).take (extendedSize value second)) ≤ (bytes ++ more).length := by
      rw [htake, List.length_append]
      omega
    rw [List.cons_append, List.cons_append, frame_eq_some rfl rfl hmore, htake,
      List.drop_append_of_le_length (by omega), List.drop_append_of_le_length hlength,
      List.take_append_of_le_length (by rw [List.length_drop]; omega)]

variable (value) in
/-- Where a frame begins, up to the first close frame. -/
inductive Boundary (stream : List α) : List α → Prop where
  | start : Boundary stream stream
  | next {bytes rest payload : List α} {opcode : ℕ} (h : Boundary stream bytes)
      (hframe : frame value bytes = some ((opcode, payload), rest)) (hopcode : opcode ≠ 8) :
      Boundary stream rest

theorem Boundary.append {stream bytes : List α} (h : Boundary value stream bytes)
    (more : List α) : Boundary value (stream ++ more) (bytes ++ more) := by
  induction h with
  | start => exact .start
  | next _ hframe hopcode ih => exact ih.next (frame_append_right hframe more) hopcode

variable (value) in
/-- The frames, as far as they are complete, and what is left over. -/
def frames (bytes : List α) : List (ℕ × List α) × List α :=
  match _h : frame value bytes with
  | none => ([], bytes)
  | some (content, rest) => (content :: (frames rest).1, (frames rest).2)
termination_by bytes.length
decreasing_by
  all_goals exact length_of_frame _h

/-- What comes behind a stream changes no frame in front. -/
theorem frames_append_right (bytes more : List α) :
    (frames value bytes).1 <+: (frames value (bytes ++ more)).1 := by
  fun_induction frames value bytes with
  | case1 bytes hnone => exact List.nil_prefix
  | case2 bytes content rest hsome ih =>
    rw [frames.eq_def value (bytes ++ more)]
    split
    · next hnone => cases hnone.symm.trans (frame_append_right hsome more)
    · next content' rest' hsome' =>
      cases hsome'.symm.trans (frame_append_right hsome more)
      exact List.cons_prefix_cons.mpr ⟨rfl, ih⟩

/-- A frame is taken off whatever follows it. -/
theorem frame_append {first second : α} {extended mask payload : List α}
    (hextended : extended.length = extendedSize value second)
    (hmask : mask.length = maskSize value second)
    (hpayload : payload.length = payloadLength value second extended) (rest : List α) :
    frame value (first :: second :: (extended ++ (mask ++ (payload ++ rest)))) =
      some ((value first % 16, payload), rest) := by
  have htake : (extended ++ (mask ++ (payload ++ rest))).take (extendedSize value second) =
      extended := by rw [← hextended, List.take_left]
  have hdrop : (extended ++ (mask ++ (payload ++ rest))).drop
      (extendedSize value second + maskSize value second) = payload ++ rest := by
    rw [← hextended, ← hmask, ← List.drop_drop, List.drop_left, List.drop_left]
  have hlength : extendedSize value second + maskSize value second +
      payloadLength value second extended ≤ (extended ++ (mask ++ (payload ++ rest))).length := by
    simp only [List.length_append]
    omega
  simp only [frame, htake]
  rw [if_pos hlength, hdrop, ← List.drop_drop, hdrop, ← hpayload, List.take_left, List.drop_left]

/-- Texts that each begin with their frame are read back one by one. -/
theorem frames_flatten {texts : List (List α)} {encode : List α → List α}
    (h : ∀ text ∈ texts, ∀ rest, frame value (encode text ++ rest) = some ((1, text), rest)) :
    frames value (texts.map encode).flatten = (texts.map fun text => (1, text), []) := by
  induction texts with
  | nil =>
    rw [frames]
    rfl
  | cons text texts ih =>
    have hfirst := h text List.mem_cons_self (texts.map encode).flatten
    have hothers := ih fun other hother => h other (List.mem_cons_of_mem _ hother)
    rw [List.map_cons, List.flatten_cons, frames]
    split
    · next hnone => cases hfirst.symm.trans hnone
    · next content rest hsome =>
      cases hfirst.symm.trans hsome
      rw [hothers, List.map_cons]

/-! ## Lengths -/

/-- The last `k` bytes of a number, the highest first. -/
theorem foldl_bytes (n k acc : ℕ) :
    ((List.range k).reverse.map fun i => n / 256 ^ i % 256).foldl (fun m b => m * 256 + b) acc =
      acc * 256 ^ k + n % 256 ^ k := by
  induction k generalizing acc with
  | zero => simp [Nat.mod_one]
  | succ k ih =>
    rw [List.range_succ, List.reverse_append, List.reverse_singleton, List.singleton_append,
      List.map_cons, List.foldl_cons, ih, Nat.mod_pow_succ]
    ring

end WebSocket
