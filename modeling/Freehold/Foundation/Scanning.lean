import Mathlib.Data.List.Infix
import Mathlib.Tactic

/-!
# Scanning texts

What stands behind the first occurrence of one text in another, and the same told with
positions, as a string class does: a search answers a position or none, and what is cut out at
a position that is none, or is behind the end, is an error.

## Main results

* `after_append` — what stands behind the first occurrence does not depend on what comes later.
* `exists_of_find`, `find_eq_none_iff` — a search for a position finds the first occurrence.
-/

namespace Scanning

variable {α : Type} [DecidableEq α] {needle front text rest more : List α} {c : α}

/-- What stands behind the first occurrence of `needle`. -/
def after (needle text : List α) : Option (List α) :=
  (text.tails.find? fun tail => needle.isPrefixOf tail).map fun tail => tail.drop needle.length

theorem after_cons : after needle (c :: text) =
    if needle <+: c :: text then some ((c :: text).drop needle.length) else after needle text := by
  unfold after
  by_cases h : needle <+: c :: text
  · rw [List.tails_cons, List.find?_cons_of_pos (List.isPrefixOf_iff_prefix.mpr h), if_pos h]
    rfl
  · rw [List.tails_cons, List.find?_cons_of_neg (by simpa using h), if_neg h]

theorem after_of_prefix (h : needle <+: text) :
    after needle text = some (text.drop needle.length) := by
  cases text with
  | nil =>
    obtain rfl := List.prefix_nil.mp h
    rfl
  | cons c text => rw [after_cons, if_pos h]

theorem exists_of_after (h : after needle text = some rest) :
    ∃ front, text = front ++ needle ++ rest := by
  induction text with
  | nil =>
    cases needle with
    | nil =>
      cases h
      exact ⟨[], rfl⟩
    | cons c needle => cases h
  | cons c text ih =>
    rw [after_cons] at h
    split_ifs at h with hbegins
    · obtain ⟨tail, htail⟩ := hbegins
      cases h
      refine ⟨[], ?_⟩
      rw [← htail, List.drop_left, List.nil_append]
    · obtain ⟨front, rfl⟩ := ih h
      exact ⟨c :: front, rfl⟩

theorem after_isSome_iff : (after needle text).isSome ↔ needle <:+: text := by
  constructor
  · intro h
    obtain ⟨rest, hrest⟩ := Option.isSome_iff_exists.mp h
    obtain ⟨front, rfl⟩ := exists_of_after hrest
    exact ⟨front, rest, rfl⟩
  · rintro ⟨front, rest, rfl⟩
    induction front with
    | nil =>
      rw [List.nil_append, after_of_prefix (List.prefix_append needle rest)]
      rfl
    | cons c front ih =>
      rw [List.cons_append, List.cons_append, after_cons]
      split_ifs
      · rfl
      · exact ih

theorem after_eq_none_iff : after needle text = none ↔ ¬needle <:+: text := by
  rw [← after_isSome_iff, Option.not_isSome_iff_eq_none]

theorem after_map {β : Type} [DecidableEq β] {f : α → β} (hf : Function.Injective f)
    (needle text : List α) :
    after (needle.map f) (text.map f) = (after needle text).map fun rest => rest.map f := by
  induction text with
  | nil =>
    cases needle with
    | nil => rfl
    | cons c needle => rfl
  | cons c text ih =>
    have hbegins : needle.map f <+: (c :: text).map f ↔ needle <+: c :: text :=
      List.prefix_map_iff_of_injective hf
    rw [List.map_cons, after_cons, after_cons, ← List.map_cons]
    by_cases h : needle <+: c :: text
    · rw [if_pos (hbegins.mpr h), if_pos h, Option.map_some, List.length_map, List.map_drop]
    · rw [if_neg fun hmap => h (hbegins.mp hmap), if_neg h, ih]

/-- What comes later makes no difference. -/
theorem after_append (h : after needle text = some rest) (more : List α) :
    after needle (text ++ more) = some (rest ++ more) := by
  induction text with
  | nil =>
    cases needle with
    | nil =>
      cases h
      exact after_of_prefix (List.nil_prefix)
    | cons c needle => cases h
  | cons c text ih =>
    rw [after_cons] at h
    rw [List.cons_append, after_cons]
    split_ifs at h with hbegins
    · have hlonger : needle <+: c :: (text ++ more) :=
        hbegins.trans (List.prefix_append (c :: text) more)
      rw [if_pos hlonger, ← List.cons_append, List.drop_append_of_le_length hbegins.length_le]
      cases h
      rfl
    · obtain ⟨front, rfl⟩ := exists_of_after h
      rw [if_neg, ih h]
      intro hearlier
      refine hbegins (List.prefix_of_prefix_length_le hearlier
        (List.prefix_append (c :: (front ++ needle ++ rest)) more) ?_)
      simp only [List.length_cons, List.length_append]
      omega

/-- No occurrence begins in `front`. -/
theorem after_append_left (h : ∀ k < front.length, ¬needle <+: (front ++ text).drop k) :
    after needle (front ++ text) = after needle text := by
  induction front with
  | nil => rfl
  | cons c front ih =>
    have hfirst : ¬needle <+: c :: (front ++ text) := h 0 (Nat.zero_lt_succ _)
    rw [List.cons_append, after_cons, if_neg hfirst]
    refine ih fun k hk => ?_
    have hlater := h (k + 1) (Nat.succ_lt_succ hk)
    rwa [List.cons_append, List.drop_succ_cons] at hlater

/-- A needle whose first element is not in `front` does not begin there. -/
theorem after_append_left_of_head (hneedle : needle.head? = some c) (h : c ∉ front) :
    after needle (front ++ text) = after needle text := by
  refine after_append_left fun k hk hbegins => ?_
  obtain ⟨needle, rfl⟩ : ∃ tail, needle = c :: tail := by
    cases needle with
    | nil => cases hneedle
    | cons d tail =>
      cases hneedle
      exact ⟨tail, rfl⟩
  rw [List.drop_append_of_le_length hk.le, List.drop_eq_getElem_cons hk,
    List.cons_append] at hbegins
  exact h ((List.cons_prefix_cons.mp hbegins).1 ▸ List.getElem_mem hk)

theorem infix_append_left_iff (hneedle : needle.head? = some c) (h : c ∉ front) :
    needle <:+: front ++ text ↔ needle <:+: text := by
  rw [← after_isSome_iff, after_append_left_of_head hneedle h, after_isSome_iff]

theorem after_singleton (h : c ∉ front) : after [c] (front ++ c :: text) = some text := by
  rw [after_append_left_of_head rfl h]
  exact after_of_prefix ⟨text, rfl⟩

omit [DecidableEq α] in
theorem singleton_infix_iff : [c] <:+: text ↔ c ∈ text := by
  refine ⟨fun h => h.subset (List.mem_singleton_self c), fun h => ?_⟩
  obtain ⟨front, rest, rfl⟩ := List.append_of_mem h
  exact ⟨front, rest, by simp⟩

theorem after_singleton_eq_none_iff : after [c] text = none ↔ c ∉ text := by
  rw [after_eq_none_iff, singleton_infix_iff]

/-! ## Around a separator -/

omit [DecidableEq α] in
/-- A prefix without the separator ends before it. -/
theorem prefix_append_cons_iff {back : List α} (h : c ∉ needle) :
    needle <+: front ++ c :: back ↔ needle <+: front := by
  refine ⟨fun hbegins => ?_, fun hbegins => hbegins.trans (List.prefix_append front (c :: back))⟩
  have hfront : front ++ [c] <+: front ++ c :: back := ⟨back, by simp⟩
  rcases List.prefix_or_prefix_of_prefix hbegins hfront with hshort | hlong
  · rcases List.prefix_concat_iff.mp hshort with rfl | hshort
    · exact absurd (by simp) h
    · exact hshort
  · exact absurd (hlong.subset (by simp)) h

omit [DecidableEq α] in
/-- What stands before the first separator, and behind it. -/
theorem append_cons_inj {front' back back' : List α} (h : c ∉ front) (h' : c ∉ front') :
    front ++ c :: back = front' ++ c :: back' ↔ front = front' ∧ back = back' := by
  induction front generalizing front' with
  | nil =>
    cases front' with
    | nil => simp
    | cons d front' => grind
  | cons d front ih =>
    cases front' with
    | nil => grind
    | cons e front' =>
      rw [List.mem_cons, not_or] at h h'
      rw [List.cons_append, List.cons_append, List.cons.injEq, List.cons.injEq, ih h.2 h'.2,
        and_assoc]

omit [DecidableEq α] in
/-- Two texts around a separator occur in a text where it is next to both. -/
theorem infix_append_cons_iff {m t back : List α} (hm : c ∉ m) (hfront : c ∉ front) :
    m ++ c :: t <:+: front ++ c :: back ↔
      (m <:+ front ∧ t <+: back) ∨ m ++ c :: t <:+: back := by
  constructor
  · rintro ⟨p, q, h⟩
    by_cases hp : c ∈ p
    · obtain ⟨p₁, p₂, rfl, hp₁⟩ := List.eq_append_cons_of_mem hp
      rw [List.append_assoc, List.append_assoc, List.cons_append,
        append_cons_inj hp₁ hfront] at h
      exact .inr ⟨p₂, q, by rw [← h.2, List.append_assoc]⟩
    · have hsplit : (p ++ m) ++ c :: (t ++ q) = front ++ c :: back := by
        rw [← h]
        simp
      have hnot : c ∉ p ++ m := by simp [hp, hm]
      obtain ⟨rfl, rfl⟩ := (append_cons_inj hnot hfront).mp hsplit
      exact .inl ⟨⟨p, rfl⟩, ⟨q, rfl⟩⟩
  · rintro (⟨⟨p, rfl⟩, q, rfl⟩ | ⟨p, q, rfl⟩)
    · exact ⟨p, q, by simp⟩
    · exact ⟨front ++ c :: p, q, by simp⟩

omit [DecidableEq α] in
/-- A text occurs on one side of an element that it does not have. -/
theorem infix_around_iff {back : List α} (h : c ∉ needle) :
    needle <:+: front ++ c :: back ↔ needle <:+: front ∨ needle <:+: back := by
  constructor
  · rintro ⟨p, q, heq⟩
    rw [List.append_assoc] at heq
    rcases List.append_eq_append_iff.mp heq with ⟨d, rfl, hd⟩ | ⟨d, rfl, hd⟩
    · rcases List.append_eq_append_iff.mp hd with ⟨e, rfl, -⟩ | ⟨e, rfl, he⟩
      · exact .inl ⟨p, e, by simp⟩
      · cases e with
        | nil => exact .inl ⟨p, [], by simp⟩
        | cons b e =>
          cases he
          exact absurd (by simp) h
    · cases d with
      | nil =>
        cases needle with
        | nil => exact .inl (List.nil_infix)
        | cons b needle =>
          cases hd
          exact absurd List.mem_cons_self h
      | cons b d =>
        cases hd
        exact .inr ⟨d, q, by simp⟩
  · rintro (hfront | hback)
    · exact hfront.trans (List.infix_append' [] front (c :: back))
    · exact hback.trans ⟨front ++ [c], [], by simp⟩

/-! ## Between marks -/

/-- A text between two marks. -/
def quoted (q : α) (name : List α) : List α := q :: (name ++ [q])

omit [DecidableEq α] in
theorem notMem_quoted {q : α} {name : List α} (hq : c ≠ q) (hname : c ∉ name) :
    c ∉ quoted q name := by
  simp [quoted, hq, hname]

omit [DecidableEq α] in
/-- Without marks around it, there is one text between marks. -/
theorem quoted_infix_quoted {q : α} {name p lead trail : List α} (hname : q ∉ name) (hp : q ∉ p)
    (hlead : q ∉ lead) (htrail : q ∉ trail) (h : quoted q name <:+: lead ++ (quoted q p ++ trail)) :
    p = name := by
  have hnil : q ∉ ([] : List α) := List.not_mem_nil
  have hsplit : lead ++ (quoted q p ++ trail) = lead ++ q :: (p ++ q :: trail) := by simp [quoted]
  rw [hsplit] at h
  rcases (infix_append_cons_iff hnil hlead).mp h with ⟨-, rest, hrest⟩ | h
  · rw [List.append_assoc] at hrest
    exact ((append_cons_inj hname hp).mp hrest).1.symm
  · rcases (infix_append_cons_iff hnil hp).mp h with ⟨-, hbegins⟩ | h
    · exact absurd (hbegins.subset (by simp)) htrail
    · exact absurd (h.subset List.mem_cons_self) htrail

/-- The first occurrence of a text between marks is found behind an element it does not have. -/
theorem after_quoted {q : α} {name blank : List α} (hc : c ∉ quoted q name) (hblank : q ∉ blank)
    (h : ¬quoted q name <:+: front ++ c :: blank) :
    after (quoted q name) (front ++ c :: blank ++ (quoted q name ++ rest)) = some rest := by
  rw [after_append_left, after_of_prefix (List.prefix_append _ _), List.drop_left]
  intro k hk hbegins
  rw [List.drop_append_of_le_length hk.le] at hbegins
  have hsuffix : (front ++ c :: blank).drop k <:+ front ++ c :: blank := List.drop_suffix _ _
  have hne : (front ++ c :: blank).drop k ≠ [] := by
    rwa [Ne, List.drop_eq_nil_iff, not_le]
  generalize (front ++ c :: blank).drop k = tail at hbegins hsuffix hne
  rcases List.prefix_or_prefix_of_prefix hbegins (List.prefix_append tail _) with hlong | hshort
  · exact h (hlong.isInfix.trans hsuffix.isInfix)
  · have hctail : c ∉ tail := fun hmem => hc (hshort.subset hmem)
    obtain ⟨b, tail, rfl⟩ := List.exists_cons_of_ne_nil hne
    obtain ⟨rfl, -⟩ := List.cons_prefix_cons.mp hshort
    -- the last mark is not behind `c`
    rcases List.suffix_or_suffix_of_suffix hsuffix (List.suffix_append front (c :: blank)) with
      hlate | hearly
    · rcases List.suffix_cons_iff.mp hlate with heq | hin
      · exact hctail (heq ▸ List.mem_cons_self)
      · exact hblank (hin.subset List.mem_cons_self)
    · exact hctail (hearly.subset List.mem_cons_self)

/-! ## Positions -/

/-- Where the first occurrence of `needle` at or behind `pos` begins; `none` is `npos`. -/
def find (needle text : List α) (pos : ℕ) : Option ℕ :=
  if pos ≤ text.length then
    ((text.drop pos).tails.findIdx? fun tail => needle.isPrefixOf tail).map fun i => pos + i
  else none

/-- Where the first element with `p` at or behind `pos` is. -/
def findFirst (p : α → Bool) (text : List α) (pos : ℕ) : Option ℕ :=
  ((text.drop pos).findIdx? p).map fun i => pos + i

inductive OutOfRange where
  | outOfRange
  deriving DecidableEq

/-- `substr`: at most `count` elements, or all of them, from `pos` on. -/
def substr (text : List α) (pos count : Option ℕ) : Except OutOfRange (List α) :=
  match pos with
  | none => .error .outOfRange
  | some pos =>
    if pos ≤ text.length then
      .ok (match count with
        | none => text.drop pos
        | some count => (text.drop pos).take count)
    else .error .outOfRange

omit [DecidableEq α] in
theorem substr_eq_ok {pos : ℕ} (h : pos ≤ text.length) (count : ℕ) :
    substr text (some pos) (some count) = .ok ((text.drop pos).take count) := if_pos h

/-- A search at the beginning of the text that is left. -/
theorem find_zero_eq_none_iff : find needle text 0 = none ↔ after needle text = none := by
  unfold find after
  simp only [Nat.zero_le, if_true, List.drop_zero, Option.map_eq_none_iff,
    List.findIdx?_eq_none_iff,
    List.find?_eq_none, Bool.not_eq_true]

/-- What is found is what `after` speaks of. -/
theorem exists_of_find {pos i : ℕ} (h : find needle text pos = some i) :
    pos ≤ i ∧ i + needle.length ≤ text.length ∧
      after needle (text.drop pos) = some (text.drop (i + needle.length)) := by
  unfold find at h
  split_ifs at h with hpos
  obtain ⟨j, hj, rfl⟩ := Option.map_eq_some_iff.mp h
  obtain ⟨hlt, hbegins, hbefore⟩ := List.findIdx?_eq_some_iff_getElem.mp hj
  rw [List.getElem_tails] at hbegins
  have htail : needle <+: text.drop (pos + j) := by
    simpa [List.drop_drop] using hbegins
  have hlength : pos + j ≤ text.length := by
    rw [List.length_tails, List.length_drop] at hlt
    omega
  have hle : pos + j + needle.length ≤ text.length := by
    have := htail.length_le
    rw [List.length_drop] at this
    omega
  refine ⟨Nat.le_add_right pos j, hle, ?_⟩
  have hsplit : text.drop pos = (text.drop pos).take j ++ text.drop (pos + j) := by
    rw [← List.drop_drop, List.take_append_drop]
  rw [hsplit, after_append_left, after_of_prefix htail, List.drop_drop]
  intro k hk hbegins
  rw [← hsplit] at hbegins
  have hkj : k < j := by
    rw [List.length_take] at hk
    omega
  have := hbefore k hkj
  rw [List.getElem_tails] at this
  exact this (List.isPrefixOf_iff_prefix.mpr hbegins)

theorem find_eq_none_iff {pos : ℕ} (hpos : pos ≤ text.length) :
    find needle text pos = none ↔ after needle (text.drop pos) = none := by
  unfold find after
  simp only [hpos, if_true, Option.map_eq_none_iff, List.findIdx?_eq_none_iff, List.find?_eq_none,
    Bool.not_eq_true]

end Scanning
