import Freehold.Foundation.JsonRender

/-!
# Texts put between quotes as they are

A text that has no quote, or none of the characters that go on behind a string, cannot leave
its quotes: either the whole is no JSON, or the text is read as the string that it spells.
-/

namespace Json

/-- Not what follows a string in an object. -/
def NoFollower (c : Char) : Prop := isSpace c = false ∧ c ≠ ',' ∧ c ≠ '}'

instance (c : Char) : Decidable (NoFollower c) := by
  unfold NoFollower
  infer_instance

/-- A text with no quote, or with nothing that could follow one. -/
def Contained (text : List Char) : Prop := '"' ∉ text ∨ ∀ c ∈ text, NoFollower c

variable {text raw rest rest' t : List Char} {fuel : ℕ} {ms : List (List Char × Value)}

/-- A literal ends at the quote that was put behind it, at one of its own, or at the one that
opens the next string. -/
theorem literal_splice (h : literal (text ++ '"' :: ',' :: '"' :: rest) = some (raw, rest')) :
    (raw = text ∧ rest' = ',' :: '"' :: rest) ∨
      (∃ s, text = raw ++ '"' :: s ∧ rest' = s ++ '"' :: ',' :: '"' :: rest) ∨ rest' = rest := by
  rcases List.append_eq_append_iff.mp (literal_eq_append h) with
    ⟨more, hraw, hafter⟩ | ⟨more, htext, hafter⟩
  · cases more with
    | nil =>
      rw [List.append_nil] at hraw
      exact .inl ⟨hraw, (List.cons.inj hafter).2.symm⟩
    | cons c more =>
      obtain ⟨rfl, hmore⟩ := List.cons.inj hafter
      refine .inr (.inr ?_)
      -- The comma in front of the next quote is no backslash, so the literal stops there.
      have hlength : raw.length ≤ (text ++ ['"']).length + 1 := by
        apply length_literal_le (by decide : ',' ≠ '\\')
        rw [List.append_assoc]
        exact h
      rw [hraw] at hlength
      simp only [List.length_append, List.length_cons, List.length_nil] at hlength
      match more, hmore with
      | [], hmore => cases (List.cons.inj hmore).1
      | [d], hmore => exact (List.cons.inj (List.cons.inj hmore).2).2.symm
      | d :: e :: more, _ =>
        simp only [List.length_cons] at hlength
        omega
  · cases more with
    | nil =>
      rw [List.append_nil] at htext
      exact .inl ⟨htext.symm, (List.cons.inj hafter).2⟩
    | cons c more =>
      obtain ⟨rfl, hmore⟩ := List.cons.inj hafter
      exact .inr (.inl ⟨more, htext, hmore⟩)

/-- Members are read one after the other. -/
theorem exists_of_members (h : members (fuel + 1) ('"' :: text) = some (ms, rest')) :
    ∃ key member others, ms = (key, member) :: others := by
  rw [members, Option.bind_eq_bind, Option.bind_eq_some_iff] at h
  obtain ⟨⟨key, r⟩, -, h⟩ := h
  dsimp only at h
  split at h
  · obtain ⟨⟨v, r'⟩, -, h⟩ := Option.bind_eq_some_iff.mp h
    dsimp only at h
    split at h
    · obtain ⟨⟨others, u⟩, -, heq⟩ := Option.bind_eq_some_iff.mp h
      cases heq
      exact ⟨_, _, _, rfl⟩
    · cases h
      exact ⟨_, _, _, rfl⟩
    · cases h
  · cases h

theorem string_append (htext : Unescaped text) :
    string (text ++ '"' :: rest) = some (text, rest) := by
  rw [string, literal_append htext]
  simp [unescape_of_unescaped htext]

/-- Behind a member's value stands a comma or a brace. -/
theorem not_followed {c : Char} (hc : NoFollower c)
    (h : (∃ t', skipSpaces (c :: rest) = ',' :: t' ∧ members fuel (skipSpaces t') =
      some (ms, rest')) ∨
      (ms = [] ∧ skipSpaces (c :: rest) = '}' :: rest')) : False := by
  rw [skipSpaces_cons hc.1] at h
  rcases h with ⟨t', ht', -⟩ | ⟨-, ht'⟩
  · exact hc.2.1 (List.cons.inj ht').1
  · exact hc.2.2 (List.cons.inj ht').1

/-! ## Reading in front of a rest -/

/-- If anything is read from the text, it is in `Q`, and `rest` is left. -/
def ReadAs (Q : Value → Prop) (text rest : List Char) : Prop :=
  ∀ fuel v rest', value fuel (skipSpaces text) = some (v, rest') → Q v ∧ rest' = rest

theorem ReadAs.of_eq {v : Value} (h : ∀ fuel, value (fuel + 1) (skipSpaces text) = some (v, rest)) :
    ReadAs (· = v) text rest := by
  intro fuel w rest' hw
  cases fuel with
  | zero => cases hw
  | succ fuel =>
    rw [h] at hw
    cases hw
    exact ⟨rfl, rfl⟩

theorem readAs_number (n : Number) (hrest : Stops rest) :
    ReadAs (· = .number n) (n.text ++ rest) rest := by
  apply ReadAs.of_eq
  intro fuel
  have hspaces : skipSpaces ((Value.number n).render ++ rest) = (Value.number n).render ++ rest :=
    skipSpaces_render (.number n)
  rw [render_number] at hspaces
  rw [hspaces]
  exact value_number n hrest

theorem readAs_string (htext : Unescaped text) :
    ReadAs (· = .string text) ('"' :: (text ++ '"' :: rest)) rest := by
  apply ReadAs.of_eq
  intro fuel
  rw [skipSpaces_cons rfl, value, string_append htext]
  rfl

section Members

variable {key : List Char} (hkey : Unescaped key)
include hkey

/-- What is behind a key. -/
theorem members_key (h : members fuel ('"' :: (key ++ '"' :: ':' :: t)) = some (ms, rest')) :
    ∃ fuel' member r others, ms = (key, member) :: others ∧
      value fuel' (skipSpaces t) = some (member, r) ∧
      ((∃ t', skipSpaces r = ',' :: t' ∧ members fuel' (skipSpaces t') = some (others, rest')) ∨
        (others = [] ∧ skipSpaces r = '}' :: rest')) := by
  cases fuel with
  | zero => cases h
  | succ fuel =>
    obtain ⟨k, member, others, rfl⟩ := exists_of_members h
    obtain ⟨r, r', r'', hstring, hcolon, hvalue, hrest⟩ := members_succ_iff.mp h
    rw [string_append hkey] at hstring
    cases hstring
    rw [skipSpaces_cons rfl] at hcolon
    obtain ⟨-, rfl⟩ := List.cons.inj hcolon
    exact ⟨fuel, member, r'', others, rfl, hvalue, hrest⟩

/-- A member, and more of them. -/
theorem members_cons {Q : Value → Prop} (hread : ReadAs Q t (',' :: rest))
    (h : members fuel ('"' :: (key ++ '"' :: ':' :: t)) = some (ms, rest')) :
    ∃ fuel' v others, Q v ∧ ms = (key, v) :: others ∧
      members fuel' (skipSpaces rest) = some (others, rest') := by
  obtain ⟨fuel', v, r, others, rfl, hvalue, hrest⟩ := members_key hkey h
  obtain ⟨hv, rfl⟩ := hread fuel' v r hvalue
  rw [skipSpaces_cons rfl] at hrest
  rcases hrest with ⟨t', ht', hothers⟩ | ⟨-, hclose⟩
  · obtain ⟨-, rfl⟩ := List.cons.inj ht'
    exact ⟨fuel', v, others, hv, rfl, hothers⟩
  · cases (List.cons.inj hclose).1

/-- The last member. -/
theorem members_last {Q : Value → Prop} (hread : ReadAs Q t ('}' :: rest))
    (h : members fuel ('"' :: (key ++ '"' :: ':' :: t)) = some (ms, rest')) :
    ∃ v, Q v ∧ ms = [(key, v)] ∧ rest' = rest := by
  obtain ⟨fuel', v, r, others, rfl, hvalue, hrest⟩ := members_key hkey h
  obtain ⟨hv, rfl⟩ := hread fuel' v r hvalue
  rw [skipSpaces_cons rfl] at hrest
  rcases hrest with ⟨t', ht', -⟩ | ⟨rfl, hclose⟩
  · cases (List.cons.inj ht').1
  · exact ⟨v, hv, rfl, (List.cons.inj hclose).2.symm⟩

/-- A text between quotes, and the quote that opens the next key. -/
theorem members_splice (htext : Contained text) (hrest : ∃ c ∈ rest.head?, NoFollower c)
    (h : members fuel ('"' :: (key ++ '"' :: ':' :: '"' :: (text ++ '"' :: ',' :: '"' :: rest))) =
      some (ms, rest')) :
    ∃ fuel' decoded others, unescape text = some decoded ∧ ms = (key, .string decoded) :: others ∧
      members fuel' ('"' :: rest) = some (others, rest') := by
  obtain ⟨c, hhead, hc⟩ := hrest
  obtain ⟨t, rfl⟩ := List.head?_eq_some_iff.mp hhead
  obtain ⟨fuel', member, r, others, rfl, hvalue, hrest⟩ := members_key hkey h
  rw [skipSpaces_cons rfl] at hvalue
  cases fuel' with
  | zero => cases hvalue
  | succ fuel' =>
    rw [value] at hvalue
    obtain ⟨⟨decoded, r'⟩, hstring, heq⟩ := Option.map_eq_some_iff.mp hvalue
    cases heq
    obtain ⟨⟨raw, r'⟩, hliteral, hstring⟩ := Option.bind_eq_some_iff.mp hstring
    obtain ⟨decoded, hdecoded, heq⟩ := Option.bind_eq_some_iff.mp hstring
    cases heq
    rcases literal_splice hliteral with ⟨rfl, rfl⟩ | ⟨s, rfl, rfl⟩ | rfl
    · rw [skipSpaces_cons rfl] at hrest
      rcases hrest with ⟨t', ht', hothers⟩ | ⟨-, hclose⟩
      · obtain ⟨-, rfl⟩ := List.cons.inj ht'
        exact ⟨fuel' + 1, decoded, others, hdecoded, rfl, hothers⟩
      · cases (List.cons.inj hclose).1
    · -- One of its own quotes ends it: what is left of it can go on neither way.
      rcases htext with hquote | hfollow
      · exact absurd (by simp) hquote
      · exfalso
        cases s with
        | nil => exact not_followed (by decide : NoFollower '"') hrest
        | cons d s => exact not_followed (hfollow d (by simp)) hrest
    · exact (not_followed hc hrest).elim

end Members

/-- Between braces. -/
theorem value_object_inv {entry : List Char × Value} {others : List (List Char × Value)} {v : Value}
    (h : value fuel ('{' :: (renderMembers (entry :: others) ++ rest)) = some (v, rest')) :
    ∃ fuel' ms, v = .object ms ∧
      members fuel' (renderMembers (entry :: others) ++ rest) = some (ms, rest') := by
  cases fuel with
  | zero => cases h
  | succ fuel =>
    rw [value_object] at h
    obtain ⟨⟨ms, r⟩, hms, heq⟩ := Option.map_eq_some_iff.mp h
    cases heq
    exact ⟨fuel, ms, rfl, hms⟩

/-! ## Arrays -/

theorem exists_of_items {vs : List Value} (h : items (fuel + 1) text = some (vs, rest')) :
    ∃ item others, vs = item :: others := by
  rw [items, Option.bind_eq_bind, Option.bind_eq_some_iff] at h
  obtain ⟨⟨v, r⟩, -, h⟩ := h
  dsimp only at h
  split at h
  · obtain ⟨⟨others, u⟩, -, heq⟩ := Option.bind_eq_some_iff.mp h
    cases heq
    exact ⟨_, _, rfl⟩
  · cases h
    exact ⟨_, _, rfl⟩
  · cases h

section Items

variable {α : Type} {f : α → Value} {R : α → Value → Prop}

/-- Rendered items are read one by one, if each of them leaves alone what is behind it. -/
theorem items_inv {x : α} {xs : List α} {ws : List Value}
    (hread : ∀ y ∈ x :: xs, ∀ rest, ReadAs (R y) ((f y).render ++ rest) rest)
    (h : items fuel (renderItems ((x :: xs).map f) ++ ']' :: rest) = some (ws, rest')) :
    List.Forall₂ R (x :: xs) ws ∧ rest' = rest := by
  induction xs generalizing x fuel ws with
  | nil =>
    cases fuel with
    | zero => cases h
    | succ fuel =>
      obtain ⟨w, ws, rfl⟩ := exists_of_items h
      rw [List.map_singleton, renderItems, items_succ_iff] at h
      obtain ⟨r, hvalue, hrest⟩ := h
      rw [← skipSpaces_render (f x)] at hvalue
      obtain ⟨hw, rfl⟩ := hread x List.mem_cons_self _ fuel w r hvalue
      rw [skipSpaces_cons rfl] at hrest
      rcases hrest with ⟨t, ht, -⟩ | ⟨rfl, hclose⟩
      · cases (List.cons.inj ht).1
      · exact ⟨.cons hw .nil, (List.cons.inj hclose).2.symm⟩
  | cons y xs ih =>
    cases fuel with
    | zero => cases h
    | succ fuel =>
      obtain ⟨w, ws, rfl⟩ := exists_of_items h
      rw [List.map_cons, List.map_cons, renderItems, List.append_assoc, List.cons_append,
        items_succ_iff] at h
      obtain ⟨r, hvalue, hrest⟩ := h
      rw [← skipSpaces_render (f x)] at hvalue
      obtain ⟨hw, rfl⟩ := hread x List.mem_cons_self _ fuel w r hvalue
      rw [skipSpaces_cons rfl] at hrest
      rcases hrest with ⟨t, ht, hmore⟩ | ⟨-, hclose⟩
      · obtain ⟨-, rfl⟩ := List.cons.inj ht
        rw [skipSpaces_renderItems] at hmore
        obtain ⟨hws, hleft⟩ := ih (fun z hz => hread z (List.mem_cons_of_mem _ hz)) hmore
        exact ⟨.cons hw hws, hleft⟩
      · cases (List.cons.inj hclose).1

theorem readAs_array {xs : List α}
    (hread : ∀ x ∈ xs, ∀ rest, ReadAs (R x) ((f x).render ++ rest) rest) :
    ReadAs (fun w => ∃ ws, w = .array ws ∧ List.Forall₂ R xs ws)
      ((Value.array (xs.map f)).render ++ rest) rest := by
  intro fuel v rest' h
  rw [skipSpaces_render, render_array, List.cons_append, List.append_assoc] at h
  cases fuel with
  | zero => cases h
  | succ fuel =>
    cases xs with
    | nil =>
      cases h
      exact ⟨⟨[], rfl, .nil⟩, rfl⟩
    | cons x xs =>
      rw [List.map_cons, value_array] at h
      obtain ⟨⟨ws, r⟩, hws, heq⟩ := Option.map_eq_some_iff.mp h
      cases heq
      obtain ⟨hall, rfl⟩ := items_inv hread hws
      exact ⟨⟨ws, rfl, hall⟩, rfl⟩

end Items

/-- A whole text. -/
theorem ReadAs.decode {Q : Value → Prop} (hread : ReadAs Q text []) {v : Value}
    (h : decode text = some v) : Q v := by
  unfold Json.decode at h
  split at h
  · split at h
    · rename_i w r hw
      split at h
      · cases h
        exact (hread _ _ _ hw).1
      · cases h
    · cases h
  · cases h

end Json
