import Mathlib.Data.List.Basic
import Mathlib.Tactic

/-!
# Accepting each key once

Items arrive one after the other, and some of them carry a key. An item is new when it
carries a key that none of the items before it carries.
-/

namespace Once

variable {α K L : Type*} {key : α → Option K} {items : List α} {a : α} {k : K}

/-- The keys that the items carry. -/
def known (key : α → Option K) (items : List α) : Set K := {k | ∃ a ∈ items, key a = some k}

/-- After the items `before`, `a` carries a key that is not known. -/
def New (key : α → Option K) (before : List α) (a : α) : Prop :=
  ∃ k, key a = some k ∧ k ∉ known key before

@[simp] theorem notMem_known_nil : k ∉ known key [] := by
  simp [known]

theorem mem_known_snoc : k ∈ known key (items ++ [a]) ↔ k ∈ known key items ∨ key a = some k := by
  simp [known, or_and_right, exists_or]

theorem new_iff (hk : key a = some k) : New key items a ↔ k ∉ known key items := by
  simp [New, hk]

/-- A key that is known was new once. -/
theorem mem_known_iff_new : k ∈ known key items ↔
    ∃ before a after, items = before ++ a :: after ∧ key a = some k ∧ New key before a := by
  constructor
  · intro h
    induction items using List.reverseRecOn with
    | nil => exact absurd h notMem_known_nil
    | append_singleton items a ih =>
      by_cases hearlier : k ∈ known key items
      · obtain ⟨before, b, after, rfl, hb, hnew⟩ := ih hearlier
        exact ⟨before, b, after ++ [a], by simp, hb, hnew⟩
      · have ha := (mem_known_snoc.mp h).resolve_left hearlier
        exact ⟨items, a, [], rfl, ha, (new_iff ha).mpr hearlier⟩
  · rintro ⟨before, b, after, rfl, hb, -⟩
    exact ⟨b, by simp, hb⟩

/-! ## Labels -/

section Labels

variable {name : α → K} {label : α → L}

/-- An item is new exactly if no new item before it has its label. -/
def OncePer (name : α → K) (label : α → L) (items : List α) : Prop :=
  ∀ before a after, items = before ++ a :: after →
    (New (some ∘ name) before a ↔
      ¬∃ before' b after', before = before' ++ b :: after' ∧ New (some ∘ name) before' b ∧
        label b = label a)

/-- An item repeats an earlier name exactly if it repeats an earlier label. -/
def SameRepeats (name : α → K) (label : α → L) (items : List α) : Prop :=
  ∀ before a after, items = before ++ a :: after →
    ((∃ b ∈ before, name b = name a) ↔ ∃ b ∈ before, label b = label a)

theorem new_some_iff : New (some ∘ name) items a ↔ ¬∃ b ∈ items, name b = name a := by
  simp [New, known]

theorem exists_mem_of_exists_split {before : List α} (h : ∃ before' b after',
    before = before' ++ b :: after' ∧ New (some ∘ name) before' b ∧ label b = label a) :
    ∃ b ∈ before, label b = label a := by
  obtain ⟨before', b, after', rfl, -, hlabel⟩ := h
  exact ⟨b, by simp, hlabel⟩

/-- If labels go by names, somebody with the label was new. -/
theorem OncePer.exists_new (h : OncePer name label items) {before after : List α}
    (hitems : items = before ++ a :: after) (hlabel : ∃ b ∈ before, label b = label a) :
    ∃ before' b after', before = before' ++ b :: after' ∧ New (some ∘ name) before' b ∧
      label b = label a := by
  obtain ⟨b, hb, hlabel⟩ := hlabel
  obtain ⟨before', after', rfl⟩ := List.append_of_mem hb
  by_cases hnew : New (some ∘ name) before' b
  · exact ⟨before', b, after', rfl, hnew, hlabel⟩
  · have hsplit := h before' b (after' ++ a :: after) (by simp [hitems])
    obtain ⟨front, c, back, rfl, hc, hcb⟩ := not_not.mp (hsplit.not.mp hnew)
    exact ⟨front, c, back ++ b :: after', by simp, hc, hcb.trans hlabel⟩

/-- The first item with a label is new, if names repeat only where labels do. -/
theorem SameRepeats.exists_new (h : SameRepeats name label items) {before after : List α}
    (hitems : items = before ++ a :: after) (hlabel : ∃ b ∈ before, label b = label a) :
    ∃ before' b after', before = before' ++ b :: after' ∧ New (some ∘ name) before' b ∧
      label b = label a := by
  have hknown : label a ∈ known (some ∘ label) before := by
    simpa [known] using hlabel
  obtain ⟨before', b, after', rfl, hb, hfirst⟩ := mem_known_iff_new.mp hknown
  refine ⟨before', b, after', rfl, ?_, Option.some.inj hb⟩
  rw [new_some_iff] at hfirst ⊢
  rwa [h before' b (after' ++ a :: after) (by simp [hitems])]

/-- Names accept each label once exactly if they repeat where the labels repeat. -/
theorem oncePer_iff : OncePer name label items ↔ SameRepeats name label items := by
  constructor
  · intro h before a after hitems
    have hnew := h before a after hitems
    rw [new_some_iff, not_iff_not] at hnew
    rw [hnew]
    exact ⟨exists_mem_of_exists_split, h.exists_new hitems⟩
  · intro h before a after hitems
    rw [new_some_iff, h before a after hitems, not_iff_not]
    exact ⟨h.exists_new hitems, exists_mem_of_exists_split⟩

end Labels

end Once
