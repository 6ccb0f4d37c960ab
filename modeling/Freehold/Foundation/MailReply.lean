import Freehold.Foundation.MailGrammar

/-!
# What an SMTP server answers

The lines of a reply begin with the same code. A hyphen follows it on each line but the last,
and a blank or nothing on the last. Characters stand for bytes.

A text that is not yet there in full has fewer whole lines (`dropLast_splitOn_of_append`).
-/

namespace MailGrammar

/-! ## Lines that have arrived -/

section Arriving

variable {α : Type*} [BEq α] [LawfulBEq α] {sep : α} {line out more : List α} {ls : List (List α)}

theorem dropLast_splitOn_cons (h : sep ∉ line) (rest : List α) :
    ((line ++ sep :: rest).splitOn sep).dropLast = line :: (rest.splitOn sep).dropLast := by
  rw [List.splitOn_append_cons_self_of_not_mem h,
    List.dropLast_cons_of_ne_nil (List.splitOn_ne_nil sep rest)]

theorem dropLast_splitOn_flatMap (h : ∀ line ∈ ls, sep ∉ line) :
    ((ls.flatMap (· ++ [sep])).splitOn sep).dropLast = ls := by
  induction ls with
  | nil => simp
  | cons line ls ih =>
    rw [List.forall_mem_cons] at h
    rw [List.flatMap_cons, List.append_assoc, List.singleton_append, dropLast_splitOn_cons h.1,
      ih h.2]

/-- Of a text of whole lines that is not there in full, the last line is not whole. -/
theorem dropLast_splitOn_of_append (h : ∀ line ∈ ls, sep ∉ line) (hmore : more ≠ [])
    (htext : out ++ more = ls.flatMap (· ++ [sep])) :
    (out.splitOn sep).dropLast <+: ls.dropLast := by
  induction ls generalizing out with
  | nil => exact absurd (List.append_eq_nil_iff.mp htext).2 hmore
  | cons line ls ih =>
    rw [List.forall_mem_cons] at h
    rw [List.flatMap_cons, List.append_assoc, List.singleton_append,
      List.append_eq_append_iff] at htext
    rcases htext with ⟨rest, hline, -⟩ | ⟨rest, hout, hrest⟩
    · -- the first line is not whole
      have hsep : sep ∉ out := fun hmem => h.1 (hline ▸ List.mem_append_left rest hmem)
      rw [List.splitOn_eq_singleton hsep]
      exact List.nil_prefix
    · cases rest with
      | nil =>
        rw [hout, List.append_nil, List.splitOn_eq_singleton h.1]
        exact List.nil_prefix
      | cons c rest =>
        obtain ⟨rfl, hothers⟩ : sep = c ∧ ls.flatMap (· ++ [sep]) = rest ++ more :=
          List.cons.inj hrest
        cases ls with
        | nil => exact absurd (List.append_eq_nil_iff.mp hothers.symm).2 hmore
        | cons line' ls =>
          rw [hout, dropLast_splitOn_cons h.1, List.dropLast_cons_cons]
          exact List.cons_prefix_cons.mpr ⟨rfl, ih h.2 hothers.symm⟩

end Arriving

/-! ## Replies -/

/-- Three digits, the first of them from 2 to 5 and the second from 0 to 5. -/
structure ReplyCode where
  first : Char
  second : Char
  third : Char
  first_range : '2' ≤ first ∧ first ≤ '5'
  second_range : '0' ≤ second ∧ second ≤ '5'
  third_range : '0' ≤ third ∧ third ≤ '9'

def ReplyCode.text (code : ReplyCode) : List Char := [code.first, code.second, code.third]

def digitValue (c : Char) : ℕ := c.toNat - '0'.toNat

def ReplyCode.value (code : ReplyCode) : ℕ :=
  100 * digitValue code.first + 10 * digitValue code.second + digitValue code.third

/-- A tab or a character from the blank to the tilde. -/
def isTextChar (c : Char) : Bool := c = '\t' || (' ' ≤ c && c ≤ '~')

/-- A text that may stand on a line of a reply. -/
abbrev LineText := { text : List Char // text.all isTextChar }

structure Reply where
  code : ReplyCode
  /-- The texts of the lines before the last. -/
  continued : List LineText
  /-- The text of the last line, unless that is the bare code. -/
  final : Option LineText

def Reply.continuedLine (code : ReplyCode) (text : LineText) : List Char :=
  code.text ++ '-' :: text.val

def Reply.finalLine (code : ReplyCode) : Option LineText → List Char
  | some text => code.text ++ ' ' :: text.val
  | none => code.text

def Reply.lines (r : Reply) : List (List Char) :=
  r.continued.map (Reply.continuedLine r.code) ++ [Reply.finalLine r.code r.final]

def Reply.text (r : Reply) : List Char := joinLines r.lines

/-! ### A reply has the line ends of its lines only -/

theorem isDigit_of_range {c : Char} (hlow : '0' ≤ c) (hhigh : c ≤ '9') : c.isDigit := by
  simp only [Char.isDigit, Bool.and_eq_true, decide_eq_true_eq, ge_iff_le]
  exact ⟨hlow, hhigh⟩

theorem ReplyCode.isDigit_of_mem {code : ReplyCode} {c : Char} (hc : c ∈ code.text) :
    c.isDigit := by
  have htwo : '0' ≤ '2' := by decide
  have hfive : '5' ≤ '9' := by decide
  simp only [ReplyCode.text, List.mem_cons, List.not_mem_nil, or_false] at hc
  rcases hc with rfl | rfl | rfl
  · exact isDigit_of_range (Char.le_trans htwo code.first_range.1)
      (Char.le_trans code.first_range.2 hfive)
  · exact isDigit_of_range code.second_range.1 (Char.le_trans code.second_range.2 hfive)
  · exact isDigit_of_range code.third_range.1 code.third_range.2

theorem ReplyCode.notMem_text {code : ReplyCode} {c : Char} (hc : c.isDigit = false) :
    c ∉ code.text := by
  intro hmem
  rw [isDigit_of_mem hmem] at hc
  cases hc

theorem LineText.notMem {text : LineText} {c : Char} (hc : isTextChar c = false) :
    c ∉ text.val := by
  intro hmem
  rw [List.all_eq_true.mp text.property c hmem] at hc
  cases hc

theorem Reply.notMem_line {r : Reply} {line : List Char} (hline : line ∈ r.lines) {c : Char}
    (hdigit : c.isDigit = false) (htext : isTextChar c = false) (hhyphen : c ≠ '-')
    (hblank : c ≠ ' ') : c ∉ line := by
  have hcode : c ∉ r.code.text := ReplyCode.notMem_text hdigit
  rcases List.mem_append.mp hline with hline | hline
  · obtain ⟨text, -, rfl⟩ := List.mem_map.mp hline
    simp [continuedLine, hcode, hhyphen, LineText.notMem htext]
  · rw [List.mem_singleton.mp hline]
    cases r.final with
    | none => exact hcode
    | some text => simp [finalLine, hcode, hblank, LineText.notMem htext]

theorem Reply.text_ne_nil (r : Reply) : r.text ≠ [] := by
  simp [Reply.text, Reply.lines, joinLines]

end MailGrammar
