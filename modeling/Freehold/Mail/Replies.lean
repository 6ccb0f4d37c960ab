import Freehold.Foundation.MailReply
import Freehold.Mail.SmtpClient
import Mathlib.Data.List.TakeWhile

/-!
# Reading a reply (`smtp_client.cpp`)

`smtp_read_response` reads until one of the whole lines it has is a final line, so of a reply
only the last line can end it, and only when that has arrived in full.

## Main results

- `smtpReadResponse_of_flatten`: however a text is cut into reads, if no proper part of it has
  a final line, the answer is that for the text in one read.
- `smtpReadResponse_eq_reply_iff`: the code of a reply is returned, with nothing but the reply
  read, exactly if there is a blank behind the code on the last line.
-/

namespace Freehold.Mail

open MailGrammar

/-! ## Reads -/

/-- What `recv` returns while a text arrives; the buffer has room for 1023 characters. -/
structure Reads (text : List Char) where
  reads : List (List Char)
  flatten_eq : reads.flatten = text
  fits : ∀ received ∈ reads, received ≠ [] ∧ received.length ≤ 1023

variable {out : List Char} {reads : List (List Char)}

/-- The induction is on the reads: before the last of them a proper part of the text is there. -/
theorem smtpReadResponse_of_flatten (hreads : reads ≠ [])
    (hreceived : ∀ received ∈ reads, received ≠ [])
    (hpart : ∀ part more, part ++ more = out ++ reads.flatten → more ≠ [] →
      responseCode part = none) :
    smtpReadResponse reads out =
      (⟨(responseCode (out ++ reads.flatten)).getD (-1), out ++ reads.flatten⟩, []) := by
  induction reads generalizing out with
  | nil => exact absurd rfl hreads
  | cons received rest ih =>
    rw [smtpReadResponse, List.flatten_cons]
    cases rest with
    | nil =>
      rw [List.flatten_nil, List.append_nil]
      cases hcode : responseCode (out ++ received) with
      | none => rfl
      | some code => rfl
    | cons next rest =>
      have hmore : (next :: rest).flatten ≠ [] := by
        intro h
        exact hreceived next (by simp) (List.flatten_eq_nil_iff.mp h next (by simp))
      have hnone : responseCode (out ++ received) = none := by
        apply hpart (out ++ received) (next :: rest).flatten _ hmore
        rw [List.flatten_cons (l := received), List.append_assoc]
      rw [hnone, ← List.append_assoc]
      apply ih (List.cons_ne_nil next rest)
      · intro r hr
        exact hreceived r (List.mem_cons_of_mem received hr)
      · intro part more h
        exact hpart part more (by simpa using h)

/-! ## Codes -/

theorem isSpace_of_isDigit {c : Char} (h : c.isDigit) : isSpace c = false := by
  have hdigit : '0' ≤ c := by
    simp only [Char.isDigit, Bool.and_eq_true, decide_eq_true_eq] at h
    exact h.1
  by_contra hspace
  simp only [isSpace, Bool.not_eq_false, Bool.or_eq_true, Bool.and_eq_true,
    decide_eq_true_eq] at hspace
  rcases hspace with rfl | ⟨-, hhigh⟩
  · exact absurd hdigit (by decide)
  · exact absurd (Char.le_trans hdigit hhigh) (by decide)

/-- Digits have no sign in front of them. -/
theorem strtol_cons_of_isDigit {c : Char} (h : c.isDigit) (text : List Char) :
    strtol (c :: text) = digitsValue (c :: text) := by
  unfold strtol
  rw [List.dropWhile_cons_of_neg (by simp [isSpace_of_isDigit h])]
  split
  · next hsign =>
    rw [(List.cons.inj hsign).1] at h
    cases h
  · next hsign =>
    rw [(List.cons.inj hsign).1] at h
    cases h
  · rfl

variable {code : ReplyCode} {r : Reply}

theorem digitsValue_code (code : ReplyCode) : digitsValue code.text = code.value := by
  have hdigits : code.text.takeWhile Char.isDigit = code.text :=
    List.takeWhile_eq_self_iff.mpr fun c hc => ReplyCode.isDigit_of_mem hc
  rw [digitsValue, hdigits]
  simp only [ReplyCode.text, ReplyCode.value, digitValue, List.foldl_cons, List.foldl_nil]
  push_cast
  ring

theorem ReplyCode.value_lt (code : ReplyCode) : code.value < 1000 := by
  have hdigit : ∀ c ∈ code.text, digitValue c ≤ 9 := by
    intro c hc
    have hc := ReplyCode.isDigit_of_mem hc
    simp only [Char.isDigit, Bool.and_eq_true, decide_eq_true_eq, UInt32.le_iff_toNat_le] at hc
    have hhigh : c.toNat ≤ '9'.toNat := hc.2
    have hnine : '9'.toNat = 57 := rfl
    have hzero : '0'.toNat = 48 := rfl
    unfold digitValue
    omega
  have hfirst := hdigit code.first (by simp [ReplyCode.text])
  have hsecond := hdigit code.second (by simp [ReplyCode.text])
  have hthird := hdigit code.third (by simp [ReplyCode.text])
  unfold ReplyCode.value
  omega

theorem atoi_code (code : ReplyCode) : atoi code.text = code.value := by
  have hlong : strtol code.text = code.value := by
    rw [← digitsValue_code]
    have hfirst : code.first ∈ code.text := by simp [ReplyCode.text]
    exact strtol_cons_of_isDigit (ReplyCode.isDigit_of_mem hfirst) _
  have hlt := ReplyCode.value_lt code
  rw [atoi, hlong, Int.bmod_def]
  omega

/-! ## The lines of a reply -/

theorem stripCr_concat (line : List Char) : stripCr (line ++ ['\r']) = line := by
  simp [stripCr]

theorem finalCode_continuedLine (code : ReplyCode) (text : LineText) :
    finalCode (Reply.continuedLine code text ++ ['\r']) = none := by
  rw [finalCode, stripCr_concat]
  simp [Reply.continuedLine, ReplyCode.text]

/-- A bare code is too short for a final line. -/
theorem finalCode_finalLine (code : ReplyCode) (final : Option LineText) :
    finalCode (Reply.finalLine code final ++ ['\r']) = final.map fun _ => (code.value : ℤ) := by
  cases final with
  | none =>
    rw [finalCode, stripCr_concat]
    simp [Reply.finalLine, ReplyCode.text]
  | some text =>
    have hcode : (Reply.finalLine code (some text)).take 3 = code.text := rfl
    have hblank : (Reply.finalLine code (some text))[3]? = some ' ' := rfl
    rw [finalCode, stripCr_concat, if_pos ⟨by simp [Reply.finalLine, ReplyCode.text], hblank⟩,
      hcode, atoi_code]
    rfl

/-- What the reader takes for the lines of a reply. -/
def receivedLines (r : Reply) : List (List Char) := r.lines.map (· ++ ['\r'])

theorem text_eq_flatMap (r : Reply) : r.text = (receivedLines r).flatMap (· ++ ['\n']) := by
  simp [Reply.text, joinLines, receivedLines, List.flatMap_map]

theorem newline_notMem_receivedLines : ∀ line ∈ receivedLines r, '\n' ∉ line := by
  intro received hreceived
  obtain ⟨line, hline, rfl⟩ := List.mem_map.mp hreceived
  have hnewline : '\n' ∉ line :=
    Reply.notMem_line hline (by decide) (by decide) (by decide) (by decide)
  simp [hnewline]

theorem findSome?_dropLast_receivedLines (r : Reply) :
    (receivedLines r).dropLast.findSome? finalCode = none := by
  rw [receivedLines, Reply.lines, List.map_append, List.map_singleton, List.dropLast_concat,
    List.findSome?_eq_none_iff]
  intro received hreceived
  obtain ⟨line, hline, rfl⟩ := List.mem_map.mp hreceived
  obtain ⟨text, -, rfl⟩ := List.mem_map.mp hline
  exact finalCode_continuedLine r.code text

theorem responseCode_text (r : Reply) :
    responseCode r.text = r.final.map fun _ => (r.code.value : ℤ) := by
  have hcontinued := findSome?_dropLast_receivedLines r
  rw [responseCode, text_eq_flatMap, dropLast_splitOn_flatMap newline_notMem_receivedLines]
  rw [receivedLines, Reply.lines, List.map_append, List.map_singleton] at hcontinued ⊢
  rw [List.dropLast_concat] at hcontinued
  rw [List.findSome?_append, hcontinued, Option.none_or, List.findSome?_singleton,
    finalCode_finalLine]

/-- While the last line has not arrived, the reader goes on. -/
theorem responseCode_of_append {part more : List Char} (h : part ++ more = r.text)
    (hmore : more ≠ []) : responseCode part = none := by
  rw [text_eq_flatMap] at h
  have hpart := dropLast_splitOn_of_append newline_notMem_receivedLines hmore h
  rw [responseCode, List.findSome?_eq_none_iff]
  intro line hline
  exact List.findSome?_eq_none_iff.mp (findSome?_dropLast_receivedLines r) line
    (hpart.subset hline)

/-! ## The answer -/

theorem smtpReadResponse_reply (r : Reply) (arriving : Reads r.text) :
    smtpReadResponse arriving.reads [] =
      (⟨(r.final.map fun _ => (r.code.value : ℤ)).getD (-1), r.text⟩, []) := by
  have hreads : arriving.reads ≠ [] := by
    intro hnil
    have hflatten := arriving.flatten_eq
    rw [hnil] at hflatten
    exact Reply.text_ne_nil r hflatten.symm
  have hpart : ∀ part more, part ++ more = [] ++ arriving.reads.flatten → more ≠ [] →
      responseCode part = none := by
    intro part more h
    rw [List.nil_append, arriving.flatten_eq] at h
    exact responseCode_of_append h
  have hanswer := smtpReadResponse_of_flatten hreads
    (fun received hreceived => (arriving.fits received hreceived).1) hpart
  rwa [List.nil_append, arriving.flatten_eq, responseCode_text] at hanswer

/-- A reply is read exactly if its last line is not the bare code. -/
theorem smtpReadResponse_eq_reply_iff (r : Reply) (arriving : Reads r.text) :
    smtpReadResponse arriving.reads [] = (⟨r.code.value, r.text⟩, []) ↔ r.final.isSome := by
  rw [smtpReadResponse_reply]
  cases r.final with
  | none => simp
  | some text => simp

/-- The reply `250`, without a text. -/
def bareReply : Reply where
  code := ⟨'2', '5', '0', by decide, by decide, by decide⟩
  continued := []
  final := none

/-- It arrives in one read. -/
def bareReads : Reads bareReply.text where
  reads := ["250\r\n".toList]
  flatten_eq := by decide
  fits := by decide

/-- The reader waits for more. -/
theorem smtpReadResponse_bareReads :
    smtpReadResponse bareReads.reads [] ≠ (⟨bareReply.code.value, bareReply.text⟩, []) := by
  intro h
  have hcode := congrArg (fun answer => answer.1.code) h
  exact absurd hcode (by decide)

end Freehold.Mail
