import Mathlib.Data.List.Infix
import Mathlib.Tactic

/-!
# What an SMTP server reads

Commands are lines that end in CRLF. A path stands between `<` and the first `>` outside a
quoted string. After DATA the lines up to a single dot are the message, and a dot that begins
one of them is taken away. Characters stand for bytes.
-/

namespace MailGrammar

/-! ## Lines -/

/-- The complete lines without their ends, and what is behind the last of them. -/
def lines : List Char → List (List Char) × List Char
  | [] => ([], [])
  | '\r' :: '\n' :: text => ([] :: (lines text).1, (lines text).2)
  | c :: text =>
    match lines text with
    | ([], rest) => ([], c :: rest)
    | (line :: others, rest) => ((c :: line) :: others, rest)

def joinLines (ls : List (List Char)) : List Char := ls.flatMap fun line => line ++ ['\r', '\n']

variable {a b line text : List Char} {ls : List (List Char)}

theorem joinLines_lines (a : List Char) : joinLines (lines a).1 ++ (lines a).2 = a := by
  fun_induction lines a with
  | case1 => rfl
  | case2 text ih => simpa [joinLines] using ih
  | case3 c text _ rest hlines ih =>
    rw [hlines] at ih
    simpa [joinLines] using ih
  | case4 c text _ line others rest hlines ih =>
    rw [hlines] at ih
    simpa [joinLines] using ih

/-- A character that does not begin a line end is put in front of the first line. -/
theorem lines_cons (c : Char) (text : List Char)
    (h : ∀ rest, c :: text ≠ '\r' :: '\n' :: rest) :
    lines (c :: text) =
      match lines text with
      | ([], rest) => ([], c :: rest)
      | (line :: others, rest) => ((c :: line) :: others, rest) := by
  rw [lines]
  intro rest hc htext
  exact h rest (by rw [hc, htext])

/-- What begins no line end does not begin one in front of another line end. -/
theorem cons_append_crlf_ne {c : Char} (h : ∀ rest, c = '\r' → text = '\n' :: rest → False)
    (more : List Char) : c :: (text ++ '\r' :: '\n' :: b) ≠ '\r' :: '\n' :: more := by
  intro heq
  obtain ⟨hc, htext⟩ := List.cons.inj heq
  cases text with
  | nil => simp at htext
  | cons d text => exact h text hc (by rw [(List.cons.inj htext).1])

/-- A line end splits the text. -/
theorem lines_append (a b : List Char) :
    lines (a ++ '\r' :: '\n' :: b) = ((lines a).1 ++ (lines a).2 :: (lines b).1, (lines b).2) := by
  fun_induction lines a with
  | case1 => rfl
  | case2 text ih => simp [lines, ih]
  | case3 c text hend rest hlines ih =>
    rw [List.cons_append, lines_cons _ _ (cons_append_crlf_ne hend), ih, hlines]
    rfl
  | case4 c text hend line others rest hlines ih =>
    rw [List.cons_append, lines_cons _ _ (cons_append_crlf_ne hend), ih, hlines]
    rfl

/-- A text without a line end is no complete line. -/
theorem lines_eq_of_not_infix (h : ¬['\r', '\n'] <:+: a) : lines a = ([], a) := by
  have hjoin := joinLines_lines a
  cases hlines : (lines a).1 with
  | nil =>
    rw [hlines] at hjoin
    exact Prod.ext hlines hjoin
  | cons line others =>
    rw [hlines] at hjoin
    exact absurd ⟨line, joinLines others ++ (lines a).2, .trans (by simp [joinLines]) hjoin⟩ h

/-- With a line end, the first line is shorter than the text. -/
theorem exists_lines_eq_cons (h : ['\r', '\n'] <:+: a) :
    ∃ line others, (lines a).1 = line :: others ∧ line.length < a.length := by
  obtain ⟨s, t, rfl⟩ := h
  have hlines := lines_append s t
  have hjoin := joinLines_lines (s ++ '\r' :: '\n' :: t)
  have hshape : s ++ ['\r', '\n'] ++ t = s ++ '\r' :: '\n' :: t := by simp
  rw [hshape]
  cases hfirst : (lines (s ++ '\r' :: '\n' :: t)).1 with
  | nil =>
    rw [hlines] at hfirst
    simp at hfirst
  | cons line others =>
    refine ⟨line, others, rfl, ?_⟩
    have hlength := congrArg List.length hjoin
    rw [hfirst] at hlength
    simp [joinLines] at hlength
    simp
    omega

theorem joinLines_cons (line : List Char) (ls : List (List Char)) :
    joinLines (line :: ls) = line ++ '\r' :: '\n' :: joinLines ls := by simp [joinLines]

/-! ## Seams

A short text is in one of two parts if it does not go over the seam between them. -/

section Seams

variable {α : Type*} {p xs ys : List α}

theorem infix_append_iff_of_head (h : ∀ c ∈ ys.head?, c ∉ p.tail) :
    p <:+: xs ++ ys ↔ p <:+: xs ∨ p <:+: ys := by
  rw [List.infix_append_iff_ne_nil]
  constructor
  · rintro (hxs | hys | ⟨l₁, l₂, h₁, h₂, rfl, -, hpre⟩)
    · exact .inl hxs
    · exact .inr hys
    · obtain ⟨c, l₂, rfl⟩ := List.exists_cons_of_ne_nil h₂
      obtain ⟨rest, rfl⟩ := hpre
      refine absurd ?_ (h c rfl)
      rw [List.tail_append_of_ne_nil h₁]
      simp
  · rintro (hxs | hys)
    · exact .inl hxs
    · exact .inr (.inl hys)

theorem infix_append_iff_of_getLast (h : ∀ c ∈ xs.getLast?, c ∉ p.dropLast) :
    p <:+: xs ++ ys ↔ p <:+: xs ∨ p <:+: ys := by
  have hreverse : p.reverse <:+: ys.reverse ++ xs.reverse ↔
      p.reverse <:+: ys.reverse ∨ p.reverse <:+: xs.reverse :=
    infix_append_iff_of_head (by simpa using h)
  rwa [← List.reverse_append, List.reverse_infix, List.reverse_infix, List.reverse_infix,
    or_comm] at hreverse

end Seams

/-! ## Dots that begin a line -/

/-- Some line after the first begins with a dot. -/
def Dotted (text : List Char) : Prop := ['\r', '\n', '.'] <:+: text

instance : Decidable (Dotted text) := inferInstanceAs (Decidable (_ <:+: _))

/-- A line end in front of a text. -/
theorem dotted_crlf (text : List Char) :
    Dotted ('\r' :: '\n' :: text) ↔ text.head? = some '.' ∨ Dotted text := by
  simp only [Dotted, List.infix_cons_iff (a := '\r'), List.infix_cons_iff (a := '\n'),
    List.cons_prefix_cons]
  cases text with
  | nil => simp
  | cons c text => simp [List.cons_prefix_cons, eq_comm]

theorem dotted_cons (c : Char) (text : List Char)
    (h : ∀ rest, c :: text ≠ '\r' :: '\n' :: rest) : Dotted (c :: text) ↔ Dotted text := by
  rw [Dotted, List.infix_cons_iff]
  refine or_iff_right ?_
  rintro ⟨rest, hrest⟩
  exact h ('.' :: rest) hrest.symm

/-- The first line begins as the text does, the others after a line end. -/
theorem exists_lines_dotted (a : List Char) :
    ∃ first others, (lines a).1 ++ [(lines a).2] = first :: others ∧
      (first.head? = some '.' ↔ a.head? = some '.') ∧
      ((∃ line ∈ others, line.head? = some '.') ↔ Dotted a) := by
  fun_induction lines a with
  | case1 => exact ⟨[], [], rfl, Iff.rfl, by simp [Dotted]⟩
  | case2 text ih =>
    obtain ⟨first, others, hlines, hfirst, hothers⟩ := ih
    refine ⟨[], first :: others, by simp [hlines], by simp, ?_⟩
    rw [dotted_crlf, List.exists_mem_cons_iff, hfirst, hothers]
  | case3 c text hend rest hlines ih =>
    obtain ⟨first, others, hall, -, hothers⟩ := ih
    rw [hlines] at hall
    obtain ⟨rfl, rfl⟩ := List.cons.inj hall
    refine ⟨c :: rest, [], rfl, by simp, ?_⟩
    rw [dotted_cons c text fun more h => hend more (List.cons.inj h).1 (List.cons.inj h).2]
    exact hothers
  | case4 c text hend line ls rest hlines ih =>
    obtain ⟨first, others, hall, -, hothers⟩ := ih
    rw [hlines] at hall
    obtain ⟨rfl, rfl⟩ := List.cons.inj hall
    refine ⟨c :: line, ls ++ [rest], rfl, by simp, ?_⟩
    rw [dotted_cons c text fun more h => hend more (List.cons.inj h).1 (List.cons.inj h).2]
    exact hothers

/-! ## Commands -/

/-- Where a path is read: outside of a quoted string, in one, or behind a backslash in one. -/
inductive Quoting where
  | bare
  | quoted
  | escaped
  deriving DecidableEq

def Quoting.next : Quoting → Char → Quoting
  | .bare, c => if c = '"' then .quoted else .bare
  | .quoted, c => if c = '"' then .bare else if c = '\\' then .escaped else .quoted
  | .escaped, _ => .quoted

/-- The path in front of the closing bracket, and what follows the bracket. -/
def splitPath : Quoting → List Char → Option (List Char × List Char)
  | _, [] => none
  | q, c :: text =>
    if q = .bare ∧ c = '>' then some ([], text)
    else (splitPath (q.next c) text).map fun split => (c :: split.1, split.2)

/-- No bracket closes the path early, and it ends outside of quoted strings. -/
def closed : Quoting → List Char → Bool
  | q, [] => q = .bare
  | q, c :: text => !(q = .bare && c = '>') && closed (q.next c) text

/-- What the server has read; a command that is none of these is `other`. -/
inductive Received where
  | mailFrom (path parameters : List Char)
  | rcptTo (path parameters : List Char)
  | data (message : List Char)
  | quit
  | other (line : List Char)
  deriving DecidableEq

/-- What follows the verb, in small or capital letters. -/
def afterVerb (verb line : List Char) : Option (List Char) :=
  if (line.take verb.length).map Char.toUpper = verb then some (line.drop verb.length) else none

def command (line : List Char) : Received :=
  match (afterVerb "MAIL FROM:<".toList line).bind (splitPath .bare) with
  | some (path, parameters) => .mailFrom path parameters
  | none =>
    match (afterVerb "RCPT TO:<".toList line).bind (splitPath .bare) with
    | some (path, parameters) => .rcptTo path parameters
    | none => if afterVerb "QUIT".toList line = some [] then .quit else .other line

/-- A line of the message. -/
def unstuff (line : List Char) : List Char := if line.head? = some '.' then line.tail else line

/-- What is read from the lines, and the message so far if it is not complete. After DATA the
lines are those of the message. -/
def receive : Option (List Char) → List (List Char) → List Received × Option (List Char)
  | message, [] => ([], message)
  | none, line :: ls =>
    if afterVerb "DATA".toList line = some [] then receive (some []) ls
    else (command line :: (receive none ls).1, (receive none ls).2)
  | some message, line :: ls =>
    if line = ['.'] then (.data message :: (receive none ls).1, (receive none ls).2)
    else receive (some (message ++ unstuff line ++ ['\r', '\n'])) ls

structure Session where
  received : List Received
  /-- The message that is not complete. -/
  openMessage : Option (List Char)
  /-- The line that is not complete. -/
  openLine : List Char
  deriving DecidableEq

/-- A server that accepts every command. -/
def session (bytes : List Char) : Session where
  received := (receive none (lines bytes).1).1
  openMessage := (receive none (lines bytes).1).2
  openLine := (lines bytes).2

/-- A path that is read as it is written. -/
structure IsPath (path : List Char) : Prop where
  oneLine : ¬['\r', '\n'] <:+: path
  closed : closed .bare path = true

instance (path : List Char) : Decidable (IsPath path) :=
  decidable_of_iff (¬['\r', '\n'] <:+: path ∧ closed .bare path = true)
    ⟨fun h => ⟨h.1, h.2⟩, fun h => ⟨h.oneLine, h.closed⟩⟩

/-! ## Paths -/

variable {path parameters verb rest message body : List Char} {q : Quoting}

theorem splitPath_eq_iff (q : Quoting) (path rest : List Char) :
    splitPath q (path ++ '>' :: rest) = some (path, rest) ↔ closed q path = true := by
  induction path generalizing q with
  | nil => by_cases hq : q = .bare <;> simp [splitPath, closed, hq]
  | cons c path ih =>
    rw [List.cons_append, splitPath, closed]
    by_cases hend : q = .bare ∧ c = '>'
    · simp [hend]
    · have hsplit : ∀ o : Option (List Char × List Char),
          o.map (fun split => (c :: split.1, split.2)) = some (c :: path, rest) ↔
            o = some (path, rest) := by
        rintro (_ | ⟨path', rest'⟩) <;> simp
      rw [if_neg hend, hsplit, ih]
      simp [not_and_or.mp hend]

theorem splitPath_eq_some (h : splitPath q text = some (path, rest)) :
    text = path ++ '>' :: rest := by
  induction text generalizing q path with
  | nil => cases h
  | cons c text ih =>
    rw [splitPath] at h
    split at h
    · rename_i hend
      cases h
      rw [hend.2]
      rfl
    · obtain ⟨⟨path', rest'⟩, hsplit, heq⟩ := Option.map_eq_some_iff.mp h
      cases heq
      rw [ih hsplit]
      rfl

/-! ## Verbs -/

theorem afterVerb_append (hverb : verb.map Char.toUpper = verb) :
    afterVerb verb (verb ++ rest) = some rest := by simp [afterVerb, hverb]

theorem length_of_afterVerb (h : afterVerb verb line = some rest) :
    line.length = verb.length + rest.length := by
  unfold afterVerb at h
  split at h
  · rename_i htake
    have hlength := congrArg List.length htake
    cases h
    simp at hlength
    simp
    omega
  · cases h

/-- A line begins with one verb only. -/
theorem head_of_afterVerb (h : afterVerb verb line = some rest) (hverb : verb ≠ []) :
    (line.head?).map Char.toUpper = verb.head? := by
  unfold afterVerb at h
  split at h
  · rename_i htake
    cases verb with
    | nil => exact absurd rfl hverb
    | cons v verb =>
      cases line with
      | nil => cases htake
      | cons c line => simpa using (List.cons.inj htake).1
  · cases h

theorem command_eq_mailFrom_iff :
    command line = .mailFrom path parameters ↔
      (afterVerb "MAIL FROM:<".toList line).bind (splitPath .bare) = some (path, parameters) := by
  unfold command
  split
  · rename_i hsplit
    rw [hsplit]
    simp
  · rename_i hsplit
    rw [hsplit]
    split
    · simp
    · split <;> simp

theorem command_eq_rcptTo_iff :
    command line = .rcptTo path parameters ↔
      (afterVerb "RCPT TO:<".toList line).bind (splitPath .bare) = some (path, parameters) := by
  unfold command
  split
  · rename_i path' parameters' hsplit
    obtain ⟨rest, hmail, -⟩ := Option.bind_eq_some_iff.mp hsplit
    have hnone : afterVerb "RCPT TO:<".toList line = none := by
      refine Option.eq_none_iff_forall_ne_some.mpr fun rest' hrcpt => ?_
      have hmail := head_of_afterVerb hmail (by decide)
      have hrcpt := head_of_afterVerb hrcpt (by decide)
      rw [hmail] at hrcpt
      exact absurd hrcpt (by decide)
    rw [hnone]
    simp
  · split
    · rename_i hsplit
      rw [hsplit]
      simp
    · rename_i hsplit
      rw [hsplit]
      split <;> simp

/-! ## Sessions -/

/-- After DATA nothing is read but the message. -/
theorem receive_some_eq_cons {received : Received} {others : List Received}
    (h : (receive (some message) ls).1 = received :: others) : ∃ text, received = .data text := by
  induction ls generalizing message with
  | nil => cases h
  | cons line ls ih =>
    rw [receive] at h
    split at h
    · exact ⟨message, (List.cons.inj h).1.symm⟩
    · exact ih h

theorem session_append (hline : ¬['\r', '\n'] <:+: line) (rest : List Char) :
    session (line ++ '\r' :: '\n' :: rest) =
      ⟨(receive none (line :: (lines rest).1)).1, (receive none (line :: (lines rest).1)).2,
        (lines rest).2⟩ := by
  simp [session, lines_append, lines_eq_of_not_infix hline]

/-- The commands whose line begins with `verb` and ends with a path are read as `make` says. -/
structure IsPathVerb (verb : List Char) (make : List Char → List Char → Received) : Prop where
  upper : verb.map Char.toUpper = verb
  long : 4 < verb.length
  oneLine : ¬['\r', '\n'] <:+: verb
  last : verb.getLast? ≠ some '\r'
  command_iff : ∀ line path parameters, command line = make path parameters ↔
    (afterVerb verb line).bind (splitPath .bare) = some (path, parameters)
  ne_data : ∀ path parameters message, make path parameters ≠ .data message

theorem isPathVerb_mailFrom : IsPathVerb "MAIL FROM:<".toList .mailFrom where
  upper := by decide
  long := by decide
  oneLine := by decide
  last := by decide
  command_iff _ _ _ := command_eq_mailFrom_iff
  ne_data _ _ _ := Received.noConfusion

theorem isPathVerb_rcptTo : IsPathVerb "RCPT TO:<".toList .rcptTo where
  upper := by decide
  long := by decide
  oneLine := by decide
  last := by decide
  command_iff _ _ _ := command_eq_rcptTo_iff
  ne_data _ _ _ := Received.noConfusion

section PathVerb

variable {make : List Char → List Char → Received} (hv : IsPathVerb verb make)
include hv

/-- Only the path can put a line end into the line. -/
theorem IsPathVerb.infix_iff (path : List Char) :
    ['\r', '\n'] <:+: verb ++ path ++ ['>'] ↔ ['\r', '\n'] <:+: path := by
  have hlast : ∀ c ∈ verb.getLast?, c ∉ ['\r', '\n'].dropLast := by
    intro c hc hmem
    rw [List.mem_singleton.mp hmem] at hc
    exact hv.last hc
  rw [infix_append_iff_of_head (by simp), infix_append_iff_of_getLast hlast]
  have hbracket : ¬['\r', '\n'] <:+: ['>'] := by decide
  simp only [hv.oneLine, hbracket, false_or, or_false]

theorem IsPathVerb.command_eq_iff (path : List Char) :
    command (verb ++ path ++ ['>']) = make path [] ↔ closed .bare path = true := by
  rw [hv.command_iff, List.append_assoc, afterVerb_append hv.upper, Option.bind_some,
    splitPath_eq_iff]

theorem IsPathVerb.length_of_command {line path : List Char} (h : command line = make path []) :
    line.length = (verb ++ path ++ ['>']).length := by
  obtain ⟨rest, hrest, hsplit⟩ := Option.bind_eq_some_iff.mp ((hv.command_iff _ _ _).mp h)
  rw [length_of_afterVerb hrest, splitPath_eq_some hsplit]
  simp

/-- What one line with a path is read as. -/
theorem IsPathVerb.session_eq_iff (path rest : List Char) (others : List Received)
    (openMessage : Option (List Char)) (openLine : List Char) :
    session (verb ++ path ++ ['>'] ++ '\r' :: '\n' :: rest) =
        ⟨make path [] :: others, openMessage, openLine⟩ ↔
      IsPath path ∧ session rest = ⟨others, openMessage, openLine⟩ := by
  by_cases hline : ['\r', '\n'] <:+: path
  · -- the first line is cut off inside of the path
    refine iff_of_false (fun h => ?_) fun h => h.1.oneLine hline
    obtain ⟨line, more, hlines, hlength⟩ := exists_lines_eq_cons ((hv.infix_iff path).mpr hline)
    have hreceived := congrArg Session.received h
    simp only [session, lines_append, hlines, List.cons_append, receive] at hreceived
    split at hreceived
    · obtain ⟨message, hmessage⟩ := receive_some_eq_cons hreceived
      exact hv.ne_data _ _ _ hmessage
    · have := hv.length_of_command (List.cons.inj hreceived).1
      omega
  · have hdata : afterVerb "DATA".toList (verb ++ path ++ ['>']) ≠ some [] := by
      intro h
      have hlength := length_of_afterVerb h
      have hlong := hv.long
      simp at hlength
      omega
    rw [session_append ((hv.infix_iff path).not.mpr hline), receive, if_neg hdata]
    simp only [session, Session.mk.injEq, List.cons.injEq, hv.command_eq_iff, and_assoc]
    exact and_congr_left' ⟨fun h => ⟨hline, h⟩, IsPath.closed⟩

end PathVerb

/-! ## The message -/

/-- The message that is read is not longer than the lines up to the dot. -/
theorem exists_receive_message (message : List Char) (ls more : List (List Char)) :
    ∃ (text : List Char) (others : List Received × Option (List Char)),
      receive (some message) (ls ++ ['.'] :: more) = (.data text :: others.1, others.2) ∧
      text.length ≤ (message ++ joinLines ls).length := by
  induction ls generalizing message with
  | nil =>
    refine ⟨message, receive none more, ?_, by simp [joinLines]⟩
    rw [List.nil_append, receive, if_pos rfl]
  | cons line ls ih =>
    rw [List.cons_append, receive]
    split
    · refine ⟨message, receive none (ls ++ ['.'] :: more), rfl, by simp⟩
    · obtain ⟨text, others, hreceive, hlength⟩ := ih (message ++ unstuff line ++ ['\r', '\n'])
      refine ⟨text, others, hreceive, hlength.trans ?_⟩
      have hunstuff : (unstuff line).length ≤ line.length := by
        unfold unstuff
        split <;> simp
      simp [joinLines_cons]
      omega

/-- The message comes through if no line of it begins with a dot. -/
theorem receive_message_iff (message : List Char) (ls more : List (List Char))
    (others : List Received) (openMessage : Option (List Char)) :
    receive (some message) (ls ++ ['.'] :: more) =
        (.data (message ++ joinLines ls) :: others, openMessage) ↔
      (∀ line ∈ ls, line.head? ≠ some '.') ∧ receive none more = (others, openMessage) := by
  induction ls generalizing message with
  | nil =>
    rw [List.nil_append, receive, if_pos rfl]
    simp [joinLines, Prod.ext_iff]
  | cons line ls ih =>
    rw [List.cons_append, receive, List.forall_mem_cons]
    by_cases hdot : line.head? = some '.'
    · refine iff_of_false (fun h => ?_) fun h => h.1.1 hdot
      have hjoin := congrArg List.length (joinLines_cons line ls)
      simp only [List.length_append, List.length_cons] at hjoin
      split at h
      · have hmessage := Received.data.inj (List.cons.inj (Prod.ext_iff.mp h).1).1
        have hlength := congrArg List.length hmessage
        rw [List.length_append] at hlength
        omega
      · obtain ⟨text, others', hreceive, hlength⟩ :=
          exists_receive_message (message ++ unstuff line ++ ['\r', '\n']) ls more
        rw [hreceive] at h
        have hmessage := Received.data.inj (List.cons.inj (Prod.ext_iff.mp h).1).1
        have htail : line.length = line.tail.length + 1 := by
          cases line with
          | nil => cases hdot
          | cons c line => simp
        rw [hmessage, unstuff, if_pos hdot] at hlength
        simp only [List.length_append, List.length_cons, List.length_nil] at hlength
        omega
    · have hline : line ≠ ['.'] := fun h => hdot (by rw [h]; rfl)
      have hshape : message ++ joinLines (line :: ls) =
          message ++ unstuff line ++ ['\r', '\n'] ++ joinLines ls := by
        simp [joinLines_cons, unstuff, hdot]
      rw [if_neg hline, hshape, ih]
      simp [hdot]

theorem session_data (rest : List Char) :
    session ("DATA".toList ++ '\r' :: '\n' :: rest) =
      ⟨(receive (some []) (lines rest).1).1, (receive (some []) (lines rest).1).2,
        (lines rest).2⟩ := by
  rw [session_append (by decide)]
  rfl

/-- The lines of a text begin with a dot where it does and behind its line ends. -/
theorem forall_lines_iff (body : List Char) :
    (∀ line ∈ (lines body).1 ++ [(lines body).2], line.head? ≠ some '.') ↔
      body.head? ≠ some '.' ∧ ¬Dotted body := by
  obtain ⟨first, others, hlines, hfirst, hothers⟩ := exists_lines_dotted body
  rw [hlines, List.forall_mem_cons, ← hothers, ne_eq, hfirst]
  simp

/-- DATA, a message, and what follows it. -/
theorem session_data_iff (body rest : List Char) (others : List Received)
    (openMessage : Option (List Char)) (openLine : List Char) :
    session ("DATA".toList ++ '\r' :: '\n' ::
          (body ++ '\r' :: '\n' :: '.' :: '\r' :: '\n' :: rest)) =
        ⟨.data (body ++ ['\r', '\n']) :: others, openMessage, openLine⟩ ↔
      (body.head? ≠ some '.' ∧ ¬Dotted body) ∧
        session rest = ⟨others, openMessage, openLine⟩ := by
  have hlines : (lines (body ++ '\r' :: '\n' :: '.' :: '\r' :: '\n' :: rest)) =
      (((lines body).1 ++ [(lines body).2]) ++ ['.'] :: (lines rest).1, (lines rest).2) := by
    have hdot : lines ('.' :: '\r' :: '\n' :: rest) = (['.'] :: (lines rest).1, (lines rest).2) :=
      lines_append ['.'] rest
    rw [lines_append, hdot]
    simp
  have hjoin : body ++ ['\r', '\n'] = [] ++ joinLines ((lines body).1 ++ [(lines body).2]) := by
    have hbody := joinLines_lines body
    rw [joinLines] at hbody
    simp [joinLines, ← List.append_assoc, hbody]
  have hmessage := receive_message_iff [] ((lines body).1 ++ [(lines body).2]) (lines rest).1
    others openMessage
  rw [forall_lines_iff, ← hjoin, Prod.ext_iff, Prod.ext_iff] at hmessage
  rw [session_data, hlines]
  simp only [session, Session.mk.injEq]
  rw [← and_assoc, hmessage]
  simp only [and_assoc]

/-- The whole mail comes through exactly if both paths are paths and no line of the message begins
with a dot. -/
theorem session_mail_iff (sender recipient body : List Char) :
    session ("MAIL FROM:<".toList ++ sender ++ ['>'] ++ '\r' :: '\n' ::
        ("RCPT TO:<".toList ++ recipient ++ ['>'] ++ '\r' :: '\n' ::
          ("DATA".toList ++ '\r' :: '\n' ::
            (body ++ '\r' :: '\n' :: '.' :: '\r' :: '\n' :: "QUIT\r\n".toList)))) =
        ⟨[.mailFrom sender [], .rcptTo recipient [], .data (body ++ ['\r', '\n']), .quit],
          none, []⟩ ↔
      IsPath sender ∧ IsPath recipient ∧ body.head? ≠ some '.' ∧ ¬Dotted body := by
  have hquit : session "QUIT\r\n".toList = ⟨[.quit], none, []⟩ := by decide
  rw [isPathVerb_mailFrom.session_eq_iff, isPathVerb_rcptTo.session_eq_iff, session_data_iff, hquit]
  simp

end MailGrammar
