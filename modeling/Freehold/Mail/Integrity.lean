import Freehold.Foundation.Decimal
import Freehold.Foundation.MailGrammar
import Freehold.Mail.SmtpClient
import Mathlib.Data.List.DropRight

/-!
# What the server reads

The addresses go between angle brackets and the nullifier and the petition into lines of the
message, as they are. What a server that accepts every command makes of it depends on the line
ends, brackets and dots in them.
-/

namespace Freehold.Mail

open Interaction Interaction.Program MailGrammar

/-! ## A server that accepts every command -/

/-- The code of the reply that accepts the command. -/
def Command.accepted : Command → ℤ
  | .starttls => 220
  | .authPlain _ _ => 235
  | .data => 354
  | .quit => 221
  | _ => 250

/-- The server is free in the texts of its replies, which may offer STARTTLS. -/
structure Accepting where
  replyText : List Command → List Char
  rfc2822Date : List Char
  iso8601Now : List Char
  /-- The formats of `strftime` contain no line end. -/
  date_plain : '\r' ∉ rfc2822Date
  now_plain : '\r' ∉ iso8601Now

/-- The state is the list of the commands that have been written. -/
def accept (server : Accepting) : Handler Smtp (List Command)
  | .connect _ _, commands => (true, commands)
  | .send _ command, commands => (true, commands ++ [command])
  | .readResponse _, commands =>
    (⟨(commands.getLast?.map Command.accepted).getD 220, server.replyText commands⟩, commands)
  | .sslCtxNew, commands => (true, commands)
  | .sslConnect, commands => (true, commands)
  | .rfc2822Date, commands => (server.rfc2822Date, commands)
  | .iso8601Now, commands => (server.iso8601Now, commands)

/-- The commands that the program writes after `commands`. -/
def commandsOf {α : Type} (server : Accepting) (p : Dialogue α) (commands : List Command) :
    List Command :=
  (p.run (accept server) commands).state

/-- EHLO, STARTTLS and AUTH PLAIN. -/
def Command.isSetup : Command → Bool
  | .ehlo | .starttls | .authPlain _ _ => true
  | _ => false

/-- The bytes that are written after STARTTLS and AUTH PLAIN. -/
def transactionBytes (server : Accepting) (cfg : SmtpConfig) (payload : VerificationPayload) :
    List Char :=
  ((commandsOf server (sendVerificationEmail cfg payload) []).dropWhile Command.isSetup).flatMap
    Command.text

/-- Header and body: the message without the line with the dot. -/
def composed (server : Accepting) (cfg : SmtpConfig) (payload : VerificationPayload) :
    List Char :=
  (messageText cfg payload server.rfc2822Date server.iso8601Now).rdrop 3

/-- One MAIL FROM, one RCPT TO, one DATA with the message as it was composed, and QUIT. -/
def Intact (server : Accepting) (cfg : SmtpConfig) (payload : VerificationPayload) : Prop :=
  session (transactionBytes server cfg payload) =
    ⟨[.mailFrom cfg.sender [], .rcptTo cfg.recipient [], .data (composed server cfg payload),
      .quit], none, []⟩

variable {server : Accepting} {cfg : SmtpConfig} {payload : VerificationPayload}

/-! ## The commands -/

section Commands

variable {α : Type} (commands : List Command)

@[simp] theorem commandsOf_ret (a : α) : commandsOf server (.ret a) commands = commands := rfl

theorem commandsOf_call (o : Op) (next : Smtp.Answer o → Dialogue α) :
    commandsOf server (.call o next) commands =
      commandsOf server (next (accept server o commands).1) (accept server o commands).2 := rfl

/-- A command is written and accepted. -/
theorem commandsOf_exchange_bind (tls : Bool) (command : Command) (expected : ℤ)
    (f : Option (List Char) → Dialogue α) :
    commandsOf server (exchange tls command expected >>= f) commands =
      commandsOf server
        (f (if command.accepted = expected then some (server.replyText (commands ++ [command]))
          else none))
        (commands ++ [command]) := by
  unfold commandsOf exchange
  simp [run_call, accept]

theorem commandsOf_startTls_bind (f : Bool → Dialogue α) :
    commandsOf server (startTls >>= f) commands =
      commandsOf server (f true) (commands ++ [.starttls, .ehlo]) := by
  unfold startTls
  rw [Program.bind_assoc, commandsOf_exchange_bind]
  simp only [Command.accepted, if_true]
  rw [perform_bind, call_bind, commandsOf_call]
  simp only [accept, if_true]
  rw [perform_bind, call_bind, commandsOf_call]
  simp only [accept, if_true]
  rw [Program.bind_assoc, commandsOf_exchange_bind]
  simp [Command.accepted]

theorem commandsOf_authenticate_bind (server : Accepting) (cfg : SmtpConfig) (tls : Bool)
    (f : Bool → Dialogue α) :
    ∃ setup : List Command, (∀ c ∈ setup, c.isSetup = true) ∧
      commandsOf server (authenticate cfg tls >>= f) commands =
        commandsOf server (f true) (commands ++ setup) := by
  unfold authenticate
  split
  · exact ⟨[], List.forall_mem_nil _, by simp⟩
  · refine ⟨[.authPlain cfg.user cfg.pass], by simp [Command.isSetup], ?_⟩
    rw [Program.bind_assoc, commandsOf_exchange_bind]
    simp [Command.accepted]

theorem commandsOf_sendMessage_bind (tls : Bool) (f : Bool → Dialogue α) :
    commandsOf server (sendMessage cfg payload tls >>= f) commands =
      commandsOf server (f true)
        (commands ++ [.data, .message cfg payload server.rfc2822Date server.iso8601Now]) := by
  unfold sendMessage
  rw [Program.bind_assoc, commandsOf_exchange_bind]
  simp only [Command.accepted, if_true]
  rw [perform_bind, call_bind, commandsOf_call, perform_bind, call_bind, commandsOf_call,
    Program.bind_assoc, commandsOf_exchange_bind]
  simp [accept, Command.accepted]

/-- What has to be accepted for the server to get the mail. -/
def mailCommands (server : Accepting) (cfg : SmtpConfig) (payload : VerificationPayload) :
    List Command :=
  [.mailFrom cfg.sender, .rcptTo cfg.recipient, .data,
    .message cfg payload server.rfc2822Date server.iso8601Now, .quit]

theorem commandsOf_transaction (server : Accepting) (cfg : SmtpConfig)
    (payload : VerificationPayload) (tls : Bool) :
    ∃ setup : List Command, (∀ c ∈ setup, c.isSetup = true) ∧
      commandsOf server (transaction cfg payload tls) commands =
        commands ++ setup ++ mailCommands server cfg payload := by
  unfold transaction
  obtain ⟨setup, hsetup, hauth⟩ := commandsOf_authenticate_bind commands server cfg tls _
  refine ⟨setup, hsetup, hauth.trans ?_⟩
  rw [if_pos rfl, commandsOf_exchange_bind]
  simp only [Command.accepted, if_true]
  rw [commandsOf_exchange_bind]
  simp only [Command.accepted, if_true]
  rw [commandsOf_sendMessage_bind, if_pos rfl, perform_bind, commandsOf_call, perform_bind,
    commandsOf_call]
  simp [mailCommands, accept]

/-- What a configured client writes to a server that accepts every command. -/
theorem commandsOf_sendVerificationEmail (server : Accepting) (payload : VerificationPayload)
    (hhost : cfg.host ≠ []) (hrecipient : cfg.recipient ≠ []) :
    ∃ setup : List Command, (∀ c ∈ setup, c.isSetup = true) ∧
      commandsOf server (sendVerificationEmail cfg payload) [] =
        setup ++ mailCommands server cfg payload := by
  unfold sendVerificationEmail
  rw [if_neg (by simp [hhost, hrecipient]), perform_bind, commandsOf_call]
  simp only [accept, if_true]
  rw [perform_bind, commandsOf_call]
  have hgreeting : (accept server (.readResponse false) []).1.code = 220 := rfl
  rw [if_pos hgreeting]
  rw [commandsOf_exchange_bind]
  simp only [accept, Command.accepted, if_true, List.nil_append]
  unfold afterEhlo
  by_cases hoffers : (cfg.starttls && offersStarttls (server.replyText [.ehlo])) = true
  · obtain ⟨setup, hsetup, hcommands⟩ :=
      commandsOf_transaction [.ehlo, .starttls, .ehlo] server cfg payload true
    refine ⟨[.ehlo, .starttls, .ehlo] ++ setup, by simpa [Command.isSetup] using hsetup, ?_⟩
    rw [if_pos hoffers, commandsOf_startTls_bind, if_pos rfl]
    exact hcommands
  · obtain ⟨setup, hsetup, hcommands⟩ :=
      commandsOf_transaction [.ehlo] server cfg payload false
    refine ⟨.ehlo :: setup, by simpa [Command.isSetup] using hsetup, ?_⟩
    rw [if_neg hoffers]
    exact hcommands

end Commands

/-! ## The message -/

/-- A text inside of a line that no line end can come out of. -/
structure Label (text : List Char) : Prop where
  noCr : '\r' ∉ text
  noLf : '\n' ∉ text
  head : text.head? ≠ some '.'

instance (text : List Char) : Decidable (Label text) :=
  decidable_of_iff ('\r' ∉ text ∧ '\n' ∉ text ∧ text.head? ≠ some '.')
    ⟨fun h => ⟨h.1, h.2.1, h.2.2⟩, fun h => ⟨h.noCr, h.noLf, h.head⟩⟩

theorem not_dotted_of_notMem {text : List Char} (h : '\r' ∉ text) : ¬Dotted text :=
  fun hdotted => h (hdotted.subset List.mem_cons_self)

/-- A label in front of a text. -/
theorem Label.dotted_append {label : List Char} (h : Label label) (text : List Char) :
    Dotted (label ++ text) ↔ Dotted text := by
  refine (infix_append_iff_of_getLast fun c hc hmem => ?_).trans
    (or_iff_right (not_dotted_of_notMem h.noCr))
  have hlabel := List.mem_of_getLast? hc
  rcases List.mem_cons.mp hmem with rfl | hmem
  · exact h.noCr hlabel
  · rw [List.mem_singleton.mp hmem] at hlabel
    exact h.noLf hlabel

/-- A line of the mail: a field with what stands in front of it and behind it. -/
structure Line where
  label : List Char
  field : List Char
  suffix : List Char
  label_plain : Label label
  suffix_plain : Label suffix
  blank : label ≠ [] ∨ field = [] ∧ suffix = []

def Line.text (l : Line) : List Char := l.label ++ (l.field ++ (l.suffix ++ ['\r', '\n']))

theorem Line.head?_text_append (l : Line) (rest : List Char) :
    (l.text ++ rest).head? ≠ some '.' := by
  intro h
  unfold Line.text at h
  rcases l.blank with hlabel | ⟨hfield, hsuffix⟩
  · obtain ⟨c, label, hl⟩ := List.exists_cons_of_ne_nil hlabel
    rw [hl] at h
    exact l.label_plain.head (by rw [hl]; exact h)
  · cases hl : l.label with
    | nil => simp [hl, hfield, hsuffix] at h
    | cons c label =>
      rw [hl] at h
      exact l.label_plain.head (by rw [hl]; exact h)

/-- Only in its field a line can have a line end that a dot follows. -/
theorem Line.dotted_append (l : Line) {rest : List Char} (hrest : rest.head? ≠ some '.') :
    Dotted (l.text ++ rest) ↔ Dotted l.field ∨ Dotted rest := by
  have htext : l.text ++ rest =
      l.label ++ (l.field ++ (l.suffix ++ '\r' :: '\n' :: rest)) := by simp [Line.text]
  have hend : Dotted (l.suffix ++ '\r' :: '\n' :: rest) ↔ Dotted rest := by
    rw [l.suffix_plain.dotted_append, dotted_crlf, or_iff_right hrest]
  rw [htext, l.label_plain.dotted_append, Dotted, infix_append_iff_of_head]
  · exact or_congr_right hend
  · intro c hc hmem
    have hsuffix := l.suffix_plain
    cases hs : l.suffix with
    | nil =>
      rw [hs] at hc
      cases hc
      exact absurd hmem (by decide)
    | cons d suffix =>
      rw [hs] at hc hsuffix
      cases hc
      rcases List.mem_cons.mp hmem with rfl | hmem
      · exact hsuffix.noLf List.mem_cons_self
      · exact hsuffix.head (congrArg some (List.mem_singleton.mp hmem))

theorem dotted_lines (ls : List Line) :
    Dotted (ls.flatMap Line.text) ↔ ∃ l ∈ ls, Dotted l.field := by
  induction ls with
  | nil => simp [Dotted]
  | cons l ls ih =>
    rw [List.flatMap_cons, List.exists_mem_cons_iff, ← ih, l.dotted_append]
    cases ls with
    | nil => simp
    | cons l' ls => exact l'.head?_text_append _

/-- The lines of header and body. -/
def mailLines (cfg : SmtpConfig) (payload : VerificationPayload) (date timestamp : List Char) :
    List Line :=
  let fixed (text : String) (h : Label text.toList ∧ text.toList ≠ []) : Line :=
    ⟨text.toList, [], [], h.1, by decide, .inl h.2⟩
  let blank : Line := ⟨[], [], [], by decide, by decide, .inr ⟨rfl, rfl⟩⟩
  let of (label : String) (field suffix : List Char)
      (h : (Label label.toList ∧ label.toList ≠ []) ∧ Label suffix) : Line :=
    ⟨label.toList, field, suffix, h.1.1, h.2, .inl h.1.2⟩
  [fixed "Subject: [Freehold] Petition Signature Verified" (by decide +kernel),
    of "From: <" cfg.sender ">".toList (by decide +kernel),
    of "To: <" cfg.recipient ">".toList (by decide +kernel),
    of "Message-ID: <" (payload.nullifierHex.take 16) "@freehold.local>".toList (by decide +kernel),
    of "Date: " date [] (by decide +kernel),
    fixed "Content-Type: text/plain; charset=utf-8" (by decide +kernel),
    blank,
    fixed "FREEHOLD PETITION SIGNATURE VERIFICATION" (by decide +kernel),
    fixed "=========================================" (by decide +kernel),
    of "Identity Commitment (Nullifier): " payload.nullifierHex [] (by decide +kernel),
    fixed "Protocol: Zero-Knowledge SHA-256 via emp-zk" (by decide +kernel),
    of "Epoch: " (toString payload.epoch).toList [] (by decide +kernel),
    of "Petition: " payload.petitionRef [] (by decide +kernel),
    of "Timestamp: " timestamp [] (by decide +kernel),
    blank,
    fixed "This signature was jointly computed by the MPC cluster." (by decide +kernel),
    fixed "The nullifier proves one-person-one-vote without revealing identity."
      (by decide +kernel),
    blank]

theorem messageText_eq (cfg : SmtpConfig) (payload : VerificationPayload)
    (date timestamp : List Char) :
    messageText cfg payload date timestamp =
      (mailLines cfg payload date timestamp).flatMap Line.text ++ (".".toList ++ ['\r', '\n']) := by
  unfold messageText mailLines
  simp only [mailLine, Line.text, List.flatMap_cons, List.flatMap_nil, List.flatten_cons,
    List.flatten_nil, List.append_assoc, List.nil_append, List.append_nil]

theorem composed_eq (server : Accepting) (cfg : SmtpConfig) (payload : VerificationPayload) :
    composed server cfg payload =
      (mailLines cfg payload server.rfc2822Date server.iso8601Now).flatMap Line.text := by
  rw [composed, messageText_eq]
  generalize (mailLines cfg payload server.rfc2822Date server.iso8601Now).flatMap Line.text = text
  simp [List.rdrop]

/-- Line ends that dots follow come from the fields only. -/
theorem dotted_composed_iff (server : Accepting) (cfg : SmtpConfig)
    (payload : VerificationPayload) :
    Dotted (composed server cfg payload) ↔ Dotted cfg.sender ∨ Dotted cfg.recipient ∨
      Dotted payload.nullifierHex ∨ Dotted payload.petitionRef := by
  have hnil : ¬Dotted [] := by decide
  have hepoch : ¬Dotted (toString payload.epoch).toList := by
    rw [Decimal.toList_toString]
    exact not_dotted_of_notMem (Decimal.notMem_ofInt (by decide) (by decide))
  have hdate := not_dotted_of_notMem server.date_plain
  have hnow := not_dotted_of_notMem server.now_plain
  have htake : Dotted (payload.nullifierHex.take 16) → Dotted payload.nullifierHex :=
    fun h => h.trans (List.take_prefix _ _).isInfix
  rw [composed_eq, dotted_lines]
  simp only [mailLines, List.exists_mem_cons_iff, List.not_mem_nil, hnil, hepoch, hdate, hnow,
    false_or, or_false, false_and, exists_false]
  grind

/-- Header and body begin with a letter and end in a line end. -/
theorem exists_composed_eq (server : Accepting) (cfg : SmtpConfig)
    (payload : VerificationPayload) :
    ∃ body, composed server cfg payload = body ++ ['\r', '\n'] ∧ body.head? ≠ some '.' := by
  rw [composed_eq]
  generalize hls : mailLines cfg payload server.rfc2822Date server.iso8601Now = ls
  have hne : ls ≠ [] := by
    rw [← hls]
    exact List.cons_ne_nil _ _
  have hlast : (ls.getLast hne).text = ['\r', '\n'] := by
    subst hls
    rfl
  refine ⟨ls.dropLast.flatMap Line.text, ?_, ?_⟩
  · conv_lhs => rw [← List.dropLast_append_getLast hne]
    rw [List.flatMap_append, List.flatMap_singleton, hlast]
  · subst hls
    exact Line.head?_text_append _ _

/-! ## The mail -/

theorem transactionBytes_eq (hhost : cfg.host ≠ []) (hrecipient : cfg.recipient ≠ []) :
    transactionBytes server cfg payload =
      (mailCommands server cfg payload).flatMap Command.text := by
  obtain ⟨setup, hsetup, hcommands⟩ :=
    commandsOf_sendVerificationEmail server payload hhost hrecipient
  rw [transactionBytes, hcommands, List.dropWhile_append_of_pos hsetup]
  rfl

theorem transactionBytes_eq_nil (h : (cfg.host.isEmpty || cfg.recipient.isEmpty) = true) :
    transactionBytes server cfg payload = [] := by
  rw [transactionBytes, sendVerificationEmail, if_pos h]
  rfl

/-- The commands, as an SMTP server reads them. -/
theorem flatMap_mailCommands (server : Accepting) (cfg : SmtpConfig)
    (payload : VerificationPayload) {body : List Char}
    (hbody : composed server cfg payload = body ++ ['\r', '\n']) :
    (mailCommands server cfg payload).flatMap Command.text =
      "MAIL FROM:<".toList ++ cfg.sender ++ ['>'] ++ '\r' :: '\n' ::
        ("RCPT TO:<".toList ++ cfg.recipient ++ ['>'] ++ '\r' :: '\n' ::
          ("DATA".toList ++ '\r' :: '\n' ::
            (body ++ '\r' :: '\n' :: '.' :: '\r' :: '\n' :: "QUIT\r\n".toList))) := by
  have hmessage : (Command.message cfg payload server.rfc2822Date server.iso8601Now).text =
      body ++ ['\r', '\n', '.', '\r', '\n'] := by
    have htext := messageText_eq cfg payload server.rfc2822Date server.iso8601Now
    rw [← composed_eq server cfg payload, hbody] at htext
    exact htext.trans (List.append_assoc _ _ _)
  have hmail : (Command.mailFrom cfg.sender).text =
      "MAIL FROM:<".toList ++ (cfg.sender ++ ['>', '\r', '\n']) := List.append_assoc _ _ _
  have hrcpt : (Command.rcptTo cfg.recipient).text =
      "RCPT TO:<".toList ++ (cfg.recipient ++ ['>', '\r', '\n']) := List.append_assoc _ _ _
  have hdata : Command.data.text = "DATA".toList ++ ['\r', '\n'] := rfl
  have hquit : Command.quit.text = "QUIT\r\n".toList := rfl
  rw [mailCommands, List.flatMap_cons, List.flatMap_cons, List.flatMap_cons, List.flatMap_cons,
    List.flatMap_cons, List.flatMap_nil, hmail, hrcpt, hdata, hmessage, hquit]
  simp only [List.append_assoc, List.append_nil, List.cons_append, List.nil_append]

/-- The server reads the one mail that is meant exactly if the addresses are paths and no line of
the nullifier or the petition begins with a dot. -/
theorem intact_iff (server : Accepting) (cfg : SmtpConfig) (payload : VerificationPayload) :
    Intact server cfg payload ↔ cfg.host ≠ [] ∧ cfg.recipient ≠ [] ∧ IsPath cfg.sender ∧
      IsPath cfg.recipient ∧ ¬Dotted payload.nullifierHex ∧ ¬Dotted payload.petitionRef := by
  by_cases hconfigured : (cfg.host.isEmpty || cfg.recipient.isEmpty) = true
  · rw [Intact, transactionBytes_eq_nil hconfigured]
    refine iff_of_false (fun h => ?_) fun h => ?_
    · exact List.cons_ne_nil _ _ (congrArg Session.received h).symm
    · simp [h.1, h.2.1] at hconfigured
  · simp only [Bool.or_eq_true, List.isEmpty_iff, not_or] at hconfigured
    obtain ⟨hhost, hrecipient⟩ := hconfigured
    obtain ⟨body, hbody, hhead⟩ := exists_composed_eq server cfg payload
    have hdotted : Dotted body ↔ Dotted (composed server cfg payload) := by
      have hend : ¬Dotted ['\r', '\n'] := by decide
      rw [hbody, Dotted, Dotted, infix_append_iff_of_head (by simp)]
      exact (or_iff_left hend).symm
    have hpath : ∀ path, IsPath path → ¬Dotted path := fun path h hd =>
      h.oneLine (List.IsInfix.trans ⟨[], ['.'], rfl⟩ hd)
    rw [Intact, transactionBytes_eq hhost hrecipient, flatMap_mailCommands server cfg payload hbody,
      hbody, session_mail_iff, hdotted, dotted_composed_iff]
    grind

instance (server : Accepting) (cfg : SmtpConfig) (payload : VerificationPayload) :
    Decidable (Intact server cfg payload) := inferInstanceAs (Decidable (_ = _))

/-- The recipient's address brings a second recipient. -/
theorem not_intact_secondRecipient :
    ¬Intact ⟨fun _ => [], [], [], by decide, by decide⟩
      ⟨"h".toList, 25, "a".toList, "b>\r\nRCPT TO:<c".toList, [], [], false⟩
      ⟨"0".toList, "DEMO-001".toList, 1⟩ := by
  decide +kernel

end Freehold.Mail
