import Freehold.Mail.SmtpClient

/-!
# What is written outside TLS

With `starttls` set, credentials, addresses and message are to go through the TLS session
only. They do if and only if the server offers STARTTLS where the dialogue gets that far.
-/

namespace Freehold.Mail

open Interaction Interaction.Program

/-- A command that has been written. -/
structure Written where
  tls : Bool
  command : Command

def written : Event Smtp → Option Written
  | ⟨.send tls command, sent⟩ => if sent then some ⟨tls, command⟩ else none
  | _ => none

/-- AUTH PLAIN, MAIL FROM, RCPT TO and the message. -/
def Command.Confidential : Command → Prop
  | .authPlain _ _ | .mailFrom _ | .rcptTo _ | .message _ _ _ _ => True
  | _ => False

def OnlyTls (commands : List Written) : Prop :=
  ∀ w ∈ commands, w.command.Confidential → w.tls = true

/-- An operation that writes nothing confidential outside TLS, whatever happens. -/
def Guarded : Op → Prop
  | .send tls command => command.Confidential → tls = true
  | _ => True

theorem guarded_tls {command : Command} : Guarded (.send true command) := fun _ => rfl

theorem guarded_starttls : Guarded (.send false .starttls) := fun h => False.elim h

section Uses

variable {cfg : SmtpConfig} {payload : VerificationPayload}

theorem uses_exchange {tls : Bool} {command : Command} (h : Guarded (.send tls command))
    (expected : ℤ) : (exchange tls command expected).Uses Guarded := by
  refine .call h fun sent => .ite (.call trivial fun response => uses_ret _) (uses_ret _)

theorem uses_startTls : startTls.Uses Guarded := by
  refine (uses_exchange guarded_starttls 220).bind fun resp => ?_
  cases resp with
  | none => exact uses_ret _
  | some text =>
    refine .call trivial fun _ => .ite ?_ (uses_ret _)
    refine .call trivial fun _ => .ite ?_ (uses_ret _)
    exact (uses_exchange guarded_tls 250).bind fun _ => uses_ret _

theorem uses_authenticate : (authenticate cfg true).Uses Guarded :=
  .ite (uses_ret _) ((uses_exchange guarded_tls 235).bind fun _ => uses_ret _)

theorem uses_sendMessage : (sendMessage cfg payload true).Uses Guarded := by
  refine (uses_exchange guarded_tls 354).bind fun resp => ?_
  cases resp with
  | none => exact uses_ret _
  | some text =>
    refine .call trivial fun date => .call trivial fun timestamp => ?_
    exact (uses_exchange guarded_tls 250).bind fun _ => uses_ret _

theorem uses_transaction : (transaction cfg payload true).Uses Guarded := by
  refine uses_authenticate.bind fun authenticated => .ite ?_ (uses_ret _)
  refine (uses_exchange guarded_tls 250).bind fun resp => ?_
  cases resp with
  | none => exact uses_ret _
  | some text =>
    refine (uses_exchange guarded_tls 250).bind fun resp => ?_
    cases resp with
    | none => exact uses_ret _
    | some text =>
      refine uses_sendMessage.bind fun accepted => .ite ?_ (uses_ret _)
      exact .call guarded_tls fun _ => .call trivial fun _ => uses_ret _

/-- A server that offers STARTTLS is spoken to confidentially through TLS only. -/
theorem uses_afterEhlo {resp : List Char} (hstarttls : cfg.starttls = true)
    (hoffers : offersStarttls resp = true) : (afterEhlo cfg payload resp).Uses Guarded := by
  rw [afterEhlo, hstarttls, hoffers, Bool.and_self, if_pos rfl]
  exact uses_startTls.bind fun established => .ite uses_transaction (uses_ret _)

end Uses

theorem OnlyTls.of_uses {α : Type} {p : Dialogue α} (hp : p.Uses Guarded)
    {h : Handler Smtp Connection}
    (s : Connection) : OnlyTls (p.observed h written s) := by
  intro w hw
  obtain ⟨e, he, hwritten⟩ := List.mem_filterMap.mp hw
  have hguarded := hp.of_mem_trace he
  obtain ⟨op, answer⟩ := e
  cases op with
  | send tls command =>
    cases answer
    · cases hwritten
    · cases hwritten
      exact hguarded
  | _ => cases hwritten

/-! ## A server that does not offer STARTTLS -/

/-- The reply that the client reads next. -/
def Connection.response (s : Connection) : Response := (smtpReadResponse s.incoming []).1

def Connection.afterResponse (s : Connection) : Connection where
  incoming := (smtpReadResponse s.incoming []).2
  sent := s.sent

/-- After one more write. -/
def Connection.afterSend (s : Connection) : Connection := { s with sent := s.sent + 1 }

variable {env : Env} {cfg : SmtpConfig} {payload : VerificationPayload}

theorem observed_exchange_bind {α : Type} (tls : Bool) (command : Command) (expected : ℤ)
    (f : Option (List Char) → Dialogue α) (s : Connection) :
    (exchange tls command expected >>= f).observed (serve env) written s =
      if env.writes s.sent then
        ⟨tls, command⟩ ::
          (f (if s.response.code = expected then some s.response.text else none)).observed
            (serve env) written s.afterSend.afterResponse
      else (f none).observed (serve env) written s.afterSend := by
  simp only [exchange, perform_bind, call_bind]
  cases hwrites : env.writes s.sent with
  | false =>
    rw [observed_call_of_hidden (by simp [serve, hwrites, written])]
    simp [serve, hwrites, Connection.afterSend]
  | true =>
    rw [observed_call_of_shown (y := ⟨tls, command⟩) (by simp [serve, hwrites, written])]
    simp only [serve, hwrites, if_true, call_bind]
    rw [observed_call_of_hidden rfl]
    rfl

theorem not_onlyTls_cons (command : Command) (hcommand : command.Confidential)
    (rest : List Written) : ¬OnlyTls (⟨false, command⟩ :: rest) := by
  intro h
  cases h ⟨false, command⟩ List.mem_cons_self hcommand

theorem OnlyTls.cons_iff {tls : Bool} (command : Command) (hcommand : ¬command.Confidential)
    (rest : List Written) : OnlyTls (⟨tls, command⟩ :: rest) ↔ OnlyTls rest := by
  rw [OnlyTls, List.forall_mem_cons]
  exact and_iff_right fun h => absurd h hcommand

theorem onlyTls_nil : OnlyTls [] := List.forall_mem_nil _

/-- The first write of a transaction is confidential already. -/
theorem onlyTls_transaction_iff (s : Connection) :
    OnlyTls ((transaction cfg payload false).observed (serve env) written s) ↔
      env.writes s.sent = false := by
  unfold transaction authenticate
  cases huser : cfg.user.isEmpty with
  | true =>
    rw [if_pos rfl, pure_eq, ret_bind, if_pos rfl, observed_exchange_bind]
    cases env.writes s.sent with
    | true => simpa using not_onlyTls_cons (.mailFrom cfg.sender) trivial _
    | false => simpa using onlyTls_nil
  | false =>
    rw [if_neg Bool.false_ne_true, Program.bind_assoc, observed_exchange_bind]
    cases env.writes s.sent with
    | true => simpa using not_onlyTls_cons (.authPlain cfg.user cfg.pass) trivial _
    | false => simpa using onlyTls_nil

/-- The dialogue gets to a reply to EHLO that does not offer STARTTLS, and to the write after. -/
structure Downgraded (env : Env) (cfg : SmtpConfig) (s : Connection) : Prop where
  host : cfg.host ≠ []
  recipient : cfg.recipient ≠ []
  connects : env.connects = true
  greeting : s.response.code = 220
  ehlo : env.writes s.sent = true
  accepted : s.afterResponse.response.code = 250
  silent : offersStarttls s.afterResponse.response.text = false
  next : env.writes (s.sent + 1) = true

theorem onlyTls_afterEhlo_iff (hstarttls : cfg.starttls = true) (resp : List Char)
    (s : Connection) :
    OnlyTls ((afterEhlo cfg payload resp).observed (serve env) written s) ↔
      (offersStarttls resp = false → env.writes s.sent = false) := by
  cases hoffers : offersStarttls resp with
  | true => exact iff_of_true (.of_uses (uses_afterEhlo hstarttls hoffers) s) nofun
  | false =>
    rw [afterEhlo, hstarttls, hoffers, Bool.and_false, if_neg Bool.false_ne_true,
      onlyTls_transaction_iff]
    exact ⟨fun h _ => h, fun h => h rfl⟩

/-- The greeting has been read. -/
theorem onlyTls_ehlo_iff (hstarttls : cfg.starttls = true) (s : Connection) :
    OnlyTls ((exchange false .ehlo 250 >>= fun resp =>
        match resp with
        | none => pure false
        | some resp => afterEhlo cfg payload resp).observed (serve env) written s) ↔
      ¬(env.writes s.sent = true ∧ s.response.code = 250 ∧
        offersStarttls s.response.text = false ∧ env.writes (s.sent + 1) = true) := by
  rw [observed_exchange_bind]
  cases hehlo : env.writes s.sent with
  | false => exact iff_of_true onlyTls_nil fun h => absurd h.1 Bool.false_ne_true
  | true =>
    have hresponse : s.afterSend.response = s.response := rfl
    rw [if_pos rfl, OnlyTls.cons_iff .ehlo (fun h => False.elim h)]
    by_cases hcode : s.response.code = 250
    · rw [if_pos hcode]
      refine (onlyTls_afterEhlo_iff hstarttls s.response.text _).trans ?_
      simp [hcode, Connection.afterSend, Connection.afterResponse]
    · rw [if_neg hcode]
      exact iff_of_true onlyTls_nil fun h => hcode h.2.1

/-- With `starttls` set, nothing confidential is written outside TLS if and only if the server
does not, while the dialogue goes well, reply to EHLO without offering STARTTLS. -/
theorem onlyTls_iff (hstarttls : cfg.starttls = true) (s : Connection) :
    OnlyTls ((sendVerificationEmail cfg payload).observed (serve env) written s) ↔
      ¬Downgraded env cfg s := by
  unfold sendVerificationEmail
  by_cases hconfigured : cfg.host.isEmpty || cfg.recipient.isEmpty
  · rw [if_pos hconfigured]
    refine iff_of_true onlyTls_nil fun h => ?_
    simp [h.host, h.recipient] at hconfigured
  · rw [if_neg hconfigured, perform_bind, observed_call_of_hidden rfl]
    simp only [Bool.or_eq_true, List.isEmpty_iff, not_or] at hconfigured
    cases hconnects : env.connects with
    | false =>
      refine iff_of_true ?_ fun h => ?_
      · simpa [serve, hconnects] using onlyTls_nil
      · rw [h.connects] at hconnects
        cases hconnects
    | true =>
      simp only [serve, hconnects, if_true]
      rw [perform_bind, observed_call_of_hidden rfl]
      by_cases hgreeting : s.response.code = 220
      · have hif : (serve env (.readResponse false) s).1.code = 220 := hgreeting
        rw [if_pos hif]
        refine (onlyTls_ehlo_iff hstarttls s.afterResponse).trans (not_congr ⟨?_, ?_⟩)
        · rintro ⟨hehlo, haccepted, hsilent, hnext⟩
          exact ⟨hconfigured.1, hconfigured.2, hconnects, hgreeting, hehlo, haccepted, hsilent,
            hnext⟩
        · exact fun h => ⟨h.ehlo, h.accepted, h.silent, h.next⟩
      · have hif : ¬(serve env (.readResponse false) s).1.code = 220 := hgreeting
        rw [if_neg hif]
        exact iff_of_true onlyTls_nil fun h => hgreeting h.greeting

def demoConfig : SmtpConfig where
  host := "h".toList
  port := 25
  sender := "a".toList
  recipient := "b".toList
  user := []
  pass := []
  starttls := true

def demoPayload : VerificationPayload := ⟨"0".toList, "DEMO-001".toList, 1⟩

/-- Nothing fails. -/
def demoEnv : Env where
  connects := true
  writes _ := true
  sslCtxNew := true
  sslConnect := true
  rfc2822Date := []
  iso8601Now := []

/-- A greeting and an EHLO reply without capabilities. -/
def demoConnection : Connection := ⟨["220 \n".toList, "250 \n".toList], 0⟩

/-- The sender's address goes out in plain text. -/
theorem not_onlyTls_demo : demoConfig.starttls = true ∧
    ¬OnlyTls ((sendVerificationEmail demoConfig demoPayload).observed (serve demoEnv) written
      demoConnection) := by
  refine ⟨rfl, fun h => ?_⟩
  have hmem : ⟨false, .mailFrom demoConfig.sender⟩ ∈
      (sendVerificationEmail demoConfig demoPayload).observed (serve demoEnv) written
        demoConnection :=
    List.mem_cons_of_mem (Written.mk false .ehlo) List.mem_cons_self
  cases h _ hmem trivial

theorem onlyTls_iff_demo :
    OnlyTls ((sendVerificationEmail demoConfig demoPayload).observed (serve demoEnv) written
        demoConnection) ↔ ¬Downgraded demoEnv demoConfig demoConnection :=
  onlyTls_iff rfl demoConnection

end Freehold.Mail
