import Freehold.Foundation.Stages
import Freehold.Mail.SmtpClient

/-!
# The steps of the dialogue

Every step before QUIT has to get the reply that it expects; then, and only then, the next one
begins.
-/

namespace Freehold.Mail

open Interaction Interaction.Program

inductive Step where
  | connect (host : List Char) (port : ℕ)
  | greeting
  /-- The first EHLO, with the text of the reply. -/
  | ehlo (resp : List Char)
  | reply (tls : Bool) (command : Command) (code : ℤ)
  | handshake
  | message (tls : Bool) (cfg : SmtpConfig) (payload : VerificationPayload)

/-- The step has got what it expects, and these are its events. -/
def Step.Done : Step → List (Event Smtp) → Prop
  | .connect host port, t => t = [⟨.connect host port, true⟩]
  | .greeting, t => ∃ text, t = [⟨.readResponse false, ⟨220, text⟩⟩]
  | .ehlo resp, t => t = [⟨.send false .ehlo, true⟩, ⟨.readResponse false, ⟨250, resp⟩⟩]
  | .reply tls command code, t =>
    ∃ text, t = [⟨.send tls command, true⟩, ⟨.readResponse tls, ⟨code, text⟩⟩]
  | .handshake, t => t = [⟨.sslCtxNew, true⟩, ⟨.sslConnect, true⟩]
  | .message tls cfg payload, t => ∃ date timestamp text,
    t = [⟨.rfc2822Date, date⟩, ⟨.iso8601Now, timestamp⟩,
      ⟨.send tls (.message cfg payload date timestamp), true⟩,
      ⟨.readResponse tls, ⟨250, text⟩⟩]

/-- The command of the step, and its events before the command is written. -/
def Step.Sends : Step → List (Event Smtp) → Bool → Command → Prop
  | .ehlo _, t, tls, command => t = [] ∧ tls = false ∧ command = .ehlo
  | .reply tls' command' _, t, tls, command => t = [] ∧ tls = tls' ∧ command = command'
  | .message tls' cfg payload, t, tls, command => ∃ date timestamp,
    t = [⟨.rfc2822Date, date⟩, ⟨.iso8601Now, timestamp⟩] ∧ tls = tls' ∧
      command = .message cfg payload date timestamp
  | _, _, _, _ => False

/-- TLS is set up if it is configured and the reply to EHLO offers it. -/
def usesTls (cfg : SmtpConfig) (resp : List Char) : Bool := cfg.starttls && offersStarttls resp

/-- The steps behind the first EHLO. -/
def laterSteps (cfg : SmtpConfig) (payload : VerificationPayload) (resp : List Char) :
    List Step :=
  let tls := usesTls cfg resp
  (if tls then [Step.reply false .starttls 220, Step.handshake, Step.reply true .ehlo 250]
    else []) ++
  (if cfg.user.isEmpty then [] else [Step.reply tls (.authPlain cfg.user cfg.pass) 235]) ++
  [Step.reply tls (.mailFrom cfg.sender) 250, Step.reply tls (.rcptTo cfg.recipient) 250,
    Step.reply tls .data 354, Step.message tls cfg payload]

/-- All steps before QUIT, if `resp` is the text of the reply to the first EHLO. -/
def steps (cfg : SmtpConfig) (payload : VerificationPayload) (resp : List Char) : List Step :=
  .connect cfg.host cfg.port :: .greeting :: .ehlo resp :: laterSteps cfg payload resp

/-! ## The steps as programs -/

def Step.program : Step → Dialogue Bool
  | .connect host port => perform (E := Smtp) (.connect host port)
  | .greeting => do
    let response ← perform (E := Smtp) (.readResponse false)
    pure (response.code = 220)
  | .ehlo resp => do
    let text ← exchange false .ehlo 250
    pure (text = some resp)
  | .reply tls command code => do
    let text ← exchange tls command code
    pure text.isSome
  | .handshake => do
    if ← perform (E := Smtp) .sslCtxNew then perform (E := Smtp) .sslConnect else pure false
  | .message tls cfg payload => do
    let date ← perform (E := Smtp) .rfc2822Date
    let timestamp ← perform (E := Smtp) .iso8601Now
    let text ← exchange tls (.message cfg payload date timestamp) 250
    pure text.isSome

/-- QUIT, whose outcome does not matter. -/
def quit (tls : Bool) : Dialogue Bool := do
  let _ ← perform (E := Smtp) (.send tls .quit)
  let _ ← perform (E := Smtp) (.readResponse tls)
  pure true

section Programs

variable {cfg : SmtpConfig} {payload : VerificationPayload}

theorem exchange_bind_eq (tls : Bool) (command : Command) (code : ℤ) (next : Dialogue Bool) :
    (exchange tls command code >>= fun text => match text with
      | none => pure false
      | some _ => next) = inOrder [(Step.reply tls command code).program] next := by
  unfold inOrder Step.program
  rw [Program.bind_assoc]
  congr 1
  funext text
  cases text <;> rfl

theorem startTls_bind_eq (next : Dialogue Bool) :
    (startTls >>= fun established => if established then next else pure false) =
      inOrder ([Step.reply false .starttls 220, .handshake, .reply true .ehlo 250].map
        Step.program) next := by
  simp only [startTls, List.map_cons, List.map_nil, inOrder, Step.program, Program.bind_assoc]
  congr 1
  funext text
  cases text with
  | none => rfl
  | some text =>
    refine congrArg (Program.call (E := Smtp) .sslCtxNew) (funext fun created => ?_)
    cases created with
    | false => rfl
    | true =>
      refine congrArg (Program.call (E := Smtp) .sslConnect) (funext fun connected => ?_)
      cases connected with
      | false => rfl
      | true => exact Program.bind_assoc (exchange true .ehlo 250) (fun resp => pure resp.isSome) _

theorem authenticate_bind_eq (tls : Bool) (next : Dialogue Bool) :
    (authenticate cfg tls >>= fun authenticated => if authenticated then next else pure false) =
      inOrder ((if cfg.user.isEmpty then []
        else [Step.reply tls (.authPlain cfg.user cfg.pass) 235]).map Step.program) next := by
  unfold authenticate
  split
  · rfl
  · rfl

theorem sendMessage_bind_eq (tls : Bool) (next : Dialogue Bool) :
    (sendMessage cfg payload tls >>= fun accepted => if accepted then next else pure false) =
      inOrder ([Step.reply tls .data 354, .message tls cfg payload].map Step.program) next := by
  simp only [sendMessage, List.map_cons, List.map_nil, inOrder, Step.program, Program.bind_assoc]
  congr 1
  funext text
  cases text with
  | none => rfl
  | some text =>
    refine congrArg (Program.call (E := Smtp) .rfc2822Date) (funext fun date => ?_)
    refine congrArg (Program.call (E := Smtp) .iso8601Now) (funext fun timestamp => ?_)
    exact Program.bind_assoc (exchange tls (.message cfg payload date timestamp) 250)
      (fun resp => pure resp.isSome) _

theorem transaction_eq (tls : Bool) :
    transaction cfg payload tls =
      inOrder (((if cfg.user.isEmpty then []
          else [Step.reply tls (.authPlain cfg.user cfg.pass) 235]) ++
        [Step.reply tls (.mailFrom cfg.sender) 250, Step.reply tls (.rcptTo cfg.recipient) 250,
          Step.reply tls .data 354, Step.message tls cfg payload]).map Step.program)
            (quit tls) := by
  rw [List.map_append, inOrder_append, ← authenticate_bind_eq]
  unfold transaction
  congr 1
  funext authenticated
  cases authenticated with
  | false => rfl
  | true =>
    rw [if_pos rfl, if_pos rfl]
    refine (exchange_bind_eq tls (.mailFrom cfg.sender) 250 _).trans (congrArg _ ?_)
    refine (exchange_bind_eq tls (.rcptTo cfg.recipient) 250 _).trans (congrArg _ ?_)
    exact sendMessage_bind_eq tls (quit tls)

theorem afterEhlo_eq (resp : List Char) :
    afterEhlo cfg payload resp =
      inOrder ((laterSteps cfg payload resp).map Step.program) (quit (usesTls cfg resp)) := by
  rw [laterSteps, List.append_assoc, List.map_append, inOrder_append, ← transaction_eq]
  unfold afterEhlo usesTls
  cases hoffers : cfg.starttls && offersStarttls resp with
  | false => rfl
  | true => exact startTls_bind_eq _

theorem sendVerificationEmail_eq (h : ¬(cfg.host.isEmpty || cfg.recipient.isEmpty) = true) :
    sendVerificationEmail cfg payload =
      inOrder ([Step.connect cfg.host cfg.port, .greeting].map Step.program)
        (exchange false .ehlo 250 >>= fun text => match text with
          | none => pure false
          | some resp => inOrder ((laterSteps cfg payload resp).map Step.program)
              (quit (usesTls cfg resp))) := by
  unfold sendVerificationEmail
  rw [if_neg h]
  refine congrArg (Program.call (E := Smtp) (.connect cfg.host cfg.port))
    (funext fun connected => ?_)
  cases connected with
  | false => rfl
  | true =>
    refine congrArg (Program.call (E := Smtp) (.readResponse false)) (funext fun greeting => ?_)
    by_cases hcode : greeting.code = 220
    · refine (if_pos hcode).trans (.trans ?_ (if_pos (decide_eq_true hcode)).symm)
      refine congrArg (exchange false .ehlo 250 >>= ·) (funext fun text => ?_)
      cases text with
      | none => rfl
      | some resp => exact afterEhlo_eq resp
    · exact (if_neg hcode).trans (if_neg fun h => hcode (of_decide_eq_true h)).symm

end Programs

/-! ## What a step does -/

variable {t : List (Event Smtp)} {tls : Bool} {command : Command} {code : ℤ}

/-- Before the reply the command is written, and before the command nothing is done. -/
theorem reaches_exchange {q : Dialogue (Option (List Char))}
    (h : (exchange tls command code).Reaches t q) :
    (t = [] ∧ q = exchange tls command code) ∨ (t = [⟨.send tls command, false⟩] ∧ q = .ret none) ∨
    (t = [⟨.send tls command, true⟩] ∧ ∃ next, q = .call (.readResponse tls) next) ∨
    ∃ response, t = [⟨.send tls command, true⟩, ⟨.readResponse tls, response⟩] ∧
      q = .ret (if response.code = code then some response.text else none) := by
  cases h with
  | refl => exact .inl ⟨rfl, rfl⟩
  | @call _ _ sent t _ h =>
    cases sent with
    | false =>
      obtain ⟨rfl, rfl⟩ := Reaches.ret_inv (a := none) h
      exact .inr (.inl ⟨rfl, rfl⟩)
    | true =>
      cases h with
      | refl => exact .inr (.inr (.inl ⟨rfl, _, rfl⟩))
      | @call _ _ response t _ h =>
        obtain ⟨rfl, rfl⟩ := Reaches.ret_inv h
        exact .inr (.inr (.inr ⟨response, rfl, rfl⟩))

theorem exchange_reaches_some_iff {text : List Char} :
    (exchange tls command code).Reaches t (.ret (some text)) ↔
      t = [⟨.send tls command, true⟩, ⟨.readResponse tls, ⟨code, text⟩⟩] := by
  constructor
  · intro h
    rcases reaches_exchange h with ⟨-, hq⟩ | ⟨-, hq⟩ | ⟨-, next, hq⟩ | ⟨⟨code', text'⟩, rfl, hq⟩
    · cases hq
    · cases hq
    · cases hq
    · split at hq
      · cases hq
        rename_i hcode
        cases hcode
        rfl
      · cases hq
  · rintro rfl
    have hret : (Program.ret (some text) : Dialogue _) =
        .ret (if code = code then some text else none) := by rw [if_pos rfl]
    rw [hret]
    exact .call (.call (.refl _))

theorem exchange_isSome_reaches_iff :
    (exchange tls command code >>= fun text => pure text.isSome).Reaches t (.ret true) ↔
      ∃ text, t = [⟨.send tls command, true⟩, ⟨.readResponse tls, ⟨code, text⟩⟩] := by
  rw [reaches_bind_ret_iff]
  constructor
  · rintro ⟨t₁, t₂, text, rfl, h₁, h₂⟩
    obtain ⟨rfl, hsome⟩ := reaches_ret_ret_iff.mp h₂
    obtain ⟨text, rfl⟩ := Option.isSome_iff_exists.mp hsome
    rw [List.append_nil]
    exact ⟨text, exchange_reaches_some_iff.mp h₁⟩
  · rintro ⟨text, rfl⟩
    exact ⟨_, [], some text, (List.append_nil _).symm, exchange_reaches_some_iff.mpr rfl, .refl _⟩

/-- A step is successful exactly when its events are those of success. -/
theorem succeeds_program (step : Step) : Succeeds step.program = step.Done := by
  funext t
  refine propext ?_
  cases step with
  | connect host port =>
    refine reaches_call_ret_iff.trans ?_
    simp [reaches_ret_ret_iff, Step.Done]
  | greeting =>
    refine reaches_call_ret_iff.trans ⟨?_, ?_⟩
    · rintro ⟨⟨code, text⟩, t', rfl, h⟩
      obtain ⟨rfl, hcode⟩ := reaches_ret_ret_iff.mp h
      obtain rfl : code = 220 := of_decide_eq_true hcode
      exact ⟨text, rfl⟩
    · rintro ⟨text, rfl⟩
      exact ⟨⟨220, text⟩, [], rfl, .refl _⟩
  | ehlo resp =>
    refine reaches_bind_ret_iff.trans ⟨?_, ?_⟩
    · rintro ⟨t₁, t₂, text, rfl, h₁, h₂⟩
      obtain ⟨rfl, htext⟩ := reaches_ret_ret_iff.mp h₂
      obtain rfl : text = some resp := of_decide_eq_true htext
      rw [List.append_nil]
      exact exchange_reaches_some_iff.mp h₁
    · intro h
      refine ⟨t, [], some resp, (List.append_nil t).symm, exchange_reaches_some_iff.mpr h, ?_⟩
      exact reaches_ret_ret_iff.mpr ⟨rfl, decide_eq_true rfl⟩
  | reply tls command code => exact exchange_isSome_reaches_iff
  | handshake =>
    refine reaches_call_ret_iff.trans ⟨?_, ?_⟩
    · rintro ⟨created, t', rfl, h⟩
      cases created with
      | false => cases (reaches_ret_ret_iff.mp h).2
      | true =>
        obtain ⟨connected, t'', rfl, hret⟩ := reaches_call_ret_iff.mp h
        obtain ⟨rfl, rfl⟩ := reaches_ret_ret_iff.mp hret
        rfl
    · rintro rfl
      exact ⟨true, _, rfl, .call (.refl _)⟩
  | message tls cfg payload =>
    refine reaches_call_ret_iff.trans ⟨?_, ?_⟩
    · rintro ⟨date, t', rfl, h⟩
      obtain ⟨timestamp, t'', rfl, hexchange⟩ := reaches_call_ret_iff.mp h
      obtain ⟨text, rfl⟩ := exchange_isSome_reaches_iff.mp hexchange
      exact ⟨date, timestamp, text, rfl⟩
    · rintro ⟨date, timestamp, text, rfl⟩
      exact ⟨date, _, rfl, .call (exchange_isSome_reaches_iff.mpr ⟨text, rfl⟩)⟩

/-- A command is written at the start of an exchange only. -/
theorem reaches_exchange_send {tls' : Bool} {command' : Command}
    {next : Smtp.Answer (.send tls' command') → Dialogue (Option (List Char))}
    (h : (exchange tls command code).Reaches t (.call (.send tls' command') next)) :
    t = [] ∧ tls' = tls ∧ command' = command := by
  rcases reaches_exchange h with ⟨rfl, hq⟩ | ⟨-, hq⟩ | ⟨-, next', hq⟩ | ⟨response, -, hq⟩
  · cases hq
    exact ⟨rfl, rfl, rfl⟩
  · cases hq
  · cases hq
  · split at hq <;> cases hq

theorem reaches_exchange_bind_send {tls' : Bool} {command' : Command}
    {f : Option (List Char) → Bool}
    {next : Smtp.Answer (.send tls' command') → Dialogue Bool}
    (h : (exchange tls command code >>= fun text => pure (f text)).Reaches t
      (.call (.send tls' command') next)) :
    t = [] ∧ tls' = tls ∧ command' = command := by
  rcases h.of_bind_call with ⟨next', hp⟩ | ⟨t₁, t₂, text, rfl, -, h₂⟩
  · exact reaches_exchange_send hp
  · cases (Reaches.ret_inv h₂).2

/-- What a step writes, it writes where it should. -/
theorem Step.sends_of_reaches {step : Step}
    {next : Smtp.Answer (.send tls command) → Dialogue Bool}
    (h : step.program.Reaches t (.call (.send tls command) next)) : step.Sends t tls command := by
  cases step with
  | connect host port =>
    cases h with
    | call h => cases (Reaches.ret_inv h).2
  | greeting =>
    cases h with
    | call h => cases (Reaches.ret_inv h).2
  | ehlo resp => exact reaches_exchange_bind_send h
  | reply tls' command' code => exact reaches_exchange_bind_send h
  | handshake =>
    cases h with
    | @call _ _ created _ _ h =>
      cases created with
      | false => cases (Reaches.ret_inv h).2
      | true =>
        cases h with
        | call h => cases (Reaches.ret_inv h).2
  | message tls' cfg payload =>
    cases h with
    | @call _ _ date _ _ h =>
      cases h with
      | @call _ _ timestamp _ _ h =>
        obtain ⟨rfl, htls, hcommand⟩ := reaches_exchange_bind_send h
        exact ⟨date, timestamp, rfl, htls, hcommand⟩

/-! ## The dialogue -/

/-- The steps have got what they expect, one after the other. -/
def AllDone (steps : List Step) (t : List (Event Smtp)) : Prop := InTurn (steps.map Step.Done) t

variable {cfg : SmtpConfig} {payload : VerificationPayload} {resp : List Char}
  {t₁ t₂ : List (Event Smtp)}

theorem map_succeeds (l : List Step) : (l.map Step.program).map Succeeds = l.map Step.Done := by
  rw [List.map_map]
  exact List.map_congr_left fun step _ => succeeds_program step

theorem AllDone.append {l l' : List Step} (h : AllDone l t₁) (h' : AllDone l' t₂) :
    AllDone (l ++ l') (t₁ ++ t₂) := by
  unfold AllDone
  rw [List.map_append]
  exact inTurn_append h h'

theorem AllDone.split {l l' : List Step} (h : AllDone (l ++ l') t) :
    ∃ t₁ t₂, t = t₁ ++ t₂ ∧ AllDone l t₁ ∧ AllDone l' t₂ := by
  unfold AllDone at h
  rw [List.map_append] at h
  exact h.split

theorem allDone_singleton_iff {step : Step} : AllDone [step] t ↔ step.Done t := by
  constructor
  · rintro ⟨t₁, t₂, rfl, hdone, rfl⟩
    rwa [List.append_nil]
  · exact fun h => ⟨t, [], (List.append_nil t).symm, h, rfl⟩

/-- Without host or recipient nothing is done. -/
theorem sendVerificationEmail_eq_false (h : (cfg.host.isEmpty || cfg.recipient.isEmpty) = true) :
    sendVerificationEmail cfg payload = .ret false := by
  unfold sendVerificationEmail
  rw [if_pos h]
  rfl

/-- When all steps have succeeded, only QUIT is left. -/
theorem reaches_quit_of_allDone (hconfigured : ¬(cfg.host.isEmpty || cfg.recipient.isEmpty) = true)
    (h : AllDone (steps cfg payload resp) t) :
    (sendVerificationEmail cfg payload).Reaches t (quit (usesTls cfg resp)) := by
  have hsteps : steps cfg payload resp = [.connect cfg.host cfg.port, .greeting] ++
      ([.ehlo resp] ++ laterSteps cfg payload resp) := rfl
  rw [hsteps] at h
  obtain ⟨t₁, t', rfl, hfirst, h'⟩ := h.split
  obtain ⟨t₂, t₃, rfl, hehlo, hlater⟩ := h'.split
  rw [sendVerificationEmail_eq hconfigured]
  refine inOrder_reaches_of_inTurn (by rwa [map_succeeds]) ?_
  refine (exchange_reaches_some_iff.mpr (allDone_singleton_iff.mp hehlo)).bind ?_
  have hdone : InTurn (((laterSteps cfg payload resp).map Step.program).map Succeeds) t₃ := by
    rw [map_succeeds]
    exact hlater
  have hquit := inOrder_reaches_of_inTurn hdone (.refl (quit (usesTls cfg resp)))
  rwa [List.append_nil] at hquit

/-- Only when all steps have succeeded, the result is `true`. -/
theorem allDone_of_reaches_true (h : (sendVerificationEmail cfg payload).Reaches t (.ret true)) :
    ∃ resp t₁ t₂, t = t₁ ++ t₂ ∧ AllDone (steps cfg payload resp) t₁ := by
  by_cases hconfigured : (cfg.host.isEmpty || cfg.recipient.isEmpty) = true
  · rw [sendVerificationEmail_eq_false hconfigured] at h
    cases (Reaches.ret_inv h).2
  · rw [sendVerificationEmail_eq hconfigured] at h
    obtain ⟨t₁, t', rfl, hfirst, hrest⟩ := inTurn_of_reaches_true h
    obtain ⟨t₂, t'', text, rfl, hehlo, hrest⟩ := hrest.of_bind_ret
    cases text with
    | none => cases (Reaches.ret_inv hrest).2
    | some resp =>
      obtain ⟨t₃, t₄, rfl, hlater, -⟩ := inTurn_of_reaches_true hrest
      rw [map_succeeds] at hfirst hlater
      refine ⟨resp, t₁ ++ (t₂ ++ t₃), t₄, by simp, ?_⟩
      have hehlo : AllDone [.ehlo resp] t₂ :=
        allDone_singleton_iff.mpr (exchange_reaches_some_iff.mp hehlo)
      exact AllDone.append (l := [.connect cfg.host cfg.port, .greeting]) hfirst
        (AllDone.append hehlo hlater)

/-- A command of steps that are gone through in order, and what comes after them. -/
theorem sends_of_reaches_inOrder {l : List Step} {last : Dialogue Bool}
    {next : Smtp.Answer (.send tls command) → Dialogue Bool}
    (h : (inOrder (l.map Step.program) last).Reaches t (.call (.send tls command) next)) :
    (∃ before step after t₁ t₂, l = before ++ step :: after ∧ t = t₁ ++ t₂ ∧
      AllDone before t₁ ∧ step.Sends t₂ tls command) ∨
    ∃ t₁ t₂, t = t₁ ++ t₂ ∧ AllDone l t₁ ∧ last.Reaches t₂ (.call (.send tls command) next) := by
  rcases inTurn_of_reaches_call h with ⟨before, p, after, t₁, t₂, next', hl, rfl, hbefore, hp⟩ |
    ⟨t₁, t₂, rfl, hl, hlast⟩
  · obtain ⟨before, l', rfl, rfl, hl'⟩ := List.map_eq_append_iff.mp hl
    obtain ⟨step, after, rfl, rfl, rfl⟩ := List.map_eq_cons_iff.mp hl'
    rw [map_succeeds] at hbefore
    exact .inl ⟨before, step, after, t₁, t₂, rfl, rfl, hbefore, Step.sends_of_reaches hp⟩
  · rw [map_succeeds] at hl
    exact .inr ⟨t₁, t₂, rfl, hl, hlast⟩

/-- Whose turn it is when a command is written, after the steps that have succeeded. -/
inductive Turn (cfg : SmtpConfig) (payload : VerificationPayload) (resp : List Char)
    (t : List (Event Smtp)) (tls : Bool) (command : Command) : Prop where
  | step (before after : List Step) (step : Step) (t₁ t₂ : List (Event Smtp))
      (hsteps : steps cfg payload resp = before ++ step :: after) (ht : t = t₁ ++ t₂)
      (hbefore : AllDone before t₁) (hstep : step.Sends t₂ tls command)
  | quit (hall : AllDone (steps cfg payload resp) t) (htls : tls = usesTls cfg resp)
      (hcommand : command = .quit)

theorem reaches_quit_send {tls' : Bool} {next : Smtp.Answer (.send tls command) → Dialogue Bool}
    (h : (quit tls').Reaches t (.call (.send tls command) next)) :
    t = [] ∧ tls = tls' ∧ command = .quit := by
  cases h with
  | refl => exact ⟨rfl, rfl, rfl⟩
  | call h =>
    cases h with
    | call h => cases (Reaches.ret_inv h).2

theorem turn_of_reaches_send {next : Smtp.Answer (.send tls command) → Dialogue Bool}
    (h : (sendVerificationEmail cfg payload).Reaches t (.call (.send tls command) next)) :
    ∃ resp, Turn cfg payload resp t tls command := by
  by_cases hconfigured : (cfg.host.isEmpty || cfg.recipient.isEmpty) = true
  · rw [sendVerificationEmail_eq_false hconfigured] at h
    cases (Reaches.ret_inv h).2
  rw [sendVerificationEmail_eq hconfigured] at h
  rcases sends_of_reaches_inOrder h with ⟨before, step, after, t₁, t₂, hl, rfl, hbefore, hstep⟩ |
    ⟨t₁, t', rfl, hfirst, hrest⟩
  · refine ⟨[], .step before (after ++ .ehlo [] :: laterSteps cfg payload []) step t₁ t₂ ?_ rfl
      hbefore hstep⟩
    exact congrArg (· ++ Step.ehlo [] :: laterSteps cfg payload []) hl |>.trans (by simp)
  rcases hrest.of_bind_call with ⟨next', hehlo⟩ | ⟨t₂, t₃, text, rfl, hehlo, hlater⟩
  · exact ⟨[], .step _ _ (.ehlo []) t₁ t' rfl rfl hfirst (reaches_exchange_send hehlo)⟩
  cases text with
  | none => cases (Reaches.ret_inv hlater).2
  | some resp =>
    have hehlo : AllDone [.ehlo resp] t₂ :=
      allDone_singleton_iff.mpr (exchange_reaches_some_iff.mp hehlo)
    have hstart := hfirst.append hehlo
    rcases sends_of_reaches_inOrder hlater with
      ⟨before, step, after, t₄, t₅, hl, rfl, hbefore, hstep⟩ | ⟨t₄, t₅, rfl, hall, hquit⟩
    · refine ⟨resp, .step ([.connect cfg.host cfg.port, .greeting, .ehlo resp] ++ before) after step
        (t₁ ++ t₂ ++ t₄) t₅ ?_ (by simp) (hstart.append hbefore) hstep⟩
      rw [steps, hl]
      rfl
    · obtain ⟨rfl, htls, hcommand⟩ := reaches_quit_send hquit
      rw [List.append_nil, ← List.append_assoc]
      exact ⟨resp, .quit (hstart.append hall) htls hcommand⟩

/-! ## The message -/

/-- A step that writes no message. -/
def Step.Other : Step → Prop
  | .message _ _ _ | .reply _ (.message _ _ _ _) _ => False
  | _ => True

theorem Step.Other.not_sends {step : Step} (h : step.Other) {cfg : SmtpConfig}
    {payload : VerificationPayload} {date timestamp : List Char} :
    ¬step.Sends t tls (.message cfg payload date timestamp) := by
  intro hsends
  cases step with
  | message tls' cfg' payload' => exact h
  | reply tls' command' code =>
    obtain ⟨-, -, rfl⟩ := hsends
    exact h
  | ehlo resp => cases hsends.2.2
  | _ => exact hsends

/-- DATA is the last step before the message, and no other step writes a message. -/
theorem steps_eq (cfg : SmtpConfig) (payload : VerificationPayload) (resp : List Char) :
    ∃ before, steps cfg payload resp =
        (before ++ [.reply (usesTls cfg resp) .data 354]) ++
          [.message (usesTls cfg resp) cfg payload] ∧
      ∀ step ∈ before ++ [.reply (usesTls cfg resp) .data 354], step.Other := by
  have htls : ∀ step ∈ (if usesTls cfg resp then
      [Step.reply false .starttls 220, .handshake, .reply true .ehlo 250] else []), step.Other := by
    split <;> simp [Step.Other]
  have hauth : ∀ step ∈ (if cfg.user.isEmpty then []
      else [Step.reply (usesTls cfg resp) (.authPlain cfg.user cfg.pass) 235]), step.Other := by
    split <;> simp [Step.Other]
  generalize hfirst : (if usesTls cfg resp then
    [Step.reply false .starttls 220, .handshake, .reply true .ehlo 250] else []) = first at htls
  generalize hsecond : (if cfg.user.isEmpty then []
    else [Step.reply (usesTls cfg resp) (.authPlain cfg.user cfg.pass) 235]) = second at hauth
  refine ⟨[Step.connect cfg.host cfg.port, Step.greeting, Step.ehlo resp] ++ first ++ second ++
    [Step.reply (usesTls cfg resp) (.mailFrom cfg.sender) 250,
      Step.reply (usesTls cfg resp) (.rcptTo cfg.recipient) 250], ?_, ?_⟩
  · simp only [steps, laterSteps, hfirst, hsecond, List.append_assoc, List.cons_append,
      List.nil_append]
  · simp only [List.forall_mem_append]
    exact ⟨⟨⟨⟨by simp [Step.Other], htls⟩, hauth⟩, by simp [Step.Other]⟩, by simp [Step.Other]⟩

/-- When a message is written, DATA has got its 354. -/
theorem Turn.exists_data {cfg' : SmtpConfig} {payload' : VerificationPayload}
    {date timestamp : List Char}
    (h : Turn cfg payload resp t tls (.message cfg' payload' date timestamp)) :
    ∃ t₁ text, t = t₁ ++ [⟨.send tls .data, true⟩, ⟨.readResponse tls, ⟨354, text⟩⟩,
      ⟨.rfc2822Date, date⟩, ⟨.iso8601Now, timestamp⟩] := by
  obtain ⟨first, hsteps, hother⟩ := steps_eq cfg payload resp
  cases h with
  | quit hall htls hcommand => cases hcommand
  | step before after step t₁ t₂ hl ht hbefore hstep =>
    rcases List.eq_nil_or_concat after with rfl | ⟨after, last, rfl⟩
    · obtain ⟨rfl, hlast⟩ := List.append_inj' (hsteps.symm.trans hl) rfl
      obtain rfl := (List.cons.inj hlast).1
      obtain ⟨date', timestamp', rfl, rfl, hcommand⟩ := hstep
      cases hcommand
      obtain ⟨t₃, t₄, rfl, -, hdata⟩ := hbefore.split
      obtain ⟨text, rfl⟩ := allDone_singleton_iff.mp hdata
      exact ⟨t₃, text, by rw [ht]; simp⟩
    · have hshape : before ++ step :: after.concat last = (before ++ step :: after) ++ [last] := by
        simp
      have hinit := (List.append_inj' (hsteps.symm.trans (hl.trans hshape)) rfl).1
      refine absurd hstep (hother step ?_).not_sends
      rw [hinit]
      simp

/-- The result is `true` if and only if every step before QUIT has got what it expects; no command
is written before all earlier steps have, and no message before a 354. -/
theorem sendVerificationEmail_dialogue {σ : Type} (cfg : SmtpConfig)
    (payload : VerificationPayload) (h : Handler Smtp σ) (s : σ) :
    let r := (sendVerificationEmail cfg payload).run h s
    (r.result = .ok true ↔
      ∃ resp t₁ t₂, r.trace = t₁ ++ t₂ ∧ AllDone (steps cfg payload resp) t₁) ∧
    (∀ t₁ tls command sent t₂, r.trace = t₁ ++ ⟨.send tls command, sent⟩ :: t₂ →
      ∃ resp, Turn cfg payload resp t₁ tls command) ∧
    ∀ t₁ tls cfg' payload' date timestamp sent t₂,
      r.trace = t₁ ++ ⟨.send tls (.message cfg' payload' date timestamp), sent⟩ :: t₂ →
      ∃ t₃ text, t₁ = t₃ ++ [⟨.send tls .data, true⟩, ⟨.readResponse tls, ⟨354, text⟩⟩,
        ⟨.rfc2822Date, date⟩, ⟨.iso8601Now, timestamp⟩] := by
  have hturn : ∀ t₁ tls command sent t₂,
      ((sendVerificationEmail cfg payload).run h s).trace =
        t₁ ++ ⟨.send tls command, sent⟩ :: t₂ → ∃ resp, Turn cfg payload resp t₁ tls command := by
    intro t₁ tls command sent t₂ ht
    obtain ⟨next, hnext⟩ := exists_reaches_call ht
    exact turn_of_reaches_send hnext
  refine ⟨⟨fun hresult => allDone_of_reaches_true (reaches_of_run_ok hresult), ?_⟩, hturn, ?_⟩
  · rintro ⟨resp, t₁, t₂, ht, hall⟩
    by_cases hconfigured : (cfg.host.isEmpty || cfg.recipient.isEmpty) = true
    · rw [sendVerificationEmail_eq_false hconfigured] at ht
      obtain ⟨rfl, -⟩ := List.append_eq_nil_iff.mp ht.symm
      obtain ⟨t₃, t₄, ht', rfl, -⟩ := hall
      cases ht'
    · obtain ⟨s', hs'⟩ := (reaches_quit_of_allDone hconfigured hall).exists_run ht
      exact hs'
  · intro t₁ tls cfg' payload' date timestamp sent t₂ ht
    obtain ⟨resp, hresp⟩ := hturn _ _ _ _ _ ht
    exact hresp.exists_data

end Freehold.Mail
