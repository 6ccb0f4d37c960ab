import Freehold.Mail.SmtpClient

/-!
# One message (`smtp_client.cpp`)

Whatever the mail server answers and wherever a write fails, `send_verification_email` sends at
most one message, and it is the one with its payload (`saysOnce_sendVerificationEmail`). It is
written if this does not fail.
-/

namespace Freehold.Mail

open Interaction Interaction.Program

/-- A message about `ν` is written: `smtp_send` has been successful. -/
def Notice (ν : List Char) (e : Event Smtp) : Bool :=
  match e with
  | ⟨.send _ (.message _ payload _ _), sent⟩ => sent && payload.nullifierHex = ν
  | _ => false

/-- A message with the payload is sent, and may fail. -/
def Sends (payload : VerificationPayload) : Op → Prop
  | .send _ (.message _ payload' _ _) => payload' = payload
  | _ => False

/-- No message is sent. -/
def Silent : Op → Prop
  | .send _ (.message _ _ _ _) => False
  | _ => True

variable {cfg : SmtpConfig} {payload : VerificationPayload} {tls : Bool} {ν : List Char}

/-- The one message is the one with the payload. -/
structure SaysOnce (payload : VerificationPayload) {α : Type} (p : Dialogue α) : Prop where
  once : p.AtMostOnce fun o => ¬Silent o
  only : p.Uses fun o => Silent o ∨ Sends payload o

theorem silent_exchange (tls : Bool) (command : Command) (h : Silent (.send tls command))
    (expected : ℤ) : (exchange tls command expected).Uses Silent :=
  .call h fun _ => .ite (.call trivial fun _ => uses_ret _) (uses_ret _)

variable {α β : Type} {p : Dialogue α} {f : α → Dialogue β}

theorem SaysOnce.of_silent (h : p.Uses Silent) : SaysOnce payload p :=
  ⟨(h.mono fun _ => not_not.mpr).atMostOnce, h.mono fun _ => .inl⟩

theorem SaysOnce.ite {c : Prop} [Decidable c] {q : Dialogue α} (hp : SaysOnce payload p)
    (hq : SaysOnce payload q) : SaysOnce payload (if c then p else q) := by
  split
  · exact hp
  · exact hq

theorem SaysOnce.bind_right (hp : p.Uses Silent) (hf : ∀ a, SaysOnce payload (f a)) :
    SaysOnce payload (p >>= f) :=
  ⟨.bind_right (hp.mono fun _ => not_not.mpr) fun a => (hf a).once,
    (hp.mono fun _ => .inl).bind fun a => (hf a).only⟩

theorem SaysOnce.bind_left (hp : SaysOnce payload p) (hf : ∀ a, (f a).Uses Silent) :
    SaysOnce payload (p >>= f) :=
  ⟨hp.once.bind_left fun a => (hf a).mono fun _ => not_not.mpr,
    hp.only.bind fun a => (hf a).mono fun _ => .inl⟩

theorem SaysOnce.call {o : Op} {next : Smtp.Answer o → Dialogue α} (ho : Silent o)
    (hnext : ∀ x, SaysOnce payload (next x)) : SaysOnce payload (.call o next) :=
  ⟨.call (fun x => (hnext x).once) fun h => absurd ho h,
    .call (.inl ho) fun x => (hnext x).only⟩

theorem silent_startTls : startTls.Uses Silent := by
  refine (silent_exchange false .starttls trivial 220).bind fun resp => ?_
  cases resp with
  | none => exact uses_ret _
  | some text =>
    refine .call trivial fun _ => .ite ?_ (uses_ret _)
    refine .call trivial fun _ => .ite ?_ (uses_ret _)
    exact (silent_exchange true .ehlo trivial 250).bind fun _ => uses_ret _

theorem silent_authenticate : (authenticate cfg tls).Uses Silent :=
  .ite (uses_ret _) ((silent_exchange tls (.authPlain cfg.user cfg.pass) trivial 235).bind
    fun _ => uses_ret _)

theorem saysOnce_sendMessage : SaysOnce payload (sendMessage cfg payload tls) := by
  refine .bind_right (silent_exchange tls .data trivial 354) fun resp => ?_
  cases resp with
  | none => exact .of_silent (uses_ret _)
  | some text =>
    refine .call trivial fun date => .call trivial fun timestamp => ?_
    show SaysOnce payload (exchange tls (.message cfg payload date timestamp) 250 >>=
      fun resp => .ret resp.isSome)
    refine .bind_left ⟨?_, ?_⟩ fun _ => uses_ret _
    · have hafter : ∀ sent : Bool, (if sent then
          (.call (.readResponse tls) fun response =>
            .ret (if response.code = 250 then some response.text else none))
        else .ret none : Dialogue (Option (List Char))).Uses fun o => ¬¬Silent o := fun _ =>
        .ite (.call (not_not.mpr trivial) fun _ => uses_ret _) (uses_ret _)
      exact .call (fun sent => (hafter sent).atMostOnce) fun _ => hafter
    · exact .call (.inr rfl) fun _ => .ite (.call (.inl trivial) fun _ => uses_ret _) (uses_ret _)

theorem saysOnce_transaction : SaysOnce payload (transaction cfg payload tls) := by
  refine .bind_right silent_authenticate fun authenticated => .ite ?_ (.of_silent (uses_ret _))
  refine .bind_right (silent_exchange tls (.mailFrom cfg.sender) trivial 250) fun resp => ?_
  cases resp with
  | none => exact .of_silent (uses_ret _)
  | some text =>
    refine .bind_right (silent_exchange tls (.rcptTo cfg.recipient) trivial 250) fun resp => ?_
    cases resp with
    | none => exact .of_silent (uses_ret _)
    | some text =>
      refine saysOnce_sendMessage.bind_left fun accepted => .ite ?_ (uses_ret _)
      exact .call trivial fun _ => .call trivial fun _ => uses_ret _

/-- Whatever the mail server does. -/
theorem saysOnce_sendVerificationEmail : SaysOnce payload (sendVerificationEmail cfg payload) := by
  refine .ite (.of_silent (uses_ret _)) (.call trivial fun _ => .ite ?_ (.of_silent (uses_ret _)))
  refine .call trivial fun greeting => .ite ?_ (.of_silent (uses_ret _))
  refine .bind_right (silent_exchange false .ehlo trivial 250) fun resp => ?_
  cases resp with
  | none => exact .of_silent (uses_ret _)
  | some text =>
    refine .ite (.bind_right silent_startTls fun _ => ?_) saysOnce_transaction
    exact .ite saysOnce_transaction (.of_silent (uses_ret _))

/-! ## In a run -/

@[simp] theorem notice_message (tls : Bool) (date timestamp : List Char) (sent : Bool) :
    Notice ν ⟨.send tls (.message cfg payload date timestamp), sent⟩ =
      (sent && decide (payload.nullifierHex = ν)) := rfl

theorem not_silent_of_notice {e : Event Smtp} (h : Notice ν e) : ¬Silent e.op := by
  obtain ⟨op, answer⟩ := e
  cases op with
  | send tls command =>
    cases command with
    | message cfg payload date timestamp => exact id
    | _ => cases h
  | _ => cases h

variable {σ : Type} (h : Handler Smtp σ) (s : σ)

theorem countP_notice_le_one :
    ((sendVerificationEmail cfg payload).run h s).trace.countP (Notice ν) ≤ 1 :=
  saysOnce_sendVerificationEmail.once.countP_le_one (fun _ => not_silent_of_notice) s

/-- Of another nullifier nothing is said. -/
theorem countP_notice_of_ne (hne : payload.nullifierHex ≠ ν) :
    ((sendVerificationEmail cfg payload).run h s).trace.countP (Notice ν) = 0 := by
  rw [List.countP_eq_zero]
  intro e he hnotice
  have honly := saysOnce_sendVerificationEmail.only.of_mem_trace he
  have hsends := honly.resolve_left (not_silent_of_notice hnotice)
  obtain ⟨op, answer⟩ := e
  cases op with
  | send tls command =>
    cases command with
    | message cfg' payload' date timestamp =>
      cases hsends
      rw [notice_message, Bool.and_eq_true, decide_eq_true_eq] at hnotice
      exact hne hnotice.2
    | _ => cases hnotice
  | _ => cases hnotice

end Freehold.Mail
