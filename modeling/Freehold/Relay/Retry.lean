import Freehold.Relay.Registration

/-!
# How often a service registers (`relay_client.cpp`)

A Register is repeated when the service is not registered and 10 seconds have passed since
`last_heartbeat`. A Heartbeat sets `last_heartbeat`; a Register does not, so from then on every
turn sends one.

## Main results

* `registerTimes_eq` — when Registers are sent.
* `spaced_registerTimes_iff` — when they are 10 seconds apart.
-/

namespace Freehold.Relay

variable {svc : RelayService} {relayAddr : Address} {started : ℕ} {turns : List Turn} {t : Turn}
  {e : Engine}

/-- 10 seconds. -/
def retryInterval : ℕ := 10 * 10 ^ 9

/-- The datagram registers the service: a Challenge or a Neighbors message. -/
def Turn.registers (t : Turn) : Bool :=
  (t.data.bind challenge?).isSome || t.isNeighbors

/-- The clock of every turn for each Register that the turn sends. -/
def retryTimes (svc : RelayService) (relayAddr : Address) (e : Engine) : List Turn → List ℕ
  | [] => []
  | t :: rest =>
    ((e.turn svc relayAddr t).2.filter (· = sendRegister svc relayAddr)).map (fun _ => t.now) ++
      retryTimes svc relayAddr (e.turn svc relayAddr t).1 rest

/-- When Registers are sent: the first of them as the clock is read in front of the loop. -/
def registerTimes (svc : RelayService) (relayAddr : Address) (started : ℕ) (turns : List Turn) :
    List ℕ :=
  ((preamble svc relayAddr).filter (· = sendRegister svc relayAddr)).map (fun _ => started) ++
    retryTimes svc relayAddr (Engine.start started) turns

/-- Each is 10 seconds behind the one before it, or more. -/
def Spaced (times : List ℕ) : Prop := times.IsChain fun s t => s + retryInterval ≤ t

/-- The clock of the turns that end, without a datagram that registers the service, 10 seconds
after the start of the loop or later. -/
def lateTimes (started : ℕ) (turns : List Turn) : List ℕ :=
  ((turns.takeWhile fun t => !t.registers).map Turn.now).filter fun now =>
    started + retryInterval ≤ now

/-! ## One turn -/

theorem registered_handled_eq (st : ServiceState) :
    (t.handled svc relayAddr st).1.registered = (st.registered || t.registers) := by
  rcases t.handled_cases svc relayAddr st with
    ⟨k, hk, heq⟩ | ⟨-, data, hdata, hn, heq⟩ | ⟨hk, hn, heq⟩
  · simp [heq, Turn.registers, hk]
  · rw [heq]
    split <;> simp [Turn.registers, Turn.isNeighbors, hdata, hn]
  · have hnone : t.isNeighbors = false := by
      unfold Turn.isNeighbors
      cases hdata : t.data with
      | none => rfl
      | some data => exact hn data hdata
    simp [heq, Turn.registers, hk, hnone]

theorem sendRegister_ne {cookie : Cookie} :
    confirm svc relayAddr cookie ≠ sendRegister svc relayAddr ∧
      sendHeartbeat svc relayAddr cookie ≠ sendRegister svc relayAddr := by
  constructor
  · intro h
    injection h with _ hbytes
    have htype := congrArg (fun bytes => bytes[1]?) hbytes
    cases htype
  · intro h
    injection h with _ hbytes
    have htype := congrArg (fun bytes => bytes[1]?) hbytes
    cases htype

theorem sendRegister_notMem_handled (st : ServiceState) :
    sendRegister svc relayAddr ∉ (t.handled svc relayAddr st).2 := by
  rcases t.handled_cases svc relayAddr st with ⟨k, -, heq⟩ | ⟨-, data, -, -, heq⟩ | ⟨-, -, heq⟩
  · rw [heq, List.mem_pair, not_or]
    exact ⟨sendRegister_ne.1.symm, nofun⟩
  · rw [heq]
    split
    · rw [List.mem_singleton]
      exact nofun
    · exact List.not_mem_nil
  · rw [heq]
    exact List.not_mem_nil

/-- A turn sends a Register if the service is still not registered, 10 seconds after the last
Heartbeat. -/
theorem filter_turn (e : Engine) (t : Turn) :
    (e.turn svc relayAddr t).2.filter (· = sendRegister svc relayAddr) =
      if (e.st.registered || t.registers) = false ∧ e.lastHeartbeat + retryInterval ≤ t.now then
        [sendRegister svc relayAddr]
      else [] := by
  have hhandled : (t.handled svc relayAddr e.st).2.filter (· = sendRegister svc relayAddr) =
      [] := by
    rw [List.filter_eq_nil_iff]
    intro o ho heq
    exact sendRegister_notMem_handled e.st (of_decide_eq_true heq ▸ ho)
  have hlate : 10 ≤ (t.now - e.lastHeartbeat) / 10 ^ 9 ↔
      e.lastHeartbeat + retryInterval ≤ t.now := by
    unfold retryInterval
    omega
  simp only [Engine.turn, List.filter_append, hhandled, List.nil_append, registered_handled_eq,
    Bool.and_eq_true, decide_eq_true_eq, hlate, Bool.not_eq_true']
  split <;> split <;> simp [sendRegister_ne.2]

theorem registered_turn (e : Engine) (t : Turn) :
    (e.turn svc relayAddr t).1.st.registered = (e.st.registered || t.registers) :=
  registered_handled_eq e.st

theorem lastHeartbeat_turn (h : (e.st.registered || t.registers) = false) :
    (e.turn svc relayAddr t).1.lastHeartbeat = e.lastHeartbeat := by
  have hhandled : (t.handled svc relayAddr e.st).1.registered = false :=
    (registered_handled_eq e.st).trans h
  simp [Engine.turn, hhandled]

/-! ## All turns -/

/-- A service that is registered stays so. -/
theorem retryTimes_of_registered (h : e.st.registered) : retryTimes svc relayAddr e turns = [] := by
  induction turns generalizing e with
  | nil => rfl
  | cons t turns ih =>
    have hnext : (e.turn svc relayAddr t).1.st.registered := by
      rw [registered_turn, h, Bool.true_or]
    rw [retryTimes, ih hnext, filter_turn, if_neg (by simp [h])]
    rfl

/-- Until then, each late turn sends one. -/
theorem retryTimes_eq (h : e.st.registered = false) (hstarted : e.lastHeartbeat = started) :
    retryTimes svc relayAddr e turns = lateTimes started turns := by
  induction turns generalizing e with
  | nil => rfl
  | cons t turns ih =>
    rw [retryTimes, filter_turn, h, Bool.false_or, hstarted, lateTimes, List.takeWhile_cons]
    cases hregisters : t.registers with
    | true =>
      have hnext : (e.turn svc relayAddr t).1.st.registered := by
        rw [registered_turn, hregisters, Bool.or_true]
      rw [retryTimes_of_registered hnext]
      rfl
    | false =>
      have hnone : (e.st.registered || t.registers) = false := by rw [h, hregisters]; rfl
      have hnext := ih (e := (e.turn svc relayAddr t).1) (by rw [registered_turn, hnone])
        (by rw [lastHeartbeat_turn hnone, hstarted])
      rw [hnext, Bool.not_false, if_pos rfl, List.map_cons, List.filter_cons, lateTimes]
      by_cases hlate : started + retryInterval ≤ t.now
      · simp [hlate]
      · simp [hlate]

theorem registerTimes_eq (svc : RelayService) (relayAddr : Address) (started : ℕ)
    (turns : List Turn) :
    registerTimes svc relayAddr started turns = started :: lateTimes started turns := by
  have hfirst : (preamble svc relayAddr).filter (· = sendRegister svc relayAddr) =
      [sendRegister svc relayAddr] := by
    have hne : Output.sendto { relayAddr with port := svc.relayPort } [0] ≠
        sendRegister svc relayAddr := by
      intro h
      injection h with _ hbytes
      cases hbytes
    simp [preamble, hne]
  rw [registerTimes, hfirst, retryTimes_eq (e := Engine.start started) rfl rfl]
  rfl

/-- Registers are sent 10 seconds apart exactly if no two turns of a service that is not
registered yet end less than 10 seconds apart, once 10 seconds have passed. -/
theorem spaced_registerTimes_iff (svc : RelayService) (relayAddr : Address) (started : ℕ)
    (turns : List Turn) :
    Spaced (registerTimes svc relayAddr started turns) ↔ Spaced (lateTimes started turns) := by
  rw [registerTimes_eq]
  have hlate : ∀ now ∈ lateTimes started turns, started + retryInterval ≤ now := by
    intro now hnow
    simpa using (List.mem_filter.mp hnow).2
  unfold Spaced
  generalize lateTimes started turns = times at hlate
  cases times with
  | nil => simp
  | cons now times =>
    rw [List.isChain_cons_cons]
    exact and_iff_right (hlate now List.mem_cons_self)

/-- Nothing is received: a Register after 10 seconds, and the next one after 15. -/
theorem not_spaced_registerTimes :
    ¬Spaced (registerTimes ⟨['m'], 5871⟩ ⟨0, 9999⟩ 0
      [⟨none, 10 * 10 ^ 9⟩, ⟨none, 15 * 10 ^ 9⟩]) := by
  have htimes : lateTimes 0 [⟨none, 10 * 10 ^ 9⟩, ⟨none, 15 * 10 ^ 9⟩] =
      [10 * 10 ^ 9, 15 * 10 ^ 9] := by decide
  rw [registerTimes_eq, htimes, Spaced]
  decide

end Freehold.Relay
