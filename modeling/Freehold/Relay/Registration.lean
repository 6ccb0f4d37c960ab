import Freehold.Relay.Engine

/-!
# Registration with the relay

Neighbors sets the registered flag as a Confirm does, so the flag stands for a confirmed
Challenge exactly if no Neighbors message comes before the first one (`inOrder_iff`).
-/

namespace Freehold.Relay

variable {svc : RelayService} {relayAddr : Address} {started : ℕ} {turns : List Turn} {t : Turn}
  {o : Output}

/-- The cookies that Challenges have brought, the latest last. -/
def challenges (turns : List Turn) : List Cookie :=
  turns.filterMap fun t => t.data.bind challenge?

/-- A Confirm or a Heartbeat has the cookie at offset 4. -/
def Carries (cookie : Option Cookie) : Output → Prop
  | .sendto _ bytes =>
    bytes[1]? = some RelayMsgType.confirm.byte ∨ bytes[1]? = some RelayMsgType.heartbeat.byte →
      ∃ k, cookie = some k ∧ (bytes.drop 4).take 16 = k.bytes
  | _ => True

def Turn.isNeighbors (t : Turn) : Bool := t.data.any Relay.isNeighbors

/-- What is right after the turn `t`: the flag stands for a Challenge whose Confirm has been
sent, and what was sent in the turn carries the latest cookie. -/
structure InOrder (svc : RelayService) (relayAddr : Address) (started : ℕ) (turns : List Turn)
    (t : Turn) : Prop where
  registered : (engineLoop svc relayAddr started (turns ++ [t])).1.st.registered →
    ∃ k ∈ challenges (turns ++ [t]),
      confirm svc relayAddr k ∈ (engineLoop svc relayAddr started (turns ++ [t])).2
  carries : ∀ o ∈ ((engineLoop svc relayAddr started turns).1.turn svc relayAddr t).2,
    Carries (challenges (turns ++ [t])).getLast? o

variable {k : Cookie} {turns : List Turn}

@[simp] theorem challenges_snoc :
    challenges (turns ++ [t]) = challenges turns ++ (t.data.bind challenge?).toList := by
  unfold challenges
  rw [List.filterMap_append]
  cases h : t.data.bind challenge? <;> simp [h]

theorem engineLoop_snoc :
    engineLoop svc relayAddr started (turns ++ [t]) =
      (((engineLoop svc relayAddr started turns).1.turn svc relayAddr t).1,
        (engineLoop svc relayAddr started turns).2 ++
          ((engineLoop svc relayAddr started turns).1.turn svc relayAddr t).2) := by
  simp [engineLoop, Engine.turns_append, Engine.turns]

/-! ## One turn -/

theorem turn_st (e : Engine) :
    (e.turn svc relayAddr t).1.st = (t.handled svc relayAddr e.st).1 := rfl

/-- What a turn sends is in answer to the datagram, a Heartbeat of a registered service, or a
Register. -/
theorem mem_turn {e : Engine} (h : o ∈ (e.turn svc relayAddr t).2) :
    o ∈ (t.handled svc relayAddr e.st).2 ∨
      ((e.turn svc relayAddr t).1.st.registered ∧
        o = sendHeartbeat svc relayAddr (e.turn svc relayAddr t).1.st.cookie) ∨
      o = sendRegister svc relayAddr := by
  unfold Engine.turn at h
  simp only [List.mem_append] at h
  rcases h with (h | h) | h
  · exact .inl h
  · refine .inr (.inl ?_)
    split at h
    · rename_i hbeats
      exact ⟨(Bool.and_eq_true_iff.mp hbeats).1, List.mem_singleton.mp h⟩
    · cases h
  · refine .inr (.inr ?_)
    split at h
    · exact List.mem_singleton.mp h
    · cases h

theorem mem_turn_of_mem_handled {e : Engine} (h : o ∈ (t.handled svc relayAddr e.st).2) :
    o ∈ (e.turn svc relayAddr t).2 :=
  List.mem_append_left _ (List.mem_append_left _ h)

theorem carries_sendRegister {k : Option Cookie} : Carries k (sendRegister svc relayAddr) := by
  rintro (htype | htype)
  · cases htype
  · cases htype

theorem carries_confirm : Carries (some k) (confirm svc relayAddr k) := fun _ =>
  ⟨k, rfl, relayMsg_cookie ..⟩

theorem carries_sendHeartbeat : Carries (some k) (sendHeartbeat svc relayAddr k) := fun _ =>
  ⟨k, rfl, relayMsg_cookie ..⟩

theorem handled_of_challenge (h : t.data.bind challenge? = some k) (svc : RelayService)
    (relayAddr : Address) (st : ServiceState) :
    t.handled svc relayAddr st =
      ({ st with cookie := k, registered := true },
        [confirm svc relayAddr k, .onRegistered svc.name svc.relayPort]) := by
  rcases t.handled_cases svc relayAddr st with ⟨k', hk, hhandled⟩ | ⟨hk, -⟩ | ⟨hk, -⟩
  · cases h.symm.trans hk
    exact hhandled
  · cases h.symm.trans hk
  · cases h.symm.trans hk

/-- What is handled is answered with the cookie that has just come, or with no message. -/
theorem carries_handled {st : ServiceState} (h : o ∈ (t.handled svc relayAddr st).2) :
    Carries (challenges (turns ++ [t])).getLast? o := by
  rcases t.handled_cases svc relayAddr st with
    ⟨k, hk, hhandled⟩ | ⟨-, data, -, -, hhandled⟩ | ⟨-, -, hhandled⟩
  · rw [hhandled] at h
    rw [challenges_snoc, hk, Option.toList_some, List.getLast?_concat]
    rcases List.mem_cons.mp h with rfl | h
    · exact carries_confirm
    · rw [List.mem_singleton.mp h]
      trivial
  · rw [hhandled] at h
    split at h
    · rw [List.mem_singleton.mp h]
      trivial
    · cases h
  · rw [hhandled] at h
    cases h

/-! ## Runs -/

/-- What holds after every run: each Challenge has been confirmed, and the cookie is the latest. -/
structure Answered (svc : RelayService) (relayAddr : Address) (turns : List Turn)
    (reached : Engine × List Output) : Prop where
  cookie : ∀ k ∈ (challenges turns).getLast?, reached.1.st.cookie = k
  confirmed : ∀ k ∈ challenges turns, confirm svc relayAddr k ∈ reached.2

theorem cookie_handled_of_none {st : ServiceState} (h : t.data.bind challenge? = none) :
    (t.handled svc relayAddr st).1.cookie = st.cookie := by
  rcases t.handled_cases svc relayAddr st with
    ⟨k, hk, -⟩ | ⟨-, data, -, -, hhandled⟩ | ⟨-, -, hhandled⟩
  · rw [h] at hk
    cases hk
  · rw [hhandled]
    split <;> rfl
  · rw [hhandled]

theorem answered (svc : RelayService) (relayAddr : Address) (started : ℕ) (turns : List Turn) :
    Answered svc relayAddr turns (engineLoop svc relayAddr started turns) := by
  induction turns using List.reverseRecOn with
  | nil => exact ⟨by simp [challenges], by simp [challenges]⟩
  | append_singleton turns t ih =>
    rw [engineLoop_snoc]
    cases hk : t.data.bind challenge? with
    | none =>
      have hsame : challenges (turns ++ [t]) = challenges turns := by simp [hk]
      refine ⟨fun k hlast => ?_, fun k hmem => ?_⟩
      · rw [hsame] at hlast
        exact (cookie_handled_of_none hk).trans (ih.cookie k hlast)
      · rw [hsame] at hmem
        exact List.mem_append_left _ (ih.confirmed k hmem)
    | some k =>
      have hmore : challenges (turns ++ [t]) = challenges turns ++ [k] := by simp [hk]
      have hhandled := fun st => handled_of_challenge hk svc relayAddr st
      refine ⟨fun k' hlast => ?_, fun k' hmem => ?_⟩
      · rw [hmore, List.getLast?_concat] at hlast
        cases hlast
        rw [turn_st, hhandled]
      · rw [hmore] at hmem
        rcases List.mem_append.mp hmem with hmem | hmem
        · exact List.mem_append_left _ (ih.confirmed k' hmem)
        · rw [List.mem_singleton.mp hmem]
          refine List.mem_append_right _ (mem_turn_of_mem_handled ?_)
          rw [hhandled]
          exact List.mem_cons_self

/-- Without a Challenge and a Neighbors message nothing registers the service. -/
theorem registered_handled {st : ServiceState} (h : (t.handled svc relayAddr st).1.registered) :
    st.registered ∨ t.isNeighbors ∨ t.data.bind challenge? ≠ none := by
  rcases t.handled_cases svc relayAddr st with
    ⟨k, hk, -⟩ | ⟨-, data, hdata, hneighbors, -⟩ | ⟨-, -, hhandled⟩
  · exact .inr (.inr (by simp [hk]))
  · exact .inr (.inl (by simp [Turn.isNeighbors, hdata, hneighbors]))
  · rw [hhandled] at h
    exact .inl h

/-- Every Neighbors message comes after a Challenge. -/
def NeighborsAfterChallenge (turns : List Turn) : Prop :=
  ∀ before t after, turns = before ++ t :: after → t.isNeighbors → challenges before ≠ []

theorem NeighborsAfterChallenge.left {xs ys : List Turn} (h : NeighborsAfterChallenge (xs ++ ys)) :
    NeighborsAfterChallenge xs := by
  rintro before t after rfl
  exact h before t (after ++ ys) (by simp)

theorem challenges_ne_nil (h : NeighborsAfterChallenge turns)
    (hregistered : (engineLoop svc relayAddr started turns).1.st.registered) :
    challenges turns ≠ [] := by
  induction turns using List.reverseRecOn with
  | nil => cases hregistered
  | append_singleton turns t ih =>
    rw [engineLoop_snoc, turn_st] at hregistered
    rw [challenges_snoc]
    rcases registered_handled hregistered with hbefore | hneighbors | hchallenge
    · exact List.append_ne_nil_of_left_ne_nil (ih h.left hbefore) _
    · exact List.append_ne_nil_of_left_ne_nil (h turns t [] rfl hneighbors) _
    · refine List.append_ne_nil_of_right_ne_nil _ ?_
      cases hk : t.data.bind challenge? with
      | none => exact absurd hk hchallenge
      | some k => simp

theorem registered_of_isNeighbors (h : t.isNeighbors) (svc : RelayService) (relayAddr : Address)
    (st : ServiceState) :
    (t.handled svc relayAddr st).1.registered ∧ t.data.bind challenge? = none := by
  obtain ⟨data, hdata, hneighbors⟩ := (Option.any_eq_true _ _).mp h
  rcases t.handled_cases svc relayAddr st with
    ⟨k, hk, -⟩ | ⟨hk, data', -, -, hhandled⟩ | ⟨-, hother, -⟩
  · rw [hdata] at hk
    rw [isNeighbors_of_challenge hk] at hneighbors
    cases hneighbors
  · refine ⟨?_, hk⟩
    rw [hhandled]
    split <;> rfl
  · rw [hother data hdata] at hneighbors
    cases hneighbors

/-- In every state that is reached the flag stands for a confirmed Challenge and every Confirm and
Heartbeat carries the latest cookie, if and only if every Neighbors message comes after a
Challenge. -/
theorem inOrder_iff (svc : RelayService) (relayAddr : Address) (started : ℕ) (turns : List Turn) :
    (∀ before t after, turns = before ++ t :: after → InOrder svc relayAddr started before t) ↔
      NeighborsAfterChallenge turns := by
  constructor
  · intro h before t after hturns hneighbors hnone
    have hstate := registered_of_isNeighbors hneighbors svc relayAddr
      (engineLoop svc relayAddr started before).1.st
    have hregistered : (engineLoop svc relayAddr started (before ++ [t])).1.st.registered := by
      rw [engineLoop_snoc]
      exact hstate.1
    obtain ⟨k, hk, -⟩ := (h before t after hturns).registered hregistered
    rw [challenges_snoc, hnone, hstate.2] at hk
    cases hk
  · rintro h before t after rfl
    have hprefix : NeighborsAfterChallenge (before ++ [t]) := by
      rw [← List.singleton_append, ← List.append_assoc] at h
      exact h.left
    have hanswered := answered svc relayAddr started (before ++ [t])
    have hsome : (engineLoop svc relayAddr started (before ++ [t])).1.st.registered →
        ∃ k, (challenges (before ++ [t])).getLast? = some k := fun hregistered =>
      Option.ne_none_iff_exists'.mp fun hnone =>
        challenges_ne_nil hprefix hregistered (List.getLast?_eq_none_iff.mp hnone)
    refine ⟨fun hregistered => ?_, fun o ho => ?_⟩
    · obtain ⟨k, hk⟩ := hsome hregistered
      have hmem := List.mem_of_getLast? hk
      exact ⟨k, hmem, hanswered.confirmed k hmem⟩
    · rw [engineLoop_snoc] at hsome hanswered
      rcases mem_turn ho with ho | ⟨hregistered, rfl⟩ | rfl
      · exact carries_handled ho
      · obtain ⟨k, hk⟩ := hsome hregistered
        rw [hanswered.cookie k hk, hk]
        exact carries_sendHeartbeat
      · exact carries_sendRegister

/-- A relay whose first message is a Neighbors message without payload, and 90 seconds. -/
def earlyNeighbors (relayAddr : Address) : List Turn :=
  [⟨some (relayAddr, [relayMagic, RelayMsgType.neighbors.byte, 0, 0]), 0⟩, ⟨none, 90 * 10 ^ 9⟩]

/-- The service counts as registered without a Challenge and sends a Heartbeat without a cookie. -/
theorem registered_without_challenge :
    let svc : RelayService := ⟨"mpc-node".toList, 9000⟩
    let relayAddr : Address := ⟨0x0A000001, 9999⟩
    let reached := engineLoop svc relayAddr 0 (earlyNeighbors relayAddr)
    reached.1.st.registered = true ∧ challenges (earlyNeighbors relayAddr) = [] ∧
      sendHeartbeat svc relayAddr .zero ∈ reached.2 := by
  decide +kernel

end Freehold.Relay
