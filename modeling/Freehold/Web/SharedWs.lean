import Freehold.Foundation.Machine

/-!
# The shared WebSocket (`ws.ts`)

The page has one WebSocket. When it closes, or cannot be made, a timer connects again. The
handlers of every socket read and write the same variables, so they are functions of the state.

The browser's part is the lifecycle: a socket opens at most once, a close event is its last
event, and error events may come at any time before that. When a connection fails,
`readyState` is CLOSED in both of its events, which the browser dispatches one behind the
other (`Event.fail`). The listeners of the page are left out.

## Main results

- `Inv.step` and `inv_of_run`: either the current socket is the only one that is not closed,
  and no timer is pending, or all sockets are closed and one timer is pending.
- `sound_of_run`: what this means for sockets, timers and `connected`.
-/

namespace Freehold.Web.SharedWs

inductive ReadyState where
  | connecting
  | opened
  | closing
  | closed
  deriving DecidableEq

structure State where
  /-- `readyState` of all sockets that have been made. -/
  sockets : List ReadyState
  /-- The place of the current socket among them. -/
  ws : Option ℕ
  reconnectTimer : Option ℕ
  connected : Bool
  /-- The timers that are pending. -/
  timers : List ℕ
  /-- What `setTimeout` returns next; it is never 0. -/
  nextTimer : ℕ
  deriving DecidableEq

namespace State

def setReadyState (s : State) (i : ℕ) (r : ReadyState) : State :=
  { s with sockets := s.sockets.set i r }

/-- `close` of a socket. -/
def close (s : State) (i : ℕ) : State :=
  match s.sockets[i]? with
  | some .connecting | some .opened => s.setReadyState i .closing
  | _ => s

def scheduleReconnect (s : State) : State :=
  if s.reconnectTimer.isSome then s
  else
    { s with
      reconnectTimer := some s.nextTimer
      timers := s.timers ++ [s.nextTimer]
      nextTimer := s.nextTimer + 1 }

/-- `throws` says whether the constructor of the socket throws. -/
def connect (s : State) (throws : Bool) : State :=
  match s.ws.bind (s.sockets[·]?) with
  | some .connecting | some .opened => s
  | _ =>
    if throws then s.scheduleReconnect
    else { s with sockets := s.sockets ++ [.connecting], ws := some s.sockets.length }

/-! ### Handlers -/

def onopen (s : State) : State := { s with connected := true }

def onclose (s : State) : State := { s with connected := false }.scheduleReconnect

def onerror (s : State) : State :=
  match s.ws with
  | some i => { s with connected := false }.close i
  | none => { s with connected := false }

/-- The callback of the timer. -/
def ontimeout (s : State) (throws : Bool) : State :=
  { s with reconnectTimer := none }.connect throws

/-- The close event of the socket is still to come. -/
def Live (s : State) (i : ℕ) : Prop := ∃ r ∈ s.sockets[i]?, r ≠ .closed

instance (s : State) (i : ℕ) : Decidable (s.Live i) :=
  decidable_of_iff (s.sockets[i]?.any (· ≠ .closed)) (by simp [Live, Option.any_eq_true])

end State

/-! ## The browser -/

/-- Events of the `i`-th socket and of timers. -/
inductive Event where
  | opened (i : ℕ)
  | message (i : ℕ)
  /-- The server starts to close the connection; no handler runs. -/
  | closing (i : ℕ)
  | error (i : ℕ)
  | close (i : ℕ)
  /-- `readyState` becomes CLOSED, then come the error event and the close event. -/
  | fail (i : ℕ)
  | timeout (t : ℕ) (throws : Bool)
  deriving DecidableEq

def step (s : State) : Event → Option State
  | .opened i =>
    if s.sockets[i]? = some .connecting then some (s.setReadyState i .opened).onopen else none
  | .message i => if s.sockets[i]? = some .opened then some s else none
  | .closing i =>
    if s.sockets[i]? = some .opened then some (s.setReadyState i .closing) else none
  | .error i => if s.Live i then some s.onerror else none
  | .close i => if s.Live i then some (s.setReadyState i .closed).onclose else none
  | .fail i => if s.Live i then some (s.setReadyState i .closed).onerror.onclose else none
  | .timeout t throws =>
    if t ∈ s.timers then some ({ s with timers := s.timers.erase t }.ontimeout throws) else none

/-- The module is loaded. -/
def start (throws : Bool) : State := State.connect ⟨[], none, none, false, [], 1⟩ throws

/-- The `i`-th socket has opened, and no error or close event of it has come since. -/
def OpenedSince (i : ℕ) (events : List Event) : Prop :=
  ∃ before after, events = before ++ .opened i :: after ∧
    .error i ∉ after ∧ .close i ∉ after ∧ .fail i ∉ after

/-! ## Sockets -/

variable {s s' : State} {i j : ℕ} {r : ReadyState} {e : Event} {throws : Bool}
  {path : List (State × Event)}

open State

theorem live_setReadyState (h : s.Live i) :
    (s.setReadyState i r).Live j ↔ if i = j then r ≠ .closed else s.Live j := by
  obtain ⟨r₀, hr₀, -⟩ := h
  have hlt : i < s.sockets.length := (List.getElem?_eq_some_iff.mp hr₀).1
  unfold Live setReadyState
  by_cases hij : i = j
  · subst hij
    simp [List.getElem?_set_self hlt]
  · simp [List.getElem?_set_ne hij, hij]

theorem live_close (h : s.Live i) : (s.close i).Live j ↔ s.Live j := by
  have hset : (s.setReadyState i .closing).Live j ↔ s.Live j := by
    rw [live_setReadyState h]
    split
    · next hij =>
      subst hij
      simp [h]
    · rfl
  unfold State.close
  split
  · exact hset
  · exact hset
  · rfl

theorem close_eq_self (h : ¬s.Live i) : s.close i = s := by
  unfold State.close
  split
  · next hr => exact absurd ⟨_, hr, nofun⟩ h
  · next hr => exact absurd ⟨_, hr, nofun⟩ h
  · rfl

theorem close_frame (s : State) (i : ℕ) :
    (s.close i).ws = s.ws ∧ (s.close i).reconnectTimer = s.reconnectTimer ∧
      (s.close i).connected = s.connected ∧ (s.close i).timers = s.timers := by
  unfold State.close
  split <;> exact ⟨rfl, rfl, rfl, rfl⟩

/-- With no socket connecting or open, `connect` makes one or schedules the next attempt. -/
theorem connect_of_not_live (h : ∀ i, ¬s.Live i) :
    s.connect throws =
      if throws then s.scheduleReconnect
      else { s with sockets := s.sockets ++ [.connecting], ws := some s.sockets.length } := by
  unfold connect
  split
  · next hr =>
    obtain ⟨i, -, hr⟩ := Option.bind_eq_some_iff.mp hr
    exact absurd ⟨_, hr, nofun⟩ (h i)
  · next hr =>
    obtain ⟨i, -, hr⟩ := Option.bind_eq_some_iff.mp hr
    exact absurd ⟨_, hr, nofun⟩ (h i)
  · rfl

/-! ## What every run keeps -/

/-- The current socket is the only one that is not closed, and no timer is pending. -/
structure Attached (s : State) (i : ℕ) : Prop where
  current : s.ws = some i
  live : s.Live i
  only : ∀ j, s.Live j → j = i
  timers : s.timers = []
  reconnectTimer : s.reconnectTimer = none

/-- All sockets are closed, and a timer is pending. -/
structure Waiting (s : State) (t : ℕ) : Prop where
  closed : ∀ i, ¬s.Live i
  timers : s.timers = [t]
  reconnectTimer : s.reconnectTimer = some t
  connected : s.connected = false

/-- The induction is on the events of the browser. -/
structure Inv (path : List (State × Event)) (s : State) : Prop where
  phase : (∃ i, Attached s i) ∨ ∃ t, Waiting s t
  opened : s.connected = true → ∃ i, s.ws = some i ∧ OpenedSince i (path.map Prod.snd)

theorem Inv.of_not_connected (hphase : (∃ i, Attached s i) ∨ ∃ t, Waiting s t)
    (h : s.connected = false) : Inv path s :=
  ⟨hphase, fun hconnected => absurd (h.symm.trans hconnected) nofun⟩

/-- Only an attached page has a socket that is not closed. -/
theorem Inv.attached (hinv : Inv path s) (h : s.Live i) : Attached s i := by
  rcases hinv.phase with ⟨j, hj⟩ | ⟨t, ht⟩
  · rwa [hj.only i h]
  · exact absurd h (ht.closed i)

theorem waiting_scheduleReconnect (hclosed : ∀ i, ¬s.Live i) (htimers : s.timers = [])
    (hnone : s.reconnectTimer = none) (hconnected : s.connected = false) :
    Waiting s.scheduleReconnect s.nextTimer := by
  have heq : s.scheduleReconnect = { s with
      reconnectTimer := some s.nextTimer
      timers := s.timers ++ [s.nextTimer]
      nextTimer := s.nextTimer + 1 } := by
    rw [scheduleReconnect, hnone]
    rfl
  rw [heq]
  exact ⟨hclosed, by rw [htimers]; rfl, rfl, hconnected⟩

/-- With every socket closed and no timer pending, `connect` leads to one of the two again. -/
theorem phase_connect (throws : Bool) (hclosed : ∀ i, ¬s.Live i) (htimers : s.timers = [])
    (hnone : s.reconnectTimer = none) (hconnected : s.connected = false) :
    ((∃ i, Attached (s.connect throws) i) ∨ ∃ t, Waiting (s.connect throws) t) ∧
      (s.connect throws).connected = false := by
  rw [connect_of_not_live hclosed]
  cases throws with
  | true =>
    have hwaiting := waiting_scheduleReconnect hclosed htimers hnone hconnected
    exact ⟨.inr ⟨_, hwaiting⟩, hwaiting.connected⟩
  | false =>
    rw [if_neg Bool.false_ne_true]
    refine ⟨.inl ⟨s.sockets.length, rfl, ?_, ?_, htimers, hnone⟩, hconnected⟩
    · exact ⟨.connecting, List.getElem?_concat_length, nofun⟩
    · rintro j ⟨r, hr, hopen⟩
      by_contra hj
      rcases Nat.lt_or_gt_of_ne hj with hlt | hgt
      · refine hclosed j ⟨r, ?_, hopen⟩
        rwa [Option.mem_def, List.getElem?_append_left hlt] at hr
      · rw [Option.mem_def, List.getElem?_eq_none] at hr
        · cases hr
        · rw [List.length_append, List.length_singleton]
          exact hgt

/-- A close event of the current socket: the next attempt is scheduled. -/
theorem Attached.waiting_onclose (h : Attached s i) :
    Waiting (s.setReadyState i .closed).onclose s.nextTimer := by
  refine waiting_scheduleReconnect (fun j => ?_) h.timers h.reconnectTimer rfl
  change ¬(s.setReadyState i .closed).Live j
  rw [live_setReadyState h.live]
  split
  · simp
  · next hij => exact fun hlive => hij (h.only j hlive).symm

theorem onerror_of_current (h : s.ws = some i) :
    s.onerror = ({ s with connected := false } : State).close i := by
  unfold State.onerror
  split
  · next j hj =>
    cases hj.symm.trans h
    rfl
  · next hnone => cases hnone.symm.trans h

/-- The error handler has nothing to close. -/
theorem Attached.onclose_onerror (h : Attached s i) :
    (s.setReadyState i .closed).onerror.onclose = (s.setReadyState i .closed).onclose := by
  have hclosed : ¬({ s.setReadyState i .closed with connected := false } : State).Live i := by
    change ¬(s.setReadyState i .closed).Live i
    rw [live_setReadyState h.live]
    simp
  have hws : (s.setReadyState i .closed).ws = some i := h.current
  rw [onerror_of_current hws, close_eq_self hclosed]
  rfl

theorem Attached.onerror (h : Attached s i) :
    Attached s.onerror i ∧ s.onerror.connected = false := by
  have hlive : ({ s with connected := false } : State).Live i := h.live
  obtain ⟨hws, hnone, hconnected, htimers⟩ := close_frame { s with connected := false } i
  rw [onerror_of_current h.current]
  refine ⟨⟨hws.trans h.current, (live_close hlive).mpr hlive, fun j hj => ?_,
    htimers.trans h.timers, hnone.trans h.reconnectTimer⟩, hconnected⟩
  exact h.only j ((live_close hlive).mp hj)

theorem Attached.setReadyState (h : Attached s i) (hr : r ≠ .closed) :
    Attached (s.setReadyState i r) i := by
  refine ⟨h.current, ?_, fun j hj => ?_, h.timers, h.reconnectTimer⟩
  · rw [live_setReadyState h.live, if_pos rfl]
    exact hr
  · rw [live_setReadyState h.live] at hj
    by_contra hne
    rw [if_neg (Ne.symm hne)] at hj
    exact hne (h.only j hj)

theorem OpenedSince.snoc {events : List Event} (h : OpenedSince i events) (herror : e ≠ .error i)
    (hclose : e ≠ .close i) (hfail : e ≠ .fail i) : OpenedSince i (events ++ [e]) := by
  obtain ⟨before, after, rfl, h₁, h₂, h₃⟩ := h
  refine ⟨before, after ++ [e], by simp, ?_, ?_, ?_⟩
  · simp [h₁, herror.symm]
  · simp [h₂, hclose.symm]
  · simp [h₃, hfail.symm]

/-- An event without a handler that writes `connected`. -/
theorem Inv.snoc (hinv : Inv path s) (hphase : (∃ i, Attached s' i) ∨ ∃ t, Waiting s' t)
    (hws : s'.ws = s.ws) (hconnected : s'.connected = s.connected) (herror : ∀ i, e ≠ .error i)
    (hclose : ∀ i, e ≠ .close i) (hfail : ∀ i, e ≠ .fail i) : Inv (path ++ [(s, e)]) s' := by
  refine ⟨hphase, fun h => ?_⟩
  rw [hconnected] at h
  obtain ⟨i, hi, hopened⟩ := hinv.opened h
  rw [List.map_append]
  exact ⟨i, hws.trans hi, hopened.snoc (herror i) (hclose i) (hfail i)⟩

theorem Inv.step (hinv : Inv path s) (h : step s e = some s') : Inv (path ++ [(s, e)]) s' := by
  cases e with
  | opened i =>
    obtain ⟨hr, h⟩ := Option.ite_none_right_eq_some.mp h
    cases h
    have hattached := hinv.attached ⟨_, hr, nofun⟩
    have hopened := hattached.setReadyState (r := .opened) nofun
    refine ⟨.inl ⟨i, hopened.current, hopened.live, hopened.only, hopened.timers,
      hopened.reconnectTimer⟩, fun _ => ⟨i, hattached.current, ?_⟩⟩
    rw [List.map_append]
    exact ⟨_, [], rfl, List.not_mem_nil, List.not_mem_nil, List.not_mem_nil⟩
  | message i =>
    obtain ⟨-, h⟩ := Option.ite_none_right_eq_some.mp h
    cases h
    exact hinv.snoc hinv.phase rfl rfl nofun nofun nofun
  | closing i =>
    obtain ⟨hr, h⟩ := Option.ite_none_right_eq_some.mp h
    cases h
    have hattached := hinv.attached ⟨_, hr, nofun⟩
    exact hinv.snoc (.inl ⟨i, hattached.setReadyState nofun⟩) rfl rfl nofun nofun nofun
  | error i =>
    obtain ⟨hlive, h⟩ := Option.ite_none_right_eq_some.mp h
    cases h
    obtain ⟨hattached, hconnected⟩ := (hinv.attached hlive).onerror
    exact .of_not_connected (.inl ⟨i, hattached⟩) hconnected
  | close i =>
    obtain ⟨hlive, h⟩ := Option.ite_none_right_eq_some.mp h
    cases h
    have hwaiting := (hinv.attached hlive).waiting_onclose
    exact .of_not_connected (.inr ⟨_, hwaiting⟩) hwaiting.connected
  | fail i =>
    obtain ⟨hlive, h⟩ := Option.ite_none_right_eq_some.mp h
    cases h
    have hattached := hinv.attached hlive
    rw [hattached.onclose_onerror]
    have hwaiting := hattached.waiting_onclose
    exact .of_not_connected (.inr ⟨_, hwaiting⟩) hwaiting.connected
  | timeout t throws =>
    obtain ⟨ht, h⟩ := Option.ite_none_right_eq_some.mp h
    cases h
    rcases hinv.phase with ⟨i, hattached⟩ | ⟨t', hwaiting⟩
    · rw [hattached.timers] at ht
      exact absurd ht List.not_mem_nil
    · rw [hwaiting.timers, List.mem_singleton] at ht
      subst ht
      have herased : s.timers.erase t = [] := by rw [hwaiting.timers, List.erase_cons_head]
      have hclosed : ∀ i, ¬State.Live
          { s with timers := s.timers.erase t, reconnectTimer := none } i := hwaiting.closed
      obtain ⟨hphase, hconnected⟩ := phase_connect throws hclosed herased rfl hwaiting.connected
      exact .of_not_connected hphase hconnected

theorem inv_of_run (hrun : Machine.Run step (start throws) path s) : Inv path s := by
  refine hrun.invariant ?_ fun path s e s' hinv hstep => hinv.step hstep
  have hnone : ∀ i, ¬State.Live ⟨[], none, none, false, [], 1⟩ i := fun i => by simp [Live]
  obtain ⟨hphase, hconnected⟩ := phase_connect throws hnone rfl rfl rfl
  exact .of_not_connected hphase hconnected

/-! ## Sockets, timers and `connected` -/

structure Sound (path : List (State × Event)) (s : State) : Prop where
  /-- At most one socket is connecting or open. -/
  sockets : ∀ i j : ℕ, s.sockets[i]? = some .connecting ∨ s.sockets[i]? = some .opened →
    s.sockets[j]? = some .connecting ∨ s.sockets[j]? = some .opened → i = j
  timers : s.timers.length ≤ 1
  connected : s.connected = true → ∃ i, s.ws = some i ∧ OpenedSince i (path.map Prod.snd)
  /-- With no socket connecting, open or closing, a timer is pending. -/
  reconnects : (∀ r ∈ s.sockets, r = .closed) → s.timers ≠ []

theorem live_of_open (h : s.sockets[i]? = some .connecting ∨ s.sockets[i]? = some .opened) :
    s.Live i := by
  rcases h with h | h
  · exact ⟨_, h, nofun⟩
  · exact ⟨_, h, nofun⟩

theorem sound_of_run (throws : Bool) (path : List (State × Event)) (s : State)
    (hrun : Machine.Run step (start throws) path s) : Sound path s := by
  have hinv := inv_of_run hrun
  refine ⟨fun i j hi hj => ?_, ?_, hinv.opened, fun hclosed htimers => ?_⟩
  · exact (hinv.attached (live_of_open hj)).only i (live_of_open hi)
  · rcases hinv.phase with ⟨i, hattached⟩ | ⟨t, hwaiting⟩
    · simp [hattached.timers]
    · simp [hwaiting.timers]
  · rcases hinv.phase with ⟨i, hattached⟩ | ⟨t, hwaiting⟩
    · obtain ⟨r, hr, hopen⟩ := hattached.live
      exact hopen (hclosed r (List.mem_of_getElem? hr))
    · rw [hwaiting.timers] at htimers
      cases htimers

/-- The first socket opens, fails and is closed, the second attempt throws, and the third
opens. -/
def demoEvents : List Event :=
  [.opened 0, .error 0, .close 0, .timeout 1 true, .timeout 2 false, .opened 1]

theorem sound_demo :
    ∃ path s, path.map Prod.snd = demoEvents ∧ s.connected = true ∧
      Machine.Run step (start false) path s ∧ Sound path s := by
  have hplay : demoEvents.foldlM step (start false) =
      some ⟨[.closed, .opened], some 1, none, true, [], 3⟩ := by decide
  obtain ⟨path, hpath, hrun⟩ := Machine.Run.of_foldlM hplay
  exact ⟨path, _, hpath, rfl, hrun, sound_of_run false path _ hrun⟩

end Freehold.Web.SharedWs
