import Freehold.Discovery.Registry
import Freehold.Foundation.Machine

/-!
# The end of the server (`mpcauth_server.cpp`)

While the server runs, the heartbeat thread registers the node as online every 15 seconds. At
the end `main` sets `g_shutdown`, registers the node as offline and joins the thread. The two
take their steps in any order; `register_node` is one step, since it holds `nodes_mu_`.

## Main results

- `Inv.step` and `inv_of_run`: what each step keeps, and so every run.
- `status_joined_iff`: the node is offline behind the join exactly if the thread was not on its
  way to a registration when `main` made its own.
-/

namespace Freehold.Server.Shutdown

open Freehold.Discovery

/-! ## The two threads -/

/-- What the heartbeat thread does next. -/
inductive HeartbeatPoint where
  /-- `while (!g_shutdown.load())` -/
  | loop
  | sleep
  /-- `if (g_shutdown.load()) break` -/
  | check
  | registerNode
  | ended
  deriving DecidableEq

/-- What `main` does next. -/
inductive MainPoint where
  /-- `g_shutdown = true` -/
  | store
  | registerNode
  | join
  | joined
  deriving DecidableEq

structure State where
  nodes : Nodes
  gShutdown : Bool
  heartbeat : HeartbeatPoint
  main : MainPoint

/-- Who takes a step, with `public_hostname` and the clock as the step finds them. -/
inductive Act where
  | heartbeat (publicHostname : List Char) (now : ℚ)
  | main (publicHostname : List Char) (now : ℚ)
  /-- A signal arrives. -/
  | signalHandler

section

variable (partyId port : ℤ)

def heartbeatStep (s : State) (publicHostname : List Char) (now : ℚ) : Option State :=
  match s.heartbeat with
  | .loop => some { s with heartbeat := if s.gShutdown then .ended else .sleep }
  | .sleep => some { s with heartbeat := .check }
  | .check => some { s with heartbeat := if s.gShutdown then .ended else .registerNode }
  | .registerNode =>
    some { s with
      nodes := (registerNode s.nodes partyId port publicHostname "online".toList now).1
      heartbeat := .loop }
  | .ended => none

/-- The join waits for the end of the thread. -/
def mainStep (s : State) (publicHostname : List Char) (now : ℚ) : Option State :=
  match s.main with
  | .store => some { s with gShutdown := true, main := .registerNode }
  | .registerNode =>
    some { s with
      nodes := (registerNode s.nodes partyId port publicHostname "offline".toList now).1
      main := .join }
  | .join => if s.heartbeat = .ended then some { s with main := .joined } else none
  | .joined => none

def step (s : State) : Act → Option State
  | .heartbeat publicHostname now => heartbeatStep partyId port s publicHostname now
  | .main publicHostname now => mainStep partyId port s publicHostname now
  | .signalHandler => some { s with gShutdown := true }

/-- The heartbeat thread begins; its rounds before the shutdown are part of the run. -/
def start (nodes : Nodes) (gShutdown : Bool) : State := ⟨nodes, gShutdown, .loop, .store⟩

/-- What the registry says of the node. -/
def status (s : State) : Option (List Char) := s.nodes[nodeKey partyId port]?.map NodeInfo.status

end

/-- When `main` registers the node, the heartbeat thread is not about to. -/
def InTime (path : List (State × Act)) : Prop :=
  ∀ s publicHostname now, (s, Act.main publicHostname now) ∈ path → s.main = .registerNode →
    s.heartbeat ≠ .registerNode

/-! ## What a step does -/

variable {partyId port : ℤ} {s s' : State} {path : List (State × Act)}
  {publicHostname : List Char} {now : ℚ} {a : Act}

theorem map_status_registerNode (nodes : Nodes) (status : List Char) :
    (registerNode nodes partyId port publicHostname status now).1[nodeKey partyId port]?.map
      NodeInfo.status = some status := by
  rw [getElem?_registerNode, if_pos rfl]
  cases nodes[nodeKey partyId port]? with
  | none => rfl
  | some n => rfl

/-- The flag and `main` are left alone. A thread that finds the flag set ends. -/
theorem heartbeatStep_cases (h : heartbeatStep partyId port s publicHostname now = some s') :
    s'.gShutdown = s.gShutdown ∧ s'.main = s.main ∧ s.heartbeat ≠ .ended ∧
    (s.heartbeat = .registerNode ∧ s'.heartbeat ≠ .registerNode ∧
        status partyId port s' = some "online".toList ∨
      s.heartbeat ≠ .registerNode ∧ s'.nodes = s.nodes ∧
        (s.gShutdown = true → s'.heartbeat ≠ .registerNode)) := by
  unfold heartbeatStep at h
  cases hpoint : s.heartbeat with
  | loop =>
    rw [hpoint] at h
    cases h
    refine ⟨rfl, rfl, nofun, .inr ⟨nofun, rfl, fun hflag => ?_⟩⟩
    simp [hflag]
  | sleep =>
    rw [hpoint] at h
    cases h
    exact ⟨rfl, rfl, nofun, .inr ⟨nofun, rfl, fun _ => nofun⟩⟩
  | check =>
    rw [hpoint] at h
    cases h
    refine ⟨rfl, rfl, nofun, .inr ⟨nofun, rfl, fun hflag => ?_⟩⟩
    simp [hflag]
  | registerNode =>
    rw [hpoint] at h
    cases h
    exact ⟨rfl, rfl, nofun, .inl ⟨rfl, nofun, map_status_registerNode s.nodes _⟩⟩
  | ended =>
    rw [hpoint] at h
    cases h

theorem mainStep_cases (h : mainStep partyId port s publicHostname now = some s') :
    s'.heartbeat = s.heartbeat ∧
    (s.main = .store ∧ s'.main = .registerNode ∧ s'.gShutdown = true ∨
      s.main = .registerNode ∧ s'.main = .join ∧ s'.gShutdown = s.gShutdown ∧
        status partyId port s' = some "offline".toList ∨
      s.main = .join ∧ s'.main = .joined ∧ s.heartbeat = .ended ∧ s'.gShutdown = s.gShutdown ∧
        s'.nodes = s.nodes) := by
  unfold mainStep at h
  cases hpoint : s.main with
  | store =>
    rw [hpoint] at h
    cases h
    exact ⟨rfl, .inl ⟨rfl, rfl, rfl⟩⟩
  | registerNode =>
    rw [hpoint] at h
    cases h
    exact ⟨rfl, .inr (.inl ⟨rfl, rfl, rfl, map_status_registerNode s.nodes _⟩)⟩
  | join =>
    rw [hpoint, Option.ite_none_right_eq_some] at h
    obtain ⟨hended, h⟩ := h
    cases h
    exact ⟨rfl, .inr (.inr ⟨rfl, rfl, hended, rfl, rfl⟩)⟩
  | joined =>
    rw [hpoint] at h
    cases h

/-! ## What every run keeps -/

theorem inTime_snoc (ha : ∀ publicHostname now, a = .main publicHostname now →
    s.main = .registerNode → s.heartbeat ≠ .registerNode) :
    InTime (path ++ [(s, a)]) ↔ InTime path := by
  constructor
  · intro h s₁ publicHostname now hmem
    exact h s₁ publicHostname now (List.mem_append_left _ hmem)
  · intro h s₁ publicHostname now hmem
    rcases List.mem_append.mp hmem with hmem | hlast
    · exact h s₁ publicHostname now hmem
    · obtain ⟨rfl, rfl⟩ := Prod.mk.inj (List.mem_singleton.mp hlast)
      exact ha publicHostname now rfl

structure Inv (partyId port : ℤ) (path : List (State × Act)) (s : State) : Prop where
  flag : s.main ≠ .store → s.gShutdown = true
  ended : s.main = .joined → s.heartbeat = .ended
  pending : s.main = .store ∨ s.main = .registerNode → InTime path
  offline : s.main = .join ∨ s.main = .joined → InTime path →
    s.heartbeat ≠ .registerNode ∧ status partyId port s = some "offline".toList
  online : s.main = .join ∨ s.main = .joined → ¬InTime path →
    s.heartbeat = .registerNode ∨ status partyId port s = some "online".toList

theorem Inv.heartbeatStep (hinv : Inv partyId port path s)
    (h : heartbeatStep partyId port s publicHostname now = some s') :
    Inv partyId port (path ++ [(s, .heartbeat publicHostname now)]) s' := by
  obtain ⟨hflag, hmain, hlive, hpoint⟩ := heartbeatStep_cases h
  have hpath : InTime (path ++ [(s, .heartbeat publicHostname now)]) ↔ InTime path :=
    inTime_snoc fun _ _ ha => nomatch ha
  have hset : s.main = .join ∨ s.main = .joined → s.gShutdown = true := by
    intro hbehind
    apply hinv.flag
    rcases hbehind with h | h <;> rw [h] <;> exact nofun
  refine ⟨?_, ?_, ?_, ?_, ?_⟩
  · rw [hflag, hmain]
    exact hinv.flag
  · rw [hmain]
    intro hjoined
    exact absurd (hinv.ended hjoined) hlive
  · rw [hmain, hpath]
    exact hinv.pending
  · rw [hmain, hpath]
    intro hbehind hin
    obtain ⟨hnot, hoffline⟩ := hinv.offline hbehind hin
    rcases hpoint with ⟨hregister, -, -⟩ | ⟨-, hnodes, hends⟩
    · exact absurd hregister hnot
    · refine ⟨hends (hset hbehind), ?_⟩
      rwa [status, hnodes]
  · rw [hmain, hpath]
    intro hbehind hlate
    rcases hpoint with ⟨-, -, honline⟩ | ⟨hnot, hnodes, -⟩
    · exact .inr honline
    · refine .inr ?_
      rw [status, hnodes]
      exact (hinv.online hbehind hlate).resolve_left hnot

theorem Inv.mainStep (hinv : Inv partyId port path s)
    (h : mainStep partyId port s publicHostname now = some s') :
    Inv partyId port (path ++ [(s, .main publicHostname now)]) s' := by
  obtain ⟨hheartbeat, hpoint⟩ := mainStep_cases h
  rcases hpoint with ⟨hmain, hmain', hflag⟩ | ⟨hmain, hmain', hflag, hoffline⟩ |
    ⟨hmain, hmain', hended, hflag, hnodes⟩
  · have hpath : InTime (path ++ [(s, .main publicHostname now)]) ↔ InTime path :=
      inTime_snoc fun _ _ _ hregister => by simp [hmain] at hregister
    refine ⟨fun _ => hflag, ?_, fun _ => hpath.mpr (hinv.pending (.inl hmain)), ?_, ?_⟩ <;>
      simp [hmain']
  · -- `main` registers the node: the run is in time if the thread is not about to
    have hset : s.gShutdown = true := hinv.flag (by simp [hmain])
    have hbefore : InTime path := hinv.pending (.inr hmain)
    refine ⟨fun _ => hflag.trans hset, by simp [hmain'], by simp [hmain'], ?_, ?_⟩
    · intro _ hin
      rw [hheartbeat]
      exact ⟨hin s publicHostname now (by simp) hmain, hoffline⟩
    · intro _ hlate
      left
      rw [hheartbeat]
      by_contra hnot
      exact hlate ((inTime_snoc fun _ _ _ _ => hnot).mpr hbefore)
  · have hpath : InTime (path ++ [(s, .main publicHostname now)]) ↔ InTime path :=
      inTime_snoc fun _ _ _ hregister => by simp [hmain] at hregister
    have hset : s.gShutdown = true := hinv.flag (by simp [hmain])
    have hstatus : status partyId port s' = status partyId port s := by rw [status, hnodes, status]
    refine ⟨fun _ => hflag.trans hset, fun _ => hheartbeat.trans hended, by simp [hmain'], ?_, ?_⟩
    · rw [hpath, hheartbeat, hstatus]
      exact fun _ => hinv.offline (.inl hmain)
    · rw [hpath, hheartbeat, hstatus]
      exact fun _ => hinv.online (.inl hmain)

theorem Inv.step (hinv : Inv partyId port path s) (h : step partyId port s a = some s') :
    Inv partyId port (path ++ [(s, a)]) s' := by
  cases a with
  | heartbeat publicHostname now => exact hinv.heartbeatStep h
  | main publicHostname now => exact hinv.mainStep h
  | signalHandler =>
    cases h
    have hpath : InTime (path ++ [(s, .signalHandler)]) ↔ InTime path :=
      inTime_snoc fun _ _ ha => nomatch ha
    refine ⟨fun _ => rfl, hinv.ended, ?_, ?_, ?_⟩
    · rw [hpath]
      exact hinv.pending
    · rw [hpath]
      exact hinv.offline
    · rw [hpath]
      exact hinv.online

theorem inv_of_run {nodes : Nodes} {gShutdown : Bool}
    (hrun : Machine.Run (step partyId port) (start nodes gShutdown) path s) :
    Inv partyId port path s := by
  refine hrun.invariant ?_ fun path s a s' hinv hstep => hinv.step hstep
  exact ⟨fun h => absurd rfl h, nofun, fun _ _ _ _ hmem => absurd hmem List.not_mem_nil,
    by simp [start], by simp [start]⟩

/-! ## Behind the join -/

/-- Otherwise the registration of the thread is the last one. -/
theorem status_joined_iff (partyId port : ℤ) (nodes : Nodes) (gShutdown : Bool)
    (path : List (State × Act)) (s : State)
    (hrun : Machine.Run (step partyId port) (start nodes gShutdown) path s)
    (hjoined : s.main = .joined) :
    status partyId port s = some "offline".toList ↔ InTime path := by
  have hinv := inv_of_run hrun
  constructor
  · intro hoffline
    by_contra hlate
    rcases hinv.online (.inr hjoined) hlate with hregister | honline
    · rw [hinv.ended hjoined] at hregister
      cases hregister
    · rw [hoffline] at honline
      exact absurd honline (by decide)
  · intro hin
    exact (hinv.offline (.inr hjoined) hin).2

/-- `main` finishes before the thread wakes. -/
def promptActs : List Act := [.main ['h'] 1, .main ['h'] 2, .heartbeat ['h'] 3, .main ['h'] 4]

theorem status_joined_prompt :
    ∃ path s, Machine.Run (step 1 8080) (start ∅ false) path s ∧ s.main = .joined ∧
      (status 1 8080 s = some "offline".toList ↔ InTime path) := by
  have hplay : promptActs.foldlM (step 1 8080) (start ∅ false) =
      some ⟨(registerNode ∅ 1 8080 ['h'] "offline".toList 2).1, true, .ended, .joined⟩ := rfl
  obtain ⟨path, -, hrun⟩ := Machine.Run.of_foldlM hplay
  exact ⟨path, _, hrun, rfl, status_joined_iff 1 8080 ∅ false path _ hrun rfl⟩

/-- `main` sets the flag and registers the node between the check of the thread and its
registration. -/
def lateActs : List Act :=
  [.heartbeat ['h'] 0, .heartbeat ['h'] 15, .heartbeat ['h'] 15, .main ['h'] 15, .main ['h'] 16,
    .heartbeat ['h'] 17, .heartbeat ['h'] 17, .main ['h'] 17]

/-- The node that has ended is online. -/
theorem not_offline_joined :
    ¬∀ path s, Machine.Run (step 1 8080) (start ∅ false) path s → s.main = .joined →
      status 1 8080 s = some "offline".toList := by
  intro h
  have hplay : lateActs.foldlM (step 1 8080) (start ∅ false) =
      some ⟨(registerNode (registerNode ∅ 1 8080 ['h'] "offline".toList 16).1 1 8080 ['h']
        "online".toList 17).1, true, .ended, .joined⟩ := rfl
  obtain ⟨path, -, hrun⟩ := Machine.Run.of_foldlM hplay
  have hoffline := h path _ hrun rfl
  rw [status, map_status_registerNode] at hoffline
  exact absurd hoffline (by decide)

end Freehold.Server.Shutdown
