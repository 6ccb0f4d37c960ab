import Freehold.Discovery.History
import Freehold.Discovery.Topology
import Freehold.Relay.Registration
import Freehold.Server.Shutdown

/-!
# The threads around the registry (`mpcauth_server.cpp`)

`main`, the heartbeat thread, the three engine threads of the relay client, the sweeps and the
requests of others take their steps in any order. They share the registry and
`public_hostname`. What the relay's callbacks do is taken apart into the accesses to what is
shared; an access is one step.

## Main results

- `own_of_step`: a step changes the node's entry by the call that it makes.
- `Wired.step`: where the callbacks are, and what `public_hostname` is.
-/

namespace Freehold.Server.Presence

open Freehold.Discovery
open Freehold.Relay (RelayService Address Engine Turn Output fqdn)

/-! ## The threads -/

/-- What the threads take from `CLIArgs`. -/
structure CLIArgs where
  party : ℤ
  port : ℤ
  remoteHost : List Char
  discoveryPort : ℤ
  forwarderPort : ℤ

/-- `relay_cfg.services`. -/
inductive Service where
  | mpcNode
  | discovery
  | forwarder
  deriving DecidableEq

def Service.svc (args : CLIArgs) : Service → RelayService
  | .mpcNode => ⟨"mpc-node".toList, .ofInt args.port⟩
  | .discovery => ⟨"discovery".toList, .ofInt args.discoveryPort⟩
  | .forwarder => ⟨"forwarder".toList, .ofInt args.forwarderPort⟩

/-- What a callback does with what the threads share. -/
inductive Access where
  /-- `public_hostname = subdomain` -/
  | publicHostname (subdomain : List Char)
  | registerNode (subdomain : List Char)
  | updateRelayStatus (fqdn : List Char)
  deriving DecidableEq

/-- `on_registered` and `on_subdomain`. -/
def accesses : Output → List Access
  | .sendto _ _ => []
  | .onRegistered serviceName _ =>
    if serviceName = "mpc-node".toList then [.updateRelayStatus []] else []
  | .onSubdomain serviceName subdomain =>
    if serviceName = "mpc-node".toList then
      [.publicHostname subdomain, .registerNode subdomain, .updateRelayStatus subdomain]
    else []

/-- A thread of `engine_loop`, and what it has to do before its next turn. -/
structure EngineThread where
  engine : Engine
  pending : List Access

/-- A turn of the loop, as far as the next access. -/
def EngineThread.turn (svc : RelayService) (relayAddr : Address) (thread : EngineThread)
    (t : Turn) : EngineThread :=
  let reached := thread.engine.turn svc relayAddr t
  ⟨reached.1, reached.2.flatMap accesses⟩

structure State extends Shutdown.State where
  publicHostname : List Char
  /-- `main` has announced the node and started the heartbeat thread. -/
  announced : Bool
  /-- `running_` of the relay client. -/
  running : Bool
  engines : Service → EngineThread

/-- Who takes a step. -/
inductive Act where
  /-- `main` announces the node. -/
  | announce (now : ℚ)
  | heartbeat (now : ℚ)
  /-- `main` at the end. -/
  | main (now : ℚ)
  | signalHandler
  /-- `relay->stop()` -/
  | stopRelay
  | turn (service : Service) (t : Turn)
  | access (service : Service) (now : ℚ)
  | handleAnnounce (body : List Char) (now : ℚ)
  | pruneStale (now : ℚ)

section

variable (nodeTtl : ℤ) (args : CLIArgs) (relayAddr : Address)

def State.access (s : State) (now : ℚ) : Access → State
  | .publicHostname subdomain => { s with publicHostname := subdomain }
  | .registerNode subdomain =>
    { s with
      nodes := (Discovery.registerNode s.nodes args.party args.port subdomain "online".toList
        now).1 }
  | .updateRelayStatus fqdn =>
    { s with nodes := Discovery.updateRelayStatus s.nodes args.party args.port true fqdn }

def State.setEngine (s : State) (service : Service) (thread : EngineThread) : State :=
  { s with engines := Function.update s.engines service thread }

def step (s : State) : Act → Option State
  | .announce now =>
    if s.announced then none
    else
      some { s with
        nodes := (registerNode s.nodes args.party args.port s.publicHostname "online".toList now).1
        announced := true }
  | .heartbeat now =>
    if s.announced then
      (Shutdown.heartbeatStep args.party args.port s.toState s.publicHostname now).map fun base =>
        { s with toState := base }
    else none
  | .main now =>
    if s.announced then
      (Shutdown.mainStep args.party args.port s.toState s.publicHostname now).map fun base =>
        { s with toState := base }
    else none
  | .signalHandler => some { s with gShutdown := true }
  | .stopRelay => if s.main = .joined then some { s with running := false } else none
  | .turn service t =>
    if s.running ∧ (s.engines service).pending = [] then
      some (s.setEngine service ((s.engines service).turn (service.svc args) relayAddr t))
    else none
  | .access service now =>
    match (s.engines service).pending with
    | [] => none
    | a :: rest =>
      some ((s.access args now a).setEngine service ⟨(s.engines service).engine, rest⟩)
  | .handleAnnounce body now =>
    match announcement body with
    | some a =>
      some { s with nodes := (registerNode s.nodes a.partyId a.port a.hostname a.status now).1 }
    | none => some s
  | .pruneStale now => some { s with nodes := (pruneStale nodeTtl s.nodes now).1 }

/-- Before the relay client starts; each engine reads the clock when its loop begins. -/
def start (started : Service → ℕ) : State where
  toState := Shutdown.start ∅ false
  publicHostname := args.remoteHost
  announced := false
  running := true
  engines service := ⟨Engine.start (started service), []⟩

/-- The node's entry. -/
def own (s : State) : Option NodeInfo := s.nodes[nodeKey args.party args.port]?

/-- What an access asks of the registry. -/
def Access.call? (now : ℚ) : Access → Option Call
  | .publicHostname _ => none
  | .registerNode subdomain =>
    some (.registerNode args.party args.port subdomain "online".toList now)
  | .updateRelayStatus fqdn => some (.updateRelayStatus args.party args.port true fqdn)

/-- What a step asks of the registry. -/
def call? (s : State) : Act → Option Call
  | .announce now =>
    some (.registerNode args.party args.port s.publicHostname "online".toList now)
  | .heartbeat now =>
    if s.heartbeat = .registerNode then
      some (.registerNode args.party args.port s.publicHostname "online".toList now)
    else none
  | .main now =>
    if s.main = .registerNode then
      some (.registerNode args.party args.port s.publicHostname "offline".toList now)
    else none
  | .access service now => (s.engines service).pending.head?.bind (Access.call? args now)
  | .handleAnnounce body now =>
    (announcement body).map fun a => .registerNode a.partyId a.port a.hostname a.status now
  | .pruneStale now => some (.pruneStale now)
  | .signalHandler | .stopRelay | .turn _ _ => none

/-- No accepted announcement names the node's own party and port. -/
def Unclaimed (path : List (State × Act)) : Prop :=
  ∀ s body now, (s, Act.handleAnnounce body now) ∈ path → ∀ a ∈ announcement body,
    ¬(a.partyId = args.party ∧ a.port = args.port)

/-- A step registers the node. -/
def Registers (args : CLIArgs) (x : State × Act) : Prop :=
  ∃ hostname status now,
    call? args x.1 x.2 = some (.registerNode args.party args.port hostname status now)

/-- The name that the node has at the relay is written to its entry. -/
def Names (args : CLIArgs) (x : State × Act) : Prop :=
  ∃ fqdn, fqdn ≠ [] ∧ (own args x.1).isSome ∧
    call? args x.1 x.2 = some (.updateRelayStatus args.party args.port true fqdn)

/-- A sweep finds the node's entry stale. -/
def Removes (nodeTtl : ℤ) (args : CLIArgs) (x : State × Act) : Prop :=
  ∃ now n, call? args x.1 x.2 = some (.pruneStale now) ∧ own args x.1 = some n ∧
    nodeTtl < now - n.lastSeen

/-- The subdomain that the relay has assigned to the node. -/
def State.subdomain (s : State) : List Char := (s.engines .mpcNode).engine.st.subdomain

/-- What is left of a callback for the node. -/
def State.pending (s : State) : List Access := (s.engines .mpcNode).pending

def address (s : State) : List Char :=
  if s.subdomain = [] then args.remoteHost else fqdn s.subdomain

end

/-! ## What a step does -/

variable {nodeTtl : ℤ} {args : CLIArgs} {relayAddr : Address} {started : Service → ℕ}
  {s s' : State} {a : Act} {path : List (State × Act)} {now : ℚ}

theorem heartbeatStep_nodes {base base' : Shutdown.State} {hostname : List Char}
    (h : Shutdown.heartbeatStep args.party args.port base hostname now = some base') :
    base'.nodes = if base.heartbeat = .registerNode then
      (registerNode base.nodes args.party args.port hostname "online".toList now).1
    else base.nodes := by
  unfold Shutdown.heartbeatStep at h
  cases hpoint : base.heartbeat <;> rw [hpoint] at h <;> cases h <;> rfl

theorem mainStep_nodes {base base' : Shutdown.State} {hostname : List Char}
    (h : Shutdown.mainStep args.party args.port base hostname now = some base') :
    base'.nodes = if base.main = .registerNode then
      (registerNode base.nodes args.party args.port hostname "offline".toList now).1
    else base.nodes := by
  unfold Shutdown.mainStep at h
  cases hpoint : base.main with
  | store | registerNode =>
    rw [hpoint] at h
    cases h
    rfl
  | join =>
    rw [hpoint, Option.ite_none_right_eq_some] at h
    obtain ⟨-, h⟩ := h
    cases h
    rfl
  | joined =>
    rw [hpoint] at h
    cases h

/-- The registry changes by the call of the step. -/
theorem nodes_of_step (h : step nodeTtl args relayAddr s a = some s') :
    s'.nodes = ((call? args s a).map fun c => c.apply nodeTtl s.nodes).getD s.nodes := by
  cases a with
  | announce now =>
    rw [step, Option.ite_none_left_eq_some] at h
    obtain ⟨-, h⟩ := h
    cases h
    rfl
  | heartbeat now =>
    rw [step, Option.ite_none_right_eq_some] at h
    obtain ⟨base, hbase, rfl⟩ := Option.map_eq_some_iff.mp h.2
    refine (heartbeatStep_nodes hbase).trans ?_
    rw [call?]
    split <;> rfl
  | main now =>
    rw [step, Option.ite_none_right_eq_some] at h
    obtain ⟨base, hbase, rfl⟩ := Option.map_eq_some_iff.mp h.2
    refine (mainStep_nodes hbase).trans ?_
    rw [call?]
    split <;> rfl
  | signalHandler =>
    cases h
    rfl
  | stopRelay =>
    rw [step, Option.ite_none_right_eq_some] at h
    obtain ⟨-, h⟩ := h
    cases h
    rfl
  | turn service t =>
    rw [step, Option.ite_none_right_eq_some] at h
    obtain ⟨-, h⟩ := h
    cases h
    rfl
  | access service now =>
    rw [step] at h
    cases hpending : (s.engines service).pending with
    | nil =>
      rw [hpending] at h
      cases h
    | cons x rest =>
      rw [hpending] at h
      cases h
      rw [call?, hpending]
      cases x <;> rfl
  | handleAnnounce body now =>
    rw [step] at h
    rw [call?]
    cases hbody : announcement body <;> rw [hbody] at h <;> cases h <;> rfl
  | pruneStale now =>
    cases h
    rfl

theorem own_of_step (h : step nodeTtl args relayAddr s a = some s') :
    own args s' =
      ((call? args s a).map fun c => c.step nodeTtl args.party args.port (own args s)).getD
        (own args s) := by
  rw [own, nodes_of_step h]
  cases call? args s a with
  | none => rfl
  | some c => exact getElem?_apply

/-! ## The callbacks -/

/-- Where the thread of the node's service is. -/
inductive Stage (sub : List Char) : List Access → Prop where
  | idle : Stage sub []
  | registered : Stage sub [.updateRelayStatus []]
  | assigned (h : sub ≠ []) :
    Stage sub [.publicHostname (fqdn sub), .registerNode (fqdn sub),
      .updateRelayStatus (fqdn sub)]
  | renamed (h : sub ≠ []) : Stage sub [.registerNode (fqdn sub), .updateRelayStatus (fqdn sub)]
  | announced (h : sub ≠ []) : Stage sub [.updateRelayStatus (fqdn sub)]

theorem fqdn_ne_nil (sub : List Char) : fqdn sub ≠ [] :=
  List.append_ne_nil_of_right_ne_nil _ (by decide)

/-- The callbacks of the other services do nothing. -/
theorem accesses_eq_nil {o : Output} {svc : RelayService} {e : Engine} {t : Turn}
    (hname : svc.name ≠ "mpc-node".toList) (ho : o ∈ (e.turn svc relayAddr t).2) :
    accesses o = [] := by
  rcases Relay.mem_turn ho with ho | ⟨-, rfl⟩ | rfl
  · rcases t.handled_cases svc relayAddr e.st with
      ⟨k, -, hhandled⟩ | ⟨-, data, -, -, hhandled⟩ | ⟨-, -, hhandled⟩
    · rw [hhandled] at ho
      rcases List.mem_cons.mp ho with rfl | ho
      · rfl
      · rw [List.mem_singleton.mp ho, accesses, if_neg hname]
    · rw [hhandled] at ho
      split at ho
      · rw [List.mem_singleton.mp ho, accesses, if_neg hname]
      · cases ho
    · rw [hhandled] at ho
      cases ho
  · rfl
  · rfl

theorem svc_name_ne {service : Service} (h : service ≠ .mpcNode) :
    (service.svc args).name ≠ "mpc-node".toList := by
  cases service with
  | mpcNode => exact absurd rfl h
  | discovery => exact (by decide : "discovery".toList ≠ "mpc-node".toList)
  | forwarder => exact (by decide : "forwarder".toList ≠ "mpc-node".toList)

/-- What a turn sends brings no access. -/
theorem flatMap_accesses_turn (svc : RelayService) (e : Engine) (t : Turn) :
    (e.turn svc relayAddr t).2.flatMap accesses =
      (t.handled svc relayAddr e.st).2.flatMap accesses := by
  unfold Engine.turn
  rw [List.flatMap_append, List.flatMap_append]
  have hbeat : ∀ (b : Bool) (o : Output), accesses o = [] →
      (if b then [o] else []).flatMap accesses = [] := by
    intro b o ho
    cases b with
    | false => rfl
    | true => simp [ho]
  rw [hbeat _ _ rfl, hbeat _ _ rfl, List.append_nil, List.append_nil]

/-- After a turn the thread has a whole callback before it. -/
theorem stage_turn (thread : EngineThread) (t : Turn) :
    let reached := thread.turn (Service.mpcNode.svc args) relayAddr t
    Stage reached.engine.st.subdomain reached.pending ∧
      ((∀ hostname, .publicHostname hostname ∉ reached.pending) →
        reached.engine.st.subdomain = thread.engine.st.subdomain) ∧
      (thread.engine.st.subdomain ≠ [] → reached.engine.st.subdomain ≠ []) := by
  intro reached
  have hst : reached.engine.st =
      (t.handled (Service.mpcNode.svc args) relayAddr thread.engine.st).1 :=
    Relay.turn_st thread.engine
  have hpending : reached.pending =
      (t.handled (Service.mpcNode.svc args) relayAddr thread.engine.st).2.flatMap accesses :=
    flatMap_accesses_turn ..
  rw [hst, hpending]
  rcases t.handled_cases (Service.mpcNode.svc args) relayAddr thread.engine.st with
    ⟨k, -, hhandled⟩ | ⟨-, data, -, -, hhandled⟩ | ⟨-, -, hhandled⟩
  · rw [hhandled]
    exact ⟨.registered, fun _ => rfl, id⟩
  · rw [hhandled]
    split
    · rename_i hassigned
      exact ⟨.assigned hassigned.1, fun h => absurd List.mem_cons_self (h _), fun _ => hassigned.1⟩
    · exact ⟨.idle, fun _ => rfl, id⟩
  · rw [hhandled]
    exact ⟨.idle, fun _ => rfl, id⟩

/-- What holds of the threads, whatever the registry says. -/
structure Wired (args : CLIArgs) (s : State) : Prop where
  others : ∀ service, service ≠ .mpcNode → (s.engines service).pending = []
  stage : Stage s.subdomain s.pending
  publicHostname : (∀ hostname, .publicHostname hostname ∉ s.pending) →
    s.publicHostname = address args s

theorem wired_start : Wired args (start args started) :=
  ⟨fun _ _ => rfl, .idle, fun _ => (if_pos rfl).symm⟩

/-- Neither a turn nor an access. -/
def Act.isEngine : Act → Bool
  | .turn _ _ | .access _ _ => true
  | _ => false

theorem engines_of_step (h : step nodeTtl args relayAddr s a = some s')
    (ha : a.isEngine = false) :
    s'.engines = s.engines ∧ s'.publicHostname = s.publicHostname := by
  cases a with
  | announce now =>
    rw [step, Option.ite_none_left_eq_some] at h
    obtain ⟨-, h⟩ := h
    cases h
    exact ⟨rfl, rfl⟩
  | heartbeat now | main now =>
    rw [step, Option.ite_none_right_eq_some] at h
    obtain ⟨base, -, rfl⟩ := Option.map_eq_some_iff.mp h.2
    exact ⟨rfl, rfl⟩
  | stopRelay =>
    rw [step, Option.ite_none_right_eq_some] at h
    obtain ⟨-, h⟩ := h
    cases h
    exact ⟨rfl, rfl⟩
  | handleAnnounce body now =>
    rw [step] at h
    cases hbody : announcement body <;> rw [hbody] at h <;> cases h <;> exact ⟨rfl, rfl⟩
  | signalHandler | pruneStale now =>
    cases h
    exact ⟨rfl, rfl⟩
  | turn service t | access service now => cases ha

theorem engines_setEngine_of_ne {service service' : Service} {thread : EngineThread}
    (h : service' ≠ service) :
    (s.setEngine service thread).engines service' = s.engines service' :=
  Function.update_of_ne h ..

theorem engines_setEngine_self {service : Service} {thread : EngineThread} :
    (s.setEngine service thread).engines service = thread := Function.update_self ..

theorem Wired.of_eq (hs : Wired args s) (hengines : s'.engines .mpcNode = s.engines .mpcNode)
    (hname : s'.publicHostname = s.publicHostname)
    (hothers : ∀ service, service ≠ .mpcNode → (s'.engines service).pending = []) :
    Wired args s' := by
  have hsub : s'.subdomain = s.subdomain := by rw [State.subdomain, hengines, State.subdomain]
  have hpending : s'.pending = s.pending := by rw [State.pending, hengines, State.pending]
  refine ⟨hothers, ?_, ?_⟩
  · rw [hsub, hpending]
    exact hs.stage
  · rw [hpending, hname, address, hsub]
    exact hs.publicHostname

/-- A turn begins when nothing is left of the last one. -/
theorem Wired.turn {service : Service} {t : Turn} (hs : Wired args s)
    (h : step nodeTtl args relayAddr s (.turn service t) = some s') :
    Wired args s' ∧ s'.publicHostname = s.publicHostname ∧
      (s.subdomain ≠ [] → s'.subdomain ≠ []) ∧
      ((∀ hostname, .publicHostname hostname ∉ s'.pending) → s'.subdomain = s.subdomain) ∧
      (s.pending = [] ∨ s'.pending = s.pending) := by
  rw [step, Option.ite_none_right_eq_some] at h
  obtain ⟨⟨-, hidle⟩, h⟩ := h
  obtain rfl := Option.some.inj h
  by_cases hservice : service = .mpcNode
  · subst hservice
    obtain ⟨hstage, hsame, hsub⟩ := @stage_turn args relayAddr (s.engines .mpcNode) t
    have hbefore : s.publicHostname = address args s := hs.publicHostname fun hostname => by
      rw [State.pending, hidle]
      exact List.not_mem_nil
    rw [address, State.subdomain] at hbefore
    refine ⟨⟨?_, ?_, ?_⟩, rfl, ?_, ?_, .inl hidle⟩
    · intro service hne
      rw [engines_setEngine_of_ne hne]
      exact hs.others service hne
    · rw [State.subdomain, State.pending, engines_setEngine_self]
      exact hstage
    · rw [address, State.subdomain, State.pending, engines_setEngine_self]
      intro hnone
      rw [hsame hnone]
      exact hbefore
    · rw [State.subdomain, State.subdomain, engines_setEngine_self]
      exact hsub
    · rw [State.subdomain, State.subdomain, State.pending, engines_setEngine_self]
      exact hsame
  · have hmpcNode := @engines_setEngine_of_ne s service .mpcNode
      ((s.engines service).turn (service.svc args) relayAddr t) (Ne.symm hservice)
    refine ⟨hs.of_eq hmpcNode rfl ?_, rfl, ?_, ?_, ?_⟩
    · intro service' hne
      by_cases hother : service' = service
      · subst hother
        rw [engines_setEngine_self]
        exact List.flatMap_eq_nil_iff.mpr fun o ho => accesses_eq_nil (svc_name_ne hservice) ho
      · rw [engines_setEngine_of_ne hother]
        exact hs.others service' hne
    · rw [State.subdomain, State.subdomain, hmpcNode]
      exact id
    · rw [State.subdomain, State.subdomain, hmpcNode]
      exact fun _ => rfl
    · rw [State.pending, State.pending, hmpcNode]
      exact .inr rfl

/-- Only the thread of the node's service has accesses to make. -/
theorem Wired.access_cases {service : Service} (hs : Wired args s)
    (h : step nodeTtl args relayAddr s (.access service now) = some s') :
    service = .mpcNode ∧ ∃ x rest, s.pending = x :: rest ∧
      s' = (s.access args now x).setEngine .mpcNode ⟨(s.engines .mpcNode).engine, rest⟩ := by
  rw [step] at h
  cases hpending : (s.engines service).pending with
  | nil =>
    rw [hpending] at h
    cases h
  | cons x rest =>
    rw [hpending] at h
    have hservice : service = .mpcNode := by
      by_contra hne
      rw [hs.others service hne] at hpending
      cases hpending
    subst hservice
    exact ⟨rfl, x, rest, hpending, (Option.some.inj h).symm⟩

theorem engines_access {x : Access} : (s.access args now x).engines = s.engines := by
  cases x <;> rfl

theorem Wired.access {service : Service} (hs : Wired args s)
    (h : step nodeTtl args relayAddr s (.access service now) = some s') :
    Wired args s' ∧ s'.subdomain = s.subdomain := by
  obtain ⟨rfl, x, rest, hpending, rfl⟩ := hs.access_cases h
  have hstage := hs.stage
  have hname := hs.publicHostname
  rw [hpending] at hstage hname
  refine ⟨⟨?_, ?_, ?_⟩, ?_⟩
  · intro service hne
    rw [engines_setEngine_of_ne hne, engines_access]
    exact hs.others service hne
  · rw [State.subdomain, State.pending, engines_setEngine_self]
    cases hstage with
    | registered => exact .idle
    | assigned hsub => exact .renamed hsub
    | renamed hsub => exact .announced hsub
    | announced hsub => exact .idle
  · rw [address, State.subdomain, State.pending, engines_setEngine_self]
    intro hnone
    cases hstage with
    | registered | announced _ => exact hname (by simp)
    | assigned hsub => exact (if_neg hsub).symm
    | renamed hsub => exact hname (by simp)
  · rw [State.subdomain, engines_setEngine_self, State.subdomain]

theorem Wired.step (hs : Wired args s) (h : step nodeTtl args relayAddr s a = some s') :
    Wired args s' ∧ (s.subdomain ≠ [] → s'.subdomain ≠ []) := by
  cases a with
  | turn service t =>
    obtain ⟨hwired, -, hsub, -⟩ := hs.turn h
    exact ⟨hwired, hsub⟩
  | access service now =>
    obtain ⟨hwired, hsub⟩ := hs.access h
    exact ⟨hwired, fun hne => hsub ▸ hne⟩
  | _ =>
    obtain ⟨hengines, hname⟩ := engines_of_step h rfl
    refine ⟨hs.of_eq (congrFun hengines _) hname fun service hne => ?_, ?_⟩
    · rw [hengines]
      exact hs.others service hne
    · rw [State.subdomain, State.subdomain, hengines]
      exact id

/-! ## What a step leaves alone -/

/-- Before `main` registers the node as offline. -/
def State.serving (s : State) : Prop := s.main = .store ∨ s.main = .registerNode

theorem serving_of_step (h : step nodeTtl args relayAddr s a = some s') (hs' : s'.serving) :
    s.serving ∧ ∀ now, a = .main now → s.main = .store := by
  cases a with
  | main now =>
    rw [step, Option.ite_none_right_eq_some] at h
    obtain ⟨base, hbase, rfl⟩ := Option.map_eq_some_iff.mp h.2
    obtain ⟨-, hpoint⟩ := Shutdown.mainStep_cases hbase
    rcases hpoint with ⟨hmain, -⟩ | ⟨-, hmain, -⟩ | ⟨-, hmain, -⟩
    · exact ⟨.inl hmain, fun _ _ => hmain⟩
    · rcases hs' with hs' | hs' <;> cases hmain.symm.trans hs'
    · rcases hs' with hs' | hs' <;> cases hmain.symm.trans hs'
  | announce now =>
    rw [step, Option.ite_none_left_eq_some] at h
    obtain ⟨-, h⟩ := h
    cases h
    exact ⟨hs', nofun⟩
  | heartbeat now =>
    rw [step, Option.ite_none_right_eq_some] at h
    obtain ⟨base, hbase, rfl⟩ := Option.map_eq_some_iff.mp h.2
    obtain ⟨-, hmain, -⟩ := Shutdown.heartbeatStep_cases hbase
    rw [State.serving, hmain] at hs'
    exact ⟨hs', nofun⟩
  | stopRelay | turn service t =>
    rw [step, Option.ite_none_right_eq_some] at h
    obtain ⟨-, h⟩ := h
    cases h
    exact ⟨hs', nofun⟩
  | access service now =>
    rw [step] at h
    refine ⟨?_, nofun⟩
    split at h
    · cases h
    · rename_i x rest hpending
      cases h
      cases x <;> exact hs'
  | handleAnnounce body now =>
    rw [step] at h
    cases hbody : announcement body <;> rw [hbody] at h <;> cases h <;> exact ⟨hs', nofun⟩
  | signalHandler | pruneStale now =>
    cases h
    exact ⟨hs', nofun⟩

theorem not_removes_of_call (h : ∀ now, call? args s a ≠ some (.pruneStale now)) :
    ¬Removes nodeTtl args (s, a) := by
  rintro ⟨now, n, hcall, -⟩
  exact h now hcall

/-- The thread of the node's service makes the access `x`. -/
structure Accessed (nodeTtl : ℤ) (args : CLIArgs) (now : ℚ) (s s' : State) (x : Access)
    (rest : List Access) : Prop where
  before : s.pending = x :: rest
  after : s'.pending = rest
  subdomain : s'.subdomain = s.subdomain
  publicHostname : (∀ hostname, x ≠ .publicHostname hostname) →
    s'.publicHostname = s.publicHostname
  serving : s'.serving → s.serving
  call : call? args s (.access .mpcNode now) = x.call? args now
  own : own args s' = ((x.call? args now).map fun c =>
    c.step nodeTtl args.party args.port (own args s)).getD (own args s)

theorem accessed_of_step {service : Service} (hs : Wired args s)
    (h : step nodeTtl args relayAddr s (.access service now) = some s') :
    service = .mpcNode ∧ ∃ x rest, Accessed nodeTtl args now s s' x rest := by
  obtain ⟨-, hsub⟩ := hs.access h
  have hown := own_of_step h
  have hserving := serving_of_step h
  obtain ⟨rfl, x, rest, hpending, rfl⟩ := hs.access_cases h
  have hcall : call? args s (.access .mpcNode now) = x.call? args now := by
    rw [call?, ← State.pending, hpending]
    rfl
  refine ⟨rfl, x, rest, hpending, ?_, hsub, fun hx => ?_, fun hs' => (hserving hs').1, hcall,
    hcall ▸ hown⟩
  · rw [State.pending, engines_setEngine_self]
  · cases x with
    | publicHostname hostname => exact absurd rfl (hx hostname)
    | registerNode hostname | updateRelayStatus name => rfl

theorem Accessed.not_removes {x : Access} {rest : List Access}
    (h : Accessed nodeTtl args now s s' x rest) :
    ¬Removes nodeTtl args (s, .access .mpcNode now) :=
  not_removes_of_call fun _ => by
    rw [h.call]
    cases x <;> nofun

theorem Unclaimed.left {path' : List (State × Act)} (h : Unclaimed args (path ++ path')) :
    Unclaimed args path := fun s body now hmem => h s body now (List.mem_append_left _ hmem)

end Freehold.Server.Presence
