import Freehold.Discovery.Topology
import Freehold.Foundation.Interleaving

/-!
# The live topology view (`discovery.cpp`)

The operations of the discovery server run side by side. A section under `nodes_mu_` or
`ws_mu_` is one step, and so is the first frame to a client that joins, which is sent under
neither. Which nodes a frame lists is all that is kept of it.

## Main results

* `Covered.step` — a step that meets `Sound` leaves each client with a current frame, or with
  a process that is going to send one.
* `lastFrame_of_soundRun` — when nothing is in progress, every client has seen the registry.
-/

namespace Freehold.Discovery

open Interaction Interaction.Program

/-- What the topology says of a node, its uptime apart. -/
structure NodeView where
  partyId : ℤ
  port : ℤ
  hostname : List Char
  status : List Char
  relayRegistered : Bool
  relayFqdn : List Char
  deriving DecidableEq

def NodeInfo.view (n : NodeInfo) : NodeView where
  partyId := n.partyId
  port := n.port
  hostname := n.hostname
  status := n.status
  relayRegistered := n.relayRegistered
  relayFqdn := n.relayFqdn

/-- The nodes that `topology_json` lists. -/
def listing (nodes : Nodes) : List NodeView := nodes.toList.map fun entry => entry.2.view

/-- A listing depends on what is seen of the entries. -/
theorem listing_congr {nodes nodes' : Nodes}
    (h : ∀ k : List Char, nodes'[k]?.map NodeInfo.view = nodes[k]?.map NodeInfo.view) :
    listing nodes' = listing nodes := by
  have hmap : nodes'.map (fun _ => NodeInfo.view) = nodes.map (fun _ => NodeInfo.view) := by
    refine Std.ExtTreeMap.ext_getElem? fun k => ?_
    rw [Std.ExtTreeMap.getElem?_map, Std.ExtTreeMap.getElem?_map]
    exact h k
  have hlist := congrArg (fun m => m.toList.map Prod.snd) hmap
  simp only [Std.ExtTreeMap.toList_map, List.map_map] at hlist
  exact hlist

/-- Registering a node once more as it is changes nothing that is listed. -/
theorem listing_registerNode {nodes : Nodes} {p q : ℤ} {hostname status : List Char} {now : ℚ}
    {n : NodeInfo} (hn : nodes[nodeKey p q]? = some n) (hhostname : n.hostname = hostname)
    (hstatus : n.status = status) :
    listing (registerNode nodes p q hostname status now).1 = listing nodes := by
  refine listing_congr fun k => ?_
  rw [getElem?_registerNode]
  split
  · rename_i hk
    rw [← hk, hn, ← hhostname, ← hstatus]
    rfl
  · rfl

theorem pruneStale_of_not {nodeTtl : ℤ} {nodes : Nodes} {now : ℚ}
    (h : (pruneStale nodeTtl nodes now).2 = false) : (pruneStale nodeTtl nodes now).1 = nodes := by
  unfold pruneStale at h ⊢
  simp only [Bool.not_eq_false', List.isEmpty_iff] at h
  simp only [h, List.foldl_nil]

/-! ## The operations -/

inductive Section where
  | registerNode (partyId port : ℤ) (hostname status : List Char) (now : ℚ)
  | updateRelayStatus (partyId port : ℤ) (registered : Bool) (fqdn : List Char)
  | pruneStale (now : ℚ)
  | topologyJson
  /-- `send_ws_text` to every client. -/
  | sendAll (frame : List NodeView)
  | addClient
  /-- `send_ws_text` to the client of `handle_ws_upgrade`. -/
  | sendFrame (frame : List NodeView)
  /-- The loop that reads frames until the client closes. -/
  | awaitClose
  | removeClient

abbrev Live : Interface where
  Op := Section
  Answer
    | .registerNode _ _ _ _ _ | .pruneStale _ => Bool
    | .topologyJson => List NodeView
    | _ => Unit

abbrev Thread := Program Live Empty Unit

def broadcastTopology : Thread := do
  let json ← perform (E := Live) .topologyJson
  perform (E := Live) (.sendAll json)

def registerNodeThread (partyId port : ℤ) (hostname status : List Char) (now : ℚ) : Thread := do
  let isNew ← perform (E := Live) (.registerNode partyId port hostname status now)
  if isNew then broadcastTopology else pure ()

def updateRelayStatusThread (partyId port : ℤ) (registered : Bool) (fqdn : List Char) : Thread := do
  perform (E := Live) (.updateRelayStatus partyId port registered fqdn)
  broadcastTopology

def handleAnnounce (body : List Char) (now : ℚ) : Thread :=
  match announcement body with
  | none => pure ()
  | some a => do
    registerNodeThread a.partyId a.port a.hostname a.status now
    broadcastTopology

def pruneStaleThread (now : ℚ) : Thread := do
  let pruned ← perform (E := Live) (.pruneStale now)
  if pruned then broadcastTopology else pure ()

/-- The end of `handle_ws_upgrade`: reading until the client leaves. -/
def keepAlive : Thread := do
  perform (E := Live) .awaitClose
  perform (E := Live) .removeClient

def handleWsUpgrade : Thread := do
  perform (E := Live) .addClient
  let json ← perform (E := Live) .topologyJson
  perform (E := Live) (.sendFrame json)
  keepAlive

/-- What a thread of the server may be running. -/
inductive Operation where
  | registerNode (partyId port : ℤ) (hostname status : List Char) (now : ℚ)
  | updateRelayStatus (partyId port : ℤ) (registered : Bool) (fqdn : List Char)
  | handleAnnounce (body : List Char) (now : ℚ)
  | pruneStale (now : ℚ)
  | handleWsUpgrade

def Operation.thread : Operation → Thread
  | .registerNode p q hostname status now => registerNodeThread p q hostname status now
  | .updateRelayStatus p q registered fqdn => updateRelayStatusThread p q registered fqdn
  | .handleAnnounce body now => Discovery.handleAnnounce body now
  | .pruneStale now => pruneStaleThread now
  | .handleWsUpgrade => Discovery.handleWsUpgrade

/-! ## The server -/

variable {ι : Type}

/-- A client has the name of the thread that serves it. -/
structure DiscoveryServer (ι : Type) where
  nodes : Nodes
  wsClients : List ι
  /-- The last frame that was sent to a client. -/
  lastFrame : ι → Option (List NodeView)

def DiscoveryServer.start : DiscoveryServer ι := ⟨∅, [], fun _ => none⟩

/-- A section that the thread `i` runs. -/
def serve [DecidableEq ι] (nodeTtl : ℤ) (i : ι) : Handler Live (DiscoveryServer ι)
  | .registerNode p q hostname status now, s =>
    ((registerNode s.nodes p q hostname status now).2,
      { s with nodes := (registerNode s.nodes p q hostname status now).1 })
  | .updateRelayStatus p q registered fqdn, s =>
    ((), { s with nodes := updateRelayStatus s.nodes p q registered fqdn })
  | .pruneStale now, s =>
    ((pruneStale nodeTtl s.nodes now).2,
      { s with nodes := (pruneStale nodeTtl s.nodes now).1 })
  | .topologyJson, s => (listing s.nodes, s)
  | .sendAll frame, s =>
    ((), { s with lastFrame := fun c => if c ∈ s.wsClients then some frame else s.lastFrame c })
  | .addClient, s => ((), { s with wsClients := s.wsClients ++ [i] })
  | .sendFrame frame, s => ((), { s with lastFrame := Function.update s.lastFrame i (some frame) })
  | .awaitClose, s => ((), s)
  | .removeClient, s => ((), { s with wsClients := s.wsClients.filter fun c => c ≠ i })

/-- Any number of threads. -/
def server [DecidableEq ι] (nodeTtl : ℤ) (operations : ι → Operation) :
    System ι Live Empty Unit (DiscoveryServer ι) Unit (DiscoveryServer ι) where
  code i := (operations i).thread
  handler i := serve nodeTtl i
  state := Equiv.punitProd (DiscoveryServer ι)
  fresh := ()

/-! ## Who is going to inform a client -/

/-- The next thing that `p`, run by `i`, does is to send `frame` to the client `c`. -/
inductive Sends (i c : ι) (frame : List NodeView) : Thread → Prop where
  | all {next} : Sends i c frame (.call (.sendAll frame) next)
  | own {next} (h : c = i) : Sends i c frame (.call (.sendFrame frame) next)

/-- `p`, run by `i`, has a topology still to take that it sends to the client `c`. -/
inductive Repairs (i c : ι) : Thread → Prop where
  | snapshot {next : List NodeView → Thread} (h : ∀ frame, Sends i c frame (next frame)) :
      Repairs i c (.call .topologyJson next)
  | later {o : Section} {next : Live.Answer o → Thread} (h : ∀ x, Repairs i c (next x)) :
      Repairs i c (.call o next)

abbrev LivePool (ι : Type) := Pool ι Live Empty Unit Unit (DiscoveryServer ι)

/-- Some thread will send to `c` what `nodes` lists, or what there will be then. -/
def Informed (P : LivePool ι) (nodes : Nodes) (c : ι) : Prop :=
  ∃ i p m, P.processes i = some (p, m) ∧ (Sends i c (listing nodes) p ∨ Repairs i c p)

/-- The steps that do not cut a client off. An entry gets a new hostname or status only while
somebody is going to inform every client of it, and a frame that is out of date is sent only to
clients that somebody is going to inform. -/
def Sound (P : LivePool ι) : Label ι Live → Prop
  | .act _ ⟨.registerNode p q hostname status now, _⟩ =>
    (∀ n ∈ P.shared.nodes[nodeKey p q]?, n.hostname = hostname ∧ n.status = status) ∨
      ∀ c ∈ P.shared.wsClients,
        Informed P (registerNode P.shared.nodes p q hostname status now).1 c
  | .act _ ⟨.sendAll frame, _⟩ =>
    frame = listing P.shared.nodes ∨ ∀ c ∈ P.shared.wsClients, Informed P P.shared.nodes c
  | .act i ⟨.sendFrame frame, _⟩ =>
    frame = listing P.shared.nodes ∨ Informed P P.shared.nodes i
  | _ => True

/-- The runs all of whose steps are sound. -/
inductive SoundRun [DecidableEq ι]
    (S : System ι Live Empty Unit (DiscoveryServer ι) Unit (DiscoveryServer ι)) :
    List (Label ι Live) → LivePool ι → Prop where
  | init : SoundRun S [] ⟨fun _ => none, .start⟩
  | snoc {history P l P'} : SoundRun S history P → S.Step P l P' → Sound P l →
      SoundRun S (history ++ [l]) P'

/-- Every client has seen the registry, or is going to. -/
def Covered (P : LivePool ι) : Prop :=
  ∀ c ∈ P.shared.wsClients, P.shared.lastFrame c = some (listing P.shared.nodes) ∨
    Informed P P.shared.nodes c

/-- A thread that has ended, or that waits for its client to leave. -/
def Idle (p : Thread) : Prop := p = .ret () ∨ p = keepAlive

/-- No operation is in progress. -/
def Quiescent (P : LivePool ι) : Prop := ∀ i p m, P.processes i = some (p, m) → Idle p

/-! ## A change is followed by a topology -/

/-- What is still to be done after a section. -/
def Obliges (i : ι) : (o : Section) → (Live.Answer o → Thread) → Prop
  | .registerNode _ _ _ _ _, next => ∀ c, Repairs i c (next true)
  | .updateRelayStatus _ _ _ _, next => ∀ c, Repairs i c (next ())
  | .pruneStale _, next => ∀ c, Repairs i c (next true)
  | .addClient, next => Repairs i i (next ())
  | _, _ => True

inductive Announces (i : ι) : Thread → Prop where
  | ret : Announces i (.ret ())
  | call {o : Section} {next : Live.Answer o → Thread} (h : Obliges i o next)
      (hnext : ∀ x, Announces i (next x)) : Announces i (.call o next)

variable {i c : ι} {p : Thread} {q : Unit → Thread}

theorem Sends.bind {frame : List NodeView} (h : Sends i c frame p) : Sends i c frame (p >>= q) := by
  cases h with
  | all => exact .all
  | own hc => exact .own hc

theorem Repairs.bind (h : Repairs i c p) : Repairs i c (p >>= q) := by
  induction h with
  | snapshot h => exact .snapshot fun frame => (h frame).bind
  | later _ ih => exact .later ih

theorem Announces.bind (hp : Announces i p) (hq : Announces i (q ())) : Announces i (p >>= q) := by
  induction hp with
  | ret => exact hq
  | @call o next h _ ih =>
    refine .call ?_ ih
    cases o with
    | registerNode => exact fun c => (h c).bind
    | updateRelayStatus => exact fun c => (h c).bind
    | pruneStale => exact fun c => (h c).bind
    | addClient => exact Repairs.bind h
    | topologyJson => trivial
    | sendAll => trivial
    | sendFrame => trivial
    | awaitClose => trivial
    | removeClient => trivial

theorem repairs_broadcastTopology : Repairs i c broadcastTopology := .snapshot fun _ => .all

theorem announces_broadcastTopology : Announces i broadcastTopology :=
  .call trivial fun _ => .call trivial fun _ => .ret

theorem announces_registerNodeThread (p q : ℤ) (hostname status : List Char) (now : ℚ) :
    Announces i (registerNodeThread p q hostname status now) := by
  refine .call (fun c => repairs_broadcastTopology) fun isNew => ?_
  cases isNew with
  | false => exact .ret
  | true => exact announces_broadcastTopology

theorem announces_handleAnnounce (body : List Char) (now : ℚ) :
    Announces i (handleAnnounce body now) := by
  unfold handleAnnounce
  cases announcement body with
  | none => exact .ret
  | some a =>
    have h := announces_registerNodeThread (i := i) a.partyId a.port a.hostname a.status now
    exact h.bind (q := fun _ => broadcastTopology) announces_broadcastTopology

/-- Every operation broadcasts what it has changed, if `register_node` has not found the entry. -/
theorem Operation.announces (operation : Operation) : Announces i operation.thread := by
  cases operation with
  | registerNode p q hostname status now =>
    exact announces_registerNodeThread p q hostname status now
  | updateRelayStatus p q registered fqdn =>
    exact .call (fun _ => repairs_broadcastTopology) fun _ => announces_broadcastTopology
  | handleAnnounce body now => exact announces_handleAnnounce body now
  | pruneStale now =>
    refine .call (fun c => repairs_broadcastTopology) fun pruned => ?_
    cases pruned with
    | false => exact .ret
    | true => exact announces_broadcastTopology
  | handleWsUpgrade =>
    exact .call (.snapshot fun _ => .own rfl) fun _ => .call trivial fun _ => .call trivial fun _ =>
      .call trivial fun _ => .call trivial fun _ => .ret

theorem not_informs_of_idle {frame : List NodeView} (hp : Idle p) :
    ¬(Sends i c frame p ∨ Repairs i c p) := by
  intro h
  rcases hp with rfl | rfl
  · rcases h with hsends | hrepairs
    · cases hsends
    · cases hrepairs
  · rcases h with hsends | hrepairs
    · cases hsends
    · cases hrepairs with
      | later hrepairs =>
        cases hrepairs () with
        | later hrepairs => cases hrepairs ()

variable [DecidableEq ι] {nodeTtl : ℤ} {operations : ι → Operation} {P P' : LivePool ι}
    {l : Label ι Live}

theorem SoundRun.run {history : List (Label ι Live)}
    (h : SoundRun (server nodeTtl operations) history P) :
    (server nodeTtl operations).Run .start history P := by
  induction h with
  | init => exact .init
  | snoc _ hstep _ ih => exact .snoc ih hstep

theorem announces_of_run {history : List (Label ι Live)} {m : Unit}
    (hrun : (server nodeTtl operations).Run .start history P) (hi : P.processes i = some (p, m)) :
    Announces i p := by
  refine hrun.process_induction (K := fun i _ p _ => Announces i p)
    (fun i => (operations i).announces)
    (fun i t o next m s h => ?_) hi
  cases h with
  | call _ hnext => exact hnext _

/-! ## One step -/

variable {o : Section} {next : Live.Answer o → Thread} {m : Unit} {nodes : Nodes}
  {s : DiscoveryServer ι}

/-- Who was going to inform a client has just done so, or still is. -/
theorem Informed.set (hi : P.processes i = some (.call o next, m)) (ho : o ≠ .topologyJson)
    (h : Informed P nodes c) (x : Live.Answer o) :
    Sends i c (listing nodes) (.call o next) ∨
      Informed (P.set (server nodeTtl operations) i (next x) s) nodes c := by
  obtain ⟨j, p, m', hj, hp⟩ := h
  by_cases hji : j = i
  · subst hji
    cases hi.symm.trans hj
    rcases hp with hp | hp
    · exact .inl hp
    · cases hp with
      | snapshot => exact absurd rfl ho
      | later h => exact .inr ⟨j, next x, _, Function.update_self .., .inr (h x)⟩
  · exact .inr ⟨j, p, m', (Function.update_of_ne hji ..).trans hj, hp⟩

theorem Informed.set_topologyJson {next : List NodeView → Thread}
    (hi : P.processes i = some (.call .topologyJson next, m)) (h : Informed P nodes c) :
    Informed (P.set (server nodeTtl operations) i (next (listing nodes)) s) nodes c := by
  obtain ⟨j, p, m', hj, hp⟩ := h
  by_cases hji : j = i
  · subst hji
    cases hi.symm.trans hj
    refine ⟨j, _, _, Function.update_self .., ?_⟩
    rcases hp with hp | hp
    · cases hp
    · cases hp with
      | snapshot h => exact .inl (h _)
      | later h => exact .inr (h _)
  · exact ⟨j, p, m', (Function.update_of_ne hji ..).trans hj, hp⟩

/-- After a change, what there is to be listed is still going to be taken. -/
theorem covered_of_repairs (hnext : ∀ c, Repairs i c p) :
    Covered (P.set (server nodeTtl operations) i p s) := fun c _ =>
  .inr ⟨i, p, _, Function.update_self .., .inr (hnext c)⟩

/-- A section that changes neither what is listed nor what the clients have been sent. -/
theorem Covered.set_silent (hi : P.processes i = some (.call o next, m)) (ho : o ≠ .topologyJson)
    (hsends : ∀ c frame, ¬Sends i c frame (.call o next)) (hcovered : Covered P)
    (x : Live.Answer o) (hnodes : listing s.nodes = listing P.shared.nodes)
    (hclients : s.wsClients ⊆ P.shared.wsClients) (hframe : s.lastFrame = P.shared.lastFrame) :
    Covered (P.set (server nodeTtl operations) i (next x) s) := by
  intro c hc
  rcases hcovered c (hclients hc) with hlast | hinformed
  · left
    show s.lastFrame c = some (listing s.nodes)
    rw [hframe, hnodes, hlast]
  · right
    rcases hinformed.set hi ho x with hsent | h
    · exact absurd hsent (hsends c _)
    · unfold Informed at h ⊢
      rwa [show listing (P.set (server nodeTtl operations) i (next x) s).shared.nodes =
        listing P.shared.nodes from hnodes]

/-- A section keeps every client covered. -/
theorem Covered.set (hi : P.processes i = some (.call o next, m))
    (hannounces : Announces i (.call o next)) (hcovered : Covered P)
    (hsound : Sound P (.act i ⟨o, (serve nodeTtl i o P.shared).1⟩)) :
    Covered (P.set (server nodeTtl operations) i (next (serve nodeTtl i o P.shared).1)
      (serve nodeTtl i o P.shared).2) := by
  have hobliges : Obliges i o next := by
    cases hannounces with
    | call h _ => exact h
  cases o with
  | registerNode p q hostname status now =>
    cases hentry : P.shared.nodes[nodeKey p q]? with
    | none =>
      have hnew : (serve nodeTtl i (.registerNode p q hostname status now) P.shared).1 = true :=
        registerNode_snd.mpr hentry
      rw [hnew]
      exact covered_of_repairs hobliges
    | some n =>
      rcases hsound with hsame | hinformed
      · obtain ⟨hhostname, hstatus⟩ := hsame n hentry
        exact hcovered.set_silent hi (by simp) (by rintro c frame ⟨⟩) _
          (listing_registerNode hentry hhostname hstatus) (List.Subset.refl _) rfl
      · refine fun c hc => .inr (((hinformed c hc).set hi (by simp) _).resolve_left ?_)
        rintro ⟨⟩
  | updateRelayStatus p q registered fqdn => exact covered_of_repairs hobliges
  | pruneStale now =>
    cases hpruned : (serve nodeTtl i (.pruneStale now) P.shared).1 with
    | true => exact covered_of_repairs hobliges
    | false =>
      have hnodes := congrArg listing (pruneStale_of_not hpruned)
      exact hcovered.set_silent hi (by simp) (by rintro c frame ⟨⟩) _ hnodes
        (List.Subset.refl _) rfl
  | topologyJson =>
    intro c hc
    exact (hcovered c hc).imp id fun h => h.set_topologyJson hi
  | sendAll frame =>
    intro c hc
    by_cases hframe : frame = listing P.shared.nodes
    · exact .inl ((if_pos hc).trans (congrArg some hframe))
    · rcases (hsound.resolve_left hframe c hc).set hi (by simp) () with hsent | hinformed
      · cases hsent
        exact absurd rfl hframe
      · exact .inr hinformed
  | addClient =>
    intro c hc
    rcases List.mem_append.mp hc with hc | hc
    · refine (hcovered c hc).imp id fun h => (h.set hi (by simp) ()).resolve_left ?_
      rintro ⟨⟩
    · rw [List.mem_singleton.mp hc]
      exact .inr ⟨i, next (), _, Function.update_self .., .inr hobliges⟩
  | sendFrame frame =>
    intro c hc
    by_cases hci : c = i
    · subst hci
      by_cases hframe : frame = listing P.shared.nodes
      · exact .inl ((Function.update_self ..).trans (congrArg some hframe))
      · rcases (hsound.resolve_left hframe).set hi (by simp) () with hsent | hinformed
        · cases hsent
          exact absurd rfl hframe
        · exact .inr hinformed
    · rcases hcovered c hc with hlast | hinformed
      · exact .inl ((Function.update_of_ne hci ..).trans hlast)
      · refine .inr ((hinformed.set hi (by simp) ()).resolve_left ?_)
        rintro ⟨⟩
        exact hci ‹_›
  | awaitClose =>
    exact hcovered.set_silent hi (by simp) (by rintro c frame ⟨⟩) _ rfl (List.Subset.refl _) rfl
  | removeClient =>
    exact hcovered.set_silent hi (by simp) (by rintro c frame ⟨⟩) _ rfl
      (List.filter_subset_self _) rfl

theorem Covered.step (hstep : (server nodeTtl operations).Step P l P')
    (hannounces : ∀ i p m, P.processes i = some (p, m) → Announces i p) (hsound : Sound P l)
    (hcovered : Covered P) : Covered P' := by
  cases hstep with
  | @start j hj =>
    intro c hc
    refine (hcovered c hc).imp id ?_
    rintro ⟨i, p, m, hi, hp⟩
    have hne : i ≠ j := by
      rintro rfl
      cases hj.symm.trans hi
    exact ⟨i, p, m, (Function.update_of_ne hne ..).trans hi, hp⟩
  | act hi => exact hcovered.set hi (hannounces _ _ _ hi) hsound

/-! ## Runs -/

variable {history : List (Label ι Live)}

theorem SoundRun.covered (hrun : SoundRun (server nodeTtl operations) history P) : Covered P := by
  induction hrun with
  | init => exact fun c hc => absurd hc List.not_mem_nil
  | snoc hrun hstep hsound ih =>
    exact ih.step hstep (fun i p m hi => announces_of_run hrun.run hi) hsound

/-- A client, a node that joins, and the same node once more, as it is announced at the end of
`main`. -/
def demoOperations : ℕ → Operation
  | 0 => .handleWsUpgrade
  | 1 => .registerNode 1 8080 ['h'] "online".toList 0
  | _ => .registerNode 1 8080 ['h'] "offline".toList 1

/-- The client and the node have joined. -/
theorem exists_demoRun : ∃ history P, SoundRun (server 30 demoOperations) history P ∧
    Quiescent P ∧ P.processes 2 = none ∧ P.shared.wsClients = [0] ∧
    P.shared.nodes = (registerNode ∅ 1 8080 ['h'] "online".toList 0).1 ∧
    P.shared.lastFrame 0 = some (listing P.shared.nodes) := by
  have h₁ := SoundRun.init.snoc (S := server 30 demoOperations) (.start (i := 0) rfl) trivial
  have h₂ := h₁.snoc (.act (i := 0) rfl) trivial
  have h₃ := h₂.snoc (.act (i := 0) rfl) trivial
  have h₄ := h₃.snoc (.act (i := 0) rfl) (.inl rfl)
  have h₅ := h₄.snoc (.start (i := 1) rfl) trivial
  have h₆ := h₅.snoc (.act (i := 1) rfl) (.inl (by rintro n ⟨⟩))
  have h₇ := h₆.snoc (.act (i := 1) rfl) trivial
  have h₈ := h₇.snoc (.act (i := 1) rfl) (.inl rfl)
  refine ⟨_, _, h₈, ?_, rfl, rfl, rfl, rfl⟩
  rintro (_ | _ | i) p m hi
  · cases hi
    exact .inr rfl
  · cases hi
    exact .inl rfl
  · cases hi

/-- After a run of sound steps, whenever no operation is in progress the last frame that a
client has been sent lists the nodes of the registry. -/
theorem lastFrame_of_soundRun (nodeTtl : ℤ) (operations : ι → Operation)
    (history : List (Label ι Live)) (P : LivePool ι)
    (hrun : SoundRun (server nodeTtl operations) history P) (hquiescent : Quiescent P) :
    ∀ c ∈ P.shared.wsClients, P.shared.lastFrame c = some (listing P.shared.nodes) := by
  intro c hc
  refine (hrun.covered c hc).resolve_right ?_
  rintro ⟨i, p, m, hi, hp⟩
  exact not_informs_of_idle (hquiescent i p m hi) hp

theorem lastFrame_of_soundRun_demo : ∃ history P,
    SoundRun (server 30 demoOperations) history P ∧ Quiescent P ∧
    ∀ c ∈ P.shared.wsClients, P.shared.lastFrame c = some (listing P.shared.nodes) := by
  obtain ⟨history, P, hrun, hquiescent, -⟩ := exists_demoRun
  exact ⟨history, P, hrun, hquiescent,
    lastFrame_of_soundRun 30 demoOperations history P hrun hquiescent⟩

/-- A node that registers once more as offline is still shown online. -/
theorem lastFrame_outdated : ∃ history P,
    (server 30 demoOperations).Run .start history P ∧ Quiescent P ∧ 0 ∈ P.shared.wsClients ∧
    P.shared.lastFrame 0 ≠ some (listing P.shared.nodes) := by
  obtain ⟨history, ⟨processes, nodes, wsClients, lastFrame⟩, hrun, hquiescent, hfree, hclients,
    hnodes, hframe⟩ := exists_demoRun
  dsimp only at hfree hclients hnodes hframe
  subst hclients hnodes
  have hagain := (hrun.run.snoc (.start (i := 2) hfree)).snoc (.act (i := 2) rfl)
  refine ⟨_, _, hagain, ?_, List.mem_singleton_self 0, ?_⟩
  · intro i p m hi
    by_cases hi₂ : i = 2
    · subst hi₂
      cases hi
      exact .inl rfl
    · refine hquiescent i p m (Eq.trans ?_ hi)
      simp [Pool.set, hi₂]
  · intro h
    let joined := (registerNode ∅ 1 8080 ['h'] "online".toList 0).1
    have hne : listing joined ≠
        listing (registerNode joined 1 8080 ['h'] "offline".toList 1).1 := by
      decide +kernel
    exact hne (Option.some.inj (hframe.symm.trans h))

end Freehold.Discovery
