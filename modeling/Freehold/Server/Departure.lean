import Freehold.Server.Callbacks

/-!
# The node's last registration (`mpcauth_server.cpp`)

`main` registers the node as offline, joins the heartbeat thread and only then stops the relay
client, whose callbacks register the node as online.

## Main results

- `Closing.step` and `closing_of_run`: what each step keeps, and so every run.
- `status_joined_presence_iff`: when the node is offline behind the join.
-/

namespace Freehold.Server.Presence

open Freehold.Discovery
open Freehold.Relay (Address)

variable {nodeTtl : ℤ} {args : CLIArgs} {relayAddr : Address} {started : Service → ℕ}
  {s s' : State} {a : Act} {path : List (State × Act)} {now : ℚ}

/-- A registration as online behind the one as offline: the heartbeat thread is on its way to it,
or the relay assigns a subdomain. -/
def Late (x : State × Act) : Prop :=
  (∃ now, x.2 = .main now ∧ x.1.main = .registerNode ∧ x.1.heartbeat = .registerNode) ∨
    ∃ now hostname rest, x.2 = .access .mpcNode now ∧ x.1.pending = .registerNode hostname :: rest ∧
      ¬x.1.serving

/-- What holds at the end of every run in which the node's entry is left alone. -/
structure Closing (args : CLIArgs) (path : List (State × Act)) (s : State) : Prop
    extends Wired args s where
  flag : s.main ≠ .store → s.gShutdown = true ∧ s.announced = true
  ended : s.main = .joined → s.heartbeat = .ended
  early : s.serving → ∀ x ∈ path, ¬Late x
  offline : ¬s.serving → (∀ x ∈ path, ¬Late x) → s.heartbeat ≠ .registerNode ∧
    Shutdown.status args.party args.port s.toState = some "offline".toList
  online : ¬s.serving → ¬(∀ x ∈ path, ¬Late x) → s.heartbeat = .registerNode ∨
    Shutdown.status args.party args.port s.toState = some "online".toList

/-- The status changes by registrations and sweeps. -/
theorem status_of_step (h : step nodeTtl args relayAddr s a = some s')
    (hcall : ∀ c ∈ call? args s a, c.registration args.party args.port = none)
    (hkept : ¬Removes nodeTtl args (s, a)) :
    Shutdown.status args.party args.port s'.toState =
      Shutdown.status args.party args.port s.toState := by
  show (own args s').map NodeInfo.status = (own args s).map NodeInfo.status
  rw [own_of_step h]
  cases hc : call? args s a with
  | none => rfl
  | some c =>
    rw [Option.map_some, Option.getD_some]
    cases hentry : own args s with
    | none =>
      have hnone : c.step nodeTtl args.party args.port none = none := by
        by_contra hjoined
        obtain ⟨n, hn⟩ := Option.ne_none_iff_exists'.mp hjoined
        obtain ⟨hostname, status, rfl, -⟩ := joined_of_step hn
        exact absurd (hcall _ hc) (by simp [Call.registration])
      rw [hnone]
    | some m =>
      cases hstep : c.step nodeTtl args.party args.port (some m) with
      | none =>
        refine absurd ?_ hkept
        cases c with
        | pruneStale now =>
          refine ⟨now, m, hc, hentry, ?_⟩
          by_contra hfresh
          rw [Call.step, Option.filter, if_pos] at hstep
          · cases hstep
          · simpa only [decide_eq_true_eq, not_lt] using hfresh
        | registerNode p q hostname status now | updateRelayStatus p q registered fqdn =>
          rw [Call.step] at hstep
          split at hstep <;> cases hstep
      | some n =>
        have hannounced := (Follows.of_step hstep).announced
        rw [hcall c hc, Option.getD_none] at hannounced
        exact congrArg some (Prod.mk.inj (Prod.mk.inj hannounced).2).1

theorem not_late_snoc {x : State × Act} :
    (∀ y ∈ path ++ [x], ¬Late y) ↔ (∀ y ∈ path, ¬Late y) ∧ ¬Late x := by
  rw [List.forall_mem_append, List.forall_mem_singleton]

/-- A step that leaves the two threads and the status alone. -/
theorem Closing.of_same (hs : Closing args path s) (hwired : Wired args s')
    (hheartbeat : s'.heartbeat = s.heartbeat) (hmain : s'.main = s.main)
    (hflag : s.gShutdown = true ∧ s.announced = true →
      s'.gShutdown = true ∧ s'.announced = true)
    (hstatus : Shutdown.status args.party args.port s'.toState =
      Shutdown.status args.party args.port s.toState)
    (hlate : ¬Late (s, a)) : Closing args (path ++ [(s, a)]) s' := by
  have hserving : s'.serving ↔ s.serving := by rw [State.serving, hmain, State.serving]
  have hpath : (∀ y ∈ path ++ [(s, a)], ¬Late y) ↔ ∀ y ∈ path, ¬Late y :=
    not_late_snoc.trans (and_iff_left hlate)
  refine ⟨hwired, ?_, ?_, ?_, ?_, ?_⟩
  · rw [hmain]
    exact fun hne => hflag (hs.flag hne)
  · rw [hmain, hheartbeat]
    exact hs.ended
  · rw [hserving, hpath]
    exact hs.early
  · rw [hserving, hpath, hheartbeat, hstatus]
    exact hs.offline
  · rw [hserving, hpath, hheartbeat, hstatus]
    exact hs.online

theorem Closing.heartbeat (hs : Closing args path s)
    (h : step nodeTtl args relayAddr s (.heartbeat now) = some s') :
    Closing args (path ++ [(s, .heartbeat now)]) s' := by
  have hwired := (hs.toWired.step h).1
  rw [step, Option.ite_none_right_eq_some] at h
  obtain ⟨base, hbase, rfl⟩ := Option.map_eq_some_iff.mp h.2
  obtain ⟨hflag, hmain, hlive, hpoint⟩ := Shutdown.heartbeatStep_cases hbase
  have hpath : (∀ y ∈ path ++ [(s, .heartbeat now)], ¬Late y) ↔ ∀ y ∈ path, ¬Late y := by
    refine not_late_snoc.trans (and_iff_left ?_)
    rintro (⟨_, hact, -⟩ | ⟨_, _, _, hact, -⟩) <;> cases hact
  have hserving : State.serving { s with toState := base } ↔ s.serving := by
    rw [State.serving, hmain, State.serving]
  have hset : ¬s.serving → s.gShutdown = true := fun hbehind =>
    (hs.flag fun hstore => hbehind (.inl hstore)).1
  refine ⟨hwired, ?_, ?_, ?_, ?_, ?_⟩
  · rw [hflag, hmain]
    exact hs.flag
  · rw [hmain]
    exact fun hjoined => absurd (hs.ended hjoined) hlive
  · rw [hserving, hpath]
    exact hs.early
  · rw [hserving, hpath]
    intro hbehind hearly
    obtain ⟨hnot, hoffline⟩ := hs.offline hbehind hearly
    rcases hpoint with ⟨hregister, -, -⟩ | ⟨-, hnodes, hends⟩
    · exact absurd hregister hnot
    · refine ⟨hends (hset hbehind), ?_⟩
      rwa [Shutdown.status, hnodes]
  · rw [hserving, hpath]
    intro hbehind hlate
    rcases hpoint with ⟨-, -, honline⟩ | ⟨hnot, hnodes, -⟩
    · exact .inr honline
    · refine .inr ?_
      rw [Shutdown.status, hnodes]
      exact (hs.online hbehind hlate).resolve_left hnot

theorem Closing.main (hs : Closing args path s)
    (h : step nodeTtl args relayAddr s (.main now) = some s') :
    Closing args (path ++ [(s, .main now)]) s' := by
  have hwired := (hs.toWired.step h).1
  rw [step, Option.ite_none_right_eq_some] at h
  obtain ⟨hannounced, h⟩ := h
  obtain ⟨base, hbase, rfl⟩ := Option.map_eq_some_iff.mp h
  obtain ⟨hheartbeat, hpoint⟩ := Shutdown.mainStep_cases hbase
  have hlate : Late (s, .main now) ↔ s.main = .registerNode ∧ s.heartbeat = .registerNode := by
    constructor
    · rintro (⟨_, -, hmain, hregister⟩ | ⟨_, _, _, hact, -⟩)
      · exact ⟨hmain, hregister⟩
      · cases hact
    · exact fun h => .inl ⟨now, rfl, h⟩
  rcases hpoint with ⟨hmain, hmain', hflag⟩ | ⟨hmain, hmain', hflag, hoffline⟩ |
    ⟨hmain, hmain', hended, hflag, hnodes⟩
  · have hserving : State.serving { s with toState := base } := .inr hmain'
    refine ⟨hwired, fun _ => ⟨hflag, hannounced⟩, ?_, fun _ => ?_, fun h => absurd hserving h,
      fun h => absurd hserving h⟩
    · simp [hmain']
    · rw [not_late_snoc, hlate, hmain]
      exact ⟨hs.early (.inl hmain), by rintro ⟨⟨⟩, -⟩⟩
  · -- `main` registers the node: the run is in time if the thread is not about to
    have hbehind : ¬State.serving { s with toState := base } := by simp [State.serving, hmain']
    have hset := (hs.flag (by simp [hmain])).1
    refine ⟨hwired, fun _ => ⟨hflag.trans hset, hannounced⟩, by simp [hmain'],
      fun h => absurd h hbehind, ?_, ?_⟩
    · rw [not_late_snoc, hlate, hheartbeat]
      exact fun _ hearly => ⟨fun hregister => hearly.2 ⟨hmain, hregister⟩, hoffline⟩
    · rw [not_late_snoc, hlate, hheartbeat]
      intro _ hnot
      left
      by_contra hregister
      exact hnot ⟨hs.early (.inr hmain), fun h => hregister h.2⟩
  · have hbehind : ¬s.serving := by simp [State.serving, hmain]
    have hset := (hs.flag (by simp [hmain])).1
    have hstatus : Shutdown.status args.party args.port base =
        Shutdown.status args.party args.port s.toState := by
      rw [Shutdown.status, hnodes, Shutdown.status]
    have hearly : (∀ y ∈ path ++ [(s, .main now)], ¬Late y) ↔ ∀ y ∈ path, ¬Late y := by
      rw [not_late_snoc, hlate, hmain]
      exact and_iff_left (by rintro ⟨⟨⟩, -⟩)
    refine ⟨hwired, fun _ => ⟨hflag.trans hset, hannounced⟩, fun _ => hheartbeat.trans hended,
      ?_, ?_, ?_⟩
    · simp [State.serving, hmain']
    · rw [hearly, hheartbeat, hstatus]
      exact fun _ => hs.offline hbehind
    · rw [hearly, hheartbeat, hstatus]
      exact fun _ => hs.online hbehind

/-- The relay client and the others leave the two threads alone. -/
theorem threads_of_step (h : step nodeTtl args relayAddr s a = some s')
    (ha : ∀ now, a ≠ .announce now ∧ a ≠ .heartbeat now ∧ a ≠ .main now) :
    s'.heartbeat = s.heartbeat ∧ s'.main = s.main ∧
      (s.gShutdown = true ∧ s.announced = true →
        s'.gShutdown = true ∧ s'.announced = true) := by
  cases a with
  | announce now => exact absurd rfl (ha now).1
  | heartbeat now => exact absurd rfl (ha now).2.1
  | main now => exact absurd rfl (ha now).2.2
  | signalHandler =>
    cases h
    exact ⟨rfl, rfl, fun hset => ⟨rfl, hset.2⟩⟩
  | stopRelay | turn service t =>
    rw [step, Option.ite_none_right_eq_some] at h
    obtain ⟨-, h⟩ := h
    cases h
    exact ⟨rfl, rfl, id⟩
  | access service now =>
    rw [step] at h
    split at h
    · cases h
    · rename_i x rest hpending
      cases h
      cases x <;> exact ⟨rfl, rfl, id⟩
  | handleAnnounce body now =>
    rw [step] at h
    cases hbody : announcement body <;> rw [hbody] at h <;> cases h <;> exact ⟨rfl, rfl, id⟩
  | pruneStale now =>
    cases h
    exact ⟨rfl, rfl, id⟩

theorem Closing.announce (hs : Closing args path s)
    (h : step nodeTtl args relayAddr s (.announce now) = some s') :
    Closing args (path ++ [(s, .announce now)]) s' := by
  have hwired := (hs.toWired.step h).1
  rw [step, Option.ite_none_left_eq_some] at h
  obtain ⟨hnot, h⟩ := h
  obtain rfl := Option.some.inj h
  have hmain : s.main = .store := by
    by_contra hne
    exact hnot (hs.flag hne).2
  refine ⟨hwired, fun hne => absurd hmain hne, hs.ended, fun _ => ?_,
    fun hbehind => absurd (.inl hmain) hbehind, fun hbehind => absurd (.inl hmain) hbehind⟩
  rw [not_late_snoc]
  refine ⟨hs.early (.inl hmain), ?_⟩
  rintro (⟨_, hact, -⟩ | ⟨_, _, _, hact, -⟩) <;> cases hact

/-- A subdomain that comes behind the node's last registration makes it online again. -/
theorem Closing.access {service : Service} (hs : Closing args path s)
    (h : step nodeTtl args relayAddr s (.access service now) = some s') :
    Closing args (path ++ [(s, .access service now)]) s' := by
  obtain ⟨hwired, -⟩ := hs.toWired.access h
  obtain ⟨hheartbeat, hmain, hflag⟩ := threads_of_step h fun _ => ⟨by simp, by simp, by simp⟩
  have hstep := h
  obtain ⟨rfl, x, rest, haccessed⟩ := accessed_of_step hs.toWired h
  have hlate : Late (s, .access .mpcNode now) ↔
      ∃ hostname rest, s.pending = .registerNode hostname :: rest ∧ ¬s.serving := by
    constructor
    · rintro (⟨_, hact, -⟩ | ⟨_, hostname, rest, -, hpending, hbehind⟩)
      · cases hact
      · exact ⟨hostname, rest, hpending, hbehind⟩
    · rintro ⟨hostname, rest, hpending, hbehind⟩
      exact .inr ⟨now, hostname, rest, rfl, hpending, hbehind⟩
  cases x with
  | publicHostname hostname | updateRelayStatus name =>
    refine hs.of_same hwired hheartbeat hmain hflag
      (status_of_step hstep ?_ haccessed.not_removes) ?_
    · rw [haccessed.call]
      rintro c hc
      cases hc <;> rfl
    · rw [hlate, haccessed.before]
      rintro ⟨_, _, hpending, -⟩
      cases hpending
  | registerNode hostname =>
    have honline : Shutdown.status args.party args.port s'.toState = some "online".toList := by
      have hown := haccessed.own
      rw [Access.call?, Option.map_some, Option.getD_some, Call.step, if_pos ⟨rfl, rfl⟩] at hown
      show (own args s').map NodeInfo.status = _
      rw [hown]
      cases own args s <;> rfl
    have hserving : s'.serving ↔ s.serving := by rw [State.serving, hmain, State.serving]
    refine ⟨hwired, ?_, ?_, fun hs' => ?_, fun hbehind hearly => ?_, fun _ _ => .inr honline⟩
    · rw [hmain]
      exact fun hne => hflag (hs.flag hne)
    · rw [hmain, hheartbeat]
      exact hs.ended
    · rw [not_late_snoc, hlate]
      refine ⟨hs.early (hserving.mp hs'), ?_⟩
      rintro ⟨_, _, _, hbehind⟩
      exact hbehind (hserving.mp hs')
    · rw [not_late_snoc, hlate] at hearly
      exact absurd ⟨hostname, rest, haccessed.before, fun h => hbehind (hserving.mpr h)⟩ hearly.2

theorem registration_eq_none
    (hothers : ∀ body now, a = .handleAnnounce body now →
      ∀ x ∈ announcement body, ¬(x.partyId = args.party ∧ x.port = args.port))
    (ha : ∀ now, a ≠ .announce now ∧ a ≠ .heartbeat now ∧ a ≠ .main now)
    (haccess : ∀ service now, a ≠ .access service now) :
    ∀ c ∈ call? args s a, c.registration args.party args.port = none := by
  intro c hc
  cases a with
  | announce now => exact absurd rfl (ha now).1
  | heartbeat now => exact absurd rfl (ha now).2.1
  | main now => exact absurd rfl (ha now).2.2
  | access service now => exact absurd rfl (haccess service now)
  | signalHandler | stopRelay | turn service t => cases hc
  | handleAnnounce body now =>
    obtain ⟨x, hx, rfl⟩ := Option.map_eq_some_iff.mp hc
    exact if_neg (hothers body now rfl x hx)
  | pruneStale now =>
    cases hc
    rfl

theorem Closing.step (hs : Closing args path s)
    (hothers : ∀ body now, a = .handleAnnounce body now →
      ∀ x ∈ announcement body, ¬(x.partyId = args.party ∧ x.port = args.port))
    (hkept : ¬Removes nodeTtl args (s, a)) (h : step nodeTtl args relayAddr s a = some s') :
    Closing args (path ++ [(s, a)]) s' := by
  cases a with
  | announce now => exact hs.announce h
  | heartbeat now => exact hs.heartbeat h
  | main now => exact hs.main h
  | access service now => exact hs.access h
  | _ =>
    obtain ⟨hheartbeat, hmain, hflag⟩ := threads_of_step h fun _ => ⟨nofun, nofun, nofun⟩
    have hcall := registration_eq_none (s := s) hothers (fun _ => ⟨nofun, nofun, nofun⟩)
      fun _ _ => nofun
    refine hs.of_same (hs.toWired.step h).1 hheartbeat hmain hflag
      (status_of_step h hcall hkept) ?_
    rintro (⟨_, hact, -⟩ | ⟨_, _, _, hact, -⟩) <;> cases hact

theorem closing_of_run
    (hrun : Machine.Run (Presence.step nodeTtl args relayAddr) (start args started) path s)
    (hclaim : Unclaimed args path) (hkept : ∀ x ∈ path, ¬Removes nodeTtl args x) :
    Closing args path s := by
  refine Machine.Run.invariant (I := fun path s => Unclaimed args path →
    (∀ x ∈ path, ¬Removes nodeTtl args x) → Closing args path s) ?_ ?_ hrun hclaim hkept
  · intro _ _
    have hserving : (start args started).serving := .inl rfl
    exact ⟨wired_start, fun hne => absurd rfl hne, nofun, fun _ _ hx => absurd hx List.not_mem_nil,
      fun hbehind => absurd hserving hbehind, fun hbehind => absurd hserving hbehind⟩
  · intro path s a s' ih hstep hclaim hkept
    rw [List.forall_mem_append, List.forall_mem_singleton] at hkept
    refine (ih hclaim.left hkept.1).step ?_ hkept.2 hstep
    rintro body now rfl
    exact hclaim s body now (by simp)

/-- Behind the join the node is offline exactly if no registration as online has come behind the
one as offline, by the heartbeat thread or by a callback of the relay client, which is stopped
later. -/
theorem status_joined_presence_iff (nodeTtl : ℤ) (args : CLIArgs) (relayAddr : Address)
    (started : Service → ℕ) (path : List (State × Act)) (s : State)
    (hrun : Machine.Run (step nodeTtl args relayAddr) (start args started) path s)
    (hclaim : Unclaimed args path) (hkept : ∀ x ∈ path, ¬Removes nodeTtl args x)
    (hjoined : s.main = .joined) :
    (own args s).map NodeInfo.status = some "offline".toList ↔ ∀ x ∈ path, ¬Late x := by
  have hclosing := closing_of_run hrun hclaim hkept
  have hbehind : ¬s.serving := by simp [State.serving, hjoined]
  constructor
  · intro hoffline
    by_contra hlate
    rcases hclosing.online hbehind hlate with hregister | honline
    · rw [hclosing.ended hjoined] at hregister
      cases hregister
    · cases Option.some.inj (hoffline.symm.trans honline)
  · intro hearly
    exact (hclosing.offline hbehind hearly).2

/-- Only a sweep removes. -/
theorem pruneStale_of_removes {x : State × Act} (h : Removes nodeTtl args x) :
    ∃ now, x.2 = .pruneStale now := by
  obtain ⟨now, n, hcall, -⟩ := h
  obtain ⟨s, a⟩ := x
  cases a with
  | pruneStale now => exact ⟨now, rfl⟩
  | announce now | signalHandler | stopRelay | turn service t => cases hcall
  | heartbeat now | main now =>
    simp only [call?] at hcall
    split at hcall <;> cases hcall
  | access service now =>
    obtain ⟨x, -, hx⟩ := Option.bind_eq_some_iff.mp hcall
    cases x <;> cases hx
  | handleAnnounce body now =>
    obtain ⟨x, -, hx⟩ := Option.map_eq_some_iff.mp hcall
    cases hx

/-- The relay assigns a subdomain after `main` has registered the node as offline, and the relay
client is stopped only then. -/
def lateActs (relayAddr : Address) : List Act :=
  [.announce 0, .main 1, .main 2, .heartbeat 3, .main 3,
    .turn .mpcNode ⟨some (relayAddr, [Relay.relayMagic, Relay.RelayMsgType.neighbors.byte, 0, 0] ++
      List.replicate 16 0 ++ [0x1f, 0x90, 2, 0x61, 0x62]), 0⟩,
    .access .mpcNode 4, .access .mpcNode 4, .access .mpcNode 4, .stopRelay]

/-- The node that has ended is online. -/
theorem status_joined_presence_late :
    ∃ path s, Machine.Run (step 60 ⟨1, 8080, "127.0.0.1".toList, 9090, 9091⟩ ⟨0x0A000001, 9999⟩)
      (start ⟨1, 8080, "127.0.0.1".toList, 9090, 9091⟩ fun _ => 0) path s ∧
      s.main = .joined ∧ s.running = false ∧ ¬∀ x ∈ path, ¬Late x := by
  have hplay : ((lateActs ⟨0x0A000001, 9999⟩).foldlM
      (step 60 ⟨1, 8080, "127.0.0.1".toList, 9090, 9091⟩ ⟨0x0A000001, 9999⟩)
      (start ⟨1, 8080, "127.0.0.1".toList, 9090, 9091⟩ fun _ => 0)).any (fun s =>
        s.main = .joined ∧ s.running = false ∧
        (own ⟨1, 8080, "127.0.0.1".toList, 9090, 9091⟩ s).map NodeInfo.status =
          some "online".toList) = true := by
    decide +kernel
  obtain ⟨s, hs, hrest⟩ := (Option.any_eq_true _ _).mp hplay
  obtain ⟨hjoined, hstopped, honline⟩ := of_decide_eq_true hrest
  obtain ⟨path, hacts, hrun⟩ := Machine.Run.of_foldlM hs
  refine ⟨path, s, hrun, hjoined, hstopped, fun hearly => ?_⟩
  have hclaim : Unclaimed ⟨1, 8080, "127.0.0.1".toList, 9090, 9091⟩ path := by
    intro s' body now hmem
    have hact := List.mem_map_of_mem (f := Prod.snd) hmem
    rw [hacts] at hact
    simp [lateActs] at hact
  have hkept : ∀ x ∈ path, ¬Removes 60 ⟨1, 8080, "127.0.0.1".toList, 9090, 9091⟩ x := by
    rintro x hmem hremoves
    obtain ⟨now, hsweep⟩ := pruneStale_of_removes hremoves
    have hact := List.mem_map_of_mem (f := Prod.snd) hmem
    rw [hacts, hsweep] at hact
    simp [lateActs] at hact
  have hoffline := (status_joined_presence_iff 60 _ _ _ path s hrun hclaim hkept hjoined).mpr hearly
  cases hoffline.symm.trans honline

end Freehold.Server.Presence
