import Freehold.Server.Callbacks

/-!
# The node in its own registry (`mpcauth_server.cpp`)

The relay's callbacks write to the node's entry while `main` and the heartbeat thread register
the node, a sweep may remove the entry, and others announce themselves.

## Main results

- `Inv.step` and `inv_of_run`: what each step keeps, and so every run.
- `presence_of_run`: what the registry says of the node whenever no callback is under way.
-/

namespace Freehold.Server.Presence

open Freehold.Discovery
open Freehold.Relay (Address Turn fqdn)

variable {nodeTtl : ℤ} {args : CLIArgs} {relayAddr : Address} {started : Service → ℕ}
  {s s' : State} {a : Act} {path : List (State × Act)} {now : ℚ}

/-- The relay's name is in the entry. -/
abbrev Named (nodeTtl : ℤ) (args : CLIArgs) (path : List (State × Act)) : Prop :=
  Machine.Since (Names args) (Removes nodeTtl args) path

/-- What holds after every run. -/
structure Inv (nodeTtl : ℤ) (args : CLIArgs) (path : List (State × Act)) (s : State) : Prop
    extends Wired args s where
  present : (own args s).isSome ↔ Machine.Since (Registers args) (Removes nodeTtl args) path
  hostname : (∀ hostname, .registerNode hostname ∉ s.pending) →
    ∀ n ∈ own args s, n.hostname = s.publicHostname
  online : s.serving → ∀ n ∈ own args s, n.status = "online".toList
  named : Named nodeTtl args path → s.subdomain ≠ [] ∧ ∃ n, own args s = some n ∧
    n.relayRegistered ∧
    ((∀ name, name ≠ [] → .updateRelayStatus name ∉ s.pending) → n.relayFqdn = fqdn s.subdomain)
  unnamed : ¬Named nodeTtl args path → ∀ n ∈ own args s, n.relayFqdn = []

/-- The node is there from its registration to a sweep. -/
theorem present_of_step
    (hs : (own args s).isSome ↔ Machine.Since (Registers args) (Removes nodeTtl args) path)
    (h : step nodeTtl args relayAddr s a = some s') :
    (own args s').isSome ↔
      Machine.Since (Registers args) (Removes nodeTtl args) (path ++ [(s, a)]) := by
  rw [Machine.since_snoc, ← hs, own_of_step h]
  unfold Registers Removes
  cases hcall : call? args s a with
  | none => simp
  | some c =>
    cases c with
    | registerNode p q hostname status now =>
      by_cases hpair : p = args.party ∧ q = args.port
      · simp [Call.step, hpair]
      · simp [Call.step, hpair]
    | updateRelayStatus p q registered fqdn =>
      by_cases hpair : p = args.party ∧ q = args.port
      · simp [Call.step, hpair]
      · simp [Call.step, hpair]
    | pruneStale now =>
      cases hentry : own args s with
      | none => simp [Call.step]
      | some n => simp [Call.step, Option.filter]

/-- What the other threads ask of the registry. -/
theorem call_cases (hothers : ∀ body now, a = .handleAnnounce body now →
      ∀ x ∈ announcement body, ¬(x.partyId = args.party ∧ x.port = args.port))
    (ha : a.isEngine = false) :
    call? args s a = none ∨
    (∃ status now, call? args s a =
        some (.registerNode args.party args.port s.publicHostname status now) ∧
      ((∀ now, a = .main now → s.main = .store) → status = "online".toList)) ∨
    (∃ p q hostname status now, call? args s a = some (.registerNode p q hostname status now) ∧
      ¬(p = args.party ∧ q = args.port)) ∨
    ∃ now, call? args s a = some (.pruneStale now) := by
  cases a with
  | announce now => exact .inr (.inl ⟨_, now, rfl, fun _ => rfl⟩)
  | heartbeat now =>
    by_cases hpoint : s.heartbeat = .registerNode
    · exact .inr (.inl ⟨_, now, if_pos hpoint, fun _ => rfl⟩)
    · exact .inl (if_neg hpoint)
  | main now =>
    by_cases hpoint : s.main = .registerNode
    · refine .inr (.inl ⟨_, now, if_pos hpoint, fun hstore => ?_⟩)
      cases hpoint.symm.trans (hstore now rfl)
    · exact .inl (if_neg hpoint)
  | handleAnnounce body now =>
    cases hbody : announcement body with
    | none => exact .inl (by simp [call?, hbody])
    | some x =>
      have hcall : call? args s (.handleAnnounce body now) =
          some (.registerNode x.partyId x.port x.hostname x.status now) := by
        rw [call?, hbody]
        rfl
      exact .inr (.inr (.inl ⟨_, _, _, _, now, hcall, hothers body now rfl x hbody⟩))
  | pruneStale now => exact .inr (.inr (.inr ⟨now, rfl⟩))
  | signalHandler | stopRelay => exact .inl rfl
  | turn service t | access service now => cases ha

theorem not_names_of_call (h : ∀ name, call? args s a ≠
    some (.updateRelayStatus args.party args.port true name)) : ¬Names args (s, a) := by
  rintro ⟨name, -, -, hcall⟩
  exact h name hcall

/-- A step that neither names the node nor sweeps leaves it named or not. -/
theorem named_snoc (hnames : ¬Names args (s, a)) (hremoves : ¬Removes nodeTtl args (s, a)) :
    Named nodeTtl args (path ++ [(s, a)]) ↔ Named nodeTtl args path := by
  rw [Named, Machine.since_snoc]
  simp [hnames, hremoves]

/-- What a registration with the current name leaves of an entry. -/
structure Refreshed (args : CLIArgs) (s s' : State) (n : NodeInfo) : Prop where
  hostname : n.hostname = s.publicHostname
  online : s'.serving → n.status = "online".toList
  kept : ∀ m ∈ own args s, n.relayRegistered = m.relayRegistered ∧ n.relayFqdn = m.relayFqdn
  joined : own args s = none → n.relayFqdn = []

/-- Behind a step of another thread the entry is as before, or a registration has written to it,
or a sweep has removed it. -/
theorem own_cases (path : List (State × Act))
    (hothers : ∀ body now, a = .handleAnnounce body now →
      ∀ x ∈ announcement body, ¬(x.partyId = args.party ∧ x.port = args.port))
    (h : step nodeTtl args relayAddr s a = some s') (ha : a.isEngine = false) :
    (own args s' = own args s ∧
      (Named nodeTtl args (path ++ [(s, a)]) ↔ Named nodeTtl args path)) ∨
    (∃ n, own args s' = some n ∧ Refreshed args s s' n ∧
      (Named nodeTtl args (path ++ [(s, a)]) ↔ Named nodeTtl args path)) ∨
    (own args s' = none ∧ ¬Named nodeTtl args (path ++ [(s, a)])) := by
  have hown := own_of_step h
  rcases call_cases hothers ha with hcall | ⟨status, now, hcall, hstatus⟩ |
    ⟨p, q, hostname, status, now, hcall, hpair⟩ | ⟨now, hcall⟩
  · rw [hcall] at hown
    exact .inl ⟨hown, named_snoc (not_names_of_call fun _ => by simp [hcall])
      (not_removes_of_call fun _ => by simp [hcall])⟩
  · rw [hcall, Option.map_some, Option.getD_some, Call.step, if_pos ⟨rfl, rfl⟩] at hown
    have hnamed : Named nodeTtl args (path ++ [(s, a)]) ↔ Named nodeTtl args path :=
      named_snoc (not_names_of_call fun _ => by simp [hcall])
        (not_removes_of_call fun _ => by simp [hcall])
    refine .inr (.inl ⟨_, hown, ⟨?_, fun hs' => ?_, fun m hm => ?_, fun hnone => ?_⟩, hnamed⟩)
    · cases own args s <;> rfl
    · cases own args s <;> exact hstatus (serving_of_step h hs').2
    · rw [Option.mem_def.mp hm]
      exact ⟨rfl, rfl⟩
    · rw [hnone]
      rfl
  · rw [hcall, Option.map_some, Option.getD_some, Call.step, if_neg hpair] at hown
    exact .inl ⟨hown, named_snoc (not_names_of_call fun _ => by simp [hcall])
      (not_removes_of_call fun _ => by simp [hcall])⟩
  · rw [hcall, Option.map_some, Option.getD_some, Call.step] at hown
    have hnames : ¬Names args (s, a) := not_names_of_call fun _ => by simp [hcall]
    by_cases hremoves : Removes nodeTtl args (s, a)
    · refine .inr (.inr ⟨?_, fun hnamed => ?_⟩)
      · obtain ⟨now', n, hcall', hn, hstale⟩ := hremoves
        cases hcall.symm.trans hcall'
        rw [hown, hn, Option.filter, if_neg]
        simpa only [decide_eq_true_eq, not_le] using hstale
      · rcases Machine.since_snoc.mp hnamed with hnow | ⟨-, hkept⟩
        · exact hnames hnow
        · exact hkept hremoves
    · refine .inl ⟨?_, named_snoc hnames hremoves⟩
      cases hn : own args s with
      | none => rw [hown, hn, Option.filter]
      | some n =>
        rw [hown, hn, Option.filter, if_pos]
        by_contra hstale
        exact hremoves ⟨now, n, hcall, hn, by simpa only [decide_eq_true_eq, not_le] using hstale⟩

theorem Inv.step_of_not_engine (hs : Inv nodeTtl args path s)
    (hothers : ∀ body now, a = .handleAnnounce body now →
      ∀ x ∈ announcement body, ¬(x.partyId = args.party ∧ x.port = args.port))
    (h : step nodeTtl args relayAddr s a = some s') (ha : a.isEngine = false) :
    Inv nodeTtl args (path ++ [(s, a)]) s' := by
  obtain ⟨hengines, hname⟩ := engines_of_step h ha
  have hpending : s'.pending = s.pending := by rw [State.pending, hengines, State.pending]
  have hsub : s'.subdomain = s.subdomain := by rw [State.subdomain, hengines, State.subdomain]
  have hentry := own_cases path hothers h ha
  refine ⟨(hs.toWired.step h).1, present_of_step hs.present h, ?_, ?_, ?_, ?_⟩
  · rw [hpending, hname]
    intro hnone n hn
    rcases hentry with ⟨hsame, -⟩ | ⟨m, hm, hwritten, -⟩ | ⟨hgone, -⟩
    · exact hs.hostname hnone n (hsame ▸ hn)
    · cases hm.symm.trans hn
      exact hwritten.hostname
    · cases hgone.symm.trans hn
  · intro hs' n hn
    rcases hentry with ⟨hsame, -⟩ | ⟨m, hm, hwritten, -⟩ | ⟨hgone, -⟩
    · exact hs.online (serving_of_step h hs').1 n (hsame ▸ hn)
    · cases hm.symm.trans hn
      exact hwritten.online hs'
    · cases hgone.symm.trans hn
  · rw [hpending, hsub]
    intro hnamed
    rcases hentry with ⟨hsame, hiff⟩ | ⟨m, hm, hwritten, hiff⟩ | ⟨-, hnot⟩
    · rw [hsame]
      exact hs.named (hiff.mp hnamed)
    · obtain ⟨hassigned, n, hn, hregistered, hfqdn⟩ := hs.named (hiff.mp hnamed)
      obtain ⟨hflag, hrelay⟩ := hwritten.kept n hn
      exact ⟨hassigned, m, hm, hflag.trans hregistered, fun hnone => hrelay.trans (hfqdn hnone)⟩
    · exact absurd hnamed hnot
  · intro hnot n hn
    rcases hentry with ⟨hsame, hiff⟩ | ⟨m, hm, hwritten, hiff⟩ | ⟨hgone, -⟩
    · exact hs.unnamed (fun h => hnot (hiff.mpr h)) n (hsame ▸ hn)
    · cases hm.symm.trans hn
      cases hold : own args s with
      | none => exact hwritten.joined hold
      | some n' =>
        rw [(hwritten.kept n' hold).2]
        exact hs.unnamed (fun h => hnot (hiff.mpr h)) n' hold
    · cases hgone.symm.trans hn

/-- Where no name is to be written, none is to be taken over. -/
theorem Stage.not_mem {sub : List Char} {pending : List Access} (h : Stage sub pending)
    (hnone : ∀ name, name ≠ [] → .updateRelayStatus name ∉ pending) (hostname : List Char) :
    .publicHostname hostname ∉ pending := by
  cases h with
  | idle => exact List.not_mem_nil
  | registered => simp
  | assigned hsub => exact absurd (by simp) (hnone _ (fqdn_ne_nil sub))
  | renamed hsub => simp
  | announced hsub => simp

theorem Inv.turn {service : Service} {t : Turn} (hs : Inv nodeTtl args path s)
    (h : step nodeTtl args relayAddr s (.turn service t) = some s') :
    Inv nodeTtl args (path ++ [(s, .turn service t)]) s' := by
  obtain ⟨hwired, hname, hsub, hsame, hpending⟩ := hs.toWired.turn h
  have hown : own args s' = own args s := own_of_step h
  have hnamed : Named nodeTtl args (path ++ [(s, .turn service t)]) ↔ Named nodeTtl args path :=
    named_snoc (not_names_of_call fun _ => nofun) (not_removes_of_call fun _ => nofun)
  have hbefore : ∀ x, x ∉ s'.pending → x ∉ s.pending := by
    intro x hx
    rcases hpending with hidle | hsame
    · rw [hidle]
      exact List.not_mem_nil
    · rwa [← hsame]
  refine ⟨hwired, present_of_step hs.present h, ?_, ?_, ?_, ?_⟩
  · rw [hown, hname]
    exact fun hnone => hs.hostname fun hostname => hbefore _ (hnone hostname)
  · rw [hown]
    exact fun hs' => hs.online (serving_of_step h hs').1
  · rw [hnamed, hown]
    intro hsince
    obtain ⟨hassigned, n, hn, hregistered, hfqdn⟩ := hs.named hsince
    refine ⟨hsub hassigned, n, hn, hregistered, fun hnone => ?_⟩
    rw [hsame (hwired.stage.not_mem hnone)]
    exact hfqdn fun name hne => hbefore _ (hnone name hne)
  · rw [hnamed, hown]
    exact hs.unnamed

theorem Inv.access_publicHostname {hostname : List Char} {rest : List Access}
    (hs : Inv nodeTtl args path s) (hwired : Wired args s')
    (hpresent : (own args s').isSome ↔ Machine.Since (Registers args) (Removes nodeTtl args)
      (path ++ [(s, .access .mpcNode now)]))
    (h : Accessed nodeTtl args now s s' (.publicHostname hostname) rest) :
    Inv nodeTtl args (path ++ [(s, .access .mpcNode now)]) s' := by
  have hown : own args s' = own args s := h.own
  have hnamed : Named nodeTtl args (path ++ [(s, .access .mpcNode now)]) ↔
      Named nodeTtl args path :=
    named_snoc (not_names_of_call fun _ => by simp [h.call, Access.call?]) h.not_removes
  have hstage := hs.stage
  rw [h.before] at hstage
  cases hstage with
  | assigned hassigned =>
    refine ⟨hwired, hpresent, ?_, ?_, ?_, ?_⟩
    · rw [h.after]
      exact fun hnone => absurd List.mem_cons_self (hnone _)
    · rw [hown]
      exact fun hs' => hs.online (h.serving hs')
    · rw [hnamed, hown, h.after, h.subdomain]
      intro hsince
      obtain ⟨-, n, hn, hregistered, -⟩ := hs.named hsince
      exact ⟨hassigned, n, hn, hregistered,
        fun hnone => absurd (by simp) (hnone _ (fqdn_ne_nil s.subdomain))⟩
    · rw [hnamed, hown]
      exact hs.unnamed

theorem Inv.access_registerNode {hostname : List Char} {rest : List Access}
    (hs : Inv nodeTtl args path s) (hwired : Wired args s')
    (hpresent : (own args s').isSome ↔ Machine.Since (Registers args) (Removes nodeTtl args)
      (path ++ [(s, .access .mpcNode now)]))
    (h : Accessed nodeTtl args now s s' (.registerNode hostname) rest) :
    Inv nodeTtl args (path ++ [(s, .access .mpcNode now)]) s' := by
  have hown := h.own
  rw [Access.call?, Option.map_some, Option.getD_some, Call.step, if_pos ⟨rfl, rfl⟩] at hown
  have hnamed : Named nodeTtl args (path ++ [(s, .access .mpcNode now)]) ↔
      Named nodeTtl args path :=
    named_snoc (not_names_of_call fun _ => by simp [h.call, Access.call?]) h.not_removes
  have hname : s'.publicHostname = s.publicHostname := h.publicHostname fun _ => by simp
  have hstage := hs.stage
  have haddress := hs.toWired.publicHostname
  rw [h.before] at hstage haddress
  cases hstage with
  | renamed hassigned =>
    have hcurrent : s'.publicHostname = fqdn s.subdomain := by
      rw [hname, haddress (by simp), address, if_neg hassigned]
    refine ⟨hwired, hpresent, ?_, ?_, ?_, ?_⟩
    · rw [hown, hcurrent]
      rintro - n hn
      cases Option.mem_some_iff.mp hn
      cases own args s <;> rfl
    · rw [hown]
      rintro - n hn
      cases Option.mem_some_iff.mp hn
      cases own args s <;> rfl
    · rw [hnamed, h.after, h.subdomain]
      intro hsince
      obtain ⟨-, n, hn, hregistered, -⟩ := hs.named hsince
      rw [hown, hn]
      exact ⟨hassigned, _, rfl, hregistered,
        fun hnone => absurd (by simp) (hnone _ (fqdn_ne_nil s.subdomain))⟩
    · rw [hnamed, hown]
      intro hnot n hn
      cases Option.mem_some_iff.mp hn
      cases hold : own args s with
      | none => rfl
      | some m => exact hs.unnamed hnot m hold

theorem Inv.access_updateRelayStatus {name : List Char} {rest : List Access}
    (hs : Inv nodeTtl args path s) (hwired : Wired args s')
    (hpresent : (own args s').isSome ↔ Machine.Since (Registers args) (Removes nodeTtl args)
      (path ++ [(s, .access .mpcNode now)]))
    (h : Accessed nodeTtl args now s s' (.updateRelayStatus name) rest) :
    Inv nodeTtl args (path ++ [(s, .access .mpcNode now)]) s' := by
  have hown := h.own
  rw [Access.call?, Option.map_some, Option.getD_some, Call.step, if_pos ⟨rfl, rfl⟩] at hown
  have hname : s'.publicHostname = s.publicHostname := h.publicHostname fun _ => by simp
  have hstage := hs.stage
  have hhostname := hs.hostname
  rw [h.before] at hstage hhostname
  refine ⟨hwired, hpresent, ?_, ?_, ?_, ?_⟩
  · rw [hname, hown]
    intro _ n' hn'
    obtain ⟨n, hn, rfl⟩ := Option.map_eq_some_iff.mp hn'
    cases hstage with
    | registered | announced _ => exact hhostname (by simp) n hn
  · rw [hown]
    intro hs' n' hn'
    obtain ⟨n, hn, rfl⟩ := Option.map_eq_some_iff.mp hn'
    exact hs.online (h.serving hs') n hn
  · intro hsince
    rw [h.after, h.subdomain, hown]
    cases hstage with
    | registered =>
      have hnames : ¬Names args (s, .access .mpcNode now) := by
        rintro ⟨name, hne, -, hcall⟩
        cases h.call.symm.trans hcall
        exact hne rfl
      have hnamed := hs.named
      rw [h.before] at hnamed
      obtain ⟨hassigned, n, hn, -, hfqdn⟩ := hnamed ((named_snoc hnames h.not_removes).mp hsince)
      rw [hn]
      exact ⟨hassigned, _, rfl, rfl, fun _ => hfqdn (by simp)⟩
    | announced hassigned =>
      have hthere : (own args s).isSome := by
        rcases Machine.since_snoc.mp hsince with ⟨_, -, hthere, -⟩ | ⟨hbefore, -⟩
        · exact hthere
        · obtain ⟨-, n, hn, -⟩ := hs.named hbefore
          exact Option.isSome_of_eq_some hn
      obtain ⟨n, hn⟩ := Option.isSome_iff_exists.mp hthere
      rw [hn]
      refine ⟨hassigned, _, rfl, rfl, fun _ => ?_⟩
      exact if_neg (by simpa using fqdn_ne_nil s.subdomain)
  · intro hnot n' hn'
    rw [hown] at hn'
    obtain ⟨n, hn, rfl⟩ := Option.map_eq_some_iff.mp hn'
    have hbefore : ¬Named nodeTtl args path := fun hsince =>
      hnot (Machine.since_snoc.mpr (.inr ⟨hsince, h.not_removes⟩))
    cases hstage with
    | registered => exact hs.unnamed hbefore n hn
    | announced hassigned =>
      exact absurd (Machine.since_snoc.mpr (.inl ⟨_, fqdn_ne_nil s.subdomain,
        Option.isSome_of_eq_some hn, h.call⟩)) hnot

theorem Inv.step (hs : Inv nodeTtl args path s)
    (hothers : ∀ body now, a = .handleAnnounce body now →
      ∀ x ∈ announcement body, ¬(x.partyId = args.party ∧ x.port = args.port))
    (h : step nodeTtl args relayAddr s a = some s') :
    Inv nodeTtl args (path ++ [(s, a)]) s' := by
  cases a with
  | turn service t => exact hs.turn h
  | access service now =>
    obtain ⟨hwired, -⟩ := hs.toWired.access h
    have hpresent := present_of_step hs.present h
    obtain ⟨rfl, x, rest, haccessed⟩ := accessed_of_step hs.toWired h
    cases x with
    | publicHostname hostname => exact hs.access_publicHostname hwired hpresent haccessed
    | registerNode hostname => exact hs.access_registerNode hwired hpresent haccessed
    | updateRelayStatus name => exact hs.access_updateRelayStatus hwired hpresent haccessed
  | _ => exact hs.step_of_not_engine hothers h rfl

theorem inv_of_run
    (hrun : Machine.Run (Presence.step nodeTtl args relayAddr) (start args started) path s)
    (hclaim : Unclaimed args path) : Inv nodeTtl args path s := by
  refine Machine.Run.invariant (I := fun path s => Unclaimed args path → Inv nodeTtl args path s)
    ?_ ?_ hrun hclaim
  · rintro -
    have hnone : own args (start args started) = none := by simp [own, start, Shutdown.start]
    refine ⟨wired_start, ?_, ?_, ?_, ?_, ?_⟩
    · rw [hnone]
      simpa using Machine.not_since_nil
    · rw [hnone]
      rintro - n ⟨⟩
    · rw [hnone]
      rintro - n ⟨⟩
    · exact fun hsince => absurd hsince Machine.not_since_nil
    · rw [hnone]
      rintro - n ⟨⟩
  · intro path s a s' ih hstep hclaim
    refine (ih hclaim.left).step ?_ hstep
    rintro body now rfl
    exact hclaim s body now (by simp)

/-- What the registry says of the node whenever no callback is under way. -/
structure Shown (nodeTtl : ℤ) (args : CLIArgs) (path : List (State × Act)) (s : State) :
    Prop where
  publicHostname : s.publicHostname = address args s
  /-- The node is there exactly from its last registration to a sweep. -/
  present : (own args s).isSome ↔ Machine.Since (Registers args) (Removes nodeTtl args) path
  hostname : ∀ n ∈ own args s, n.hostname = address args s
  online : s.serving → ∀ n ∈ own args s, n.status = "online".toList
  named : Named nodeTtl args path →
    ∃ n, own args s = some n ∧ n.relayRegistered ∧ n.relayFqdn = address args s
  unnamed : ¬Named nodeTtl args path → ∀ n ∈ own args s, n.relayFqdn = []

/-- In whatever order the threads take their steps, and whatever the relay sends. -/
theorem presence_of_run (nodeTtl : ℤ) (args : CLIArgs) (relayAddr : Address)
    (started : Service → ℕ) (path : List (State × Act)) (s : State)
    (hrun : Machine.Run (step nodeTtl args relayAddr) (start args started) path s)
    (hclaim : Unclaimed args path) (hrest : s.pending = []) : Shown nodeTtl args path s := by
  have hinv := inv_of_run hrun hclaim
  have haddress : s.publicHostname = address args s := hinv.publicHostname fun _ => by simp [hrest]
  refine ⟨haddress, hinv.present, ?_, hinv.online, ?_, hinv.unnamed⟩
  · rw [← haddress]
    exact hinv.hostname fun _ => by simp [hrest]
  · intro hsince
    obtain ⟨hassigned, n, hn, hregistered, hfqdn⟩ := hinv.named hsince
    refine ⟨n, hn, hregistered, ?_⟩
    rw [hfqdn fun _ _ => by simp [hrest], address, if_neg hassigned]

/-- A Neighbors message that assigns `ab` to port 8080, and the node's announcement while the
callback is under way. -/
def assignedActs (relayAddr : Address) : List Act :=
  [.turn .mpcNode ⟨some (relayAddr, [Relay.relayMagic, Relay.RelayMsgType.neighbors.byte, 0, 0] ++
      List.replicate 16 0 ++ [0x1f, 0x90, 2, 0x61, 0x62]), 0⟩,
    .access .mpcNode 1, .announce 2, .access .mpcNode 3, .access .mpcNode 4, .heartbeat 15]

theorem presence_of_run_assigned :
    ∃ path s, Machine.Run (step 60 ⟨1, 8080, "127.0.0.1".toList, 9090, 9091⟩ ⟨0x0A000001, 9999⟩)
      (start ⟨1, 8080, "127.0.0.1".toList, 9090, 9091⟩ fun _ => 0) path s ∧
      address ⟨1, 8080, "127.0.0.1".toList, 9090, 9091⟩ s = "ab.stare.network".toList ∧
      Shown 60 ⟨1, 8080, "127.0.0.1".toList, 9090, 9091⟩ path s := by
  have hplay : ((assignedActs ⟨0x0A000001, 9999⟩).foldlM
      (step 60 ⟨1, 8080, "127.0.0.1".toList, 9090, 9091⟩ ⟨0x0A000001, 9999⟩)
      (start ⟨1, 8080, "127.0.0.1".toList, 9090, 9091⟩ fun _ => 0)).any (fun s =>
        s.pending = [] ∧ address ⟨1, 8080, "127.0.0.1".toList, 9090, 9091⟩ s =
          "ab.stare.network".toList) = true := by
    decide +kernel
  obtain ⟨s, hs, hrest⟩ := (Option.any_eq_true _ _).mp hplay
  obtain ⟨hpending, haddress⟩ := of_decide_eq_true hrest
  obtain ⟨path, hacts, hrun⟩ := Machine.Run.of_foldlM hs
  refine ⟨path, s, hrun, haddress, presence_of_run _ _ _ _ path s hrun ?_ hpending⟩
  intro s' body now hmem
  have hact := List.mem_map_of_mem (f := Prod.snd) hmem
  rw [hacts] at hact
  simp [assignedActs] at hact

end Freehold.Server.Presence
