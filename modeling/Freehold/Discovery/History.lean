import Freehold.Discovery.Registry

/-!
# The registry against the history of announcements

The three mutating calls in any order, with a clock that does not go back. A call touches
the entries one by one (`getElem?_apply`), so what the history says of a pair of party and
port can be followed on its own.

## Main results

* `exists_recorded` — an entry is what the calls since its node joined have made of it.
* `exists_of_recent`, `mem_registry_of_steady` — who keeps registering stays.
* `registry_refines_history` — the laws of the registry together.
-/

namespace Freehold.Discovery

inductive Call where
  | registerNode (partyId port : ℤ) (hostname status : List Char) (now : ℚ)
  | updateRelayStatus (partyId port : ℤ) (registered : Bool) (fqdn : List Char)
  | pruneStale (now : ℚ)
  deriving DecidableEq

namespace Call

def apply (nodeTtl : ℤ) (nodes : Nodes) : Call → Nodes
  | .registerNode p q hostname status now =>
    (Discovery.registerNode nodes p q hostname status now).1
  | .updateRelayStatus p q registered fqdn => Discovery.updateRelayStatus nodes p q registered fqdn
  | .pruneStale now => (Discovery.pruneStale nodeTtl nodes now).1

/-- The clock, if the call reads it. -/
def now? : Call → Option ℚ
  | .registerNode _ _ _ _ now => some now
  | .updateRelayStatus _ _ _ _ => none
  | .pruneStale now => some now

/-- What the call announces of the pair: hostname, status and time. -/
def registration (p q : ℤ) : Call → Option (List Char × List Char × ℚ)
  | .registerNode p' q' hostname status now =>
    if p' = p ∧ q' = q then some (hostname, status, now) else none
  | _ => none

/-- What the call says of the pair's relay registration. -/
def relayFlag (p q : ℤ) : Call → Option Bool
  | .updateRelayStatus p' q' registered _ => if p' = p ∧ q' = q then some registered else none
  | _ => none

/-- The name that the relay has given the pair, if the call brings one. -/
def relayName (p q : ℤ) : Call → Option (List Char)
  | .updateRelayStatus p' q' _ fqdn =>
    if p' = p ∧ q' = q ∧ fqdn ≠ [] then some fqdn else none
  | _ => none

end Call

/-- `nodes_` after the calls. -/
def registry (nodeTtl : ℤ) (calls : List Call) : Nodes := calls.foldl (Call.apply nodeTtl) ∅

/-- The clock does not go back. -/
def Clocked (calls : List Call) : Prop := (calls.filterMap Call.now?).Pairwise (· ≤ ·)

instance (calls : List Call) : Decidable (Clocked calls) :=
  inferInstanceAs (Decidable (List.Pairwise _ _))

/-! ## One pair -/

variable {nodeTtl : ℤ} {p q : ℤ} {calls : List Call} {c : Call} {m n : NodeInfo}

/-- What a call makes of the entry of a pair. -/
def Call.step (nodeTtl p q : ℤ) (entry : Option NodeInfo) : Call → Option NodeInfo
  | .registerNode p' q' hostname status now =>
    if p' = p ∧ q' = q then
      some ((entry.map fun n => { n with hostname, status, lastSeen := now }).getD
        { partyId := p, port := q, hostname, status, lastSeen := now, joinedAt := now })
    else entry
  | .updateRelayStatus p' q' registered fqdn =>
    if p' = p ∧ q' = q then
      entry.map fun n =>
        { n with
          relayRegistered := registered
          relayFqdn := if fqdn.isEmpty then n.relayFqdn else fqdn }
    else entry
  | .pruneStale now => entry.filter fun n => now - n.lastSeen ≤ nodeTtl

@[simp] theorem registry_nil : registry nodeTtl [] = ∅ := rfl

@[simp] theorem registry_snoc :
    registry nodeTtl (calls ++ [c]) = c.apply nodeTtl (registry nodeTtl calls) := by
  simp [registry]

/-- A call acts on each entry separately. -/
theorem getElem?_apply {nodes : Nodes} :
    (c.apply nodeTtl nodes)[nodeKey p q]? = c.step nodeTtl p q nodes[nodeKey p q]? := by
  cases c with
  | registerNode p' q' hostname status now =>
    refine getElem?_registerNode.trans ?_
    simp only [Call.step, nodeKey_inj]
    split
    · rename_i h
      rw [h.1, h.2]
    · rfl
  | updateRelayStatus p' q' registered fqdn =>
    refine getElem?_updateRelayStatus.trans ?_
    simp only [Call.step, nodeKey_inj]
  | pruneStale now => exact getElem?_pruneStale

theorem getElem?_registry_snoc : (registry nodeTtl (calls ++ [c]))[nodeKey p q]? =
    c.step nodeTtl p q (registry nodeTtl calls)[nodeKey p q]? := by
  rw [registry_snoc, getElem?_apply]

/-- What a call leaves of an entry, and what it changes in it. -/
structure Follows (p q : ℤ) (c : Call) (m n : NodeInfo) : Prop where
  partyId : n.partyId = m.partyId
  port : n.port = m.port
  joinedAt : n.joinedAt = m.joinedAt
  announced : (n.hostname, n.status, n.lastSeen) =
    (c.registration p q).getD (m.hostname, m.status, m.lastSeen)
  relayRegistered : n.relayRegistered = (c.relayFlag p q).getD m.relayRegistered
  relayFqdn : n.relayFqdn = (c.relayName p q).getD m.relayFqdn

theorem Follows.of_step (h : c.step nodeTtl p q (some m) = some n) : Follows p q c m n := by
  cases c with
  | registerNode p' q' hostname status now =>
    by_cases hpair : p' = p ∧ q' = q
    · simp only [Call.step, if_pos hpair, Option.map_some, Option.getD_some, Option.some.injEq] at h
      subst h
      exact ⟨rfl, rfl, rfl, by simp [Call.registration, hpair], rfl, rfl⟩
    · simp only [Call.step, if_neg hpair, Option.some.injEq] at h
      subst h
      exact ⟨rfl, rfl, rfl, by simp [Call.registration, hpair], rfl, rfl⟩
  | updateRelayStatus p' q' registered fqdn =>
    by_cases hpair : p' = p ∧ q' = q
    · simp only [Call.step, if_pos hpair, Option.map_some, Option.some.injEq] at h
      subst h
      refine ⟨rfl, rfl, rfl, rfl, by simp [Call.relayFlag, hpair], ?_⟩
      cases fqdn with
      | nil => simp [Call.relayName]
      | cons => simp [Call.relayName, hpair]
    · simp only [Call.step, if_neg hpair, Option.some.injEq] at h
      subst h
      refine ⟨rfl, rfl, rfl, rfl, by simp [Call.relayFlag, hpair], ?_⟩
      have hname : ¬(p' = p ∧ q' = q ∧ fqdn ≠ []) := fun h => hpair ⟨h.1, h.2.1⟩
      simp [Call.relayName, hname]
  | pruneStale now =>
    rw [Call.step, Option.filter_eq_some_iff, Option.some.injEq] at h
    obtain ⟨rfl, -⟩ := h
    exact ⟨rfl, rfl, rfl, rfl, rfl, rfl⟩

/-- Only a registration makes a node join. -/
theorem joined_of_step (h : c.step nodeTtl p q none = some n) :
    ∃ hostname status, c = .registerNode p q hostname status n.joinedAt ∧
      n = { partyId := p, port := q, hostname, status, lastSeen := n.joinedAt,
            joinedAt := n.joinedAt } := by
  cases c with
  | registerNode p' q' hostname status now =>
    by_cases hpair : p' = p ∧ q' = q
    · obtain ⟨rfl, rfl⟩ := hpair
      simp only [Call.step, and_self, if_true, Option.map_none, Option.getD_none,
        Option.some.injEq] at h
      subst h
      exact ⟨hostname, status, rfl, rfl⟩
    · simp [Call.step, hpair] at h
  | updateRelayStatus p' q' registered fqdn => simp [Call.step] at h
  | pruneStale now => simp [Call.step] at h

/-! ## Since the node joined -/

/-- The node joined with the call `joining`, after `before`, and has been there ever since. -/
structure Recorded (nodeTtl p q : ℤ) (before : List Call) (joining : Call) (since : List Call)
    (n : NodeInfo) : Prop where
  partyId : n.partyId = p
  port : n.port = q
  absent : nodeKey p q ∉ registry nodeTtl before
  joined : ∃ hostname status, joining = .registerNode p q hostname status n.joinedAt
  present : ∀ calls, calls <+: since → nodeKey p q ∈ registry nodeTtl (before ++ joining :: calls)
  announced : ((before ++ joining :: since).filterMap (Call.registration p q)).getLast? =
    some (n.hostname, n.status, n.lastSeen)
  relayRegistered : n.relayRegistered =
    (since.filterMap (Call.relayFlag p q)).getLast?.getD false
  relayFqdn : n.relayFqdn = (since.filterMap (Call.relayName p q)).getLast?.getD []

theorem getLast?_filterMap_snoc {α β : Type} (f : α → Option β) (l : List α) (a : α) :
    ((l ++ [a]).filterMap f).getLast? = (f a).or (l.filterMap f).getLast? := by
  cases h : f a with
  | none => simp [h]
  | some b => simp [h]

theorem mem_registry_iff : nodeKey p q ∈ registry nodeTtl calls ↔
    ∃ n, (registry nodeTtl calls)[nodeKey p q]? = some n := by
  rw [Std.ExtTreeMap.mem_iff_isSome_getElem?, Option.isSome_iff_exists]

variable {before since : List Call} {joining : Call}

/-- The call with which the node joins. -/
theorem Recorded.join (habsent : (registry nodeTtl calls)[nodeKey p q]? = none)
    (h : c.step nodeTtl p q none = some n) : Recorded nodeTtl p q calls c [] n := by
  have hentry : (registry nodeTtl (calls ++ [c]))[nodeKey p q]? = some n := by
    rw [getElem?_registry_snoc, habsent, h]
  obtain ⟨hostname, status, rfl, hn⟩ := joined_of_step h
  generalize n.joinedAt = t at *
  subst hn
  refine ⟨rfl, rfl, ?_, ⟨hostname, status, rfl⟩, ?_, ?_, rfl, rfl⟩
  · rw [Std.ExtTreeMap.mem_iff_isSome_getElem?, habsent]
    simp
  · rintro calls' hcalls'
    rw [List.prefix_nil.mp hcalls']
    exact mem_registry_iff.mpr ⟨_, hentry⟩
  · rw [getLast?_filterMap_snoc]
    simp [Call.registration]

/-- One more call that leaves the node there. -/
theorem Recorded.snoc (hm : Recorded nodeTtl p q before joining since m)
    (hentry : (registry nodeTtl (before ++ joining :: since))[nodeKey p q]? = some m)
    (h : c.step nodeTtl p q (some m) = some n) :
    Recorded nodeTtl p q before joining (since ++ [c]) n := by
  have hstep := Follows.of_step h
  have hassoc : before ++ joining :: (since ++ [c]) = (before ++ joining :: since) ++ [c] := by
    simp
  refine ⟨hstep.partyId.trans hm.partyId, hstep.port.trans hm.port, hm.absent, ?_, ?_, ?_, ?_, ?_⟩
  · rw [hstep.joinedAt]
    exact hm.joined
  · intro calls' hcalls'
    rcases List.prefix_concat_iff.mp hcalls' with rfl | hcalls'
    · rw [hassoc, mem_registry_iff, getElem?_registry_snoc, hentry]
      exact ⟨n, h⟩
    · exact hm.present calls' hcalls'
  · rw [hassoc, getLast?_filterMap_snoc, hm.announced, hstep.announced]
    cases c.registration p q <;> rfl
  · rw [getLast?_filterMap_snoc, hstep.relayRegistered, hm.relayRegistered]
    cases c.relayFlag p q <;> rfl
  · rw [getLast?_filterMap_snoc, hstep.relayFqdn, hm.relayFqdn]
    cases c.relayName p q <;> rfl

/-- An entry is what the calls since its node joined have made of it. -/
theorem exists_recorded (h : (registry nodeTtl calls)[nodeKey p q]? = some n) :
    ∃ before joining since, calls = before ++ joining :: since ∧
      Recorded nodeTtl p q before joining since n := by
  induction calls using List.reverseRecOn generalizing n with
  | nil => simp at h
  | append_singleton calls c ih =>
    rw [getElem?_registry_snoc] at h
    cases hentry : (registry nodeTtl calls)[nodeKey p q]? with
    | none =>
      rw [hentry] at h
      exact ⟨calls, c, [], rfl, .join hentry h⟩
    | some m =>
      rw [hentry] at h
      obtain ⟨before, joining, since, rfl, hm⟩ := ih hentry
      exact ⟨before, joining, since ++ [c], by simp, hm.snoc hentry h⟩

/-! ## Every entry stands under the key of its pair -/

theorem eq_nodeKey_of_apply {nodes : Nodes}
    (hnodes : ∀ k n, nodes[k]? = some n → k = nodeKey n.partyId n.port) {k : List Char}
    (h : (c.apply nodeTtl nodes)[k]? = some n) : k = nodeKey n.partyId n.port := by
  cases c with
  | registerNode p q hostname status now =>
    rw [Call.apply, getElem?_registerNode] at h
    split at h
    · rename_i hk
      cases hentry : nodes[k]? with
      | none =>
        rw [hentry] at h
        cases h
        exact hk.symm
      | some m =>
        rw [hentry] at h
        cases h
        exact hnodes k m hentry
    · exact hnodes k n h
  | updateRelayStatus p q registered fqdn =>
    rw [Call.apply, getElem?_updateRelayStatus] at h
    split at h
    · obtain ⟨m, hentry, rfl⟩ := Option.map_eq_some_iff.mp h
      exact hnodes k m hentry
    · exact hnodes k n h
  | pruneStale now =>
    rw [Call.apply, getElem?_pruneStale, Option.filter_eq_some_iff] at h
    exact hnodes k n h.1

theorem eq_nodeKey_of_registry {k : List Char} (h : (registry nodeTtl calls)[k]? = some n) :
    k = nodeKey n.partyId n.port := by
  induction calls using List.reverseRecOn generalizing k n with
  | nil => simp at h
  | append_singleton calls c ih =>
    rw [registry_snoc] at h
    exact eq_nodeKey_of_apply (fun _ _ hentry => ih hentry) h

/-- What every call makes of entries with a property keeps the property. -/
theorem forall_registry {P : NodeInfo → Prop}
    (hstep : ∀ c ∈ calls, ∀ p q entry n, (∀ m ∈ entry, P m) → c.step nodeTtl p q entry = some n →
      P n)
    {k : List Char} (h : (registry nodeTtl calls)[k]? = some n) : P n := by
  induction calls using List.reverseRecOn generalizing k n with
  | nil => simp at h
  | append_singleton calls c ih =>
    rw [List.forall_mem_append, List.forall_mem_singleton] at hstep
    have hkey := eq_nodeKey_of_registry h
    subst hkey
    rw [getElem?_registry_snoc] at h
    exact hstep.2 _ _ _ n (fun m hm => ih hstep.1 hm) h

/-! ## Who keeps registering stays -/

theorem Clocked.le {a b : List Call} {x y : Call} (h : Clocked (a ++ x :: b)) {t u : ℚ}
    (hx : x.now? = some t) (hy : y ∈ b) (hu : y.now? = some u) : t ≤ u := by
  rw [Clocked, List.filterMap_append, List.filterMap_cons_some hx, List.pairwise_append] at h
  exact (List.pairwise_cons.mp h.2.1).1 u (List.mem_filterMap.mpr ⟨y, hy, hu⟩)

theorem Clocked.left {a b : List Call} (h : Clocked (a ++ b)) : Clocked a := by
  rw [Clocked, List.filterMap_append, List.pairwise_append] at h
  exact h.1

/-- As long as no sweep comes more than `nodeTtl` after a registration, the node is there. -/
theorem exists_of_recent {before after : List Call} {hostname status : List Char} {t : ℚ}
    (hclock : Clocked (before ++ .registerNode p q hostname status t :: after))
    (hrecent : ∀ now, .pruneStale now ∈ after → now - t ≤ nodeTtl) :
    ∃ n, (registry nodeTtl (before ++ .registerNode p q hostname status t :: after))[nodeKey p q]? =
      some n ∧ t ≤ n.lastSeen := by
  induction after using List.reverseRecOn with
  | nil =>
    rw [getElem?_registry_snoc, Call.step, if_pos ⟨rfl, rfl⟩]
    refine ⟨_, rfl, ?_⟩
    cases (registry nodeTtl before)[nodeKey p q]? <;> exact le_rfl
  | append_singleton after c ih =>
    have hassoc : before ++ Call.registerNode p q hostname status t :: (after ++ [c]) =
        (before ++ Call.registerNode p q hostname status t :: after) ++ [c] := by simp
    obtain ⟨m, hentry, hm⟩ := ih (Clocked.left (hassoc ▸ hclock))
      fun now hnow => hrecent now (List.mem_append_left _ hnow)
    rw [hassoc, getElem?_registry_snoc, hentry]
    cases c with
    | registerNode p' q' hostname' status' now =>
      by_cases hpair : p' = p ∧ q' = q
      · rw [Call.step, if_pos hpair]
        refine ⟨_, rfl, ?_⟩
        exact hclock.le rfl (List.mem_append_right after List.mem_cons_self) rfl
      · rw [Call.step, if_neg hpair]
        exact ⟨m, rfl, hm⟩
    | updateRelayStatus p' q' registered fqdn =>
      by_cases hpair : p' = p ∧ q' = q
      · rw [Call.step, if_pos hpair]
        exact ⟨_, rfl, hm⟩
      · rw [Call.step, if_neg hpair]
        exact ⟨m, rfl, hm⟩
    | pruneStale now =>
      have hnow := hrecent now (List.mem_append_right after List.mem_cons_self)
      refine ⟨m, ?_, hm⟩
      rw [Call.step, Option.filter_some, if_pos]
      simp only [decide_eq_true_eq]
      linarith

/-- Two registrations of the pair with none between them are at most `nodeTtl` apart. -/
def Steady (nodeTtl p q : ℤ) (calls : List Call) : Prop :=
  ∀ (a between b : List Call) (hostname status hostname' status' : List Char) (t t' : ℚ),
    calls = a ++ .registerNode p q hostname status t ::
      (between ++ .registerNode p q hostname' status' t' :: b) →
    (∀ c ∈ between, c.registration p q = none) → t' - t ≤ nodeTtl

theorem registration_isSome_iff : (c.registration p q).isSome ↔
    ∃ hostname status now, c = .registerNode p q hostname status now := by
  cases c with
  | registerNode p' q' hostname status now =>
    by_cases hpair : p' = p ∧ q' = q
    · simp [Call.registration, hpair]
    · simp [Call.registration, hpair]
  | updateRelayStatus p' q' registered fqdn => simp [Call.registration]
  | pruneStale now => simp [Call.registration]

theorem registration_eq_none_iff : c.registration p q = none ↔ ¬(c.registration p q).isSome := by
  simp

/-- The last call of a kind. -/
theorem exists_last {f : Call → Bool} (h : ∃ c ∈ calls, f c) :
    ∃ a c b, calls = a ++ c :: b ∧ f c ∧ ∀ d ∈ b, ¬f d := by
  induction calls using List.reverseRecOn with
  | nil => simp at h
  | append_singleton calls c ih =>
    by_cases hc : f c
    · exact ⟨calls, c, [], rfl, hc, by simp⟩
    · obtain ⟨d, hd, hfd⟩ := h
      rcases List.mem_append.mp hd with hd | hd
      · obtain ⟨a, e, b, rfl, he, hb⟩ := ih ⟨d, hd, hfd⟩
        refine ⟨a, e, b ++ [c], by simp, he, ?_⟩
        intro x hx
        rcases List.mem_append.mp hx with hx | hx
        · exact hb x hx
        · rwa [List.mem_singleton.mp hx]
      · rw [List.mem_singleton.mp hd] at hfd
        exact absurd hfd hc

/-- Between its registrations a node that registers often enough is there. -/
theorem mem_registry_of_steady {a b : List Call} (hclock : Clocked (a ++ b))
    (hsteady : Steady nodeTtl p q (a ++ b)) (ha : ∃ c ∈ a, (c.registration p q).isSome)
    (hb : ∃ c ∈ b, (c.registration p q).isSome) : nodeKey p q ∈ registry nodeTtl a := by
  obtain ⟨a₁, last, a₂, rfl, hlast, ha₂⟩ := exists_last ha
  obtain ⟨first, hfirst⟩ := Option.isSome_iff_exists.mp
    (List.find?_isSome.mpr hb : (b.find? fun c => (c.registration p q).isSome).isSome)
  obtain ⟨hregisters, b₁, b₂, rfl, hb₁⟩ := List.find?_eq_some_iff_append.mp hfirst
  obtain ⟨hostname, status, t, rfl⟩ := registration_isSome_iff.mp hlast
  obtain ⟨hostname', status', t', rfl⟩ := registration_isSome_iff.mp hregisters
  have hgap : t' - t ≤ nodeTtl := by
    refine hsteady a₁ (a₂ ++ b₁) b₂ hostname status hostname' status' t t' (by simp) ?_
    intro c hc
    rw [registration_eq_none_iff]
    rcases List.mem_append.mp hc with hc | hc
    · exact ha₂ c hc
    · simpa using hb₁ c hc
  obtain ⟨n, hn, -⟩ := exists_of_recent hclock.left fun now hnow => by
    obtain ⟨x, y, rfl⟩ := List.append_of_mem hnow
    have hbefore : now ≤ t' := by
      have hsplit : Clocked ((a₁ ++ Call.registerNode p q hostname status t :: x) ++
          Call.pruneStale now :: (y ++ (b₁ ++ Call.registerNode p q hostname' status' t' ::
            b₂))) := by
        simpa using hclock
      have hlater : Call.registerNode p q hostname' status' t' ∈
          y ++ (b₁ ++ Call.registerNode p q hostname' status' t' :: b₂) := by simp
      exact hsplit.le rfl hlater rfl
    linarith
  exact mem_registry_iff.mpr ⟨n, hn⟩

/-- The laws of the registry, for any calls with a clock that does not go back: (a) an entry
stands under the key of its pair, and different pairs have different keys; (b), (c) what it says
is what the calls since its node joined have said; (d) a sweep removes the entries not seen for
more than `nodeTtl`, so a node that keeps registering stays; (e) a party is resolved if and only
if a node of it is online, and to such a node. -/
theorem registry_refines_history (nodeTtl : ℤ) (calls : List Call) (hclock : Clocked calls) :
    (∀ p q p' q', nodeKey p q = nodeKey p' q' ↔ p = p' ∧ q = q') ∧
    (∀ (k : List Char) (n : NodeInfo), (registry nodeTtl calls)[k]? = some n →
      k = nodeKey n.partyId n.port) ∧
    (∀ p q n, (registry nodeTtl calls)[nodeKey p q]? = some n →
      ∃ before joining since, calls = before ++ joining :: since ∧
        Recorded nodeTtl p q before joining since n) ∧
    (∀ (k : List Char) (now : ℚ), (pruneStale nodeTtl (registry nodeTtl calls) now).1[k]? =
      (registry nodeTtl calls)[k]?.filter fun n => now - n.lastSeen ≤ nodeTtl) ∧
    (∀ p q, Steady nodeTtl p q calls → ∀ a b, calls = a ++ b →
      (∃ c ∈ a, (c.registration p q).isSome) → (∃ c ∈ b, (c.registration p q).isSome) →
      nodeKey p q ∈ registry nodeTtl a) ∧
    ∀ p, ((resolveParty (registry nodeTtl calls) p).isSome ↔
        ∃ (k : List Char) (n : NodeInfo), (registry nodeTtl calls)[k]? = some n ∧ n.partyId = p ∧
          n.status = "online".toList) ∧
      ∀ answer, resolveParty (registry nodeTtl calls) p = some answer →
        ∃ (k : List Char) (n : NodeInfo), (registry nodeTtl calls)[k]? = some n ∧ n.partyId = p ∧
          n.status = "online".toList ∧ answer = (n.hostname, n.port) := by
  refine ⟨fun p q p' q' => nodeKey_inj, fun k n h => eq_nodeKey_of_registry h,
    fun p q n h => exists_recorded h, fun k now => getElem?_pruneStale, ?_,
    fun p => ⟨resolveParty_isSome_iff, fun answer h => exists_of_resolveParty h⟩⟩
  rintro p q hsteady a b rfl ha hb
  exact mem_registry_of_steady hclock hsteady ha hb

/-- A node that joins and is swept past once. -/
def demoCalls : List Call :=
  [.registerNode 1 8080 "alice".toList "online".toList 0, .updateRelayStatus 1 8080 true [],
    .pruneStale 10]

theorem registry_refines_history_demo :
    ∃ before joining since, demoCalls = before ++ joining :: since ∧
      Recorded 30 1 8080 before joining since
        { partyId := 1, port := 8080, hostname := "alice".toList, status := "online".toList,
          lastSeen := 0, joinedAt := 0, relayRegistered := true, relayFqdn := [] } :=
  (registry_refines_history 30 demoCalls (by decide +kernel)).2.2.1 1 8080 _ (by decide +kernel)

end Freehold.Discovery
