import Freehold.Foundation.Decimal

/-!
# The discovery registry (`discovery.cpp`)

`nodes_` is a map from `"party_id:port"` to what is known of the node. Each definition is
what the source does while it holds `nodes_mu_`. Characters stand for bytes, and the clock is
exact.
-/

namespace Freehold.Discovery

structure NodeInfo where
  partyId : ℤ
  port : ℤ
  hostname : List Char
  status : List Char
  lastSeen : ℚ
  joinedAt : ℚ
  relayRegistered : Bool := false
  relayFqdn : List Char := []
  deriving DecidableEq

/-- `nodes_`, in the order of its keys. -/
abbrev Nodes := Std.ExtTreeMap (List Char) NodeInfo

def nodeKey (partyId port : ℤ) : List Char := Decimal.ofInt partyId ++ ':' :: Decimal.ofInt port

/-- The registry after `register_node`, and `is_new`. -/
def registerNode (nodes : Nodes) (partyId port : ℤ) (hostname status : List Char) (now : ℚ) :
    Nodes × Bool :=
  let key := nodeKey partyId port
  match nodes[key]? with
  | some n => (nodes.insert key { n with hostname, status, lastSeen := now }, false)
  | none =>
    (nodes.insert key
      { partyId, port, hostname, status, lastSeen := now, joinedAt := now,
        relayRegistered := false, relayFqdn := [] }, true)

def updateRelayStatus (nodes : Nodes) (partyId port : ℤ) (registered : Bool) (fqdn : List Char) :
    Nodes :=
  let key := nodeKey partyId port
  match nodes[key]? with
  | some n =>
    nodes.insert key
      { n with
        relayRegistered := registered
        relayFqdn := if fqdn.isEmpty then n.relayFqdn else fqdn }
  | none => nodes

/-- `stale`. -/
def staleKeys (nodeTtl : ℤ) (nodes : Nodes) (now : ℚ) : List (List Char) :=
  (nodes.toList.filter fun entry => now - entry.2.lastSeen > nodeTtl).map Prod.fst

/-- The registry after `prune_stale`, and `pruned`. -/
def pruneStale (nodeTtl : ℤ) (nodes : Nodes) (now : ℚ) : Nodes × Bool :=
  let stale := staleKeys nodeTtl nodes now
  (stale.foldl (fun nodes key => nodes.erase key) nodes, !stale.isEmpty)

/-- The hostname and port of the first node that is online. -/
def resolveParty (nodes : Nodes) (partyId : ℤ) : Option (List Char × ℤ) :=
  nodes.toList.findSome? fun entry =>
    if entry.2.partyId = partyId ∧ entry.2.status = "online".toList then
      some (entry.2.hostname, entry.2.port)
    else none

/-! ## Keys -/

theorem nodeKey_inj {p q p' q' : ℤ} : nodeKey p q = nodeKey p' q' ↔ p = p' ∧ q = q' := by
  refine ⟨fun h => ?_, fun ⟨hp, hq⟩ => by rw [hp, hq]⟩
  have hcolon : ∀ n, ':' ∉ Decimal.ofInt n := fun n =>
    Decimal.notMem_ofInt (by decide) (by decide)
  obtain ⟨hparty, -, hport⟩ := (List.append_cons_inj_of_notMem (hcolon p) (hcolon q)).mp h
  exact ⟨Decimal.ofInt_injective hparty, Decimal.ofInt_injective hport⟩

/-! ## What the operations do to an entry -/

variable {nodes : Nodes} {k : List Char} {n : NodeInfo} {p q : ℤ} {hostname status : List Char}
  {now : ℚ}

theorem getElem?_registerNode :
    (registerNode nodes p q hostname status now).1[k]? =
      if nodeKey p q = k then
        some ((nodes[k]?.map fun n => { n with hostname, status, lastSeen := now }).getD
          { partyId := p, port := q, hostname, status, lastSeen := now, joinedAt := now })
      else nodes[k]? := by
  unfold registerNode
  by_cases hk : nodeKey p q = k
  · subst hk
    cases hn : nodes[nodeKey p q]? with
    | some n => simp [hn]
    | none => simp [hn]
  · cases hn : nodes[nodeKey p q]? with
    | some n => simp [hn, Std.ExtTreeMap.getElem?_insert, hk]
    | none => simp [hn, Std.ExtTreeMap.getElem?_insert, hk]

theorem getElem?_updateRelayStatus {registered : Bool} {fqdn : List Char} :
    (updateRelayStatus nodes p q registered fqdn)[k]? =
      if nodeKey p q = k then
        nodes[k]?.map fun n =>
          { n with
            relayRegistered := registered
            relayFqdn := if fqdn.isEmpty then n.relayFqdn else fqdn }
      else nodes[k]? := by
  unfold updateRelayStatus
  by_cases hk : nodeKey p q = k
  · subst hk
    cases hn : nodes[nodeKey p q]? with
    | some n => simp [hn]
    | none => simp [hn]
  · cases hn : nodes[nodeKey p q]? with
    | some n => simp [hn, Std.ExtTreeMap.getElem?_insert, hk]
    | none => simp [hn, hk]

theorem getElem?_foldl_erase (keys : List (List Char)) :
    (keys.foldl (fun nodes key => nodes.erase key) nodes)[k]? =
      if k ∈ keys then none else nodes[k]? := by
  induction keys generalizing nodes with
  | nil => simp
  | cons key keys ih =>
    rw [List.foldl_cons, ih, Std.ExtTreeMap.getElem?_erase]
    by_cases hkey : key = k
    · simp [hkey]
    · simp [hkey, Ne.symm hkey]

theorem mem_staleKeys {nodeTtl : ℤ} : k ∈ staleKeys nodeTtl nodes now ↔
    ∃ n, nodes[k]? = some n ∧ nodeTtl < now - n.lastSeen := by
  unfold staleKeys
  simp only [List.mem_map, List.mem_filter, Prod.exists, gt_iff_lt, decide_eq_true_eq,
    exists_and_right, exists_eq_right, Std.ExtTreeMap.mem_toList_iff_getElem?_eq_some]

/-- Exactly the stale entries go. -/
theorem getElem?_pruneStale {nodeTtl : ℤ} :
    (pruneStale nodeTtl nodes now).1[k]? =
      nodes[k]?.filter fun n => now - n.lastSeen ≤ nodeTtl := by
  unfold pruneStale
  rw [getElem?_foldl_erase]
  cases hn : nodes[k]? with
  | none => simp
  | some n =>
    by_cases hold : (nodeTtl : ℚ) < now - n.lastSeen
    · rw [if_pos (mem_staleKeys.mpr ⟨n, hn, hold⟩), Option.filter, if_neg]
      simpa only [decide_eq_true_eq, not_le] using hold
    · have hfresh : k ∉ staleKeys nodeTtl nodes now := fun hk => by
        obtain ⟨m, hm, hstale⟩ := mem_staleKeys.mp hk
        cases hn.symm.trans hm
        exact hold hstale
      rw [if_neg hfresh, Option.filter, if_pos]
      simpa only [decide_eq_true_eq, not_lt] using hold

theorem registerNode_snd : (registerNode nodes p q hostname status now).2 = true ↔
    nodes[nodeKey p q]? = none := by
  unfold registerNode
  cases hn : nodes[nodeKey p q]? with
  | some n => simp [hn]
  | none => simp [hn]

/-! ## Resolving a party -/

theorem exists_of_resolveParty {answer : List Char × ℤ} (h : resolveParty nodes p = some answer) :
    ∃ (k : List Char) (n : NodeInfo),
      nodes[k]? = some n ∧ n.partyId = p ∧ n.status = "online".toList ∧
      answer = (n.hostname, n.port) := by
  obtain ⟨⟨k, n⟩, hentry, hanswer⟩ := List.exists_of_findSome?_eq_some h
  rw [Option.ite_none_right_eq_some, Option.some.injEq] at hanswer
  rw [Std.ExtTreeMap.mem_toList_iff_getElem?_eq_some] at hentry
  exact ⟨k, n, hentry, hanswer.1.1, hanswer.1.2, hanswer.2.symm⟩

theorem resolveParty_isSome_iff : (resolveParty nodes p).isSome ↔
    ∃ (k : List Char) (n : NodeInfo),
      nodes[k]? = some n ∧ n.partyId = p ∧ n.status = "online".toList := by
  constructor
  · intro h
    obtain ⟨answer, hanswer⟩ := Option.isSome_iff_exists.mp h
    obtain ⟨k, n, hentry, hparty, hstatus, -⟩ := exists_of_resolveParty hanswer
    exact ⟨k, n, hentry, hparty, hstatus⟩
  · rintro ⟨k, n, hentry, hparty, hstatus⟩
    refine List.findSome?_isSome_iff.mpr
      ⟨(k, n), Std.ExtTreeMap.mem_toList_iff_getElem?_eq_some.mpr hentry, ?_⟩
    rw [if_pos ⟨hparty, hstatus⟩]
    rfl

/-! ## The order of the updates

The relay's thread calls `update_relay_status` while `main` goes on to `register_node`. -/

/-- What the two write of an entry, the times apart. -/
def written (nodes : Nodes) (partyId port : ℤ) :
    Option (List Char × List Char × Bool × List Char) :=
  nodes[nodeKey partyId port]?.map fun n =>
    (n.hostname, n.status, n.relayRegistered, n.relayFqdn)

theorem written_updateRelayStatus_registerNode {registered : Bool} {fqdn : List Char} :
    written (updateRelayStatus (registerNode nodes p q hostname status now).1 p q registered fqdn)
      p q =
      some (hostname, status, registered,
        if fqdn.isEmpty then (nodes[nodeKey p q]?.map NodeInfo.relayFqdn).getD [] else fqdn) := by
  unfold written
  rw [getElem?_updateRelayStatus, if_pos rfl, getElem?_registerNode, if_pos rfl]
  cases nodes[nodeKey p q]? with
  | none => rfl
  | some n => rfl

/-- What the relay says is kept only by an entry. -/
theorem written_registerNode_updateRelayStatus {registered : Bool} {fqdn : List Char} :
    written (registerNode (updateRelayStatus nodes p q registered fqdn) p q hostname status now).1
      p q =
      some ((nodes[nodeKey p q]?.map fun n =>
        (hostname, status, registered, if fqdn.isEmpty then n.relayFqdn else fqdn)).getD
          (hostname, status, false, [])) := by
  unfold written
  rw [getElem?_registerNode, if_pos rfl, getElem?_updateRelayStatus, if_pos rfl]
  cases nodes[nodeKey p q]? with
  | none => rfl
  | some n => rfl

/-- The order makes no difference exactly if the node has an entry, or the relay says nothing. -/
theorem written_comm_iff (nodes : Nodes) (p q : ℤ) (hostname status : List Char) (registered : Bool)
    (fqdn : List Char) (now now' : ℚ) :
    written (updateRelayStatus (registerNode nodes p q hostname status now).1 p q registered fqdn)
      p q =
      written (registerNode (updateRelayStatus nodes p q registered fqdn) p q hostname status
        now').1
        p q ↔
      nodes[nodeKey p q]?.isSome ∨ (registered = false ∧ fqdn = []) := by
  rw [written_updateRelayStatus_registerNode, written_registerNode_updateRelayStatus]
  cases nodes[nodeKey p q]? with
  | some n => simp
  | none =>
    cases fqdn with
    | nil => simp
    | cons c fqdn => simp

/-- The relay's callback is lost, when it comes before the node has announced itself. -/
theorem written_comm_lost :
    written (registerNode (updateRelayStatus ∅ 1 8080 true []) 1 8080 ['h'] "online".toList 0).1
      1 8080 ≠
      written (updateRelayStatus (registerNode ∅ 1 8080 ['h'] "online".toList 0).1 1 8080 true [])
        1 8080 := by
  rw [written_updateRelayStatus_registerNode, written_registerNode_updateRelayStatus]
  decide +kernel

end Freehold.Discovery
