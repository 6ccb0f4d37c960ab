import Freehold.Discovery.History
import Freehold.Discovery.Topology
import Freehold.Relay.Engine

/-!
# Which announcements keep the documents decodable

Announced texts and assigned subdomains end up between quotes as they are. The documents are
decoded to what is stored, at every moment, exactly if no accepted announcement and no
subdomain brings a text that needs an escape (`decodable_iff_plain`).
-/

namespace Freehold.Discovery

open Json
open Freehold.Relay (fqdn)

/-- What reaches the registry from outside. -/
inductive Event where
  /-- `POST /announce`. -/
  | announce (body : List Char) (now : ℚ)
  /-- The relay has assigned a subdomain to the node itself. -/
  | subdomain (sub : List Char) (now : ℚ)
  | prune (now : ℚ)

namespace Event

/-- The calls that an event makes; the node itself has party `p` and port `q`. -/
def calls (p q : ℤ) : Event → List Call
  | .announce body now =>
    match announcement body with
    | some a => [.registerNode a.partyId a.port a.hostname a.status now]
    | none => []
  | .subdomain sub now =>
    [.registerNode p q (fqdn sub) "online".toList now,
      .updateRelayStatus p q true (fqdn sub)]
  | .prune now => [.pruneStale now]

/-- The texts that an event brings may stand in a document as they are. -/
def Plain : Event → Prop
  | .announce body _ =>
    ∀ a ∈ announcement body, Discovery.Plain a.hostname ∧ Discovery.Plain a.status
  | .subdomain sub _ => Discovery.Plain sub
  | .prune _ => True

end Event

/-- The topology says what is stored, and every answer to a query is JSON. -/
structure Decodable (print : Printer) (nodes : Nodes) : Prop where
  topology : ∀ now time,
    decode (topologyJson print nodes now time) = some (topologyValue print nodes now time)
  resolve : ∀ query, (decode (handleResolve nodes query).2).isSome

variable {print : Printer} {nodeTtl : ℤ} {p q : ℤ} {nodes : Nodes} {calls : List Call} {c : Call}

theorem decodable_iff :
    Decodable print nodes ↔ ∀ (k : List Char) (n : NodeInfo), nodes[k]? = some n → n.Plain :=
  ⟨fun h => decode_topologyJson_iff.mp (h.topology 0 0),
    fun h => ⟨fun _ _ => decode_topologyJson_iff.mpr h, decode_handleResolve h⟩⟩

theorem plain_fqdn {sub : List Char} : Plain (fqdn sub) ↔ Plain sub := by
  have hascii : ∀ c ∈ ".stare.network".toList, Utf8.isAscii c :=
    List.all_eq_true.mp (by decide +kernel)
  have hsuffix : Unescaped ".stare.network".toList := by
    have h : Plain ".stare.network".toList := by decide +kernel
    exact h.1
  unfold Plain fqdn
  rw [Utf8.valid_append_ascii hascii]
  refine and_congr_left fun _ => ⟨fun h c hc => h c (List.mem_append_left _ hc), fun h c hc => ?_⟩
  exact (List.mem_append.mp hc).elim (h c) (hsuffix c)

/-- The texts that a call stores. -/
def Call.Plain : Call → Prop
  | .registerNode _ _ hostname status _ => Discovery.Plain hostname ∧ Discovery.Plain status
  | .updateRelayStatus _ _ _ fqdn => Discovery.Plain fqdn
  | .pruneStale _ => True

theorem Event.plain_calls {e : Event} (h : e.Plain) : ∀ c ∈ e.calls p q, c.Plain := by
  cases e with
  | announce body now =>
    cases hbody : announcement body with
    | none => simp [Event.calls, hbody]
    | some a => simpa [Event.calls, hbody, Call.Plain] using h a hbody
  | subdomain sub now =>
    have hname := plain_fqdn.mpr h
    have honline : Discovery.Plain "online".toList := by decide +kernel
    exact List.forall_mem_cons.mpr ⟨⟨hname, honline⟩, List.forall_mem_singleton.mpr hname⟩
  | prune now => exact List.forall_mem_singleton.mpr trivial

/-- One call that brings no text to be escaped stores none. -/
theorem plain_step (hc : c.Plain) {p q : ℤ} {entry : Option NodeInfo} {n : NodeInfo}
    (hentry : ∀ m ∈ entry, m.Plain) (h : c.step nodeTtl p q entry = some n) : n.Plain := by
  cases c with
  | registerNode p' q' hostname status now =>
    simp only [Call.step] at h
    split at h
    · cases entry with
      | none =>
        cases h
        exact ⟨hc.1, hc.2, (by decide : Plain [])⟩
      | some m =>
        cases h
        exact ⟨hc.1, hc.2, (hentry m rfl).relayFqdn⟩
    · exact hentry n h
  | updateRelayStatus p' q' registered fqdn =>
    simp only [Call.step] at h
    split at h
    · obtain ⟨m, hm, rfl⟩ := Option.map_eq_some_iff.mp h
      have hplain := hentry m hm
      refine ⟨hplain.hostname, hplain.status, ?_⟩
      show Plain (if fqdn.isEmpty then m.relayFqdn else fqdn)
      split
      · exact hplain.relayFqdn
      · exact hc
    · exact hentry n h
  | pruneStale now =>
    rw [Call.step, Option.filter_eq_some_iff] at h
    exact hentry n h.1

theorem plain_registry (hcalls : ∀ c ∈ calls, c.Plain) {k : List Char} {n : NodeInfo}
    (h : (registry nodeTtl calls)[k]? = some n) : n.Plain :=
  forall_registry (fun c hc _ _ _ _ hentry hn => plain_step (hcalls c hc) hentry hn) h

/-- Right after a registration its texts are stored. -/
theorem plain_of_registerNode {hostname status : List Char} {now : ℚ}
    (h : ∀ (k : List Char) (n : NodeInfo),
      (registry nodeTtl (calls ++ [.registerNode p q hostname status now]))[k]? = some n →
        n.Plain) :
    Plain hostname ∧ Plain status := by
  have hentry :
      (registry nodeTtl (calls ++ [.registerNode p q hostname status now]))[nodeKey p q]? =
      Call.step nodeTtl p q (registry nodeTtl calls)[nodeKey p q]?
        (.registerNode p q hostname status now) := getElem?_registry_snoc
  rw [Call.step, if_pos ⟨rfl, rfl⟩] at hentry
  have hplain := h _ _ hentry
  cases hold : (registry nodeTtl calls)[nodeKey p q]? with
  | none =>
    rw [hold] at hplain
    exact ⟨hplain.hostname, hplain.status⟩
  | some m =>
    rw [hold] at hplain
    exact ⟨hplain.hostname, hplain.status⟩

/-- The call with which an event brings its texts. -/
theorem Event.exists_registerNode {e : Event} (h : ¬e.Plain) :
    ∃ p' q' hostname status now others,
      e.calls p q = .registerNode p' q' hostname status now :: others ∧
      ¬(Discovery.Plain hostname ∧ Discovery.Plain status) := by
  cases e with
  | announce body now =>
    cases hbody : announcement body with
    | none => exact absurd (by simp [Event.Plain, hbody]) h
    | some a =>
      refine ⟨a.partyId, a.port, a.hostname, a.status, now, [], by simp [Event.calls, hbody], ?_⟩
      intro ha
      exact h fun b hb => Option.some.inj (hbody.symm.trans hb) ▸ ha
  | subdomain sub now =>
    exact ⟨p, q, _, _, now, _, rfl, fun hname => h (plain_fqdn.mp hname.1)⟩
  | prune now => exact absurd trivial h

/-- The documents are decodable at every moment of a run if and only if every accepted
announcement and every subdomain is free of texts that need an escape. -/
theorem decodable_iff_plain (print : Printer) (nodeTtl p q : ℤ) (events : List Event) :
    (∀ calls, calls <+: events.flatMap (Event.calls p q) →
      Decodable print (registry nodeTtl calls)) ↔ ∀ e ∈ events, e.Plain := by
  constructor
  · intro h e he
    by_contra hplain
    obtain ⟨before, after, rfl⟩ := List.append_of_mem he
    obtain ⟨p', q', hostname, status, now, others, hcalls, htexts⟩ :=
      Event.exists_registerNode (p := p) (q := q) hplain
    refine htexts (plain_of_registerNode (decodable_iff.mp (h (before.flatMap (Event.calls p q) ++
      [.registerNode p' q' hostname status now]) ?_)))
    rw [List.flatMap_append, List.flatMap_cons, hcalls]
    exact ⟨others ++ after.flatMap (Event.calls p q), by simp⟩
  · intro h calls hcalls
    refine decodable_iff.mpr fun k n hn => plain_registry (fun c hc => ?_) hn
    obtain ⟨e, he, hce⟩ := List.mem_flatMap.mp (hcalls.subset hc)
    exact Event.plain_calls (h e he) c hce

/-- The body `{"party_id":1,"port":8080,"hostname":"a\"b"}`, whose hostname is read as `a\`. -/
def quotedBody : List Char :=
  "\x7b\"party_id\":1,\"port\":8080,\"hostname\":\"a\\\"b\"\x7d".toList

/-- One announcement makes the topology unreadable. -/
theorem not_decodable_quotedBody :
    ∃ (print : Printer) (nodeTtl p q : ℤ) (events : List Event),
      decode (topologyJson print (registry nodeTtl (events.flatMap (Event.calls p q))) 5 100) =
        none ∧
      ¬Decodable print (registry nodeTtl (events.flatMap (Event.calls p q))) := by
  let print : Printer := ⟨fun x => Decimal.ofInt ⌊x⌋, fun x => (Number.ofInt ⌊x⌋).valid⟩
  have hnone : decode (topologyJson print (registry 30
      ([Event.announce quotedBody 0].flatMap (Event.calls 1 8080))) 5 100) = none := by
    decide +kernel
  refine ⟨print, 30, 1, 8080, [.announce quotedBody 0], hnone, fun h => ?_⟩
  rw [h.topology 5 100] at hnone
  cases hnone

end Freehold.Discovery
