import Freehold.Discovery.Documents
import Freehold.Foundation.JsonSplice

/-!
# What a reader makes of the published topology

Whatever was announced: if the topology is JSON at all, it has the structure that it is meant to
have, and its texts are those that the announced ones spell between quotes.
-/

namespace Freehold.Discovery

open Json

/-! ## Scanned texts -/

/-- `json_get_string` returns no text that could leave its quotes. -/
theorem contained_jsonGetString (json key : List Char) : Contained (jsonGetString json key) := by
  unfold jsonGetString
  split
  · exact .inl (by simp)
  · split
    · split
      · left
        intro hquote
        simpa using List.mem_takeWhile_imp hquote
      · exact .inl (by simp)
    · right
      intro c hc
      have hstop := List.mem_takeWhile_imp hc
      simp only [List.mem_cons, List.not_mem_nil, or_false, not_or, decide_eq_true_eq] at hstop
      obtain ⟨hcomma, hbrace, hspace, htab, hreturn, hline⟩ := hstop
      exact ⟨by simp [isSpace, hspace, htab, hreturn, hline], hcomma, hbrace⟩

theorem contained_announcement {body : List Char} {a : Announcement}
    (h : announcement body = some a) : Contained a.hostname ∧ Contained a.status := by
  have hhost : '"' ∉ "127.0.0.1".toList := by decide +kernel
  have honline : '"' ∉ "online".toList := by decide +kernel
  unfold announcement at h
  simp only at h
  split at h
  · cases h
  · cases h
    constructor
    · dsimp only
      split
      · exact .inl hhost
      · exact contained_jsonGetString _ _
    · dsimp only
      split
      · exact .inl honline
      · exact contained_jsonGetString _ _

/-! ## One entry -/

/-- The entry with its texts read, if they spell strings. -/
def NodeInfo.Spells (n m : NodeInfo) : Prop :=
  ∃ hostname status, unescape n.hostname = some hostname ∧ unescape n.status = some status ∧
    m = { n with hostname, status }

/-- What announcements leave in an entry. -/
structure NodeInfo.Contained (n : NodeInfo) : Prop where
  hostname : Json.Contained n.hostname
  status : Json.Contained n.status
  relayFqdn : n.relayFqdn = []

variable {print : Printer} {now : ℚ} {n : NodeInfo} {fuel : ℕ} {v : Value}
  {rest rest' : List Char}

theorem readAs_boolText (b : Bool) : ReadAs (· = .bool b) (boolText b ++ rest) rest := by
  apply ReadAs.of_eq
  cases b <;> exact fun fuel => rfl

/-- A key that starts with a letter, in front of anything. -/
theorem head?_key {key : List Char} {c : Char} (h : key.head? = some c) (hc : NoFollower c) :
    ∃ d ∈ (key ++ rest).head?, NoFollower d :=
  ⟨c, by rw [List.head?_append, h]; rfl, hc⟩

theorem stops_comma (t : List Char) : Stops (',' :: t) := stops_cons rfl

theorem readAs_nodeValue (hn : n.Contained) (rest : List Char) :
    ReadAs (fun v => ∃ m, n.Spells m ∧ v = nodeValue print now m)
      ((nodeValue print now n).render ++ rest) rest := by
  have hkeys : Plain "party_id".toList ∧ Plain "port".toList ∧ Plain "hostname".toList ∧
      Plain "status".toList ∧ Plain "uptime".toList ∧ Plain "relay_registered".toList ∧
      Plain "relay_fqdn".toList := by
    decide +kernel
  obtain ⟨hparty, hport, hhostname, hstatus, huptime, hregistered, hfqdn⟩ := hkeys
  have hs : "status".toList.head? = some 's' := by decide +kernel
  have hu : "uptime".toList.head? = some 'u' := by decide +kernel
  have hempty : Unescaped [] := List.forall_mem_nil _
  intro fuel v rest' h
  rw [skipSpaces_render] at h
  unfold nodeValue at h
  rw [render_object, List.cons_append, List.append_assoc] at h
  obtain ⟨_, ms, rfl, hms⟩ := value_object_inv h
  simp only [renderMembers, render_number, render_string, render_bool, hn.relayFqdn,
    List.append_assoc, List.cons_append, List.nil_append] at hms
  obtain ⟨_, _, ms₁, rfl, rfl, hms₁⟩ := members_cons hparty.1 (readAs_number _ (stops_comma _)) hms
  rw [skipSpaces_cons rfl] at hms₁
  obtain ⟨_, _, ms₂, rfl, rfl, hms₂⟩ := members_cons hport.1 (readAs_number _ (stops_comma _)) hms₁
  rw [skipSpaces_cons rfl] at hms₂
  obtain ⟨_, hostname, ms₃, hh, rfl, hms₃⟩ :=
    members_splice hhostname.1 hn.hostname (head?_key hs (by decide)) hms₂
  obtain ⟨_, status, ms₄, hst, rfl, hms₄⟩ :=
    members_splice hstatus.1 hn.status (head?_key hu (by decide)) hms₃
  obtain ⟨_, _, ms₅, rfl, rfl, hms₅⟩ := members_cons huptime.1
      (readAs_number _ (stops_comma _)) hms₄
  rw [skipSpaces_cons rfl] at hms₅
  obtain ⟨_, _, ms₆, rfl, rfl, hms₆⟩ := members_cons hregistered.1 (readAs_boolText _) hms₅
  rw [skipSpaces_cons rfl] at hms₆
  obtain ⟨_, rfl, rfl, rfl⟩ := members_last hfqdn.1 (readAs_string hempty) hms₆
  refine ⟨⟨{ n with hostname, status }, ⟨hostname, status, hh, hst, rfl⟩, ?_⟩, rfl⟩
  rw [nodeValue, hn.relayFqdn]

/-! ## The topology -/

/-- What a reader gets for an entry. -/
def ReadEntry (print : Printer) (now : ℚ) (entry : List Char × NodeInfo) (v : Value) : Prop :=
  ∃ m, entry.2.Spells m ∧ v = nodeValue print now m

/-- What a reader gets for the topology. -/
def ReadTopology (print : Printer) (nodes : Nodes) (now : ℚ) (time : ℤ) (v : Value) : Prop :=
  ∃ ws, List.Forall₂ (ReadEntry print now) nodes.toList ws ∧
    v = .object
      [("type".toList, .string "topology".toList), ("nodes".toList, .array ws),
        ("quorum_size".toList, .number (.ofInt nodes.size)),
        ("threshold".toList, .number (.ofInt 3)), ("epoch".toList, .number (.ofInt time))]

theorem readAs_topologyValue {nodes : Nodes} {time : ℤ}
    (hnodes : ∀ (k : List Char) (n : NodeInfo), nodes[k]? = some n → n.Contained) :
    ReadAs (ReadTopology print nodes now time) (topologyValue print nodes now time).render [] := by
  have hkeys : Plain "type".toList ∧ Plain "topology".toList ∧ Plain "nodes".toList ∧
      Plain "quorum_size".toList ∧ Plain "threshold".toList ∧ Plain "epoch".toList := by
    decide +kernel
  obtain ⟨htype, htopology, hlist, hquorum, hthreshold, hepoch⟩ := hkeys
  have hentries : ∀ entry ∈ nodes.toList, ∀ rest, ReadAs (ReadEntry print now entry)
      ((nodeValue print now entry.2).render ++ rest) rest := by
    intro entry hentry
    apply readAs_nodeValue
    exact hnodes entry.1 entry.2 (Std.ExtTreeMap.mem_toList_iff_getElem?_eq_some.mp hentry)
  intro fuel v rest' h
  rw [← List.append_nil (Value.render _), skipSpaces_render] at h
  unfold topologyValue at h
  rw [render_object, List.cons_append, List.append_assoc] at h
  obtain ⟨_, ms, rfl, hms⟩ := value_object_inv h
  simp only [renderMembers, render_number, render_string, List.append_assoc, List.cons_append,
    List.nil_append] at hms
  obtain ⟨_, _, ms₁, rfl, rfl, hms₁⟩ := members_cons htype.1 (readAs_string htopology.1) hms
  rw [skipSpaces_cons rfl] at hms₁
  obtain ⟨_, _, ms₂, ⟨ws, rfl, hws⟩, rfl, hms₂⟩ :=
    members_cons hlist.1 (readAs_array hentries) hms₁
  rw [skipSpaces_cons rfl] at hms₂
  obtain ⟨_, _, ms₃, rfl, rfl, hms₃⟩ := members_cons hquorum.1
      (readAs_number _ (stops_comma _)) hms₂
  rw [skipSpaces_cons rfl] at hms₃
  obtain ⟨_, _, ms₄, rfl, rfl, hms₄⟩ := members_cons hthreshold.1
      (readAs_number _ (stops_comma _)) hms₃
  rw [skipSpaces_cons rfl] at hms₄
  obtain ⟨_, rfl, rfl, rfl⟩ := members_last hepoch.1 (readAs_number _ (stops_cons rfl)) hms₄
  exact ⟨⟨ws, hws, rfl⟩, rfl⟩

/-- Whoever reads the published text gets one object for each entry. -/
theorem decode_topologyJson {nodes : Nodes} {time : ℤ} {v : Value}
    (hnodes : ∀ (k : List Char) (n : NodeInfo), nodes[k]? = some n → n.Contained)
    (h : decode (topologyJson print nodes now time) = some v) :
    ReadTopology print nodes now time v := by
  rw [topologyJson_eq_render] at h
  exact (readAs_topologyValue hnodes).decode h

/-! ## What announcements leave -/

/-- A body that is posted to `/announce`, or a sweep. -/
inductive Arrival where
  | announce (body : List Char) (now : ℚ)
  | prune (now : ℚ)

/-- `nodes_` after the arrivals. -/
def announced (nodeTtl : ℤ) (arrivals : List Arrival) : Nodes :=
  registry nodeTtl (arrivals.flatMap fun
    | .announce body now => (announcement body).toList.map fun a =>
        .registerNode a.partyId a.port a.hostname a.status now
    | .prune now => [.pruneStale now])

theorem contained_announced (nodeTtl : ℤ) (arrivals : List Arrival) {k : List Char}
    (h : (announced nodeTtl arrivals)[k]? = some n) : n.Contained := by
  refine forall_registry (fun c hc p q entry m hentry hm => ?_) h
  obtain ⟨arrival, -, hc⟩ := List.mem_flatMap.mp hc
  cases arrival with
  | announce body now =>
    obtain ⟨a, ha, rfl⟩ := List.mem_map.mp hc
    obtain ⟨hhost, hstatus⟩ := contained_announcement (Option.mem_toList.mp ha)
    simp only [Call.step] at hm
    split at hm
    · cases entry with
      | none =>
        cases hm
        exact ⟨hhost, hstatus, rfl⟩
      | some old =>
        cases hm
        exact ⟨hhost, hstatus, (hentry old rfl).relayFqdn⟩
    · exact hentry m hm
  | prune now =>
    rw [List.mem_singleton.mp hc] at hm
    simp only [Call.step] at hm
    exact hentry m (Option.filter_eq_some_iff.mp hm).1

end Freehold.Discovery
