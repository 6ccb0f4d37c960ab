import Freehold.Discovery.Published

/-!
# The quorum that the browser shows (`ws.ts`, `NetworkViz.ts`)

`rebuildTopology` counts the nodes of a topology message whose status is `online`. The server
publishes one node for each pair of party and port, so it is pairs that are counted.
-/

namespace Freehold.Web

open Json Freehold.Discovery

/-! ## Numbers of a message -/

def digitsValue (digits : List Char) : ℕ :=
  digits.foldl (fun value c => 10 * value + (c.toNat - '0'.toNat)) 0

def exponentValue : List Char → ℤ
  | _ :: '-' :: digits => -digitsValue digits
  | _ :: '+' :: digits => digitsValue digits
  | _ :: digits => digitsValue digits
  | [] => 0

/-- The value of a number without a sign, before it is rounded to a double. -/
def unsignedValue (text : List Char) : ℚ :=
  let digits := text.takeWhile Char.isDigit
  match text.dropWhile Char.isDigit with
  | '.' :: rest =>
    let fraction := rest.takeWhile Char.isDigit
    digitsValue (digits ++ fraction) *
      10 ^ (exponentValue (rest.dropWhile Char.isDigit) - fraction.length)
  | rest => digitsValue digits * 10 ^ exponentValue rest

def numberValue (n : Number) : ℚ :=
  match n.text with
  | '-' :: text => -unsignedValue text
  | text => unsignedValue text

/-! ## The client -/

/-- `value[key]`: of members with the same name the last one counts. -/
def property (key : List Char) : Value → Option Value
  | .object members => (members.reverse.find? fun entry => entry.1 = key).map Prod.snd
  | _ => none

/-- `value === text`. -/
def isText (text : List Char) : Option Value → Bool
  | some (.string s) => s = text
  | _ => false

/-- The message that `ws.onmessage` hands to the topology listeners. -/
def onmessage (data : List Char) : Option Value :=
  (decode data).filter fun msg => isText "topology".toList (property "type".toList msg)

def onlineNodes (currentNodes : List Value) : List Value :=
  currentNodes.filter fun n => isText "online".toList (property "status".toList n)

/-- `quorumMet` in `rebuildTopology`. -/
def quorumMet (currentNodes : List Value) (threshold : ℚ) : Bool :=
  (onlineNodes currentNodes).length ≥ threshold

/-- `quorumMet` after a frame, if it is a topology message with the types of `TopologyMessage`. -/
def rebuildTopology (data : List Char) : Option Bool :=
  (onmessage data).bind fun msg =>
    match property "nodes".toList msg, property "threshold".toList msg with
    | some (.array currentNodes), some (.number threshold) =>
      some (quorumMet currentNodes (numberValue threshold))
    | _, _ => none

theorem numberValue_three : numberValue (.ofInt 3) = 3 := by decide +kernel

/-! ## What is read of a message -/

theorem property_status (print : Printer) (now : ℚ) (n : NodeInfo) :
    property "status".toList (nodeValue print now n) = some (.string n.status) := by
  have hfqdn : ¬"relay_fqdn".toList = "status".toList := by decide +kernel
  have hregistered : ¬"relay_registered".toList = "status".toList := by decide +kernel
  have huptime : ¬"uptime".toList = "status".toList := by decide +kernel
  simp only [property, nodeValue, List.reverse_cons, List.reverse_nil, List.nil_append,
    List.cons_append, List.find?_cons, hfqdn, hregistered, huptime, decide_false, decide_true,
    Option.map_some]

variable {print : Printer} {nodes : Nodes} {now : ℚ} {time : ℤ} {v : Value}

/-- The members of a published topology that the client looks at. -/
theorem property_topology (hv : ReadTopology print nodes now time v) :
    property "type".toList v = some (.string "topology".toList) ∧
      property "threshold".toList v = some (.number (.ofInt 3)) ∧
      ∃ ws, property "nodes".toList v = some (.array ws) ∧
        List.Forall₂ (ReadEntry print now) nodes.toList ws := by
  obtain ⟨ws, hws, rfl⟩ := hv
  have hepoch : ¬"epoch".toList = "threshold".toList ∧ ¬"epoch".toList = "type".toList ∧
      ¬"epoch".toList = "nodes".toList := by decide +kernel
  have hthreshold : ¬"threshold".toList = "type".toList ∧ ¬"threshold".toList = "nodes".toList := by
    decide +kernel
  have hquorum : ¬"quorum_size".toList = "type".toList ∧
      ¬"quorum_size".toList = "nodes".toList := by
    decide +kernel
  have hnodes : ¬"nodes".toList = "type".toList := by decide +kernel
  simp only [property, List.reverse_cons, List.reverse_nil, List.nil_append, List.cons_append,
    List.find?_cons, hepoch, hthreshold, hquorum, hnodes, decide_false, decide_true,
    Option.map_some,
    true_and]
  exact ⟨ws, rfl, hws⟩

/-- The status of an entry spells `online`. -/
def SpellsOnline (n : NodeInfo) : Prop := unescape n.status = some "online".toList

instance (n : NodeInfo) : Decidable (SpellsOnline n) := by
  unfold SpellsOnline
  infer_instance

theorem isText_of_readEntry {entry : List Char × NodeInfo} (h : ReadEntry print now entry v) :
    isText "online".toList (property "status".toList v) = decide (SpellsOnline entry.2) := by
  obtain ⟨m, ⟨hostname, status, -, hstatus, rfl⟩, rfl⟩ := h
  rw [property_status, isText]
  simp only [SpellsOnline, hstatus, Option.some.injEq]

/-- Entry by entry, what is counted is what spells `online`. -/
theorem length_onlineNodes {entries : List (List Char × NodeInfo)} {ws : List Value}
    (h : List.Forall₂ (ReadEntry print now) entries ws) :
    (onlineNodes ws).length = (entries.filter fun entry => SpellsOnline entry.2).length := by
  induction h with
  | nil => rfl
  | cons hentry _ ih =>
    rw [onlineNodes] at ih ⊢
    rw [List.filter_cons, List.filter_cons, isText_of_readEntry hentry]
    split
    · rw [List.length_cons, List.length_cons, ih]
    · exact ih

/-! ## What is counted -/

/-- The pairs of party and port whose status spells `online`. -/
def onlinePairs (nodes : Nodes) : Finset (ℤ × ℤ) :=
  ((nodes.toList.filter fun entry => SpellsOnline entry.2).map
    fun entry => (entry.2.partyId, entry.2.port)).toFinset

/-- Every pair has an entry of its own. -/
theorem card_onlinePairs
    (hkeys : ∀ (k : List Char) (n : NodeInfo), nodes[k]? = some n → k = nodeKey n.partyId n.port) :
    (onlinePairs nodes).card = (nodes.toList.filter fun entry => SpellsOnline entry.2).length := by
  rw [onlinePairs, List.toFinset_card_of_nodup, List.length_map]
  apply List.Nodup.of_map fun pair : ℤ × ℤ => nodeKey pair.1 pair.2
  have hmap : (nodes.toList.filter fun entry => SpellsOnline entry.2).map
      ((fun pair : ℤ × ℤ => nodeKey pair.1 pair.2) ∘ fun entry => (entry.2.partyId, entry.2.port)) =
        (nodes.toList.filter fun entry => SpellsOnline entry.2).map Prod.fst := by
    apply List.map_congr_left
    intro entry hentry
    have hmem := List.mem_of_mem_filter hentry
    exact (hkeys _ _ (Std.ExtTreeMap.mem_toList_iff_getElem?_eq_some.mp hmem)).symm
  rw [List.map_map, hmap]
  have hnodup := nodes.nodup_keys
  rw [← Std.ExtTreeMap.map_fst_toList_eq_keys] at hnodup
  exact hnodup.sublist (List.filter_sublist.map Prod.fst)

variable {nodeTtl : ℤ} {arrivals : List Arrival}

/-- Whatever has been announced: a document that is no JSON is not shown, and of any other the
client makes the number of pairs that are online. -/
theorem rebuildTopology_announced :
    rebuildTopology (topologyJson print (announced nodeTtl arrivals) now time) =
      (decode (topologyJson print (announced nodeTtl arrivals) now time)).map
        fun _ => decide (3 ≤ (onlinePairs (announced nodeTtl arrivals)).card) := by
  cases hdecode : decode (topologyJson print (announced nodeTtl arrivals) now time) with
  | none =>
    simp only [rebuildTopology, onmessage, hdecode, Option.filter_none, Option.bind_none,
      Option.map_none]
  | some v =>
    have hread := decode_topologyJson (fun k n => contained_announced nodeTtl arrivals) hdecode
    obtain ⟨htype, hthreshold, ws, hnodes, hws⟩ := property_topology hread
    have hmessage : onmessage (topologyJson print (announced nodeTtl arrivals) now time) =
        some v := by
      rw [onmessage, hdecode, Option.filter_some, htype, if_pos]
      simp [isText]
    have hcard : (onlinePairs (announced nodeTtl arrivals)).card = _ :=
      card_onlinePairs fun k n => eq_nodeKey_of_registry
    simp only [rebuildTopology, hmessage, Option.bind_some, hnodes, hthreshold, Option.map_some,
      quorumMet, numberValue_three, length_onlineNodes hws, hcard, ge_iff_le, Nat.ofNat_le_cast]

/-- If the client regards the quorum as met, at least as many pairs of party and port are online
as the threshold says, and as many parties if each of them is there with one port. -/
theorem onlinePairs_of_quorumMet (print : Printer) (nodeTtl : ℤ) (arrivals : List Arrival)
    (now : ℚ) (time : ℤ)
    (hmet : rebuildTopology (topologyJson print (announced nodeTtl arrivals) now time) =
      some true) :
    3 ≤ (onlinePairs (announced nodeTtl arrivals)).card ∧
      (Set.InjOn Prod.fst (onlinePairs (announced nodeTtl arrivals) : Set (ℤ × ℤ)) →
        3 ≤ ((onlinePairs (announced nodeTtl arrivals)).image Prod.fst).card) := by
  rw [rebuildTopology_announced, Option.map_eq_some_iff] at hmet
  obtain ⟨v, -, hcount⟩ := hmet
  have hcard := of_decide_eq_true hcount
  refine ⟨hcard, fun hinj => ?_⟩
  rwa [Finset.card_image_of_injOn hinj]

theorem isNumber_floor (x : ℚ) : isNumber (Decimal.ofInt ⌊x⌋) = true := (Number.ofInt ⌊x⌋).valid

/-- Integral texts for the uptimes. -/
def floorPrinter : Printer := ⟨fun x => Decimal.ofInt ⌊x⌋, isNumber_floor⟩

/-- An announcement without hostname and status. -/
def announceBody (partyId port : ℤ) : List Char :=
  "\x7b\"party_id\":".toList ++ Decimal.ofInt partyId ++ ",\"port\":".toList ++
    Decimal.ofInt port ++ "\x7d".toList

/-- Three parties. -/
theorem onlinePairs_of_quorumMet_demo :
    3 ≤ (onlinePairs (announced 30 [.announce (announceBody 1 8001) 0,
      .announce (announceBody 2 8001) 1, .announce (announceBody 3 8001) 2])).card :=
  (onlinePairs_of_quorumMet floorPrinter 30 _ 3 100 (by decide +kernel)).1

/-- The parties that are online in the registry. -/
def onlineParties (nodes : Nodes) : Finset ℤ :=
  ((nodes.toList.filter fun entry => entry.2.status = "online".toList).map
    fun entry => entry.2.partyId).toFinset

/-- An announcement with an escape in its status. -/
def escapedBody (partyId port : ℤ) : List Char :=
  "\x7b\"party_id\":".toList ++ Decimal.ofInt partyId ++ ",\"port\":".toList ++
    Decimal.ofInt port ++ ",\"status\":\"onl\\u0069ne\"\x7d".toList

/-- One party on three ports is a quorum for the client, and so are three whose status only spells
`online`. -/
theorem quorumMet_of_one_party :
    (∃ arrivals, rebuildTopology (topologyJson floorPrinter (announced 30 arrivals) 3 100) =
      some true ∧ (onlineParties (announced 30 arrivals)).card = 1) ∧
    ∃ arrivals, rebuildTopology (topologyJson floorPrinter (announced 30 arrivals) 3 100) =
      some true ∧ onlineParties (announced 30 arrivals) = ∅ :=
  ⟨⟨[.announce (announceBody 1 8001) 0, .announce (announceBody 1 8002) 1,
      .announce (announceBody 1 8003) 2], by decide +kernel, by decide +kernel⟩,
    [.announce (escapedBody 1 8001) 0, .announce (escapedBody 2 8001) 1,
      .announce (escapedBody 3 8001) 2], by decide +kernel, by decide +kernel⟩

end Freehold.Web
