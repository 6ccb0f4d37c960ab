import Freehold.Discovery.Registry
import Freehold.Foundation.JsonRender
import Freehold.Server.Main

/-!
# The documents of the discovery server (`discovery.cpp`)

`handle_announce` takes strings out of a body with a scanner of its own; `topology_json` and
`handle_resolve` put them between quotes as they are.
-/

namespace Freehold.Discovery

open Json
open Freehold.Mail (atoi)
open Freehold.Server (stoi)

/-! ## Reading an announcement -/

/-- What stands behind the first occurrence of `needle`. -/
def afterFirst (needle text : List Char) : Option (List Char) :=
  (text.tails.find? fun tail => needle.isPrefixOf tail).map fun tail => tail.drop needle.length

/-- `json_get_string`. -/
def jsonGetString (json key : List Char) : List Char :=
  match (afterFirst ('"' :: (key ++ ['"'])) json).bind (afterFirst [':']) with
  | none => []
  | some rest =>
    match rest.dropWhile fun c => c = ' ' || c = '\t' with
    | '"' :: value => if '"' ∈ value then value.takeWhile fun c => c ≠ '"' else []
    | value => value.takeWhile fun c => c ∉ [',', '\x7d', ' ', '\t', '\r', '\n']

def jsonGetInt (json key : List Char) : ℤ := (stoi (jsonGetString json key)).getD 0

/-- What `handle_announce` registers. -/
structure Announcement where
  partyId : ℤ
  port : ℤ
  hostname : List Char
  status : List Char
  deriving DecidableEq

/-- The announcement in a body, unless it is answered with 400. -/
def announcement (body : List Char) : Option Announcement :=
  let partyId := jsonGetInt body "party_id".toList
  let port := jsonGetInt body "port".toList
  let hostname := jsonGetString body "hostname".toList
  let status := jsonGetString body "status".toList
  if partyId = 0 ∨ port = 0 then none
  else
    some
      { partyId, port
        hostname := if hostname.isEmpty then "127.0.0.1".toList else hostname
        status := if status.isEmpty then "online".toList else status }

example : announcement "\x7b\"party_id\": 1, \"port\":8080, \"hostname\":\"h\"\x7d".toList =
    some ⟨1, 8080, ['h'], "online".toList⟩ := by decide +kernel

/-! ## The documents -/

/-- How a stream prints a `double`. -/
structure Printer where
  text : ℚ → List Char
  valid : ∀ x, isNumber (text x) = true

def Printer.number (print : Printer) (x : ℚ) : Number := ⟨print.text x, print.valid x⟩

def boolText (b : Bool) : List Char := if b then "true".toList else "false".toList

/-- An entry in `topology_json`. -/
def nodeJson (print : Printer) (now : ℚ) (n : NodeInfo) : List Char :=
  "\x7b\"party_id\":".toList ++ Decimal.ofInt n.partyId ++
  ",\"port\":".toList ++ Decimal.ofInt n.port ++
  ",\"hostname\":\"".toList ++ n.hostname ++ "\"".toList ++
  ",\"status\":\"".toList ++ n.status ++ "\"".toList ++
  ",\"uptime\":".toList ++ print.text (now - n.joinedAt) ++
  ",\"relay_registered\":".toList ++ boolText n.relayRegistered ++
  ",\"relay_fqdn\":\"".toList ++ n.relayFqdn ++ "\"".toList ++
  "\x7d".toList

/-- `topology_json`; `time` is what `std::time` returns. -/
def topologyJson (print : Printer) (nodes : Nodes) (now : ℚ) (time : ℤ) : List Char :=
  "\x7b\"type\":\"topology\",\"nodes\":[".toList ++
  [','].intercalate (nodes.toList.map fun entry => nodeJson print now entry.2) ++
  "],\"quorum_size\":".toList ++ Decimal.ofInt nodes.size ++
  ",\"threshold\":3".toList ++
  ",\"epoch\":".toList ++ Decimal.ofInt time ++ "\x7d".toList

/-- The status and the body that `handle_resolve` sends. -/
def handleResolve (nodes : Nodes) (query : List Char) : ℕ × List Char :=
  let partyId := ((afterFirst "party=".toList query).map atoi).getD 0
  match resolveParty nodes partyId with
  | some (hostname, port) =>
    (200,
      "\x7b\"party_id\":".toList ++ Decimal.ofInt partyId ++
      ",\"hostname\":\"".toList ++ hostname ++ "\"".toList ++
      ",\"port\":".toList ++ Decimal.ofInt port ++ "\x7d".toList)
  | none => (404, "\x7b\"error\":\"party not found\"\x7d".toList)

/-! ## What the documents are meant to say -/

/-- The members of an entry. -/
def nodeValue (print : Printer) (now : ℚ) (n : NodeInfo) : Value :=
  .object
    [("party_id".toList, .number (.ofInt n.partyId)),
     ("port".toList, .number (.ofInt n.port)),
     ("hostname".toList, .string n.hostname),
     ("status".toList, .string n.status),
     ("uptime".toList, .number (print.number (now - n.joinedAt))),
     ("relay_registered".toList, .bool n.relayRegistered),
     ("relay_fqdn".toList, .string n.relayFqdn)]

def topologyValue (print : Printer) (nodes : Nodes) (now : ℚ) (time : ℤ) : Value :=
  .object
    [("type".toList, .string "topology".toList),
     ("nodes".toList, .array (nodes.toList.map fun entry => nodeValue print now entry.2)),
     ("quorum_size".toList, .number (.ofInt nodes.size)),
     ("threshold".toList, .number (.ofInt 3)),
     ("epoch".toList, .number (.ofInt time))]

def foundValue (partyId : ℤ) (hostname : List Char) (port : ℤ) : Value :=
  .object
    [("party_id".toList, .number (.ofInt partyId)),
     ("hostname".toList, .string hostname),
     ("port".toList, .number (.ofInt port))]

variable {print : Printer} {nodes : Nodes} {now : ℚ} {time : ℤ}

theorem render_bool (b : Bool) : (Value.bool b).render = boolText b := by
  cases b <;> rfl

theorem nodeJson_eq_render (n : NodeInfo) :
    nodeJson print now n = (nodeValue print now n).render := by
  have hparty : "\x7b\"party_id\":".toList = '\x7b' :: '"' ::
      ("party_id".toList ++ ['"', ':']) := by
    decide +kernel
  have hport : ",\"port\":".toList = ',' :: '"' :: ("port".toList ++ ['"', ':']) := by
    decide +kernel
  have hhostname : ",\"hostname\":\"".toList = ',' :: '"' ::
      ("hostname".toList ++ ['"', ':', '"']) := by
    decide +kernel
  have hstatus : ",\"status\":\"".toList = ',' :: '"' :: ("status".toList ++ ['"', ':', '"']) := by
    decide +kernel
  have huptime : ",\"uptime\":".toList = ',' :: '"' :: ("uptime".toList ++ ['"', ':']) := by
    decide +kernel
  have hregistered : ",\"relay_registered\":".toList =
      ',' :: '"' :: ("relay_registered".toList ++ ['"', ':']) := by decide +kernel
  have hfqdn : ",\"relay_fqdn\":\"".toList =
      ',' :: '"' :: ("relay_fqdn".toList ++ ['"', ':', '"']) := by decide +kernel
  have hquote : "\"".toList = ['"'] := by decide +kernel
  have hclose : "\x7d".toList = ['\x7d'] := by decide +kernel
  unfold nodeJson nodeValue
  simp only [render_object, render_number, render_string, render_bool, renderMembers, Number.ofInt,
    Printer.number, hparty, hport, hhostname, hstatus, huptime, hregistered, hfqdn, hquote, hclose,
    List.append_assoc, List.cons_append, List.nil_append]

theorem handleResolve_eq_render {query : List Char} {partyId port : ℤ} {hostname : List Char}
    (hparty : ((afterFirst "party=".toList query).map atoi).getD 0 = partyId)
    (hanswer : resolveParty nodes partyId = some (hostname, port)) :
    handleResolve nodes query = (200, (foundValue partyId hostname port).render) := by
  have hopen : "\x7b\"party_id\":".toList = '\x7b' :: '"' :: ("party_id".toList ++ ['"', ':']) := by
    decide +kernel
  have hhostname : ",\"hostname\":\"".toList = ',' :: '"' ::
      ("hostname".toList ++ ['"', ':', '"']) := by
    decide +kernel
  have hport : "\"".toList ++ ",\"port\":".toList =
      '"' :: ',' :: '"' :: ("port".toList ++ ['"', ':']) := by decide +kernel
  have hclose : "\x7d".toList = ['\x7d'] := by decide +kernel
  unfold handleResolve foundValue
  simp only [hparty, hanswer, render_object, render_number, render_string, renderMembers,
    Number.ofInt, hopen, hhostname, hport, hclose, List.append_assoc, List.cons_append,
    List.nil_append]

theorem topologyJson_eq_render :
    topologyJson print nodes now time = (topologyValue print nodes now time).render := by
  have hnodes : (nodes.toList.map fun entry => nodeJson print now entry.2) =
      (nodes.toList.map fun entry => nodeValue print now entry.2).map Value.render := by
    rw [List.map_map]
    exact List.map_congr_left fun entry _ => nodeJson_eq_render entry.2
  have hopen : "\x7b\"type\":\"topology\",\"nodes\":[".toList =
      '\x7b' :: '"' :: ("type".toList ++ '"' :: ':' :: '"' :: ("topology".toList ++
        '"' :: ',' :: '"' :: ("nodes".toList ++ ['"', ':', '[']))) := by decide +kernel
  have hquorum : "],\"quorum_size\":".toList =
      ']' :: ',' :: '"' :: ("quorum_size".toList ++ ['"', ':']) := by decide +kernel
  have hthreshold : ",\"threshold\":3".toList =
      ',' :: '"' :: ("threshold".toList ++ '"' :: ':' :: Decimal.ofInt 3) := by decide +kernel
  have hepoch : ",\"epoch\":".toList = ',' :: '"' :: ("epoch".toList ++ ['"', ':']) := by
    decide +kernel
  have hclose : "\x7d".toList = ['\x7d'] := by decide +kernel
  unfold topologyJson topologyValue
  simp only [hnodes, ← renderItems_eq_intercalate, render_object, render_number, render_string,
    render_array, renderMembers, Number.ofInt, hopen, hquorum, hthreshold, hepoch, hclose,
    List.append_assoc,
    List.cons_append, List.nil_append]

/-! ## When they say it -/

/-- A text that may stand between quotes as it is. -/
def Plain (text : List Char) : Prop := Unescaped text ∧ Utf8.valid text = true

instance (text : List Char) : Decidable (Plain text) :=
  have : Decidable (Unescaped text) :=
    List.decidableBAll (fun c => ' ' ≤ c ∧ c ≠ '"' ∧ c ≠ '\\') text
  inferInstanceAs (Decidable (Unescaped text ∧ _))

structure NodeInfo.Plain (n : NodeInfo) : Prop where
  hostname : Discovery.Plain n.hostname
  status : Discovery.Plain n.status
  relayFqdn : Discovery.Plain n.relayFqdn

theorem nodeValue_plain_iff (print : Printer) (now : ℚ) (n : NodeInfo) :
    (∀ s ∈ (nodeValue print now n).strings, Plain s) ↔ n.Plain := by
  have hparty : Plain "party_id".toList := by decide +kernel
  have hport : Plain "port".toList := by decide +kernel
  have hhostname : Plain "hostname".toList := by decide +kernel
  have hstatus : Plain "status".toList := by decide +kernel
  have huptime : Plain "uptime".toList := by decide +kernel
  have hregistered : Plain "relay_registered".toList := by decide +kernel
  have hfqdn : Plain "relay_fqdn".toList := by decide +kernel
  unfold nodeValue
  simp only [Value.strings, memberStrings, List.forall_mem_cons, List.forall_mem_append,
    hparty, hport, hhostname, hstatus, huptime, hregistered, hfqdn, List.not_mem_nil,
    IsEmpty.forall_iff, implies_true, true_and, and_true]
  constructor
  · rintro ⟨hname, hstate, hrelay⟩
    exact ⟨hname, hstate, hrelay⟩
  · intro h
    exact ⟨h.hostname, h.status, h.relayFqdn⟩

/-- The topology is decoded to what it is meant to say exactly if every stored text may stand
as it is. -/
theorem decode_topologyJson_iff :
    decode (topologyJson print nodes now time) = some (topologyValue print nodes now time) ↔
      ∀ (k : List Char) (n : NodeInfo), nodes[k]? = some n → n.Plain := by
  have hkeys : Plain "type".toList ∧ Plain "topology".toList ∧ Plain "nodes".toList ∧
      Plain "quorum_size".toList ∧ Plain "threshold".toList ∧ Plain "epoch".toList := by
    decide +kernel
  obtain ⟨htype, htopology, hnodes, hquorum, hthreshold, hepoch⟩ := hkeys
  rw [topologyJson_eq_render, decode_render_iff]
  change (∀ s ∈ (topologyValue print nodes now time).strings, Plain s) ↔ _
  unfold topologyValue
  simp only [Value.strings, memberStrings, List.forall_mem_cons, List.forall_mem_append,
    htype, htopology, hnodes, hquorum, hthreshold, hepoch, List.not_mem_nil, IsEmpty.forall_iff,
    implies_true, true_and, and_true]
  constructor
  · intro h k n hn
    refine (nodeValue_plain_iff print now n).mp fun s hs =>
      h s (mem_itemStrings.mpr ⟨_, ?_, hs⟩)
    rw [← Std.ExtTreeMap.mem_toList_iff_getElem?_eq_some] at hn
    exact List.mem_map_of_mem hn
  · intro h s hs
    obtain ⟨item, hitem, hs⟩ := mem_itemStrings.mp hs
    obtain ⟨⟨k, n⟩, hentry, rfl⟩ := List.mem_map.mp hitem
    rw [Std.ExtTreeMap.mem_toList_iff_getElem?_eq_some] at hentry
    exact (nodeValue_plain_iff print now n).mpr (h k n hentry) s hs

/-- Every answer of `handle_resolve` is JSON then. -/
theorem decode_handleResolve (h : ∀ (k : List Char) (n : NodeInfo), nodes[k]? = some n → n.Plain)
    (query : List Char) : (decode (handleResolve nodes query).2).isSome := by
  generalize hparty : ((afterFirst "party=".toList query).map atoi).getD 0 = partyId
  cases hanswer : resolveParty nodes partyId with
  | none =>
    have hbody : (decode "\x7b\"error\":\"party not found\"\x7d".toList).isSome := by decide +kernel
    unfold handleResolve
    simpa only [hparty, hanswer] using hbody
  | some answer =>
    obtain ⟨k, n, hn, -, -, rfl⟩ := exists_of_resolveParty hanswer
    have hkeys : Plain "party_id".toList ∧ Plain "hostname".toList ∧ Plain "port".toList := by
      decide +kernel
    obtain ⟨hid, hname, hport⟩ := hkeys
    have hstrings : ∀ s ∈ (foundValue partyId n.hostname n.port).strings, Plain s := by
      unfold foundValue
      simp only [Value.strings, memberStrings, List.forall_mem_cons, List.forall_mem_append, hid,
        hname, hport, (h k n hn).hostname, List.not_mem_nil, IsEmpty.forall_iff, implies_true,
        and_true]
    rw [handleResolve_eq_render hparty hanswer, (decode_render_iff _).mpr hstrings]
    rfl

end Freehold.Discovery
