import Freehold.Discovery.Documents
import Freehold.Discovery.Frames
import Freehold.Discovery.Output
import Freehold.Web.Quorum

/-!
# What a subscriber reads (`discovery.cpp`, `ws.ts`, `NetworkViz.ts`)

From the registry to the page: the threads of the server write frames to a connection, a client
takes them off the part of the stream that has arrived, and `rebuildTopology` counts the nodes of
each message.

## Main results

* `after_switchingProtocols` — where the frames begin in what a connection gets.
* `exists_calls_of_run` — the registry of a run is that of some calls, which bring its texts.
* `messages_of_run` — each message is the topology of one moment, and so is the quorum shown.
-/

namespace Freehold.Web

open Interaction Json
open Freehold.Discovery (afterFirst topologyJson Nodes NodeInfo Plain registry nodeKey)
open Freehold.Discovery.Descriptors
open Freehold.Mail (base64Encode base64Digit)

/-! ## The client -/

/-- The messages of a client that has sent its handshake, when `arrived` has arrived. -/
def messages (arrived : List Char) : List (List Char) :=
  if handshakeLine <+: arrived then
    match afterFirst (crlf ++ crlf) arrived with
    | none => []
    | some stream => (WebSocket.frames Char.toNat stream).1.map Prod.snd
  else []

/-! ## The handshake -/

theorem isVisible_base64Digit (n : ℕ) : Http.isVisible (base64Digit n) = true := by
  have hpad : Http.isVisible '=' = true := by decide
  unfold base64Digit
  have hdigits : ∀ c ∈ ("ABCDEFGHIJKLMNOPQRSTUVWXYZabcdefghijklmnopqrstuvwxyz0123456789+/".toList),
      Http.isVisible c = true := List.all_eq_true.mp (by decide +kernel)
  generalize "ABCDEFGHIJKLMNOPQRSTUVWXYZabcdefghijklmnopqrstuvwxyz0123456789+/".toList = digits
    at hdigits ⊢
  rw [List.getD_eq_getElem?_getD]
  cases hdigit : digits[n]? with
  | none => exact hpad
  | some c => exact hdigits c (List.mem_of_getElem? hdigit)

theorem isVisible_base64Encode (bytes : List Char) :
    (base64Encode bytes).all Http.isVisible = true := by
  have hpad : Http.isVisible '=' = true := by decide
  fun_induction base64Encode bytes with
  | case1 a b c rest n ih => simp [isVisible_base64Digit, ih]
  | case2 a b n => simp [isVisible_base64Digit, hpad]
  | case3 a n => simp [isVisible_base64Digit, hpad]
  | case4 => rfl

/-- The field with the digest. -/
def acceptField (accept : List Char) (h : accept.all Http.isVisible = true) : Http.Field :=
  .spaced "Sec-WebSocket-Accept".toList accept (by decide +kernel) <| by
    have hvisible : ∀ c ∈ accept, Http.isVisible c = true := List.all_eq_true.mp h
    have hblank : ∀ c ∈ accept, Http.isBlank c = false := by
      intro c hc
      by_contra hblank
      rw [Bool.not_eq_false, Http.isBlank, Bool.or_eq_true, decide_eq_true_eq,
        decide_eq_true_eq] at hblank
      have hc := hvisible c hc
      rcases hblank with rfl | rfl
      · exact absurd hc (by decide)
      · exact absurd hc (by decide)
    refine ⟨List.all_eq_true.mpr fun c hc => ?_, ?_, ?_⟩
    · simp [Http.isFieldChar, hvisible c hc]
    · cases hhead : accept.head? with
      | none => rfl
      | some c => simp [hblank c (List.mem_of_head? hhead)]
    · cases hlast : accept.getLast? with
      | none => rfl
      | some c => simp [hblank c (List.mem_of_getLast? hlast)]

/-- The frames begin behind the first empty line. -/
theorem after_switchingProtocols (sha1 : List Char → List Char) (key stream : List Char) :
    afterFirst (crlf ++ crlf) (switchingProtocols sha1 key ++ stream) = some stream := by
  have hvisible : (wsAcceptKey sha1 key).all Http.isVisible = true := isVisible_base64Encode _
  have hupgrade : "Upgrade: websocket".toList =
      "Upgrade".toList ++ ':' :: ' ' :: "websocket".toList := by decide +kernel
  have hconnection : "Connection: Upgrade".toList =
      "Connection".toList ++ ':' :: ' ' :: "Upgrade".toList := by decide +kernel
  have haccept : "Sec-WebSocket-Accept: ".toList =
      "Sec-WebSocket-Accept".toList ++ [':', ' '] := by decide +kernel
  have horigin : "Access-Control-Allow-Origin: *".toList =
      "Access-Control-Allow-Origin".toList ++ [':', ' ', '*'] := by decide +kernel
  have hcr : '\r' ∉ handshakeLine := by decide +kernel
  have hresponse : switchingProtocols sha1 key ++ stream =
      handshakeLine ++ (Http.Request.fieldLines
        [.spaced "Upgrade".toList "websocket".toList (by decide +kernel) (by decide +kernel),
          .spaced "Connection".toList "Upgrade".toList (by decide +kernel) (by decide +kernel),
          acceptField (wsAcceptKey sha1 key) hvisible,
          .spaced "Access-Control-Allow-Origin".toList ['*'] (by decide +kernel)
            (by decide +kernel)] ++ (crlf ++ crlf ++ stream)) := by
    unfold switchingProtocols handshakeLine acceptField Http.Request.fieldLines
    rw [hupgrade, hconnection, haccept, horigin]
    simp only [List.flatMap_cons, List.flatMap_nil, Http.Field.text_spaced, List.append_assoc,
      List.append_nil, List.cons_append, List.nil_append]
    rfl
  rw [hresponse]
  exact (Scanning.after_append_left_of_head rfl hcr).trans (Http.Request.after_fieldLines _ _)

/-- No response is taken for the handshake. -/
theorem not_startsWith_handshakeLine_text {r : Http.Response} (hr : Answered r.status) :
    ¬handshakeLine <+: r.text := by
  have hline : handshakeLine = Http.Request.version ++ ' ' :: '1' ::
      "01 Switching Protocols".toList := by
    decide +kernel
  obtain ⟨c, digits, hdigits, hc⟩ : ∃ c digits, Decimal.ofInt r.status = c :: digits ∧ c ≠ '1' := by
    rcases hr with h | h | h
    · exact ⟨'2', ['0', '0'], by rw [h]; decide +kernel, by decide⟩
    · exact ⟨'4', ['0', '0'], by rw [h]; decide +kernel, by decide⟩
    · exact ⟨'4', ['0', '4'], by rw [h]; decide +kernel, by decide⟩
  rw [hline, Http.Response.text, Http.Response.line, hdigits]
  simp only [List.append_assoc, List.cons_append]
  intro hfirst
  rw [List.prefix_append_right_inj, List.cons_prefix_cons, List.cons_prefix_cons] at hfirst
  exact hc hfirst.2.1.symm

/-! ## The messages -/

theorem frames_of_texts {texts : List (List Char)}
    (hshort : ∀ text ∈ texts, text.length < 2 ^ 31 - 16) :
    (WebSocket.frames Char.toNat (texts.flatMap wsFrame)).1.map Prod.snd = texts := by
  have hframes := @WebSocket.frames_flatten _ Char.toNat texts wsFrame
    fun text htext rest => frame_wsFrame (hshort text htext) rest
  rw [← List.flatMap_def] at hframes
  rw [hframes, List.map_map]
  exact List.map_id texts

theorem messages_frames (sha1 : List Char → List Char) (key : List Char)
    {texts : List (List Char)} (hshort : ∀ text ∈ texts, text.length < 2 ^ 31 - 16) :
    messages (switchingProtocols sha1 key ++ texts.flatMap wsFrame) = texts := by
  rw [messages, if_pos ((startsWith_handshakeLine key).trans (List.prefix_append _ _)),
    after_switchingProtocols]
  exact frames_of_texts hshort

/-- What has arrived holds the first messages, and they are documents. -/
theorem messages_of_output {sha1 : List Char → List Char} {documents : List (List Char)}
    {out arrived : List Char} (h : Output sha1 documents out)
    (hshort : ∀ json ∈ documents, json.length < 2 ^ 31 - 16) (harrived : arrived <+: out) :
    messages arrived <+: messages out ∧ messages out ⊆ documents := by
  cases h with
  | nothing =>
    obtain rfl := List.prefix_nil.mp harrived
    exact ⟨List.prefix_rfl, List.nil_subset _⟩
  | response r hr =>
    have hout : ¬handshakeLine <+: r.text := not_startsWith_handshakeLine_text hr
    have hpart : ¬handshakeLine <+: arrived := fun hline => hout (hline.trans harrived)
    rw [messages, messages, if_neg hout, if_neg hpart]
    exact ⟨List.prefix_rfl, List.nil_subset _⟩
  | frames key texts htexts =>
    have htext : ∀ text ∈ texts, text.length < 2 ^ 31 - 16 := fun text htext =>
      hshort text (htexts htext)
    have hout := messages_frames sha1 key htext
    refine ⟨?_, by rwa [hout]⟩
    by_cases hline : handshakeLine <+: arrived
    · cases hafter : afterFirst (crlf ++ crlf) arrived with
      | none =>
        rw [messages, if_pos hline, hafter]
        exact List.nil_prefix
      | some stream =>
        obtain ⟨more, hmore⟩ := harrived
        have hwhole : afterFirst (crlf ++ crlf) (arrived ++ more) = some (stream ++ more) :=
          Scanning.after_append hafter more
        rw [hmore, after_switchingProtocols, Option.some.injEq] at hwhole
        rw [hout, messages, if_pos hline, hafter, ← frames_of_texts htext, hwhole]
        exact (WebSocket.frames_append_right stream more).map Prod.snd
    · rw [messages, if_neg hline]
      exact List.nil_prefix

/-! ## The registry of a run -/

variable {setup : Setup} {commands : List Command} {history : List SocketEvent}
  {threads : List ServerThread} {s s' : State} {nodes : Nodes}

/-- The texts that the step brings may stand in a document as they are. -/
def BringsPlain : Call → Prop
  | .registerNode _ _ hostname status => Plain hostname ∧ Plain status
  | .updateRelayStatus _ _ _ fqdn => Plain fqdn
  | _ => True

theorem nodes_of_effect {o : Call} {x : Sockets.Answer o} (h : effect setup o s x s') :
    s'.nodes = s.nodes ∨ ∃ c : Discovery.Call,
      s'.nodes = c.apply setup.nodeTtl s.nodes ∧ (BringsPlain o → c.Plain) := by
  cases o with
  | registerNode p q hostname status =>
    obtain ⟨now, hnodes, -⟩ := h
    exact .inr ⟨.registerNode p q hostname status now, congrArg Prod.fst hnodes, id⟩
  | updateRelayStatus p q registered fqdn =>
    obtain rfl := h
    exact .inr ⟨.updateRelayStatus p q registered fqdn, rfl, id⟩
  | pruneStale =>
    obtain ⟨now, hnodes, -⟩ := h
    exact .inr ⟨.pruneStale now, congrArg Prod.fst hnodes, id⟩
  | accept =>
    rcases h with ⟨-, rfl⟩ | ⟨n, -, -, rfl⟩
    · exact .inl rfl
    · exact .inl rfl
  | socket =>
    rcases h with ⟨-, rfl⟩ | ⟨-, n, -, rfl⟩
    · exact .inl rfl
    · exact .inl rfl
  | closeListener =>
    obtain rfl : s' = s.closeListener := h
    unfold State.closeListener
    cases s.listenFd with
    | none => exact .inl rfl
    | some number => exact .inl rfl
  | closeClients =>
    obtain ⟨-, rfl⟩ := h
    have hfold : ∀ (clients : List Descriptor) (s : State),
        (clients.foldl (fun s fd => s.closeSocket fd.number) s).nodes = s.nodes := by
      intro clients
      induction clients with
      | nil => exact fun s => rfl
      | cons client clients ih => exact fun s => ih (s.closeSocket client.number)
    exact .inl (hfold s.wsClients s)
  | running | recv | sendAll | topologyJson | resolve | countNodes =>
    have hs : s' = s := by first | exact h.2 | exact h.2.2
    exact .inl (congrArg State.nodes hs)
  | terminate => exact nomatch x
  | setRunning | bind | listenThread | pruneThread | detach | setTimeout | send | close | addClient
  | removeClient | allocate | unassigned | overrun =>
    obtain rfl := h
    exact .inl rfl

/-- The registry is that of some calls, and the run has brought their texts. -/
theorem exists_calls_of_run
    (hrun : (server setup).Run NoClients (commands.map .command) .initial history threads s) :
    ∃ calls, s.nodes = registry setup.nodeTtl calls ∧
      ((∀ e ∈ history, BringsPlain e.op) → ∀ c ∈ calls, c.Plain) := by
  induction hrun with
  | init => exact ⟨[], rfl, fun _ => List.forall_mem_nil _⟩
  | goto _ _ ih => exact ih
  | @act history threads s i root o next x s' _ _ heffect _ ih =>
    obtain ⟨calls, hnodes, hplain⟩ := ih
    rcases nodes_of_effect heffect with hsame | ⟨c, hcall, hc⟩
    · refine ⟨calls, hsame.trans hnodes, fun h => hplain fun e he => ?_⟩
      exact h e (List.mem_append_left _ he)
    · refine ⟨calls ++ [c], ?_, fun h => ?_⟩
      · rw [Discovery.registry_snoc, ← hnodes]
        exact hcall
      · rw [List.forall_mem_append, List.forall_mem_singleton] at h ⊢
        exact ⟨hplain h.1, hc h.2⟩

/-! ## The quorum that is shown -/

variable {print : Discovery.Printer} {now : ℚ} {time : ℤ}

/-- What a reader gets is what is stored, if the texts may stand in the document as they are. -/
theorem readTopology_of_plain
    (hplain : ∀ (k : List Char) (n : NodeInfo), nodes[k]? = some n → n.Plain) :
    Discovery.ReadTopology print nodes now time
      (Discovery.topologyValue print nodes now time) := by
  refine ⟨nodes.toList.map fun entry => Discovery.nodeValue print now entry.2, ?_, rfl⟩
  rw [List.forall₂_map_right_iff, List.forall₂_same]
  intro entry hentry
  have hn := hplain entry.1 entry.2 (Std.ExtTreeMap.mem_toList_iff_getElem?_eq_some.mp hentry)
  exact ⟨entry.2, ⟨_, _, unescape_of_unescaped hn.hostname.1, unescape_of_unescaped hn.status.1,
    rfl⟩, rfl⟩

theorem rebuildTopology_of_plain
    (hplain : ∀ (k : List Char) (n : NodeInfo), nodes[k]? = some n → n.Plain)
    (hkeys : ∀ (k : List Char) (n : NodeInfo), nodes[k]? = some n → k = nodeKey n.partyId n.port) :
    rebuildTopology (topologyJson print nodes now time) =
      some (decide (3 ≤ (onlinePairs nodes).card)) := by
  have hdecode : decode (topologyJson print nodes now time) =
      some (Discovery.topologyValue print nodes now time) :=
    Discovery.decode_topologyJson_iff.mpr hplain
  have hread : Discovery.ReadTopology print nodes now time
      (Discovery.topologyValue print nodes now time) := readTopology_of_plain hplain
  obtain ⟨htype, hthreshold, ws, hnodes, hws⟩ := property_topology hread
  have hmessage : onmessage (topologyJson print nodes now time) =
      some (Discovery.topologyValue print nodes now time) := by
    rw [onmessage, hdecode, Option.filter_some, htype, if_pos]
    simp [isText]
  simp only [rebuildTopology, hmessage, Option.bind_some, hnodes, hthreshold, quorumMet,
    numberValue_three, length_onlineNodes hws, card_onlinePairs hkeys, ge_iff_le,
    Nat.ofNat_le_cast]

/-! ## Runs -/

/-- After the events `before` the registry of `s` is read, and this is its document. -/
def ReadAt (setup : Setup) (commands : List Command) (before : List SocketEvent) (s : State)
    (text : List Char) : Prop :=
  (∃ threads, (server setup).Run NoClients (commands.map .command) .initial before threads s) ∧
    ∃ now time, text = topologyJson setup.print s.nodes now time

/-- In every run, whatever part of what is written to a connection has arrived: the messages in
it are the first ones, each is the topology that was read from the registry at some moment of the
run, and the page shows for it whether three pairs of party and port were online then, as long
as no text has been brought that needs an escape. -/
theorem messages_of_run (setup : Setup) (commands : List Command) (history : List SocketEvent)
    (threads : List ServerThread) (s : State)
    (hrun : (server setup).Run NoClients (commands.map .command) .initial history threads s)
    (hshort : ∀ json ∈ documentsOf history, json.length < 2 ^ 31 - 16) (fd : Descriptor)
    (arrived : List Char) (harrived : arrived <+: writtenTo fd history) :
    messages arrived <+: messages (writtenTo fd history) ∧
    ∀ text ∈ messages arrived, ∃ before after s',
      history = before ++ ⟨.topologyJson, text⟩ :: after ∧
      ReadAt setup commands before s' text ∧
      ((∀ e ∈ before, BringsPlain e.op) →
        rebuildTopology text = some (decide (3 ≤ (onlinePairs s'.nodes).card))) := by
  obtain ⟨ledger, htold⟩ := told_of_run hrun
  obtain ⟨hfirst, hsubset⟩ := messages_of_output (htold.output fd) hshort harrived
  refine ⟨hfirst, fun text htext => ?_⟩
  obtain ⟨e, he, hdocument⟩ := List.mem_filterMap.mp (hsubset (hfirst.subset htext))
  obtain ⟨before, after, hhistory⟩ := List.append_of_mem he
  obtain ⟨o, x⟩ := e
  cases o with
  | topologyJson =>
    cases hdocument
    obtain ⟨threads', s', s'', hbefore, ⟨now, time, rfl⟩, -⟩ := hrun.exists_of_split hhistory
    obtain ⟨calls, hnodes, hplain⟩ := exists_calls_of_run hbefore
    refine ⟨before, after, s', hhistory, ⟨⟨threads', hbefore⟩, now, time, rfl⟩, fun hbrings => ?_⟩
    rw [hnodes]
    exact rebuildTopology_of_plain (fun k n => Discovery.plain_registry (hplain hbrings))
      fun k n => Discovery.eq_nodeKey_of_registry
  | _ => cases hdocument

/-- The registry with one node, and its document. -/
def demoNodes : Nodes := (Discovery.registerNode ∅ 1 8080 ['a'] "online".toList 0).1

def demoDocument : List Char := topologyJson demoSetup.print demoNodes 0 0

def demoCommands : List Command := [.start, .registerNode 1 8080 ['a'] "online".toList]

def startEvents : List SocketEvent :=
  [⟨.running, false⟩, ⟨.setRunning true, ()⟩, ⟨.listenThread, ()⟩, ⟨.pruneThread, ()⟩]

def registerEvents : List SocketEvent :=
  [⟨.registerNode 1 8080 ['a'] "online".toList, true⟩, ⟨.topologyJson, demoDocument⟩,
    ⟨.sendAll (wsFrame demoDocument), []⟩]

def acceptEvents : List SocketEvent :=
  [⟨.socket, true⟩, ⟨.bind, true⟩, ⟨.running, true⟩, ⟨.accept, some demoClient⟩,
    ⟨.detach demoClient, ()⟩]

def joinEvents : List SocketEvent :=
  [⟨.setTimeout demoClient, ()⟩, ⟨.recv demoClient 4095, demoRequest⟩,
    ⟨.send demoClient (switchingProtocols demoSetup.sha1 []), ()⟩, ⟨.addClient demoClient, ()⟩,
    ⟨.topologyJson, demoDocument⟩, ⟨.send demoClient (wsFrame demoDocument), ()⟩]

/-- A node registers and a client joins. -/
def demoHistory : List SocketEvent := startEvents ++ registerEvents ++ acceptEvents ++ joinEvents

theorem exists_demoHistory_run : ∃ threads s, (server demoSetup).Run NoClients
    (demoCommands.map .command) .initial demoHistory threads s := by
  have hstart : (server demoSetup).Plays NoClients start .initial startEvents
      [.acceptLoop, .pruneLoop] (.ret none) ⟨true, [], none, 0, [], ∅⟩ :=
    .act ⟨rfl, rfl⟩ nofun <| .act rfl nofun <| .act rfl nofun <| .act rfl nofun .refl
  have hnodes : effect demoSetup (.registerNode 1 8080 ['a'] "online".toList)
      ⟨true, [], none, 0, [], ∅⟩ true ⟨true, [], none, 0, [], demoNodes⟩ := ⟨0, rfl, rfl⟩
  have hdocument (clients : List Descriptor) (inUse : List ℕ) (listenFd : Option ℕ)
      (accepted : ℕ) : effect demoSetup .topologyJson
        ⟨true, inUse, listenFd, accepted, clients, demoNodes⟩ demoDocument
        ⟨true, inUse, listenFd, accepted, clients, demoNodes⟩ := ⟨⟨0, 0, rfl⟩, rfl⟩
  have hregister : (server demoSetup).Plays NoClients
      (command (.registerNode 1 8080 ['a'] "online".toList)) ⟨true, [], none, 0, [], ∅⟩
      registerEvents [] (.ret none) ⟨true, [], none, 0, [], demoNodes⟩ :=
    .act hnodes nofun <| .act (hdocument _ _ _ _) nofun <| .act ⟨rfl, rfl⟩ nofun .refl
  have haccept : (server demoSetup).Plays NoClients acceptLoop
      ⟨true, [], none, 0, [], demoNodes⟩
      acceptEvents [.handleConnection demoClient] (.ret (some .acceptNext))
      ⟨true, [7, 3], some 3, 1, [], demoNodes⟩ :=
    .act (.inr ⟨rfl, 3, nofun, rfl⟩) nofun <| .act rfl nofun <| .goto <| .act ⟨rfl, rfl⟩ nofun <|
      .act (.inr ⟨7, by decide, rfl, rfl⟩) nofun <| .act rfl nofun .refl
  have hupgrade : (server demoSetup).Plays NoClients (received demoClient demoRequest)
      ⟨true, [7, 3], some 3, 1, [], demoNodes⟩ (joinEvents.drop 2) []
      (.ret (some (.readFrames demoClient)))
      ⟨true, [7, 3], some 3, 1, [demoClient], demoNodes⟩ := by
    have hcode :
        (server demoSetup).code (.routing demoClient "GET /ws HTTP/1.1".toList demoHeaders []) =
        handleWsUpgrade demoSetup.sha1 demoClient [] := route_demoRequest demoSetup.sha1
    rw [received_demoRequest]
    refine .goto ?_
    rw [hcode]
    exact .act rfl nofun <| .act rfl nofun <| .act (hdocument _ _ _ _) nofun <|
      .act rfl nofun .refl
  have hjoin : (server demoSetup).Plays NoClients
      (code demoSetup.sha1 (.handleConnection demoClient)) ⟨true, [7, 3], some 3, 1, [], demoNodes⟩
      joinEvents [] (.ret (some (.readFrames demoClient)))
      ⟨true, [7, 3], some 3, 1, [demoClient], demoNodes⟩ :=
    .act rfl nofun <| .goto <| .act ⟨by decide +kernel, by decide, rfl⟩ nofun hupgrade
  have hrun : (server demoSetup).Run NoClients (demoCommands.map .command) .initial [] _ _ := .init
  have hregistered := (hrun.plays (i := 0) rfl hstart).plays (i := 1) rfl hregister
  have haccepted := hregistered.plays (i := 2) rfl haccept
  exact ⟨_, _, haccepted.plays (i := 4) rfl hjoin⟩

/-- The client reads the topology of one node, and three pairs are not online. -/
theorem messages_of_run_demo :
    messages (writtenTo demoClient demoHistory) = [demoDocument] ∧
    ∃ before after s', demoHistory = before ++ ⟨.topologyJson, demoDocument⟩ :: after ∧
      ReadAt demoSetup demoCommands before s' demoDocument ∧
      ((∀ e ∈ before, BringsPlain e.op) →
        rebuildTopology demoDocument = some (decide (3 ≤ (onlinePairs s'.nodes).card))) := by
  obtain ⟨threads, s, hrun⟩ := exists_demoHistory_run
  have hdocument : demoDocument.length < 2 ^ 31 - 16 := by decide +kernel
  have hshort : ∀ json ∈ documentsOf demoHistory, json.length < 2 ^ 31 - 16 :=
    List.forall_mem_cons.mpr ⟨hdocument, List.forall_mem_singleton.mpr hdocument⟩
  have hmessages : messages (writtenTo demoClient demoHistory) = [demoDocument] :=
    @messages_frames demoSetup.sha1 [] [demoDocument] (List.forall_mem_singleton.mpr hdocument)
  refine ⟨hmessages, ?_⟩
  exact (messages_of_run demoSetup demoCommands demoHistory threads s hrun hshort demoClient
    (writtenTo demoClient demoHistory) List.prefix_rfl).2 demoDocument
      (by rw [hmessages]; exact List.mem_singleton_self _)

end Freehold.Web
