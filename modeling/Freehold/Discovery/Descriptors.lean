import Freehold.Discovery.Topology
import Freehold.Foundation.Threads

/-!
# The descriptors of the discovery server (`discovery.cpp`)

The threads of the server run side by side. A system call on a descriptor is one step, and so
is a section under `nodes_mu_` or `ws_mu_`. Every `while` loop is a point of its own.
-/

namespace Freehold.Discovery.Descriptors

open Interaction Interaction.Program
open Freehold.Mail (atoi base64Encode)

/-- What `accept` returns. The code sees the number, which the system gives again once it is
free. -/
structure Descriptor where
  number : ℕ
  /-- How many descriptors had been accepted before. -/
  connection : ℕ
  deriving DecidableEq

/-! ## The operations -/

inductive Call where
  /-- `running_.load()`. -/
  | running
  | setRunning (value : Bool)
  /-- `listen_fd_ = socket(...)`. -/
  | socket
  | bind
  /-- Closing `listen_fd_`, which becomes -1. -/
  | closeListener
  | accept
  /-- A new thread runs `accept_loop`. -/
  | listenThread
  /-- A new thread runs `prune_loop`. -/
  | pruneThread
  /-- A new thread runs `handle_connection`. -/
  | detach (fd : Descriptor)
  | setTimeout (fd : Descriptor)
  | recv (fd : Descriptor) (size : ℕ)
  | send (fd : Descriptor) (text : List Char)
  | close (fd : Descriptor)
  | addClient (fd : Descriptor)
  | removeClient (fd : Descriptor)
  /-- `send_ws_text` to every client. -/
  | sendAll (frame : List Char)
  /-- The section of `stop`. -/
  | closeClients
  | registerNode (partyId port : ℤ) (hostname status : List Char)
  | updateRelayStatus (partyId port : ℤ) (registered : Bool) (fqdn : List Char)
  | pruneStale
  | topologyJson
  | resolve (query : List Char)
  | countNodes
  /-- The constructor of `payload`. -/
  | allocate (size : ℕ)
  /-- A byte that nothing has been written to. -/
  | unassigned
  /-- The memory behind the terminator of a string. -/
  | overrun
  /-- An exception leaves the thread: `std::terminate`. -/
  | terminate

/-- `recv` answers what it has read, if anything. The sections under `ws_mu_` answer which
clients they sent to or closed. -/
abbrev Sockets : Interface where
  Op := Call
  Answer
    | .running | .socket | .bind | .registerNode _ _ _ _ | .pruneStale | .allocate _ => Bool
    | .accept => Option Descriptor
    | .recv _ _ | .topologyJson | .overrun => List Char
    | .sendAll _ | .closeClients => List Descriptor
    | .resolve _ => ℕ × List Char
    | .countNodes => ℕ
    | .unassigned => Char
    | .terminate => Empty
    | _ => Unit

/-- What the rest of the program calls. -/
inductive Command where
  | start
  | stop
  | registerNode (partyId port : ℤ) (hostname status : List Char)
  | updateRelayStatus (partyId port : ℤ) (registered : Bool) (fqdn : List Char)

inductive Point where
  | command (c : Command)
  | acceptLoop
  /-- The loop of `accept_loop`. -/
  | acceptNext
  | pruneLoop
  | handleConnection (fd : Descriptor)
  /-- The loop that fills `buf`. -/
  | readHeaders (fd : Descriptor) (buf : List Char)
  /-- The loop that fills `body`. -/
  | readBody (fd : Descriptor) (requestLine headers : List Char) (contentLength : ℕ)
    (body : List Char)
  /-- `// Route`. -/
  | routing (fd : Descriptor) (requestLine headers body : List Char)
  /-- The loop of `handle_ws_upgrade`. -/
  | readFrames (fd : Descriptor)
  /-- The loop that fills `payload`. -/
  | readPayload (fd : Descriptor) (remaining : ℕ)

abbrev Code := Program Sockets Empty

abbrev SocketEvent := Interaction.Event Sockets

abbrev ServerThread := Interaction.Thread Point Sockets Empty

/-! ## Texts -/

def byte (n : ℕ) : Char := Char.ofNat (n % 256)

def bigEndian (bytes : List Char) : ℕ := bytes.foldl (fun value c => value * 256 + c.toNat) 0

/-- The text before the first occurrence of `needle`. -/
def before (needle text : List Char) : Option (List Char) :=
  (afterFirst needle text).map fun rest => text.take (text.length - rest.length - needle.length)

def contains (text needle : List Char) : Bool := (afterFirst needle text).isSome

def crlf : List Char := ['\r', '\n']

/-- The headers, when `buf` holds them whole: `strstr` stops at a null byte. -/
def headersOf (buf : List Char) : Option (List Char) :=
  before (crlf ++ crlf) (buf.takeWhile fun c => c ≠ '\x00')

/-- What stands behind `Content-Length:`. -/
def lengthText (headers : List Char) : Option (List Char) :=
  (afterFirst "Content-Length:".toList headers).or (afterFirst "content-length:".toList headers)

/-- The query of `GET /resolve`. -/
def queryOf (requestLine : List Char) : List Char :=
  ((afterFirst ['?'] requestLine).map fun rest => rest.takeWhile fun c => c ≠ ' ').getD []

/-- `ws_key`; `none` when `substr` throws. -/
def wsKey (headers : List Char) : Option (List Char) :=
  match (afterFirst "Sec-WebSocket-Key:".toList headers).or
      (afterFirst "sec-websocket-key:".toList headers) with
  | none => some []
  | some rest =>
    match rest.dropWhile fun c => c = ' ' || c = '\t' with
    | [] => none
    | value => some ((before crlf value).getD value)

def statusText (status : ℕ) : List Char :=
  if status = 400 then "Bad Request".toList
  else if status = 404 then "Not Found".toList
  else "OK".toList

/-- What `send_http` sends. -/
def httpResponse (status : ℕ) (body : List Char) : List Char :=
  "HTTP/1.1 ".toList ++ Decimal.ofInt status ++ [' '] ++ statusText status ++ crlf ++
  "Content-Type: application/json".toList ++ crlf ++
  "Access-Control-Allow-Origin: *".toList ++ crlf ++
  "Access-Control-Allow-Methods: POST, GET, OPTIONS".toList ++ crlf ++
  "Access-Control-Allow-Headers: Content-Type".toList ++ crlf ++
  "Content-Length: ".toList ++ Decimal.ofInt body.length ++ crlf ++
  "Connection: close".toList ++ crlf ++ crlf ++ body

/-- What `send_ws_text` sends. -/
def wsFrame (text : List Char) : List Char :=
  let len := text.length
  let extended : List Char :=
    if len < 126 then [byte len]
    else if len < 65536 then [byte 126, byte (len / 256), byte len]
    else byte 127 :: (List.range 8).reverse.map fun i => byte (len / 256 ^ i)
  byte 0x81 :: extended ++ text

def wsMagic : List Char := "258EAFA5-E914-47DA-95CA-5AB9DC85B11B".toList

/-- `ws_accept_key`. -/
def wsAcceptKey (sha1 : List Char → List Char) (clientKey : List Char) : List Char :=
  base64Encode (sha1 (clientKey ++ wsMagic))

/-- The response of `handle_ws_upgrade`. -/
def switchingProtocols (sha1 : List Char → List Char) (key : List Char) : List Char :=
  "HTTP/1.1 101 Switching Protocols".toList ++ crlf ++
  "Upgrade: websocket".toList ++ crlf ++
  "Connection: Upgrade".toList ++ crlf ++
  "Sec-WebSocket-Accept: ".toList ++ wsAcceptKey sha1 key ++ crlf ++
  "Access-Control-Allow-Origin: *".toList ++ crlf ++ crlf

/-- The size that `recv` gets for `(int)(length - read)`: a negative `int` is a large `size_t`. -/
def recvSize (remaining : ℕ) : ℕ :=
  let low := remaining % 2 ^ 32
  if low < 2 ^ 31 then low else 2 ^ 64 - 2 ^ 32 + low

/-! ## The code -/

def broadcastTopology : Code Unit := do
  let json ← perform (E := Sockets) .topologyJson
  let _ ← perform (E := Sockets) (.sendAll (wsFrame json))

def registerNode (partyId port : ℤ) (hostname status : List Char) : Code Unit := do
  let isNew ← perform (E := Sockets) (.registerNode partyId port hostname status)
  if isNew then broadcastTopology else pure ()

def updateRelayStatus (partyId port : ℤ) (registered : Bool) (fqdn : List Char) : Code Unit := do
  perform (E := Sockets) (.updateRelayStatus partyId port registered fqdn)
  broadcastTopology

def pruneStale : Code Unit := do
  let pruned ← perform (E := Sockets) .pruneStale
  if pruned then broadcastTopology else pure ()

def sendHttp (fd : Descriptor) (status : ℕ) (body : List Char) : Code Unit :=
  perform (E := Sockets) (.send fd (httpResponse status body))

def handleAnnounce (fd : Descriptor) (body : List Char) : Code Unit :=
  match announcement body with
  | none => sendHttp fd 400 "\x7b\"error\":\"party_id and port required\"\x7d".toList
  | some a => do
    registerNode a.partyId a.port a.hostname a.status
    sendHttp fd 200 "\x7b\"status\":\"registered\"\x7d".toList
    broadcastTopology

def handleNodes (fd : Descriptor) : Code Unit := do
  let json ← perform (E := Sockets) .topologyJson
  sendHttp fd 200 json

def handleResolve (fd : Descriptor) (query : List Char) : Code Unit := do
  let answer ← perform (E := Sockets) (.resolve query)
  sendHttp fd answer.1 answer.2

/-- `nodes_mu_` is held until the response has been sent; here the two are steps of their own. -/
def handleHealth (fd : Descriptor) : Code Unit := do
  let count ← perform (E := Sockets) .countNodes
  sendHttp fd 200
    ("\x7b\"status\":\"ok\",\"nodes\":".toList ++ Decimal.ofInt count ++ "\x7d".toList)

def terminate : Code (Option Point) := .call .terminate Empty.elim

def closeSocket (fd : Descriptor) : Code (Option Point) := do
  perform (E := Sockets) (.close fd)
  return none

/-- The end of `handle_ws_upgrade`. -/
def disconnect (fd : Descriptor) : Code (Option Point) := do
  perform (E := Sockets) (.removeClient fd)
  closeSocket fd

def handleWsUpgrade (sha1 : List Char → List Char) (fd : Descriptor) (key : List Char) :
    Code (Option Point) := do
  perform (E := Sockets) (.send fd (switchingProtocols sha1 key))
  perform (E := Sockets) (.addClient fd)
  let json ← perform (E := Sockets) .topologyJson
  perform (E := Sockets) (.send fd (wsFrame json))
  return some (.readFrames fd)

/-- The extended length of a frame; `none` when the client is gone. -/
def readLength (fd : Descriptor) (length : ℕ) : Code (Option ℕ) :=
  if length = 126 then do
    let ext ← perform (E := Sockets) (.recv fd 2)
    return if ext.length = 2 then some (bigEndian ext) else none
  else if length = 127 then do
    let ext ← perform (E := Sockets) (.recv fd 8)
    return if ext.length = 8 then some (bigEndian ext) else none
  else return some length

/-- Whether the masking key could be read, if there is one. -/
def readMask (fd : Descriptor) (masked : Bool) : Code Bool :=
  if masked then do
    let mask ← perform (E := Sockets) (.recv fd 4)
    return mask.length = 4
  else return true

/-- The second byte of a frame. -/
def secondByte : List Char → Code Char
  | second :: _ => return second
  | [] => perform (E := Sockets) .unassigned

/-- A frame from its second byte to its payload. -/
def readPrelude (fd : Descriptor) (second : Char) : Code (Option Point) := do
  match ← readLength fd (second.toNat % 128) with
  | none => disconnect fd
  | some length =>
    if ← readMask fd (128 ≤ second.toNat) then
      if ← perform (E := Sockets) (.allocate length) then
        return some (.readPayload fd length)
      else terminate
    else disconnect fd

/-- A frame up to its payload. -/
def readFrame (fd : Descriptor) : Code (Option Point) := do
  match ← perform (E := Sockets) (.recv fd 2) with
  | [] => disconnect fd
  | first :: rest =>
    if first.toNat % 16 = 8 then disconnect fd
    else
      let second ← secondByte rest
      readPrelude fd second

/-- `content_length`. One more character is skipped; where the headers end before it, `atoi` gets
what is behind them. -/
def contentLength (headers : List Char) : Code ℤ :=
  match lengthText headers with
  | none => return 0
  | some [] => do
    let text ← perform (E := Sockets) .overrun
    return atoi text
  | some (_ :: text) => return atoi text

/-- `handle_connection` from the routing on. -/
def route (sha1 : List Char → List Char) (fd : Descriptor) (requestLine headers body : List Char) :
    Code (Option Point) :=
  if contains requestLine "POST /announce".toList then do
    handleAnnounce fd body
    closeSocket fd
  else if contains requestLine "GET /health".toList then do
    handleHealth fd
    closeSocket fd
  else if contains requestLine "GET /nodes".toList ||
      contains requestLine "GET /topology".toList then do
    handleNodes fd
    closeSocket fd
  else if contains requestLine "GET /resolve".toList then do
    handleResolve fd (queryOf requestLine)
    closeSocket fd
  else if contains requestLine "GET /ws".toList && contains headers "Upgrade: websocket".toList then
    match wsKey headers with
    | none => terminate
    | some key => handleWsUpgrade sha1 fd key
  else do
    sendHttp fd 404 "\x7b\"error\":\"not found\"\x7d".toList
    closeSocket fd

/-- `handle_connection` once `buf` holds the headers. -/
def afterHeaders (fd : Descriptor) (buf headers : List Char) : Code (Option Point) := do
  let requestLine := (before crlf headers).getD []
  let length ← contentLength headers
  if 0 < length then
    return some (.readBody fd requestLine headers length.toNat
      ((buf.drop (headers.length + 4)).take length.toNat))
  else return some (.routing fd requestLine headers [])

/-- The loop that fills `buf` after a `recv`. -/
def received (fd : Descriptor) (buf : List Char) : Code (Option Point) :=
  match headersOf buf with
  | none => return some (.readHeaders fd buf)
  | some headers => afterHeaders fd buf headers

/-- `stop` up to the `join`s. -/
def stop : Code (Option Point) := do
  if ← perform (E := Sockets) .running then
    perform (E := Sockets) (.setRunning false)
    perform (E := Sockets) .closeListener
    let _ ← perform (E := Sockets) .closeClients
    return none
  else return none

def start : Code (Option Point) := do
  if ← perform (E := Sockets) .running then return none
  else
    perform (E := Sockets) (.setRunning true)
    perform (E := Sockets) .listenThread
    perform (E := Sockets) .pruneThread
    return none

/-- `accept_loop` up to its loop. -/
def acceptLoop : Code (Option Point) := do
  if ← perform (E := Sockets) .socket then
    if ← perform (E := Sockets) .bind then return some .acceptNext
    else
      perform (E := Sockets) .closeListener
      return none
  else return none

def command : Command → Code (Option Point)
  | .start => start
  | .stop => stop
  | .registerNode partyId port hostname status => do
    registerNode partyId port hostname status
    return none
  | .updateRelayStatus partyId port registered fqdn => do
    updateRelayStatus partyId port registered fqdn
    return none

/-- `sizeof(buf)` is 4096. -/
def code (sha1 : List Char → List Char) : Point → Code (Option Point)
  | .command c => command c
  | .acceptLoop => acceptLoop
  | .acceptNext => do
    if ← perform (E := Sockets) .running then
      match ← perform (E := Sockets) .accept with
      | none => return some .acceptNext
      | some fd =>
        perform (E := Sockets) (.detach fd)
        return some .acceptNext
    else return none
  | .pruneLoop => do
    if ← perform (E := Sockets) .running then
      pruneStale
      return some .pruneLoop
    else return none
  | .handleConnection fd => do
    perform (E := Sockets) (.setTimeout fd)
    return some (.readHeaders fd [])
  | .readHeaders fd buf =>
    if buf.length < 4095 then do
      match ← perform (E := Sockets) (.recv fd (4095 - buf.length)) with
      | [] => closeSocket fd
      | data => received fd (buf ++ data)
    else closeSocket fd
  | .readBody fd requestLine headers contentLength body =>
    if body.length < contentLength then do
      match ← perform (E := Sockets) (.recv fd (min 4096 (contentLength - body.length))) with
      | [] => return some (.routing fd requestLine headers body)
      | data => return some (.readBody fd requestLine headers contentLength (body ++ data))
    else return some (.routing fd requestLine headers body)
  | .routing fd requestLine headers body => route sha1 fd requestLine headers body
  | .readFrames fd => do
    if ← perform (E := Sockets) .running then readFrame fd else disconnect fd
  | .readPayload fd remaining =>
    if 0 < remaining then do
      match ← perform (E := Sockets) (.recv fd (recvSize remaining)) with
      | [] => return some (.readFrames fd)
      | data => return some (.readPayload fd (remaining - data.length))
    else return some (.readFrames fd)

/-! ## The server -/

/-- What is not of the server. -/
structure Setup where
  sha1 : List Char → List Char
  print : Printer
  nodeTtl : ℤ

structure State where
  running : Bool
  /-- The descriptor numbers that are not free. -/
  inUse : List ℕ
  listenFd : Option ℕ
  /-- How many descriptors have been accepted. -/
  accepted : ℕ
  wsClients : List Descriptor
  nodes : Nodes

def State.initial : State := ⟨false, [], none, 0, [], ∅⟩

def State.closeSocket (s : State) (number : ℕ) : State :=
  { s with inUse := s.inUse.filter fun n => n ≠ number }

def State.closeListener (s : State) : State :=
  match s.listenFd with
  | none => s
  | some number => { s.closeSocket number with listenFd := none }

/-- The clock, the network and the numbers that are free elsewhere are left open. An `accept`
that waits may still return after `listen_fd_` has been closed. -/
def effect (setup : Setup) : (o : Call) → State → Sockets.Answer o → State → Prop
  | .running, s, x, s' => x = s.running ∧ s' = s
  | .setRunning value, s, _, s' => s' = { s with running := value }
  | .socket, s, x, s' =>
    (x = false ∧ s' = { s with listenFd := none }) ∨
    (x = true ∧ ∃ n, n ∉ s.inUse ∧ s' = { s with inUse := n :: s.inUse, listenFd := some n })
  | .closeListener, s, _, s' => s' = s.closeListener
  | .accept, s, x, s' =>
    (x = none ∧ s' = s) ∨
    ∃ n, n ∉ s.inUse ∧ x = some ⟨n, s.accepted⟩ ∧
      s' = { s with inUse := n :: s.inUse, accepted := s.accepted + 1 }
  | .recv fd size, s, x, s' =>
    x.length ≤ size ∧ (fd.number ∉ s.inUse → x = []) ∧ s' = s
  | .close fd, s, _, s' => s' = s.closeSocket fd.number
  | .addClient fd, s, _, s' => s' = { s with wsClients := s.wsClients ++ [fd] }
  | .removeClient fd, s, _, s' =>
    s' = { s with wsClients := s.wsClients.filter fun client => client.number ≠ fd.number }
  | .sendAll _, s, x, s' => x = s.wsClients ∧ s' = s
  | .closeClients, s, x, s' =>
    x = s.wsClients ∧
      s' = { s.wsClients.foldl (fun s fd => s.closeSocket fd.number) s with wsClients := [] }
  | .registerNode partyId port hostname status, s, x, s' =>
    ∃ now, (s'.nodes, x) = Discovery.registerNode s.nodes partyId port hostname status now ∧
      s' = { s with nodes := s'.nodes }
  | .updateRelayStatus partyId port registered fqdn, s, _, s' =>
    s' = { s with nodes := Discovery.updateRelayStatus s.nodes partyId port registered fqdn }
  | .pruneStale, s, x, s' =>
    ∃ now, (s'.nodes, x) = Discovery.pruneStale setup.nodeTtl s.nodes now ∧
      s' = { s with nodes := s'.nodes }
  | .topologyJson, s, x, s' =>
    (∃ now time, x = Discovery.topologyJson setup.print s.nodes now time) ∧ s' = s
  | .resolve query, s, x, s' => x = Discovery.handleResolve s.nodes query ∧ s' = s
  | .countNodes, s, x, s' => x = s.nodes.size ∧ s' = s
  | _, s, _, s' => s' = s

def started : (o : Call) → Sockets.Answer o → Option Point
  | .listenThread, _ => some .acceptLoop
  | .pruneThread, _ => some .pruneLoop
  | .detach fd, _ => some (.handleConnection fd)
  | _, _ => none

def server (setup : Setup) : Threads Point Sockets Empty State where
  code := code setup.sha1
  effect := effect setup
  started := started

/-! ## Using and closing -/

def acceptedBy : SocketEvent → List Descriptor
  | ⟨.accept, some fd⟩ => [fd]
  | _ => []

/-- What a step reads from or writes to. -/
def usedBy : SocketEvent → List Descriptor
  | ⟨.setTimeout fd, _⟩ => [fd]
  | ⟨.recv fd _, _⟩ => [fd]
  | ⟨.send fd _, _⟩ => [fd]
  | ⟨.sendAll _, clients⟩ => clients
  | _ => []

def closedBy : SocketEvent → List Descriptor
  | ⟨.close fd, _⟩ => [fd]
  | ⟨.closeClients, clients⟩ => clients
  | _ => []

/-- `accept_loop` is about to start the handler of `fd`, or the handler has not ended. -/
inductive InCharge (fd : Descriptor) : ServerThread → Prop where
  | accepted {root next} : InCharge fd ⟨root, .call (.detach fd) next⟩
  | handler {rest} (h : rest ≠ .ret none) : InCharge fd ⟨.handleConnection fd, rest⟩

/-- Nothing is read from or written to what has been closed. -/
def Untouched (history : List SocketEvent) : Prop :=
  ∀ before e after, history = before ++ e :: after → ∀ fd ∈ usedBy e, fd ∉ before.flatMap closedBy

/-- Every accepted descriptor is closed exactly once, and not used after that. -/
structure Disciplined (history : List SocketEvent) (threads : List ServerThread) : Prop where
  closed_le_one : ∀ fd, (history.flatMap closedBy).count fd ≤ 1
  /-- The handler has ended. -/
  closed_once : ∀ fd, ⟨.handleConnection fd, .ret none⟩ ∈ threads →
    (history.flatMap closedBy).count fd = 1
  closed_or_inCharge : ∀ fd ∈ history.flatMap acceptedBy,
    fd ∈ history.flatMap closedBy ∨ ∃ t ∈ threads, InCharge fd t
  untouched : Untouched history

/-- `stop` finds no client to close. -/
def NoClients (e : SocketEvent) (s : State) : Prop := e.op = .closeClients → s.wsClients = []

end Freehold.Discovery.Descriptors
