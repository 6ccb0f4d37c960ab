import Mathlib.Tactic

/-!
# The relay client (`relay_client.cpp`)

One service and its UDP socket. Each turn of `engine_loop` handles the datagram that `recvfrom`
returns, if it returns one in time, and then sends what is due. The callbacks are set, as in
`main`.
-/

namespace Freehold.Relay

/-- An IPv4 address and a port. -/
structure Address where
  ip : UInt32
  port : UInt16
  deriving DecidableEq

/-- `RelayService`; `local_port` is not used. -/
structure RelayService where
  name : List Char
  relayPort : UInt16

/-- The 16 bytes that a Challenge brings. -/
structure Cookie where
  bytes : List UInt8
  length : bytes.length = 16
  deriving DecidableEq

theorem Cookie.length_zero : (List.replicate 16 (0 : UInt8)).length = 16 := rfl

def Cookie.zero : Cookie := ⟨List.replicate 16 0, Cookie.length_zero⟩

structure ServiceState where
  cookie : Cookie := .zero
  registered : Bool := false
  subdomain : List Char := []

inductive Output where
  | sendto (addr : Address) (bytes : List UInt8)
  | onRegistered (serviceName : List Char) (port : UInt16)
  | onSubdomain (serviceName subdomain : List Char)
  deriving DecidableEq

/-! ## Messages -/

def relayMagic : UInt8 := 0x46

inductive RelayMsgType where
  | register
  | challenge
  | confirm
  | heartbeat
  | neighbors
  deriving DecidableEq

def RelayMsgType.byte : RelayMsgType → UInt8
  | .register => 0x01
  | .challenge => 0x02
  | .confirm => 0x03
  | .heartbeat => 0x04
  | .neighbors => 0x05

/-- `buf` in `send_relay_msg`, as far as it is sent. -/
def relayMsg (type : RelayMsgType) (port : UInt16) (cookie : Option Cookie)
    (payload : List UInt8) : List UInt8 :=
  [relayMagic, type.byte, (port >>> 8).toUInt8, port.toUInt8] ++
    (cookie.getD .zero).bytes ++ payload.take (2048 - 20)

def sendRegister (svc : RelayService) (relayAddr : Address) : Output :=
  .sendto relayAddr (relayMsg .register svc.relayPort none [])

def confirm (svc : RelayService) (relayAddr : Address) (cookie : Cookie) : Output :=
  .sendto relayAddr (relayMsg .confirm svc.relayPort (some cookie) [])

def sendHeartbeat (svc : RelayService) (relayAddr : Address) (cookie : Cookie) : Output :=
  .sendto relayAddr (relayMsg .heartbeat svc.relayPort (some cookie) [])

def sendConfirm (svc : RelayService) (relayAddr : Address) (st : ServiceState) :
    ServiceState × List Output :=
  ({ st with registered := true },
    [confirm svc relayAddr st.cookie, .onRegistered svc.name svc.relayPort])

theorem relayMsg_type (type : RelayMsgType) (port : UInt16) (cookie : Option Cookie)
    (payload : List UInt8) : (relayMsg type port cookie payload)[1]? = some type.byte := rfl

theorem relayMsg_cookie (type : RelayMsgType) (port : UInt16) (cookie : Option Cookie)
    (payload : List UInt8) :
    ((relayMsg type port cookie payload).drop 4).take 16 = (cookie.getD .zero).bytes :=
  List.take_left' (cookie.getD .zero).length

/-! ## Received packets -/

/-- A string that is made of bytes. -/
def text (bytes : List UInt8) : List Char := bytes.map fun b => Char.ofNat b.toNat

def extractSubdomain (payload : List UInt8) (ourPort : UInt16) : List Char :=
  match payload with
  | high :: low :: slen :: rest =>
    if rest.length < slen.toNat then []
    else if (high.toUInt16 <<< 8) ||| low.toUInt16 = ourPort then text (rest.take slen.toNat)
    else extractSubdomain (rest.drop slen.toNat) ourPort
  | _ => []
termination_by payload.length
decreasing_by
  simp only [List.length_drop, List.length_cons]
  omega

/-- `fqdn`. -/
def fqdn (sub : List Char) : List Char := sub ++ ".stare.network".toList

def parseNeighbors (svc : RelayService) (st : ServiceState) (payload : List UInt8) :
    ServiceState × List Output :=
  let sub := extractSubdomain payload svc.relayPort
  if sub ≠ [] ∧ sub ≠ st.subdomain then
    ({ st with subdomain := sub }, [.onSubdomain svc.name (fqdn sub)])
  else (st, [])

/-- The cookie at offset 4. -/
def cookieAt (data : List UInt8) (h : 20 ≤ data.length) : Cookie where
  bytes := (data.drop 4).take 16
  length := by
    rw [List.length_take, List.length_drop]
    omega

def handleRelayPacket (svc : RelayService) (relayAddr : Address) (st : ServiceState)
    (data : List UInt8) : ServiceState × List Output :=
  if data.length < 4 then (st, [])
  else if data[1]? = some RelayMsgType.challenge.byte then
    if h : 20 ≤ data.length then sendConfirm svc relayAddr { st with cookie := cookieAt data h }
    else (st, [])
  else if data[1]? = some RelayMsgType.neighbors.byte then
    let st := { st with registered := true }
    if 20 < data.length then parseNeighbors svc st (data.drop 20) else (st, [])
  else (st, [])

/-- What is not for the relay client would be forwarded to the HTTP/3 proxy. -/
def demux (svc : RelayService) (relayAddr : Address) (st : ServiceState) (data : List UInt8) :
    ServiceState × List Output :=
  if data.head? = some relayMagic ∧ 4 ≤ data.length then handleRelayPacket svc relayAddr st data
  else (st, [])

/-! ## The loop -/

/-- What `recvfrom` brings in one turn, and the clock after it, in nanoseconds. -/
structure Turn where
  received : Option (Address × List UInt8)
  now : ℕ

structure Engine where
  st : ServiceState
  lastHeartbeat : ℕ

/-- The datagram as it is in `buf`. -/
def Turn.data (t : Turn) : Option (List UInt8) :=
  t.received.map fun datagram => datagram.2.take 2048

/-- The reaction to the datagram, before anything is sent for the time that has passed. -/
def Turn.handled (svc : RelayService) (relayAddr : Address) (st : ServiceState) (t : Turn) :
    ServiceState × List Output :=
  match t.data with
  | some data => demux svc relayAddr st data
  | none => (st, [])

/-- One turn of the loop. -/
def Engine.turn (svc : RelayService) (relayAddr : Address) (e : Engine) (t : Turn) :
    Engine × List Output :=
  let (st, handled) := t.handled svc relayAddr e.st
  let elapsed := (t.now - e.lastHeartbeat) / 10 ^ 9
  let beats : Bool := st.registered && 90 ≤ elapsed
  let heartbeat := if beats then [sendHeartbeat svc relayAddr st.cookie] else []
  let register := if !st.registered && 10 ≤ elapsed then [sendRegister svc relayAddr] else []
  (⟨st, if beats then t.now else e.lastHeartbeat⟩, handled ++ heartbeat ++ register)

/-- The engine before the loop. -/
def Engine.start (now : ℕ) : Engine := ⟨{}, now⟩

/-- What is sent before the loop: a byte through the NAT to the registered port, and the first
Register. -/
def preamble (svc : RelayService) (relayAddr : Address) : List Output :=
  [.sendto { relayAddr with port := svc.relayPort } [0], sendRegister svc relayAddr]

/-- The engine after some turns, and what it has sent and called in them. -/
def Engine.turns (svc : RelayService) (relayAddr : Address) (e : Engine) :
    List Turn → Engine × List Output
  | [] => (e, [])
  | t :: rest =>
    let (e', outputs) := e.turn svc relayAddr t
    let (e'', others) := e'.turns svc relayAddr rest
    (e'', outputs ++ others)

def engineLoop (svc : RelayService) (relayAddr : Address) (started : ℕ) (turns : List Turn) :
    Engine × List Output :=
  let (e, outputs) := (Engine.start started).turns svc relayAddr turns
  (e, preamble svc relayAddr ++ outputs)

/-! ## What a datagram amounts to -/

variable {svc : RelayService} {relayAddr : Address} {st : ServiceState} {data : List UInt8}
  {e : Engine} {t : Turn}

/-- The cookie of a Challenge. -/
def challenge? (data : List UInt8) : Option Cookie :=
  if h : data.head? = some relayMagic ∧ data[1]? = some RelayMsgType.challenge.byte ∧
      20 ≤ data.length then
    some (cookieAt data h.2.2)
  else none

def isNeighbors (data : List UInt8) : Bool :=
  data.head? = some relayMagic ∧ 4 ≤ data.length ∧
    data[1]? = some RelayMsgType.neighbors.byte

/-- The subdomain in a Neighbors message, or the empty string. -/
def assigned (svc : RelayService) (data : List UInt8) : List Char :=
  if isNeighbors data ∧ 20 < data.length then extractSubdomain (data.drop 20) svc.relayPort else []

theorem isNeighbors_of_challenge {k : Cookie} (h : challenge? data = some k) :
    isNeighbors data = false := by
  unfold challenge? at h
  split at h
  · rename_i hdata
    simp [isNeighbors, hdata.2.1, RelayMsgType.byte]
  · cases h

theorem demux_of_challenge {k : Cookie} (h : challenge? data = some k) :
    demux svc relayAddr st data =
      ({ st with cookie := k, registered := true },
        [confirm svc relayAddr k, .onRegistered svc.name svc.relayPort]) := by
  unfold challenge? at h
  split at h
  · rename_i hdata
    obtain ⟨hmagic, htype, hlength⟩ := hdata
    cases h
    have hfour : 4 ≤ data.length := by omega
    simp [demux, handleRelayPacket, sendConfirm, hmagic, htype, hlength, hfour,
      Nat.not_lt.mpr hfour]
  · cases h

theorem demux_of_neighbors (h : isNeighbors data) :
    demux svc relayAddr st data =
      if assigned svc data ≠ [] ∧ assigned svc data ≠ st.subdomain then
        ({ st with registered := true, subdomain := assigned svc data },
          [.onSubdomain svc.name (fqdn (assigned svc data))])
      else ({ st with registered := true }, []) := by
  have hdata := h
  simp only [isNeighbors, Bool.decide_and, Bool.and_eq_true, decide_eq_true_eq] at hdata
  obtain ⟨hmagic, hfour, htype⟩ := hdata
  unfold demux handleRelayPacket assigned
  rw [if_pos ⟨hmagic, hfour⟩, if_neg (Nat.not_lt.mpr hfour), htype, if_neg (by decide),
    if_pos rfl]
  by_cases hlength : 20 < data.length
  · simp only [hlength, h, and_self, if_true, parseNeighbors]
  · simp [hlength]

theorem demux_of_other (hchallenge : challenge? data = none)
    (hneighbors : isNeighbors data = false) :
    demux svc relayAddr st data = (st, []) := by
  unfold demux
  split
  · rename_i hdata
    obtain ⟨hmagic, hfour⟩ := hdata
    unfold handleRelayPacket
    rw [if_neg (Nat.not_lt.mpr hfour)]
    by_cases htype : data[1]? = some RelayMsgType.challenge.byte
    · have hshort : ¬20 ≤ data.length := fun hlength => by
        simp [challenge?, hmagic, htype, hlength] at hchallenge
      rw [if_pos htype, dif_neg hshort]
    · have hother : data[1]? ≠ some RelayMsgType.neighbors.byte := fun htype => by
        simp [isNeighbors, hmagic, hfour, htype] at hneighbors
      rw [if_neg htype, if_neg hother]
  · rfl

/-- What a turn does with its datagram. -/
theorem Turn.handled_cases (svc : RelayService) (relayAddr : Address) (st : ServiceState)
    (t : Turn) :
    (∃ k, t.data.bind challenge? = some k ∧ t.handled svc relayAddr st =
      ({ st with cookie := k, registered := true },
        [confirm svc relayAddr k, .onRegistered svc.name svc.relayPort])) ∨
    (t.data.bind challenge? = none ∧ ∃ data, t.data = some data ∧ isNeighbors data ∧
      t.handled svc relayAddr st =
        if assigned svc data ≠ [] ∧ assigned svc data ≠ st.subdomain then
          ({ st with registered := true, subdomain := assigned svc data },
            [.onSubdomain svc.name (fqdn (assigned svc data))])
        else ({ st with registered := true }, [])) ∨
    (t.data.bind challenge? = none ∧ (∀ data ∈ t.data, isNeighbors data = false) ∧
      t.handled svc relayAddr st = (st, [])) := by
  unfold Turn.handled
  cases hdata : t.data with
  | none => exact .inr (.inr ⟨rfl, by simp, rfl⟩)
  | some data =>
    cases hchallenge : challenge? data with
    | some k => exact .inl ⟨k, hchallenge, demux_of_challenge hchallenge⟩
    | none =>
      cases hneighbors : isNeighbors data with
      | true => exact .inr (.inl ⟨hchallenge, data, rfl, hneighbors, demux_of_neighbors hneighbors⟩)
      | false =>
        refine .inr (.inr ⟨hchallenge, ?_, demux_of_other hchallenge hneighbors⟩)
        rintro _ ⟨⟩
        exact hneighbors

theorem Engine.turns_append (xs ys : List Turn) :
    e.turns svc relayAddr (xs ++ ys) =
      (((e.turns svc relayAddr xs).1.turns svc relayAddr ys).1,
        (e.turns svc relayAddr xs).2 ++
          ((e.turns svc relayAddr xs).1.turns svc relayAddr ys).2) := by
  induction xs generalizing e with
  | nil => simp [Engine.turns]
  | cons t xs ih => simp [Engine.turns, ih]

end Freehold.Relay
