import Mathlib.Data.Nat.Digits.Lemmas
import Std.Data.ExtTreeMap

/-!
# The QUIC proxy (`h3_proxy.cpp`)

How `handle_quic_packet` finds the state of a connection. What `ngtcp2`, `nghttp3` and wolfSSL
answer is given with each packet; `ngtcp2_pkt_decode_version_cid` is the function `decode`.
-/

namespace Freehold.Proxy

/-- A connection id. -/
abbrev Cid := List UInt8

structure SockaddrIn where
  addr : UInt32
  port : UInt16

structure ConnectionState where
  /-- Which object it is: how many have been allocated before it. -/
  address : ℕ
  connId : ℕ
  remote : SockaddrIn
  ssl : Bool

structure H3Proxy where
  /-- Whether `ssl_ctx_` is set. -/
  sslCtx : Bool
  connections : Std.ExtTreeMap ℕ ConnectionState
  allocated : ℕ

def started (sslCtx : Bool) : H3Proxy := ⟨sslCtx, ∅, 0⟩

structure Packet where
  data : List UInt8
  remote : SockaddrIn

/-- What the libraries do with one packet. -/
structure Answers where
  wolfSslNew : Bool
  /-- The calls of `rand` for `scid`. -/
  rand : Fin 8 → UInt8
  ngtcp2ConnServerNew : Bool
  nghttp3ConnServerNew : Bool
  /-- The ids that `get_new_connection_id_cb` hands out while the packet is read and answered. -/
  newConnectionIds : List Cid

/-- `scid`, of `NGTCP2_MIN_INITIAL_DCIDLEN` bytes. -/
def Answers.scid (answers : Answers) : Cid := List.ofFn answers.rand

/-- `key`: the first eight bytes of the id, copied into a 64-bit zero, the lowest byte first. -/
def connKey (dcid : Cid) : ℕ := Nat.ofDigits 256 ((dcid.take 8).map UInt8.toNat)

def getOrCreateConn (proxy : H3Proxy) (dcid : Cid) (remote : SockaddrIn) (answers : Answers) :
    Option ConnectionState × H3Proxy :=
  match proxy.connections[connKey dcid]? with
  | some state => (some state, proxy)
  | none =>
    let state : ConnectionState :=
      { address := proxy.allocated, connId := connKey dcid, remote, ssl := proxy.sslCtx }
    let proxy := { proxy with allocated := proxy.allocated + 1 }
    if proxy.sslCtx && !answers.wolfSslNew then (none, proxy)
    else if !answers.ngtcp2ConnServerNew then (none, proxy)
    else if !answers.nghttp3ConnServerNew then (none, proxy)
    else (some state, { proxy with connections := proxy.connections.insert (connKey dcid) state })

/-- A packet that has been handled. -/
structure Handled where
  dcid : Cid
  /-- The address of the state that it has been fed to. -/
  routed : Option ℕ
  /-- Whether it has created this state. -/
  created : Bool
  /-- The ids that the server has chosen for this state then. -/
  chosen : List Cid
  deriving DecidableEq

/-- Nothing is handled if the header cannot be decoded. -/
def handleQuicPacket (decode : List UInt8 → Option Cid) (proxy : H3Proxy) (packet : Packet)
    (answers : Answers) : Option Handled × H3Proxy :=
  if packet.data.length < 1 then (none, proxy)
  else
    match decode packet.data with
    | none => (none, proxy)
    | some dcid =>
      match getOrCreateConn proxy dcid packet.remote answers with
      | (none, proxy) => (some ⟨dcid, none, false, []⟩, proxy)
      | (some state, proxy') =>
        let created := !proxy.connections.contains (connKey dcid)
        let scids := if created then [answers.scid] else []
        (some ⟨dcid, some state.address, created, scids ++ answers.newConnectionIds⟩, proxy')

/-- The packets that are handled in a run. -/
def history (decode : List UInt8 → Option Cid) : H3Proxy → List (Packet × Answers) → List Handled
  | _, [] => []
  | proxy, (packet, answers) :: inputs =>
    let (handled, proxy) := handleQuicPacket decode proxy packet answers
    handled.toList ++ history decode proxy inputs

/-! ## Keys -/

/-- The first eight bytes, with zeros behind a shorter id. -/
def firstEight (dcid : Cid) : Cid := (dcid.take 8).rightpad 8 0

variable {a b dcid : Cid}

theorem length_firstEight (dcid : Cid) : (firstEight dcid).length = 8 := by
  simp [firstEight]

theorem connKey_eq_ofDigits (dcid : Cid) :
    connKey dcid = Nat.ofDigits 256 ((firstEight dcid).map UInt8.toNat) := by
  rw [firstEight, List.rightpad, List.map_append, List.map_replicate]
  exact (Nat.ofDigits_append_replicate_zero _).symm

/-- Two ids have one key exactly if their first eight bytes agree. -/
theorem connKey_eq_iff : connKey a = connKey b ↔ firstEight a = firstEight b := by
  have hbytes : ∀ dcid : Cid, ∀ n ∈ (firstEight dcid).map UInt8.toNat, n < 256 := by
    intro dcid n hn
    obtain ⟨byte, -, rfl⟩ := List.mem_map.mp hn
    exact byte.toNat_lt
  rw [connKey_eq_ofDigits, connKey_eq_ofDigits]
  constructor
  · intro h
    refine List.map_injective_iff.mpr (fun _ _ => UInt8.toNat_inj.mp) ?_
    refine Nat.ofDigits_inj_of_len_eq (by norm_num) ?_ (hbytes a) (hbytes b) h
    rw [List.length_map, List.length_map, length_firstEight, length_firstEight]
  · intro h
    rw [h]

end Freehold.Proxy
