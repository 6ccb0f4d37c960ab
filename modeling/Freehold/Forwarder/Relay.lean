import Freehold.Forwarder.Connection

/-!
# Passing a verified ciphertext on (`forwarder.cpp`)

`forward_to_smtp` sends the ciphertext to the SMTP server and then relays between the two
sockets until one of them ends. `select` decides which of them is read; a client that has
closed its side and whose bytes are all read counts as readable.
-/

namespace Freehold.Forwarder

open Freehold.Server

/-- The sockets that have something to read when `select` returns. -/
structure Readable where
  client : Bool
  smtp : Bool

/-- What was sent over the two sockets. -/
structure Relayed where
  toSmtp : List UInt8
  toClient : List UInt8
deriving DecidableEq

/-- One side of the loop: nothing without data, and `none` where `recv` returns 0. -/
def pass (readable : Bool) (incoming : Segments) : Option (List UInt8 × Segments) :=
  if readable then
    if (incoming.recv 4096).1 = [] then none else some (incoming.recv 4096)
  else some ([], incoming)

theorem pass_append {readable : Bool} {incoming rest : Segments} {got : List UInt8}
    (h : pass readable incoming = some (got, rest)) : got ++ rest.bytes = incoming.bytes := by
  have happend := Segments.recv_append 4096 incoming
  unfold pass at h
  split_ifs at h
  · rw [Option.some.inj h] at happend
    exact happend
  · cases h
    rfl

theorem length_pass {readable : Bool} {incoming rest : Segments} {got : List UInt8}
    (h : pass readable incoming = some (got, rest)) :
    rest.bytes.length ≤ incoming.bytes.length ∧
      (readable = true → rest.bytes.length < incoming.bytes.length) := by
  unfold pass at h
  split_ifs at h with hreadable hgot
  · have hlt := Segments.length_recv_lt hgot
    rw [Option.some.inj h] at hlt
    exact ⟨hlt.le, fun _ => hlt⟩
  · cases h
    exact ⟨le_rfl, fun h => absurd h hreadable⟩

/-- The loop of `forward_to_smtp` from its `k`-th `select` on. -/
def relay (select : ℕ → Readable) (k : ℕ) (client smtp : Segments) : Relayed :=
  if _ : ((select k).client || client.bytes.isEmpty) || (select k).smtp then
    match _hclient : pass ((select k).client || client.bytes.isEmpty) client with
    | none => ⟨[], []⟩
    | some (fromClient, client') =>
      match _hsmtp : pass (select k).smtp smtp with
      | none => ⟨fromClient, []⟩
      | some (fromSmtp, smtp') =>
        let rest := relay select (k + 1) client' smtp'
        ⟨fromClient ++ rest.toSmtp, fromSmtp ++ rest.toClient⟩
  else ⟨[], []⟩
termination_by client.bytes.length + smtp.bytes.length
decreasing_by
  obtain ⟨hclient_le, hclient_lt⟩ := length_pass _hclient
  obtain ⟨hsmtp_le, hsmtp_lt⟩ := length_pass _hsmtp
  rcases Bool.or_eq_true_iff.mp ‹_› with hready | hready
  · have := hclient_lt hready
    omega
  · have := hsmtp_lt hready
    omega

/-- Both directions carry an initial part of what came in, in order. -/
theorem relay_append (select : ℕ → Readable) (k : ℕ) (client smtp : Segments) :
    (∃ unsent, (relay select k client smtp).toSmtp ++ unsent = client.bytes) ∧
      ∃ unsent, (relay select k client smtp).toClient ++ unsent = smtp.bytes := by
  fun_induction relay select k client smtp with
  | case1 k client smtp => exact ⟨⟨_, rfl⟩, ⟨_, rfl⟩⟩
  | case2 k client smtp _ fromClient client' hclient =>
    exact ⟨⟨_, pass_append hclient⟩, ⟨_, rfl⟩⟩
  | case3 k client smtp _ fromClient client' hclient fromSmtp smtp' hsmtp rest ih =>
    obtain ⟨⟨unsent, htoSmtp⟩, ⟨unsent', htoClient⟩⟩ := ih
    refine ⟨⟨unsent, ?_⟩, ⟨unsent', ?_⟩⟩
    · rw [List.append_assoc, htoSmtp, pass_append hclient]
    · rw [List.append_assoc, htoClient, pass_append hsmtp]
  | case4 k client smtp => exact ⟨⟨_, rfl⟩, ⟨_, rfl⟩⟩

/-- Once the client's bytes are all read, the loop ends before it reads a reply. -/
theorem relay_of_client_ended (select : ℕ → Readable) (k : ℕ) {client : Segments}
    (hend : client.bytes = []) (smtp : Segments) : relay select k client smtp = ⟨[], []⟩ := by
  have hrecv : (client.recv 4096).1 = [] := by
    have happend := Segments.recv_append 4096 client
    rw [hend] at happend
    exact (List.append_eq_nil_iff.mp happend).1
  have hpass : pass ((select k).client || client.bytes.isEmpty) client = none := by
    rw [hend, List.isEmpty_nil, Bool.or_true, pass, if_pos rfl, if_pos hrecv]
  unfold relay
  split
  · split
    · rfl
    · next hsome =>
      rw [hpass] at hsome
      cases hsome
  · rfl

def forwardToSmtp (connects : Bool) (select : ℕ → Readable) (ciphertext : List UInt8)
    (client smtp : Segments) : Relayed :=
  if connects then
    let relayed := relay select 0 client smtp
    ⟨ciphertext ++ relayed.toSmtp, relayed.toClient⟩
  else ⟨[], []⟩

/-- What `handle_client` sends over the two sockets before it closes them. -/
def SMTPForwarder.handleClient (f : SMTPForwarder) (hmac : HmacSha256) (connects : Bool)
    (select : ℕ → Readable) (client smtp : Segments) : Relayed :=
  match readRequest client with
  | none => ⟨[], []⟩
  | some request =>
    let header := ProofHeader.parse request.headerJson
    if f.verifyProof hmac request.ciphertext header.circuitHash header.signatureHex
        header.commitments then
      forwardToSmtp connects select request.ciphertext request.client smtp
    else ⟨[], []⟩

/-! ## The replies -/

/-- With less than 4096 bytes of ciphertext the client is read to its end. -/
theorem RequestRead.client_ended {stream : List UInt8} {request : Request} {headerEnd : ℕ}
    (h : RequestRead stream request headerEnd) (hshort : stream.length ≤ headerEnd + 2 + 4095) :
    request.client.bytes = [] := by
  rcases h.stop with hend | hlong
  · exact hend
  · have hlen := congrArg List.length h.append
    rw [List.length_append, List.length_drop] at hlen
    omega

theorem handleClient_toClient_of_short {f : SMTPForwarder} {hmac : HmacSha256} {connects : Bool}
    {select : ℕ → Readable} {client : Segments} {headerEnd : ℕ}
    (hdelimiter : delimiter client.bytes = some headerEnd)
    (hshort : client.bytes.length ≤ headerEnd + 2 + 4095) (smtp : Segments) :
    (f.handleClient hmac connects select client smtp).toClient = [] := by
  unfold SMTPForwarder.handleClient
  cases hrequest : readRequest client with
  | none => rfl
  | some request =>
    obtain ⟨found, hread⟩ := readRequest_some hrequest
    have hfound : found = headerEnd := Option.some.inj (hread.delimiter_eq.symm.trans hdelimiter)
    have hend := hread.client_ended (hfound ▸ hshort)
    dsimp only
    split_ifs
    · rw [forwardToSmtp, relay_of_client_ended select 0 hend smtp]
      split_ifs <;> rfl
    · rfl

/-- A client that sends less than 4096 bytes of ciphertext and closes its side gets back what
the server replies only if the server replies nothing. -/
theorem handleClient_toClient_eq_iff (f : SMTPForwarder) (hmac : HmacSha256) (connects : Bool)
    (select : ℕ → Readable) {client : Segments} {headerEnd : ℕ}
    (hdelimiter : delimiter client.bytes = some headerEnd)
    (hshort : client.bytes.length ≤ headerEnd + 2 + 4095) (smtp : Segments) :
    (f.handleClient hmac connects select client smtp).toClient = smtp.bytes ↔
      smtp.bytes = [] := by
  rw [handleClient_toClient_of_short hdelimiter hshort smtp]
  exact eq_comm

/-- A circuit hash and a key of one byte. -/
def demoForwarder : SMTPForwarder := ⟨sha256Hex demoSha256 [], [0]⟩

/-- `"name":` and a value in brackets or quotation marks. -/
def demoField (name : String) (value : List UInt8) : List UInt8 :=
  search (ascii name.toList) ++ ascii [':'] ++ value

/-- Hash, signature and one commitment, all of them 64 zeros. -/
def demoHeader : List UInt8 :=
  demoField "circuit_hash" (search (List.replicate 64 48)) ++
    demoField "signature" (search (List.replicate 64 48)) ++
    demoField "commitments" (ascii ['['] ++ search (List.replicate 64 48) ++ ascii [']'])

theorem quoted_search {text : List UInt8} (h : quote ∉ text) : quoted (search text) = [text] := by
  have hfind : find [quote] (search text) = some (search text) := by
    simp [find, search]
  have hupTo : upTo quote ((search text).drop 1) = some text := by
    have hall : ∀ byte ∈ text, decide (byte ≠ quote) = true := by
      intro byte hbyte
      exact decide_eq_true (ne_of_mem_of_not_mem hbyte h)
    simp only [upTo, search, List.cons_append, List.drop_succ_cons, List.drop_zero]
    rw [if_pos (by simp), List.takeWhile_append_of_pos hall]
    simp
  have hrest : (search text).drop (1 + text.length + 1) = [] := by
    simp [search]
  rw [quoted]
  split
  · next hnone => rw [hfind] at hnone; cases hnone
  · next opening hsome =>
    rw [hfind] at hsome
    cases hsome
    rw [hupTo]
    dsimp only
    rw [hrest, quoted]
    rfl

theorem parse_demoHeader : ProofHeader.parse demoHeader =
    proofHeader demoHmac demoForwarder.clusterKey demoForwarder.expectedCircuitHash [0x17] 1 := by
  have hcircuit : jsonGetString demoHeader (ascii "circuit_hash".toList) =
      sha256Hex demoSha256 [] := by
    decide +kernel
  have hsignature : jsonGetString demoHeader (ascii "signature".toList) =
      hmacSha256Hex demoHmac [0] (signatureMessage [0x17] (sha256Hex demoSha256 [])) := by
    decide +kernel
  have hfound : find (search (ascii "commitments".toList)) demoHeader =
      some (demoField "commitments"
        (ascii ['['] ++ search (List.replicate 64 48) ++ ascii [']'])) := by
    decide +kernel
  have hbracket : find (ascii ['[']) (demoField "commitments"
      (ascii ['['] ++ search (List.replicate 64 48) ++ ascii [']'])) =
      some (ascii ['['] ++ search (List.replicate 64 48) ++ ascii [']']) := by
    decide +kernel
  have harr : upTo 93 ((ascii ['['] ++ search (List.replicate 64 48) ++ ascii [']']).drop 1) =
      some (search (List.replicate 64 48)) := by
    decide +kernel
  have hcommitments : jsonGetStringArray demoHeader (ascii "commitments".toList) =
      [List.replicate 64 48] := by
    simp only [jsonGetStringArray, hfound, hbracket, harr, Option.bind_eq_bind, Option.bind_some,
      quoted_search (by decide : quote ∉ List.replicate 64 48)]
    rfl
  rw [ProofHeader.parse, hcircuit, hsignature, hcommitments]
  rfl

/-- Header, blank line and one byte of ciphertext, all in one segment. -/
def demoClient : Segments := .single (demoHeader ++ [10, 10, 0x17])

theorem delimiter_demoClient : delimiter demoClient.bytes = some demoHeader.length := by
  rw [demoClient, Segments.bytes_single]
  decide +kernel

/-- The server answers `2`; the ciphertext has passed and the answer is not sent back. -/
theorem handleClient_reply_lost :
    demoForwarder.handleClient demoHmac true (fun _ => ⟨true, true⟩) demoClient (.single [50]) =
        ⟨[0x17], []⟩ ∧
      (Segments.single [50]).bytes ≠ [] := by
  constructor
  · have hdelimiter := delimiter_demoClient
    have hlength : demoClient.bytes.length = demoHeader.length + 3 := by
      simp [demoClient]
    have hfree : SegmentationFree demoClient.bytes := by
      intro headerEnd h
      rw [hdelimiter] at h
      cases h
      exact .inr ⟨by decide +kernel, by omega⟩
    have hframe := readRequest_eq_frame demoClient hfree
    have hfits : demoHeader.length + 2 ≤ bufSize := by decide +kernel
    have hheader : demoClient.bytes.take demoHeader.length = demoHeader := by
      rw [demoClient, Segments.bytes_single, List.take_left]
    have hct : demoClient.bytes.drop (demoHeader.length + 2) = [0x17] := by
      simp [demoClient]
    rw [frame, hdelimiter, Option.bind_some, if_pos hfits, hheader, hct] at hframe
    obtain ⟨request, hrequest, heq⟩ := Option.map_eq_some_iff.mp hframe
    obtain ⟨hjson, hciphertext⟩ := Prod.mk.inj heq
    obtain ⟨found, hread⟩ := readRequest_some hrequest
    have hfound := Option.some.inj (hread.delimiter_eq.symm.trans hdelimiter)
    have hend : request.client.bytes = [] := hread.client_ended (by omega)
    have hverified := verifyProof_proofHeader demoForwarder demoHmac [0x17] le_rfl
    rw [SMTPForwarder.handleClient, hrequest]
    dsimp only
    rw [hjson, hciphertext, parse_demoHeader, if_pos hverified, forwardToSmtp, if_pos rfl,
      relay_of_client_ended _ 0 hend]
    rfl
  · rw [Segments.bytes_single]
    decide

/-- The client that sends one byte of ciphertext. -/
theorem handleClient_toClient_eq_iff_demo :
    (demoForwarder.handleClient demoHmac true (fun _ => ⟨true, true⟩) demoClient
        (.single [50])).toClient = (Segments.single [50]).bytes ↔
      (Segments.single [50]).bytes = [] :=
  handleClient_toClient_eq_iff demoForwarder demoHmac true (fun _ => ⟨true, true⟩)
    delimiter_demoClient (by rw [demoClient, Segments.bytes_single]; decide +kernel) (.single [50])

end Freehold.Forwarder
