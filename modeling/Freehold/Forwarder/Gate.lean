import Freehold.Forwarder.HeaderJson
import Freehold.Forwarder.Relay

/-!
# The forwarder as a gate (`forwarder.cpp`)

What passes between a client and the SMTP server over a whole connection.

## Main results

* `handleClient_passes` — only ciphertexts with a header from the key pass, and what follows them.
* `handleClient_of_decode` — a ciphertext with such a header passes, whatever layout the header
  has and however the stream is cut.
-/

namespace Freehold.Forwarder

open Freehold.Server
open Json (Literal Item Member LaidOut)

variable {f : SMTPForwarder} {hmac : HmacSha256} {text ciphertext : List UInt8} {k : ℕ}

/-! ## What passes -/

/-- The bytes at the blank line are its two newlines. -/
theorem drop_of_delimiter {stream : List UInt8} {headerEnd : ℕ}
    (h : delimiter stream = some headerEnd) :
    stream.drop headerEnd = [10, 10] ++ stream.drop (headerEnd + 2) := by
  fun_induction delimiter stream generalizing headerEnd with
  | case1 a b rest hblank =>
    obtain ⟨rfl, rfl⟩ := hblank
    cases h
    rfl
  | case2 a b rest _ ih =>
    obtain ⟨j, hj, rfl⟩ := Option.map_eq_some_iff.mp h
    exact ih hj
  | case3 => cases h

/-- A stream is passed on as a client's request with a valid proof. -/
structure Passes (f : SMTPForwarder) (hmac : HmacSha256) (stream : List UInt8) (smtp : Segments)
    (relayed : Relayed) (headerJson ciphertext rest : List UInt8) (k : ℕ) : Prop where
  stream_eq : stream = headerJson ++ [10, 10] ++ ciphertext ++ rest
  /-- The header ends with the first blank line. -/
  delimiter_eq : delimiter stream = some headerJson.length
  fits : headerJson.length + 2 ≤ bufSize
  parse_eq : ProofHeader.parse headerJson =
    proofHeader hmac f.clusterKey f.expectedCircuitHash ciphertext k
  one_le : 1 ≤ k
  /-- What the proof is about ends with the stream or has 4096 bytes. -/
  stop : rest = [] ∨ 4096 ≤ ciphertext.length
  toSmtp : ∃ sent, sent <+: rest ∧ relayed.toSmtp = ciphertext ++ sent
  toClient : relayed.toClient <+: smtp.bytes

/-- Whatever a client sends, nothing goes to the SMTP server or back, or the stream is a header
that the cluster key makes for the ciphertext behind it: the ciphertext goes to the server whole
and first, then an initial part of what follows it. -/
theorem handleClient_passes (f : SMTPForwarder) (hmac : HmacSha256) (connects : Bool)
    (select : ℕ → Readable) (client smtp : Segments) :
    f.handleClient hmac connects select client smtp = ⟨[], []⟩ ∨
      ∃ headerJson ciphertext rest k, Passes f hmac client.bytes smtp
        (f.handleClient hmac connects select client smtp) headerJson ciphertext rest k := by
  unfold SMTPForwarder.handleClient
  cases hrequest : readRequest client with
  | none => exact .inl rfl
  | some request =>
    dsimp only
    split_ifs with hverify
    · cases connects with
      | false => exact .inl rfl
      | true =>
        obtain ⟨headerEnd, hread⟩ := readRequest_some hrequest
        obtain ⟨k, hk, hheader⟩ := (verifyProof_iff request.ciphertext _).mp hverify
        obtain ⟨⟨unsent, htoSmtp⟩, ⟨unsent', htoClient⟩⟩ :=
          relay_append select 0 request.client smtp
        have hle := delimiter_le hread.delimiter_eq
        have hlength : request.headerJson.length = headerEnd := by
          rw [hread.header, List.length_take]
          omega
        have hstream : client.bytes =
            request.headerJson ++ [10, 10] ++ request.ciphertext ++ request.client.bytes := by
          rw [List.append_assoc, hread.append, List.append_assoc, hread.header,
            ← drop_of_delimiter hread.delimiter_eq, List.take_append_drop]
        refine .inr ⟨request.headerJson, request.ciphertext, request.client.bytes, k, ?_⟩
        exact
          { stream_eq := hstream
            delimiter_eq := by rw [hlength, hread.delimiter_eq]
            fits := by rw [hlength]; exact hread.fits
            parse_eq := hheader
            one_le := hk
            stop := hread.stop
            toSmtp := ⟨_, ⟨unsent, htoSmtp⟩, rfl⟩
            toClient := ⟨unsent', htoClient⟩ }
    · exact .inl rfl

/-! ## Headers that are accepted -/

theorem isHex_hex (bytes : List UInt8) : IsHex (chars (hex bytes)) := by
  have hdigit : ∀ n < 16, (Json.hexDigit (Char.ofNat (hexDigit n).toNat)).isSome := by decide
  intro c hc
  obtain ⟨b, hb, rfl⟩ := List.mem_map.mp hc
  obtain ⟨byte, -, hbyte⟩ := List.mem_flatMap.mp hb
  have hlt := byte.toNat_lt
  rcases List.mem_pair.mp hbyte with rfl | rfl
  · exact hdigit _ (by omega)
  · exact hdigit _ (Nat.mod_lt _ (by decide))

theorem isHex_expectedCircuitHash {sha256 : Sha256} {files : Files} {cfg : Config}
    (hnew : SMTPForwarder.new sha256 files cfg = .ok f) :
    IsHex (chars f.expectedCircuitHash) := by
  unfold SMTPForwarder.new loadCircuitHash at hnew
  cases hfile : files (if cfg.circuitPath = "" then defaultCircuitPath else cfg.circuitPath) with
  | none =>
    simp only [hfile] at hnew
    cases hnew
  | some contents =>
    simp only [hfile] at hnew
    cases hkey : loadClusterKey files cfg with
    | error e =>
      rw [hkey] at hnew
      cases hnew
    | ok clusterKey =>
      rw [hkey] at hnew
      cases hnew
      exact isHex_hex _

/-- A request that fits is passed on whole if its proof is verified, and nothing comes back. -/
theorem handleClient_of_verifyProof {client : Segments}
    (hclient : client.bytes = text ++ [10, 10] ++ ciphertext)
    (hblank : delimiter (text ++ [10, 10]) = some text.length)
    (hfits : text.length + 2 < bufSize) (hshort : ciphertext.length ≤ 4096)
    (hverify : f.verifyProof hmac ciphertext (ProofHeader.parse text).circuitHash
      (ProofHeader.parse text).signatureHex (ProofHeader.parse text).commitments = true)
    (select : ℕ → Readable) (smtp : Segments) :
    f.handleClient hmac true select client smtp = ⟨ciphertext, []⟩ := by
  have hdelimiter : delimiter client.bytes = some text.length := by
    rw [hclient, delimiter_append hblank]
  have hlength : client.bytes.length = text.length + 2 + ciphertext.length := by
    rw [hclient, List.length_append, List.length_append]
    rfl
  have hfree : SegmentationFree client.bytes := by
    intro headerEnd hfound
    obtain rfl := Option.some.inj (hdelimiter.symm.trans hfound)
    exact .inr ⟨hfits, by omega⟩
  have hdrop : client.bytes.drop (text.length + 2) = ciphertext := by
    have hfirst : (text ++ [10, 10]).length = text.length + 2 := List.length_append
    rw [hclient, ← hfirst, List.drop_left]
  have htake : client.bytes.take text.length = text := by
    rw [hclient, List.append_assoc, List.take_left]
  have hframe := readRequest_eq_frame client hfree
  rw [frame, hdelimiter, Option.bind_some, if_pos hfits.le, htake, hdrop] at hframe
  obtain ⟨request, hrequest, heq⟩ := Option.map_eq_some_iff.mp hframe
  obtain ⟨hjson, hciphertext⟩ := Prod.mk.inj heq
  obtain ⟨headerEnd, hread⟩ := readRequest_some hrequest
  -- the proof is about the whole rest of the stream, so nothing is left to relay
  have hend : request.client.bytes = [] := by
    have happend := hread.append
    obtain rfl := Option.some.inj (hdelimiter.symm.trans hread.delimiter_eq)
    rwa [hdrop, hciphertext, List.append_right_eq_self] at happend
  rw [SMTPForwarder.handleClient, hrequest]
  dsimp only
  rw [hjson, hciphertext, if_pos hverify, forwardToSmtp, if_pos rfl,
    relay_of_client_ended select 0 hend]
  simp

/-- The holder of the key may write the header of a ciphertext in any JSON layout without
escapes and with any number of commitments. A forwarder that was started with the key passes
the ciphertext on whole, however the stream is cut and whatever `select` returns. -/
theorem handleClient_of_decode {sha256 : Sha256} {files : Files} {cfg : Config}
    (hnew : SMTPForwarder.new sha256 files cfg = .ok f) {header : ProofHeader} (hk : 1 ≤ k)
    (hheader : header = proofHeader hmac f.clusterKey f.expectedCircuitHash ciphertext k)
    {ms : List (List Char × Json.Value)}
    (hdecode : Json.decode (chars text) = some (.object ms))
    (hfields : ms.Perm (headerFields header.circuitHash header.signatureHex header.commitments))
    (hplain : '\\' ∉ chars text) (hblank : delimiter (text ++ [10, 10]) = some text.length)
    (hfits : text.length + 2 < bufSize) (hshort : ciphertext.length ≤ 4096) {client : Segments}
    (hclient : client.bytes = text ++ [10, 10] ++ ciphertext) (select : ℕ → Readable)
    (smtp : Segments) : f.handleClient hmac true select client smtp = ⟨ciphertext, []⟩ := by
  have hparse : ProofHeader.parse text = header := by
    have hcommitments : ∀ c ∈ header.commitments, IsHex (chars c) := by
      intro c hc
      rw [hheader] at hc
      obtain ⟨i, -, rfl⟩ := List.mem_map.mp hc
      exact isHex_hex _
    have hcircuitHash : IsHex (chars header.circuitHash) := by
      rw [hheader]
      exact isHex_expectedCircuitHash hnew
    have hsignature : IsHex (chars header.signatureHex) := by
      rw [hheader]
      exact isHex_hex _
    exact proofHeader_of_decode hdecode hfields hcircuitHash hsignature hcommitments hplain
  refine handleClient_of_verifyProof hclient hblank hfits hshort ?_ select smtp
  rw [hparse, hheader]
  exact verifyProof_proofHeader f hmac ciphertext hk

/-! ## A key of one byte -/

def keyedFiles : Files := fun path =>
  if path = "cluster_verify.key" then some [0]
  else if path = "sha256.txt" then some [] else none

theorem demoForwarder_new :
    SMTPForwarder.new demoSha256 keyedFiles keylessConfig = .ok demoForwarder := by
  rfl

/-- 64 zeros, the value of every field. -/
def demoZeros : Literal :=
  .ofUnescaped (List.replicate 64 '0') (by decide +kernel)

def demoZeroItems : List Item := [.ofLiteral demoZeros, .ofLiteral demoZeros]

theorem readBack_demoZeroItems : ∀ i ∈ demoZeroItems, i.ReadBack 1 := by
  intro i hi
  have hscalar : ∀ i ∈ demoZeroItems, Json.IsScalar i.value := by decide
  exact .of_isScalar (hscalar i hi)

/-- Two commitments, a line break before the second member and the hash at the end. -/
def demoMembers : List Member :=
  [.bare commitmentsKey (.ofItems demoZeroItems (by decide) readBack_demoZeroItems),
    { Member.bare signatureKey (.ofLiteral demoZeros) with
      before := ['\n'], blank_before := Json.blank_newline },
    .bare circuitHashKey (.ofLiteral demoZeros)]

def demoHeaderText : List UInt8 :=
  ascii ['\x7b'] ++
    demoField "commitments" (ascii ['['] ++ search (List.replicate 64 48) ++ ascii [','] ++
      search (List.replicate 64 48) ++ ascii [']']) ++ ascii [',', '\n'] ++
    demoField "signature" (search (List.replicate 64 48)) ++ ascii [','] ++
    demoField "circuit_hash" (search (List.replicate 64 48)) ++ ascii ['\x7d']

/-- Each byte of the header comes in a segment of its own. -/
def demoPieces : Segments :=
  ⟨(demoHeaderText ++ [10, 10] ++ [0x17, 0x03, 0x03]).map fun byte => [byte], by
    rintro _ hsegment rfl
    obtain ⟨byte, -, hbyte⟩ := List.mem_map.mp hsegment
    exact List.cons_ne_nil _ _ hbyte⟩

theorem handleClient_of_decode_demo :
    demoForwarder.handleClient demoHmac true (fun _ => ⟨true, true⟩) demoPieces (.single [50]) =
      ⟨[0x17, 0x03, 0x03], []⟩ := by
  have hlaid : LaidOut (chars demoHeaderText) demoMembers :=
    ⟨[], [], List.forall_mem_nil _, List.forall_mem_nil _, by decide +kernel⟩
  have hread : ∀ m ∈ demoMembers, m.item.ReadBack 4 := by
    rintro m (_ | ⟨_, _ | ⟨_, _ | ⟨_, ⟨⟩⟩⟩⟩)
    · exact .ofItems (by decide) readBack_demoZeroItems
    · exact .mono (.of_isScalar trivial) (by decide)
    · exact .mono (.of_isScalar trivial) (by decide)
  have hdecode := hlaid.decode (by decide +kernel) (by decide) hread (by decide +kernel)
  have hentries : demoMembers.map Member.entry =
      (headerFields (List.replicate 64 48) (List.replicate 64 48)
        [List.replicate 64 48, List.replicate 64 48]).reverse := by
    rfl
  refine handleClient_of_decode demoForwarder_new (by decide : 1 ≤ 2) rfl hdecode ?_
    (by decide +kernel) (by decide +kernel) (by decide +kernel) (by decide) ?_ _ _
  · rw [hentries]
    exact List.reverse_perm _
  · simp [demoPieces, Segments.bytes, ← List.flatMap_def]

end Freehold.Forwarder
