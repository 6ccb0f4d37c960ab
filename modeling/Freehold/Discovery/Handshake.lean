import Freehold.Discovery.Dispatch
import Freehold.Foundation.Base64

/-!
# The WebSocket handshake (`discovery.cpp`)

A client takes the connection for a WebSocket only if the response has the Base64 text of the
SHA-1 digest of its key and the GUID of the protocol. `WS_MAGIC` is another GUID.

## Main results

* `acceptOf_switchingProtocols` — what a client finds in the response.
* `accepts_iff_collision` — there is one, and it is what the client expects, only if the headers
  fit into the buffer and SHA-1 gives two texts one digest.
-/

namespace Freehold.Discovery.Descriptors

open Interaction Interaction.Program
open Freehold.Mail (base64Encode base64Digit)
open Freehold.Server (chars toNat_ofNat_byte)

/-- The GUID of the WebSocket protocol. -/
def protocolGuid : List Char := "258EAFA5-E914-47DA-95CA-C5AB0DC85B11".toList

/-- The value of `Sec-WebSocket-Accept` in a response. -/
def acceptOf (response : List Char) : Option (List Char) :=
  (afterFirst "Sec-WebSocket-Accept: ".toList response).bind (before crlf)

/-- However the request is cut, it is read and answered, and the answer has `accept`. -/
structure Accepts (sha1 : List Char → List UInt8) (fd : Descriptor) (r : Http.Request)
    (accept : List Char) : Prop where
  reached : ∀ ending s, Stops ending → Delivers r.text ending s → ∃ request,
    Gets (fun text => chars (sha1 text)) (code (fun text => chars (sha1 text))
      (.handleConnection fd)) s (goal fd (some request))
  answered : ∀ ending s t new requestLine headers body s', Stops ending → Delivers r.text ending s →
    (peer fun text => chars (sha1 text)).Plays Reading
      (code (fun text => chars (sha1 text)) (.handleConnection fd)) s t new
      (.ret (some (.routing fd requestLine headers body))) s' →
    ∃ response next,
      route (fun text => chars (sha1 text)) fd requestLine headers body =
        .call (.send fd response) next ∧
      acceptOf response = some accept

/-! ## The response -/

theorem base64Encode_chars (bytes : List UInt8) :
    base64Encode (chars bytes) = Base64.encode bytes := by
  fun_induction Base64.encode bytes with
  | case1 a b c rest n ih =>
    simp only [chars, List.map_cons, base64Encode, toNat_ofNat_byte] at ih ⊢
    rw [ih]
    rfl
  | case2 a b n =>
    simp only [chars, List.map_cons, List.map_nil, base64Encode, toNat_ofNat_byte]
    rfl
  | case3 a n =>
    simp only [chars, List.map_cons, List.map_nil, base64Encode, toNat_ofNat_byte]
    rfl
  | case4 => rfl

/-- The response up to the value. -/
def acceptFront : List Char :=
  "HTTP/1.1 101 Switching Protocols".toList ++ crlf ++ "Upgrade: websocket".toList ++ crlf ++
  "Connection: Upgrade".toList ++ crlf ++ "Sec-WebSocket-Accept: ".toList

/-- The response from the end of the value on. -/
def acceptBack : List Char := "Access-Control-Allow-Origin: *".toList ++ crlf ++ crlf

theorem switchingProtocols_eq (sha1 : List Char → List UInt8) (key : List Char) :
    switchingProtocols (fun text => chars (sha1 text)) key =
      acceptFront ++ (Base64.encode (sha1 (key ++ wsMagic)) ++ (crlf ++ acceptBack)) := by
  have hkey : wsAcceptKey (fun text => chars (sha1 text)) key =
      Base64.encode (sha1 (key ++ wsMagic)) := base64Encode_chars _
  unfold switchingProtocols acceptFront acceptBack
  simp only [hkey, List.append_assoc]

/-- What a client finds in the response to its key. -/
theorem acceptOf_switchingProtocols (sha1 : List Char → List UInt8) (key : List Char) :
    acceptOf (switchingProtocols (fun text => chars (sha1 text)) key) =
      some (Base64.encode (sha1 (key ++ wsMagic))) := by
  have hfront : Scanning.after "Sec-WebSocket-Accept: ".toList acceptFront = some [] := by
    decide +kernel
  have hcr : '\r' ∉ Base64.encode (sha1 (key ++ wsMagic)) := Base64.notMem_encode (by decide) _
  rw [switchingProtocols_eq]
  generalize Base64.encode (sha1 (key ++ wsMagic)) = accept at hcr ⊢
  have hafter : afterFirst "Sec-WebSocket-Accept: ".toList
      (acceptFront ++ (accept ++ (crlf ++ acceptBack))) = some (accept ++ (crlf ++ acceptBack)) :=
    Scanning.after_append hfront _
  have hcrlf : afterFirst crlf (accept ++ (crlf ++ acceptBack)) = some acceptBack :=
    (Scanning.after_append_left_of_head rfl hcr).trans
      (Scanning.after_of_prefix (List.prefix_append crlf acceptBack))
  rw [acceptOf, hafter, Option.bind_some]
  exact before_eq_some_iff.mpr ⟨acceptBack, hcrlf, by rw [List.append_assoc]⟩

/-! ## What the client expects -/

variable {sha1 : List Char → List UInt8} {fd : Descriptor} {r : Http.Request} {accept : List Char}

/-- No other endpoint is found instead. -/
theorem routeAt_of_not_finds_ws (hasks : AsksFor r .ws) (hnot : ¬Finds r .ws) (body : List Char) :
    routeAt (foundLine r) r.head body = .ok .notFound := by
  refine routeAt_of_not_finds (fun e he => ?_) body
  cases eq_of_finds_asksFor he hasks
  exact hnot he

theorem acceptOf_notFound :
    acceptOf (httpResponse 404 "\x7b\"error\":\"not found\"\x7d".toList) = none := by
  decide +kernel

/-- The response is right exactly if the upgrade and a key are found and the digest is. -/
theorem exists_route_accept_iff (hasks : AsksFor r .ws) (body : List Char) (bytes : List UInt8) :
    (∃ response next, route (fun text => chars (sha1 text)) fd (foundLine r) r.head body =
        .call (.send fd response) next ∧ acceptOf response = some (Base64.encode bytes)) ↔
      Finds r .ws ∧ ∃ key, wsKey r.head = some key ∧ sha1 (key ++ wsMagic) = bytes := by
  rw [route_eq_respond]
  by_cases hfinds : Finds r .ws
  · rw [routeAt_of_finds hfinds, Endpoint.routeAt, wsKeyAt_eq]
    cases wsKey r.head with
    | none =>
      refine ⟨?_, ?_⟩
      · rintro ⟨response, next, hroute, -⟩
        cases hroute
      · rintro ⟨-, key, hkey, -⟩
        cases hkey
    | some key =>
      constructor
      · rintro ⟨response, next, hroute, haccept⟩
        cases hroute
        rw [acceptOf_switchingProtocols, Option.some.injEq,
          Base64.encode_injective.eq_iff] at haccept
        exact ⟨hfinds, key, rfl, haccept⟩
      · rintro ⟨-, key', hkey, hdigest⟩
        cases hkey
        exact ⟨_, _, rfl, by rw [acceptOf_switchingProtocols, hdigest]⟩
  · rw [routeAt_of_not_finds_ws hasks hfinds]
    refine ⟨?_, fun h => absurd h.1 hfinds⟩
    rintro ⟨response, next, hroute, haccept⟩
    cases hroute
    rw [acceptOf_notFound] at haccept
    cases haccept

/-- The two texts are not the same, whatever the key is taken for. -/
theorem append_wsMagic_ne (found key : List Char) : found ++ wsMagic ≠ key ++ protocolGuid := by
  intro h
  have hlast := congrArg List.getLast? h
  have hmagic : wsMagic.getLast? = some 'B' := by decide
  have hguid : protocolGuid.getLast? = some '1' := by decide
  rw [List.getLast?_append_of_ne_nil _ (by decide), List.getLast?_append_of_ne_nil _ (by decide),
    hmagic, hguid] at hlast
  cases hlast

theorem accepts_of_finds {bytes : List UInt8} (hasks : AsksFor r .ws)
    (hfits : r.head.length + 4 ≤ 4095) (hfinds : Finds r .ws)
    (hkey : ∃ key, wsKey r.head = some key ∧ sha1 (key ++ wsMagic) = bytes) :
    Accepts sha1 fd r (Base64.encode bytes) := by
  constructor
  · intro ending s hstops hdelivers
    exact ⟨_, gets_text hfits hstops hdelivers _ fd⟩
  · intro ending s t new requestLine headers body s' hstops hdelivers hplays
    obtain ⟨rfl, rfl, stray, rfl⟩ := eq_of_plays_text hfits hstops hdelivers hplays
    exact (exists_route_accept_iff hasks _ bytes).mpr ⟨hfinds, hkey⟩

/-- A request is read only if its headers fit into the buffer. -/
theorem Accepts.fits (h : Accepts sha1 fd r accept) : r.head.length + 4 ≤ 4095 := by
  by_contra hlong
  obtain ⟨s, hdelivers⟩ := delivers_whole r.text [.closed]
  obtain ⟨request, t, s', hplays⟩ := h.reached _ _ stops_closed hdelivers
  obtain ⟨stray, hrequest⟩ := requestOf_of_plays stops_closed hdelivers hplays
  rw [requestOf_text_eq_none r (not_le.mp hlong)] at hrequest
  cases hrequest

theorem Accepts.finds {bytes : List UInt8} (hasks : AsksFor r .ws)
    (h : Accepts sha1 fd r (Base64.encode bytes)) :
    Finds r .ws ∧ ∃ key, wsKey r.head = some key ∧ sha1 (key ++ wsMagic) = bytes := by
  obtain ⟨s, hdelivers⟩ := delivers_whole r.text [.closed]
  obtain ⟨t, s', hplays⟩ :=
    gets_text h.fits stops_closed hdelivers (fun text => chars (sha1 text)) fd
  exact (exists_route_accept_iff hasks _ bytes).mp
    (h.answered _ _ _ _ _ _ _ _ stops_closed hdelivers hplays)

/-- An upgrade with a key is answered, and as the client expects, only if its headers fit into the
buffer and SHA-1 has one digest for two texts: what the server takes for the key with its own
GUID, and the key with that of the protocol. -/
theorem accepts_iff_collision (sha1 : List Char → List UInt8) (fd : Descriptor) (r : Http.Request)
    (key : List Char) (hasks : AsksFor r .ws) :
    (Accepts sha1 fd r (Base64.encode (sha1 (key ++ protocolGuid))) ↔
      r.head.length + 4 ≤ 4095 ∧ Finds r .ws ∧ ∃ found, wsKey r.head = some found ∧
        sha1 (found ++ wsMagic) = sha1 (key ++ protocolGuid)) ∧
      ∀ found, found ++ wsMagic ≠ key ++ protocolGuid := by
  refine ⟨⟨fun h => ⟨h.fits, h.finds hasks⟩, ?_⟩, fun found => append_wsMagic_ne found key⟩
  rintro ⟨hfits, hfinds, hkey⟩
  exact accepts_of_finds hasks hfits hfinds hkey

/-- A field with a space before its value. -/
def demoField (name value : List Char) (hname : name ≠ [] ∧ ∀ c ∈ name, Http.isTokenChar c)
    (hvalue : ∀ c ∈ value, Http.isVisible c) : Http.Field where
  name
  leading := [' ']
  value
  trailing := []
  name_ne_nil := hname.1
  name_token := hname.2
  leading_blank := List.all_eq_true.mp (by decide)
  value_chars c hc := by simp [Http.isFieldChar, hvalue c hc]
  value_trimmed c hc := by
    have hvisible : Http.isVisible c := hvalue c (hc.elim List.mem_of_head? List.mem_of_getLast?)
    have hblank : ∀ d, Http.isBlank d → Http.isVisible d = false := by
      intro d hd
      simp only [Http.isBlank, Bool.or_eq_true, decide_eq_true_eq] at hd
      rcases hd with rfl | rfl
      · decide
      · decide
    by_contra hnot
    rw [Bool.not_eq_false] at hnot
    rw [hblank c hnot] at hvisible
    cases hvisible
  trailing_blank := Http.isBlank_of_mem_nil

def demoKey : List Char := "dGhlIHNhbXBsZSBub25jZQ==".toList

/-- The handshake of a client. -/
def demoUpgrade : Http.Request where
  method := "GET".toList
  target := "/ws".toList
  fields :=
    [demoField "Upgrade".toList "websocket".toList
       ⟨by decide, List.all_eq_true.mp (by decide +kernel)⟩
         (List.all_eq_true.mp (by decide +kernel)),
     demoField "Sec-WebSocket-Key".toList demoKey
       ⟨by decide, List.all_eq_true.mp (by decide +kernel)⟩
         (List.all_eq_true.mp (by decide +kernel))]
  body := []
  method_ne_nil := by decide
  method_token := List.all_eq_true.mp (by decide +kernel)
  target_ne_nil := by decide
  target_visible := List.all_eq_true.mp (by decide +kernel)
  length_eq f hf hnamed := by
    rcases List.mem_pair.mp hf with rfl | rfl
    · have hne : "Upgrade".toList.map Char.toLower ≠ "content-length".toList := by decide +kernel
      exact absurd hnamed hne
    · have hne : "Sec-WebSocket-Key".toList.map Char.toLower ≠ "content-length".toList := by
        decide +kernel
      exact absurd hnamed hne
  body_eq_nil _ := rfl

/-- SHA-1 on the two texts that are hashed for the key. -/
def demoSha1 (text : List Char) : List UInt8 :=
  if text = demoKey ++ protocolGuid then
    [0xB3, 0x7A, 0x4F, 0x2C, 0xC0, 0x62, 0x4F, 0x16, 0x90, 0xF6, 0x46, 0x06, 0xCF, 0x38, 0x59, 0x45,
      0xB2, 0xBE, 0xC4, 0xEA]
  else
    [0x21, 0x70, 0x17, 0x10, 0xF7, 0x4E, 0x04, 0x59, 0x0D, 0x15, 0xFD, 0x47, 0xEA, 0xB0, 0xB3, 0xDD,
      0x9B, 0xB6, 0x99, 0xF7]

theorem asksFor_demoUpgrade : AsksFor demoUpgrade .ws := by
  have hnamed : "Upgrade".toList.map Char.toLower = "upgrade".toList := by decide +kernel
  exact ⟨rfl, by decide +kernel, fun _ => ⟨_, List.mem_cons_self, hnamed, by decide +kernel⟩⟩

theorem accepts_iff_collision_demo : Accepts demoSha1 ⟨3, 0⟩ demoUpgrade
      (Base64.encode (demoSha1 (demoKey ++ protocolGuid))) ↔
    demoUpgrade.head.length + 4 ≤ 4095 ∧ Finds demoUpgrade .ws ∧
      ∃ found, wsKey demoUpgrade.head = some found ∧
        demoSha1 (found ++ wsMagic) = demoSha1 (demoKey ++ protocolGuid) :=
  (accepts_iff_collision demoSha1 ⟨3, 0⟩ demoUpgrade demoKey asksFor_demoUpgrade).1

/-- The client of the handshake is not answered as it expects. -/
theorem not_accepts_demoUpgrade : ¬Accepts demoSha1 ⟨3, 0⟩ demoUpgrade
    "s3pPLMBiTxaQ9kYGzzhZRbK+xOo=".toList := by
  have hexpected : "s3pPLMBiTxaQ9kYGzzhZRbK+xOo=".toList =
      Base64.encode (demoSha1 (demoKey ++ protocolGuid)) := by decide +kernel
  have hkey : wsKey demoUpgrade.head = some demoKey := by decide +kernel
  rw [hexpected]
  intro h
  obtain ⟨-, found, hfound, hdigest⟩ := h.finds asksFor_demoUpgrade
  rw [hkey] at hfound
  cases hfound
  revert hdigest
  decide +kernel

end Freehold.Discovery.Descriptors
