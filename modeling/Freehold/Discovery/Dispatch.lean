import Freehold.Discovery.Parsing
import Freehold.Foundation.HttpGrammar

/-!
# Dispatching requests (`discovery.cpp`)

Which handler answers a well-formed request, and with which body. The server looks for a method
and a path anywhere in the request line and for two spellings of `Content-Length` anywhere in the
headers.

## Main results

* `requestOf_text` — what the server reads from the text of a request.
* `contains_foundLine_iff` — it finds an endpoint whose method ends the method of the request and
  whose path begins its target.
* `dispatches_iff` — when this is the endpoint that is asked for, and the body whole.
-/

namespace Freehold.Discovery.Descriptors

open Interaction Interaction.Program
open Scanning (OutOfRange)

/-! ## What a request asks for -/

inductive Endpoint where
  | announce
  | health
  | nodes
  | topology
  | resolve
  | ws
  deriving DecidableEq

namespace Endpoint

def method : Endpoint → List Char
  | .announce => "POST".toList
  | _ => "GET".toList

def path : Endpoint → List Char
  | .announce => "/announce".toList
  | .health => "/health".toList
  | .nodes => "/nodes".toList
  | .topology => "/topology".toList
  | .resolve => "/resolve".toList
  | .ws => "/ws".toList

end Endpoint

/-- The client asks for a WebSocket. -/
def AsksUpgrade (r : Http.Request) : Prop :=
  ∃ f ∈ r.fields, f.Named "upgrade".toList ∧ f.value.map Char.toLower = "websocket".toList

/-- The method and the path of the request are those of the endpoint. -/
def AsksFor (r : Http.Request) (e : Endpoint) : Prop :=
  r.method = e.method ∧ r.path = e.path ∧ (e = .ws → AsksUpgrade r)

/-- The request is answered by what it asks for, with its body. -/
def Serves (r : Http.Request) : Route → Prop
  | .announce body => AsksFor r .announce ∧ body = r.body
  | .health => AsksFor r .health
  | .nodes => AsksFor r .nodes ∨ AsksFor r .topology
  | .resolve _ => AsksFor r .resolve
  | .upgrade _ => AsksFor r .ws
  | .notFound => ∀ e, ¬AsksFor r e

/-- However the request is cut, it is read and answered by what it asks for. -/
structure Dispatches (sha1 : List Char → List Char) (fd : Descriptor) (r : Http.Request) :
    Prop where
  reached : ∀ ending s, Stops ending → Delivers r.text ending s → ∃ request,
    Gets sha1 (code sha1 (.handleConnection fd)) s (goal fd (some request))
  served : ∀ ending s t new requestLine headers body s', Stops ending → Delivers r.text ending s →
    (peer sha1).Plays Reading (code sha1 (.handleConnection fd)) s t new
      (.ret (some (.routing fd requestLine headers body))) s' →
    ∃ route, routeAt requestLine headers body = .ok route ∧ Serves r route

/-! ## What the server finds -/

/-- The request line has the method before a space and the path behind it. -/
def Mentions (r : Http.Request) (e : Endpoint) : Prop :=
  r.fields ≠ [] ∧ e.method <:+ r.method ∧ e.path <+: r.target

/-- The server takes the request for one to the endpoint. -/
def Finds (r : Http.Request) (e : Endpoint) : Prop :=
  Mentions r e ∧ (e = .ws → "Upgrade: websocket".toList <:+: r.head)

/-- There is a header field, or nothing is asked for; the method ends, and the target begins, as
those of an endpoint only if it is asked for; the WebSocket upgrade is spelled as expected, and
the key not blank; and the first length that is found is that of the body at least. -/
structure Understood (r : Http.Request) : Prop where
  finds_iff : ∀ e, Finds r e ↔ AsksFor r e
  key : AsksFor r .ws → ¬BlankKey r.head
  length : AsksFor r .announce → r.body.length ≤ (lengthWith [] r.head).toNat

variable (r : Http.Request)

theorem headersOf_head : headersOf (r.head ++ crlf ++ crlf) = some r.head := by
  have hnull : ∀ c ∈ r.head ++ crlf ++ crlf, c ≠ '\x00' := by
    rintro _ hc rfl
    rw [List.mem_append, List.mem_append] at hc
    rcases hc with (hc | hc) | hc
    · exact r.notMem_head (by decide) (by decide) hc
    · exact absurd hc (by decide)
    · exact absurd hc (by decide)
  have hwhole : (r.head ++ crlf ++ crlf).takeWhile (fun c => c ≠ '\x00') = r.head ++ crlf ++ crlf :=
    List.takeWhile_eq_self_iff.mpr fun c hc => by simpa using hnull c hc
  have hafter : afterFirst (crlf ++ crlf) (r.head ++ crlf ++ crlf) = some [] := by
    have hrest : Scanning.after (crlf ++ crlf) (r.head ++ (crlf ++ crlf ++ [])) = some [] :=
      r.after_head
    rwa [List.append_nil, ← List.append_assoc] at hrest
  rw [headersOf, hwhole]
  exact before_eq_some_iff.mpr ⟨[], hafter, by simp⟩

theorem length_head_append : (r.head ++ crlf ++ crlf).length = r.head.length + 4 := by simp [crlf]

theorem headersOf_text (hfits : r.head.length + 4 ≤ 4095) :
    headersOf (r.text.take 4095) = some r.head := by
  have htake : r.text.take 4095 =
      r.head ++ crlf ++ crlf ++ r.body.take (4095 - (r.head.length + 4)) := by
    show (r.head ++ crlf ++ crlf ++ r.body).take 4095 = _
    rw [List.take_append, length_head_append, List.take_of_length_le (by rwa [length_head_append])]
  rw [htake]
  exact headersOf_append (headersOf_head r) _

/-- Headers that the buffer does not hold whole are not found. -/
theorem headersOf_text_eq_none (hlong : 4095 < r.head.length + 4) :
    headersOf (r.text.take 4095) = none := by
  by_contra hsome
  obtain ⟨headers, hheaders⟩ := Option.ne_none_iff_exists'.mp hsome
  have hwhole : headersOf r.text = some headers := by
    have hmore := headersOf_append hheaders (r.text.drop 4095)
    rwa [List.take_append_drop] at hmore
  obtain rfl : r.head = headers :=
    Option.some.inj ((headersOf_append (headersOf_head r) r.body).symm.trans hwhole)
  obtain ⟨rest, hsplit⟩ := exists_of_headersOf hheaders
  have hlength := congrArg List.length hsplit
  rw [List.length_append, length_head_append, List.length_take] at hlength
  omega

/-- The request line is not found without a header field. -/
theorem before_crlf_head :
    (before crlf r.head).getD [] = if r.fields = [] then [] else r.line := by
  cases hfields : r.fields with
  | nil =>
    have hnone : afterFirst crlf r.head = none := r.after_crlf_head_eq_none hfields
    rw [before, hnone]
    rfl
  | cons f fields =>
    have hafter : afterFirst crlf r.head = some (f.text ++ Http.Request.fieldLines fields) :=
      r.after_crlf_head f hfields
    have hsplit : r.head = r.line ++ crlf ++ (f.text ++ Http.Request.fieldLines fields) := by
      rw [Http.Request.head, hfields]
      simp [Http.Request.fieldLines, crlf, Http.crlf]
    rw [before_eq_some_iff.mpr ⟨_, hafter, hsplit⟩]
    rfl

theorem requestOf_text (hfits : r.head.length + 4 ≤ 4095) (stray : List Char) :
    requestOf stray r.text = some ⟨if r.fields = [] then [] else r.line, r.head,
      r.body.take (lengthWith stray r.head).toNat⟩ := by
  have hdrop : r.text.drop (r.head.length + 4) = r.body := by
    rw [← length_head_append]
    exact List.drop_left
  rw [requestOf, headersOf_text r hfits, Option.map_some, before_crlf_head, hdrop]

theorem requestOf_text_eq_none (hlong : 4095 < r.head.length + 4) (stray : List Char) :
    requestOf stray r.text = none := requestOf_eq_none (headersOf_text_eq_none r hlong)

/-! ## The endpoint that is found -/

/-- The request line, as far as the server finds it. -/
def foundLine (r : Http.Request) : List Char := if r.fields = [] then [] else r.line

section Requests

variable {r} {sha1 : List Char → List Char} {fd : Descriptor} {ending s : List Outcome}
  (hfits : r.head.length + 4 ≤ 4095) (hstops : Stops ending) (hdelivers : Delivers r.text ending s)
include hfits hstops hdelivers

/-- The handler gets to the routing of a request. -/
theorem gets_text (sha1 : List Char → List Char) (fd : Descriptor) :
    Gets sha1 (code sha1 (.handleConnection fd)) s (goal fd (some ⟨foundLine r, r.head,
      r.body.take (lengthWith [] r.head).toNat⟩)) := by
  have hgets := gets_goal sha1 fd [] hstops hdelivers
  rwa [requestOf_text r hfits] at hgets

theorem eq_of_plays_text {t : List SocketEvent} {new : List Point}
    {requestLine headers body : List Char} {s' : List Outcome}
    (hplays : (peer sha1).Plays Reading (code sha1 (.handleConnection fd)) s t new
      (.ret (some (.routing fd requestLine headers body))) s') :
    requestLine = foundLine r ∧ headers = r.head ∧
      ∃ stray, body = r.body.take (lengthWith stray r.head).toNat := by
  obtain ⟨stray, hrequest⟩ : ∃ stray, some ⟨requestLine, headers, body⟩ =
      requestOf stray r.text := requestOf_of_plays hstops hdelivers hplays
  rw [requestOf_text r hfits] at hrequest
  cases hrequest
  exact ⟨rfl, rfl, stray, rfl⟩

end Requests

variable {r} {e e' : Endpoint}

theorem contains_eq_true_iff {text needle : List Char} :
    contains text needle = true ↔ needle <:+: text := Scanning.after_isSome_iff

theorem contains_foundLine_iff :
    contains (foundLine r) (e.method ++ ' ' :: e.path) = true ↔ Mentions r e := by
  have hmethod : ' ' ∉ e.method := by cases e <;> decide
  have hpath : ' ' ∉ e.path ∧ ∃ c tail, e.path = c :: tail ∧ c ≠ 'H' := by
    cases e <;> exact ⟨by decide, '/', _, rfl, by decide⟩
  rw [contains_eq_true_iff, Mentions, foundLine]
  split_ifs with hfields
  · simp [hfields]
  · rw [r.infix_line_iff hmethod hpath.2 hpath.1]
    simp [hfields]

/-- No two endpoints are mentioned. -/
theorem eq_of_affixes {method target : List Char} (hmethod : e.method <:+ method)
    (hmethod' : e'.method <:+ method) (hpath : e.path <+: target) (hpath' : e'.path <+: target) :
    e = e' := by
  have hapart : ∀ e e' : Endpoint, (e.method <:+ e'.method ∨ e'.method <:+ e.method) →
      (e.path <+: e'.path ∨ e'.path <+: e.path) → e = e' := by
    intro e e'
    cases e <;> cases e' <;> decide
  exact hapart e e' (List.suffix_or_suffix_of_suffix hmethod hmethod')
    (List.prefix_or_prefix_of_prefix hpath hpath')

theorem contains_foundLine_eq (h : Mentions r e) (e' : Endpoint) :
    contains (foundLine r) (e'.method ++ ' ' :: e'.path) = decide (e' = e) := by
  rw [Bool.eq_iff_iff, contains_foundLine_iff, decide_eq_true_eq]
  refine ⟨fun h' => eq_of_affixes h'.2.1 h.2.1 h'.2.2 h.2.2, ?_⟩
  rintro rfl
  exact h

namespace Endpoint

/-- What the handler of the endpoint is given. -/
def routeAt (requestLine headers body : List Char) : Endpoint → Except OutOfRange Route
  | .announce => .ok (.announce body)
  | .health => .ok .health
  | .nodes | .topology => .ok .nodes
  | .resolve => (queryAt requestLine).map .resolve
  | .ws => (wsKeyAt headers).map .upgrade

end Endpoint

theorem endpoint_texts :
    "POST /announce".toList = Endpoint.announce.method ++ ' ' :: Endpoint.announce.path ∧
    "GET /health".toList = Endpoint.health.method ++ ' ' :: Endpoint.health.path ∧
    "GET /nodes".toList = Endpoint.nodes.method ++ ' ' :: Endpoint.nodes.path ∧
    "GET /topology".toList = Endpoint.topology.method ++ ' ' :: Endpoint.topology.path ∧
    "GET /resolve".toList = Endpoint.resolve.method ++ ' ' :: Endpoint.resolve.path ∧
    "GET /ws".toList = Endpoint.ws.method ++ ' ' :: Endpoint.ws.path := by
  decide

theorem routeAt_of_finds (h : Finds r e) (body : List Char) :
    routeAt (foundLine r) r.head body = e.routeAt (foundLine r) r.head body := by
  obtain ⟨hmentions, hupgrade⟩ := h
  obtain ⟨hannounce, hhealth, hnodes, htopology, hresolve, hws⟩ := endpoint_texts
  unfold routeAt
  simp only [find_isSome_eq_contains]
  rw [hannounce, hhealth, hnodes, htopology, hresolve, hws]
  simp only [contains_foundLine_eq hmentions]
  cases e with
  | ws =>
    have hhead := contains_eq_true_iff.mpr (hupgrade rfl)
    simp only [hhead]
    rfl
  | _ => rfl

theorem routeAt_of_not_finds (h : ∀ e, ¬Finds r e) (body : List Char) :
    routeAt (foundLine r) r.head body = .ok .notFound := by
  have hnot : ∀ e : Endpoint, e ≠ .ws → contains (foundLine r) (e.method ++ ' ' :: e.path) =
      false := by
    intro e he
    rw [Bool.eq_false_iff, Ne, contains_foundLine_iff]
    exact fun hmentions => h e ⟨hmentions, fun hws => absurd hws he⟩
  have hws : (contains (foundLine r) "GET /ws".toList &&
      contains r.head "Upgrade: websocket".toList) = false := by
    rw [Bool.eq_false_iff, Ne, Bool.and_eq_true, endpoint_texts.2.2.2.2.2, contains_foundLine_iff,
      contains_eq_true_iff]
    exact fun hfound => h .ws ⟨hfound.1, fun _ => hfound.2⟩
  obtain ⟨hannounce, hhealth, hnodes, htopology, hresolve, -⟩ := endpoint_texts
  unfold routeAt
  simp only [find_isSome_eq_contains, hws]
  rw [hannounce, hhealth, hnodes, htopology, hresolve, hnot .announce (by decide),
    hnot .health (by decide), hnot .nodes (by decide), hnot .topology (by decide),
    hnot .resolve (by decide)]
  rfl

/-! ## The endpoint that is asked for -/

theorem affixes_of_asksFor (h : AsksFor r e) : e.method <:+ r.method ∧ e.path <+: r.target := by
  obtain ⟨hmethod, hpath, -⟩ := h
  rw [← hmethod, ← hpath]
  exact ⟨List.suffix_rfl, List.takeWhile_prefix _⟩

theorem eq_of_finds_asksFor (h : Finds r e) (h' : AsksFor r e') : e = e' :=
  eq_of_affixes h.1.2.1 (affixes_of_asksFor h').1 h.1.2.2 (affixes_of_asksFor h').2

/-- Memory behind the headers gives no length to a body that has none within them. -/
theorem length_le_lengthWith {headers : List Char} {n : ℕ} (h : n ≤ (lengthWith [] headers).toNat)
    (stray : List Char) : n ≤ (lengthWith stray headers).toNat := by
  unfold lengthWith at h ⊢
  match hlength : lengthText headers with
  | none => simpa only [hlength] using h
  | some [] =>
    have hzero : (Mail.atoi []).toNat = 0 := by decide
    simp only [hlength, hzero] at h
    omega
  | some (_ :: text) => simpa only [hlength] using h

variable {sha1 : List Char → List Char} {fd : Descriptor}

theorem served_of_understood (hunderstood : Understood r) (stray : List Char) : ∃ route,
    routeAt (foundLine r) r.head (r.body.take (lengthWith stray r.head).toNat) = .ok route ∧
      Serves r route := by
  by_cases hfinds : ∃ e, Finds r e
  · obtain ⟨e, he⟩ := hfinds
    have hasks := (hunderstood.finds_iff e).mp he
    rw [routeAt_of_finds he]
    cases e with
    | announce =>
      have hlength := length_le_lengthWith (hunderstood.length hasks) stray
      exact ⟨_, rfl, hasks, List.take_of_length_le hlength⟩
    | health => exact ⟨_, rfl, hasks⟩
    | nodes => exact ⟨_, rfl, .inl hasks⟩
    | topology => exact ⟨_, rfl, .inr hasks⟩
    | resolve =>
      refine ⟨.resolve (queryOf (foundLine r)), ?_, hasks⟩
      rw [Endpoint.routeAt, queryAt_eq_ok]
      rfl
    | ws =>
      have hkey : wsKey r.head ≠ none := fun hnone =>
        hunderstood.key hasks (wsKey_eq_none_iff.mp hnone)
      obtain ⟨key, hkey⟩ := Option.ne_none_iff_exists'.mp hkey
      refine ⟨.upgrade key, ?_, hasks⟩
      rw [Endpoint.routeAt, wsKeyAt_eq, hkey]
      rfl
  · refine ⟨.notFound, routeAt_of_not_finds (not_exists.mp hfinds) _, fun e hasks => ?_⟩
    exact hfinds ⟨e, (hunderstood.finds_iff e).mpr hasks⟩

/-- The handlers tell the endpoints apart, but for `/nodes` and `/topology`. -/
theorem asksFor_of_finds {body : List Char} {route : Route} (he : Finds r e)
    (hroute : e.routeAt (foundLine r) r.head body = .ok route) (hserves : Serves r route) :
    AsksFor r e := by
  cases e with
  | announce =>
    cases hroute
    exact hserves.1
  | health =>
    cases hroute
    exact hserves
  | nodes =>
    cases hroute
    refine hserves.resolve_right fun h => ?_
    cases eq_of_finds_asksFor he h
  | topology =>
    cases hroute
    refine hserves.resolve_left fun h => ?_
    cases eq_of_finds_asksFor he h
  | resolve =>
    rw [Endpoint.routeAt, queryAt_eq_ok] at hroute
    cases hroute
    exact hserves
  | ws =>
    rw [Endpoint.routeAt] at hroute
    cases hkey : wsKeyAt r.head with
    | error _ =>
      rw [hkey] at hroute
      cases hroute
    | ok key =>
      rw [hkey] at hroute
      cases hroute
      exact hserves

theorem understood_of_served {route : Route}
    (hroute : routeAt (foundLine r) r.head (r.body.take (lengthWith [] r.head).toNat) = .ok route)
    (hserves : Serves r route) : Understood r := by
  have hfinds : ∀ e, Finds r e → AsksFor r e := by
    intro e he
    rw [routeAt_of_finds he] at hroute
    exact asksFor_of_finds he hroute hserves
  have hasks : ∀ e, AsksFor r e → Finds r e := by
    intro e he
    by_contra hnot
    have hnone : ∀ e, ¬Finds r e := by
      intro e' he'
      cases eq_of_finds_asksFor he' he
      exact hnot he'
    rw [routeAt_of_not_finds hnone] at hroute
    cases hroute
    exact hserves e he
  refine ⟨fun e => ⟨hfinds e, hasks e⟩, fun hws hblank => ?_, fun hannounce => ?_⟩
  · rw [routeAt_of_finds (hasks _ hws), Endpoint.routeAt, wsKeyAt_eq,
      wsKey_eq_none_iff.mpr hblank] at hroute
    cases hroute
  · rw [routeAt_of_finds (hasks _ hannounce)] at hroute
    cases hroute
    have hbody := congrArg List.length hserves.2
    rw [List.length_take] at hbody
    omega

theorem dispatches_of_understood (sha1 : List Char → List Char) (fd : Descriptor)
    (hshort : r.head.length ≤ 4000) (h : Understood r) : Dispatches sha1 fd r := by
  have hfits : r.head.length + 4 ≤ 4095 := by omega
  constructor
  · intro ending s hstops hdelivers
    exact ⟨_, gets_text hfits hstops hdelivers sha1 fd⟩
  · intro ending s t new requestLine headers body s' hstops hdelivers hplays
    obtain ⟨rfl, rfl, stray, rfl⟩ := eq_of_plays_text hfits hstops hdelivers hplays
    exact served_of_understood h stray

theorem understood_of_dispatches (hshort : r.head.length ≤ 4000) (h : Dispatches sha1 fd r) :
    Understood r := by
  obtain ⟨s, hdelivers⟩ := delivers_whole r.text [.closed]
  obtain ⟨t, s', hplays⟩ := gets_text (by omega) stops_closed hdelivers sha1 fd
  obtain ⟨route, hroute, hserves⟩ := h.served _ _ _ _ _ _ _ _ stops_closed hdelivers hplays
  exact understood_of_served hroute hserves

/-- A request is dispatched as it asks exactly if the server understands it. -/
theorem dispatches_iff (sha1 : List Char → List Char) (fd : Descriptor) (r : Http.Request)
    (hshort : r.head.length ≤ 4000) : Dispatches sha1 fd r ↔ Understood r :=
  ⟨understood_of_dispatches hshort, dispatches_of_understood sha1 fd hshort⟩

theorem contentLength_ne_nil : "Content-Length".toList ≠ [] := by decide

theorem contentLength_token : ∀ c ∈ "Content-Length".toList, Http.isTokenChar c :=
  List.all_eq_true.mp (by decide +kernel)

/-- An announcement of two bytes, with blanks before their number. -/
def demoAnnounce (leading : List Char) (hblank : ∀ c ∈ leading, Http.isBlank c) : Http.Request where
  method := "POST".toList
  target := "/announce".toList
  fields :=
    [{ name := "Content-Length".toList
       leading
       value := ['2']
       trailing := []
       name_ne_nil := contentLength_ne_nil
       name_token := contentLength_token
       leading_blank := hblank
       value_chars := List.all_eq_true.mp (by decide +kernel)
       value_trimmed := by
        rintro c (h | h)
        · cases h
          decide
        · cases h
          decide
       trailing_blank := Http.isBlank_of_mem_nil }]
  body := "\x7b\x7d".toList
  method_ne_nil := by decide
  method_token := List.all_eq_true.mp (by decide +kernel)
  target_ne_nil := by decide
  target_visible := List.all_eq_true.mp (by decide +kernel)
  length_eq := by
    intro f hf _
    cases List.mem_singleton.mp hf
    have hdigits : ∀ c ∈ ['2'], c.isDigit := List.all_eq_true.mp (by decide)
    have hnumeral : Http.numeral ['2'] = 2 := by decide +kernel
    exact ⟨List.cons_ne_nil _ _, hdigits, hnumeral⟩
  body_eq_nil h := by
    have hnamed : "Content-Length".toList.map Char.toLower = "content-length".toList := by
      decide +kernel
    exact absurd hnamed (h _ (List.mem_singleton_self _))

/-- With a space. -/
theorem dispatches_iff_demo :
    Dispatches id ⟨3, 0⟩ (demoAnnounce [' '] (List.all_eq_true.mp (by decide))) := by
  have honly : ∀ e : Endpoint, e.method <:+ "POST".toList → e = .announce := by
    intro e h
    cases e with
    | announce => rfl
    | _ => exact absurd h (by decide)
  refine (dispatches_iff id ⟨3, 0⟩ _ (by decide +kernel)).mpr
    ⟨fun e => ⟨fun h => ?_, fun h => ?_⟩, ?_, ?_⟩
  · obtain rfl := honly e h.1.2.1
    exact ⟨rfl, by decide +kernel, nofun⟩
  · obtain rfl := honly e (h.1 ▸ List.suffix_rfl)
    exact ⟨⟨List.cons_ne_nil _ _, List.suffix_rfl, List.prefix_rfl⟩, nofun⟩
  · intro h
    exact absurd h.1 (by decide)
  · intro _
    decide +kernel

/-- Without a space the body is lost. -/
theorem not_dispatches_unspaced : ¬Dispatches id ⟨3, 0⟩ (demoAnnounce [] nofun) := by
  intro h
  have hunderstood := understood_of_dispatches (by decide +kernel) h
  have hasks : AsksFor (demoAnnounce [] nofun) .announce := ⟨rfl, by decide +kernel, nofun⟩
  have hlength := hunderstood.length hasks
  revert hlength
  decide +kernel

end Freehold.Discovery.Descriptors
