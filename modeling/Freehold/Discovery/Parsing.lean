import Freehold.Discovery.Reading

/-!
# Positions in a request (`discovery.cpp`)

`handle_connection` and the functions that it calls find positions in strings and cut out what
is between them. Here each of them is told so, with the `substr` that throws behind the end of
its string. All but one of them never do.

## Main results

* `route_eq_respond`, `announcementAt_eq_ok`, `requestLineAt_eq_ok` — what the code does is what
  the positions say.
* `not_raises_iff` — a request can raise an exception exactly if the value of its key is blank up
  to the end of the headers.
-/

namespace Freehold.Discovery.Descriptors

open Interaction Interaction.Program
open Freehold.Server (stoi)
open Scanning (OutOfRange substr)

/-! ## The functions -/

/-- `while (pos < json.size() && ...) pos++`. -/
def skipBlanks (json : List Char) (pos : ℕ) : ℕ :=
  match _h : json[pos]? with
  | some c => if c = ' ' ∨ c = '\t' then skipBlanks json (pos + 1) else pos
  | none => pos
termination_by json.length - pos
decreasing_by
  have hlt := (List.getElem?_eq_some_iff.mp _h).1
  omega

def jsonGetStringAt (json key : List Char) : Except OutOfRange (List Char) :=
  let search := '"' :: (key ++ ['"'])
  match Scanning.find search json 0 with
  | none => .ok []
  | some pos =>
    match Scanning.find [':'] json (pos + search.length) with
    | none => .ok []
    | some colon =>
      let pos := skipBlanks json (colon + 1)
      if json[pos]? = some '"' then
        match Scanning.find ['"'] json (pos + 1) with
        | none => .ok []
        | some last => substr json (some (pos + 1)) (some (last - pos - 1))
      else
        let last := (Scanning.findFirst (fun c => c ∈ [',', '\x7d', ' ', '\t', '\r', '\n']) json
          pos).getD json.length
        substr json (some pos) (some (last - pos))

def jsonGetIntAt (json key : List Char) : Except OutOfRange ℤ :=
  (jsonGetStringAt json key).map fun val => if val.isEmpty then 0 else (stoi val).getD 0

/-- `handle_announce` up to its response. -/
def announcementAt (body : List Char) : Except OutOfRange (Option Announcement) := do
  let partyId ← jsonGetIntAt body "party_id".toList
  let port ← jsonGetIntAt body "port".toList
  let hostname ← jsonGetStringAt body "hostname".toList
  let status ← jsonGetStringAt body "status".toList
  return if partyId = 0 ∨ port = 0 then none
    else
      some
        { partyId, port
          hostname := if hostname.isEmpty then "127.0.0.1".toList else hostname
          status := if status.isEmpty then "online".toList else status }

def requestLineAt (headers : List Char) : Except OutOfRange (List Char) :=
  match Scanning.find crlf headers 0 with
  | none => .ok []
  | some nl => substr headers (some 0) (some nl)

/-- The handlers and what they are given. -/
inductive Route where
  | announce (body : List Char)
  | health
  | nodes
  | resolve (query : List Char)
  | upgrade (wsKey : List Char)
  | notFound

def queryAt (requestLine : List Char) : Except OutOfRange (List Char) :=
  match Scanning.find ['?'] requestLine 0 with
  | none => .ok []
  | some qpos =>
    substr requestLine (some (qpos + 1))
      ((Scanning.find [' '] requestLine qpos).map fun last => last - qpos - 1)

/-- `headers.substr(vs, ve - vs)`, where the search for `vs` begins at `pos`. -/
def keyValueAt (headers : List Char) (pos : ℕ) : Except OutOfRange (List Char) :=
  match Scanning.findFirst (fun c => !(c = ' ' || c = '\t')) headers pos with
  | none => substr headers none (some 0)
  | some vs => substr headers (some vs) ((Scanning.find crlf headers vs).map fun ve => ve - vs)

def wsKeyAt (headers : List Char) : Except OutOfRange (List Char) :=
  match (Scanning.find "Sec-WebSocket-Key:".toList headers 0).or
      (Scanning.find "sec-websocket-key:".toList headers 0) with
  | none => .ok []
  | some kp => keyValueAt headers (kp + 18)

def routeAt (requestLine headers body : List Char) : Except OutOfRange Route :=
  if (Scanning.find "POST /announce".toList requestLine 0).isSome then .ok (.announce body)
  else if (Scanning.find "GET /health".toList requestLine 0).isSome then .ok .health
  else if (Scanning.find "GET /nodes".toList requestLine 0).isSome ||
      (Scanning.find "GET /topology".toList requestLine 0).isSome then .ok .nodes
  else if (Scanning.find "GET /resolve".toList requestLine 0).isSome then
    (queryAt requestLine).map .resolve
  else if (Scanning.find "GET /ws".toList requestLine 0).isSome &&
      (Scanning.find "Upgrade: websocket".toList headers 0).isSome then
    (wsKeyAt headers).map .upgrade
  else .ok .notFound

/-- Everything that is cut out of a request. -/
def parseAt (headers body : List Char) : Except OutOfRange (Route × Option Announcement) := do
  let requestLine ← requestLineAt headers
  let route ← routeAt requestLine headers body
  let announcement ← match route with
    | .announce body => announcementAt body
    | _ => pure none
  return (route, announcement)

def respond (sha1 : List Char → List Char) (fd : Descriptor) : Route → Code (Option Point)
  | .announce body => do
    handleAnnounce fd body
    closeSocket fd
  | .health => do
    handleHealth fd
    closeSocket fd
  | .nodes => do
    handleNodes fd
    closeSocket fd
  | .resolve query => do
    handleResolve fd query
    closeSocket fd
  | .upgrade key => handleWsUpgrade sha1 fd key
  | .notFound => do
    sendHttp fd 404 "\x7b\"error\":\"not found\"\x7d".toList
    closeSocket fd

/-! ## Where the positions lead -/

variable {needle text json key headers body requestLine : List Char} {pos : ℕ}

theorem find_isSome_eq_contains : (Scanning.find needle text 0).isSome = contains text needle := by
  rw [contains, show afterFirst needle text = Scanning.after needle text from rfl, Bool.eq_iff_iff,
    ← Option.ne_none_iff_isSome, ← Option.ne_none_iff_isSome, Ne, Ne,
    Scanning.find_zero_eq_none_iff]

theorem skipBlanks_spec (json : List Char) (pos : ℕ) (hpos : pos ≤ json.length) :
    skipBlanks json pos ≤ json.length ∧
      json.drop (skipBlanks json pos) = (json.drop pos).dropWhile fun c => c = ' ' || c = '\t' := by
  fun_induction skipBlanks json pos with
  | case1 pos c hget hblank ih =>
    obtain ⟨hlt, rfl⟩ := List.getElem?_eq_some_iff.mp hget
    obtain ⟨hle, hdrop⟩ := ih hlt
    refine ⟨hle, ?_⟩
    rw [hdrop, List.drop_eq_getElem_cons hlt, List.dropWhile_cons_of_pos (by simpa using hblank)]
  | case2 pos c hget hblank =>
    obtain ⟨hlt, rfl⟩ := List.getElem?_eq_some_iff.mp hget
    refine ⟨hpos, ?_⟩
    rw [List.drop_eq_getElem_cons hlt, List.dropWhile_cons_of_neg (by simpa using hblank)]
  | case3 pos hget =>
    refine ⟨hpos, ?_⟩
    rw [List.drop_eq_nil_of_le (List.getElem?_eq_none_iff.mp hget)]
    rfl

/-- What is cut out between a position and the next `c`. -/
theorem takeWhile_of_findFirst {p : Char → Bool} (text : List Char) (pos : ℕ) :
    (text.drop pos).take ((Scanning.findFirst p text pos).getD text.length - pos) =
      (text.drop pos).takeWhile fun c => !p c := by
  unfold Scanning.findFirst
  rw [List.takeWhile_eq_take_findIdx_not]
  cases hfind : (text.drop pos).findIdx? p with
  | none =>
    have hall : (text.drop pos).findIdx p = (text.drop pos).length := List.findIdx_eq_length.mpr (by
      simpa [List.findIdx?_eq_none_iff] using hfind)
    simp [hall]
  | some i =>
    have hi := List.findIdx?_eq_some_iff_findIdx_eq.mp hfind
    simp [hi.2]

/-- What is cut out up to an occurrence is the text before it. -/
theorem before_of_find {i : ℕ} (h : Scanning.find needle text pos = some i) :
    before needle (text.drop pos) = some ((text.drop pos).take (i - pos)) := by
  obtain ⟨hpos, hlength, hafter⟩ := Scanning.exists_of_find h
  obtain ⟨front, hsplit⟩ := Scanning.exists_of_after hafter
  have hfront : front.length = i - pos := by
    have := congrArg List.length hsplit
    simp only [List.length_append, List.length_drop] at this
    omega
  have htake : (text.drop pos).take (i - pos) = front := by
    rw [hsplit, List.append_assoc, ← hfront, List.take_left]
  exact before_eq_some_iff.mpr ⟨_, hafter, htake.symm ▸ hsplit⟩

theorem before_singleton {c : Char} {front : List Char} (h : before [c] text = some front) :
    text.takeWhile (fun d => d ≠ c) = front := by
  have hmem : c ∈ text := by
    obtain ⟨rest, -, rfl⟩ := before_eq_some_iff.mp h
    simp
  obtain ⟨tail, htail⟩ : ∃ tail, text.dropWhile (fun d => d ≠ c) = c :: tail := by
    cases hdrop : text.dropWhile fun d => d ≠ c with
    | nil =>
      have hall := List.dropWhile_eq_nil_iff.mp hdrop c hmem
      simp at hall
    | cons d tail =>
      have hd := List.head?_dropWhile_not (fun d => decide (d ≠ c)) text
      rw [hdrop] at hd
      simp only [ne_eq, decide_not, List.head?_cons, Bool.not_eq_false', decide_eq_true_eq] at hd
      exact ⟨tail, by rw [hd]⟩
  have hsplit : text = text.takeWhile (fun d => d ≠ c) ++ c :: tail := by
    rw [← htail, List.takeWhile_append_dropWhile]
  have hnot : c ∉ text.takeWhile fun d => d ≠ c := fun hc => by
    simpa using List.mem_takeWhile_imp hc
  have hafter : afterFirst [c] text = some tail := by
    conv_lhs => rw [hsplit]
    exact Scanning.after_singleton hnot
  have hbefore : before [c] text = some (text.takeWhile fun d => d ≠ c) :=
    before_eq_some_iff.mpr ⟨tail, hafter, by simpa using hsplit⟩
  exact Option.some.inj (hbefore.symm.trans h)

theorem jsonGetStringAt_eq_ok (json key : List Char) :
    jsonGetStringAt json key = .ok (jsonGetString json key) := by
  unfold jsonGetStringAt jsonGetString
  generalize '"' :: (key ++ ['"']) = search
  dsimp only
  cases hsearch : Scanning.find search json 0 with
  | none =>
    have hnone : afterFirst search json = none := Scanning.find_zero_eq_none_iff.mp hsearch
    rw [hnone]
    rfl
  | some first =>
    obtain ⟨-, hfirst, hafter⟩ := Scanning.exists_of_find hsearch
    have hsome : afterFirst search json = some (json.drop (first + search.length)) := hafter
    rw [hsome, Option.bind_some]
    dsimp only
    cases hcolon : Scanning.find [':'] json (first + search.length) with
    | none =>
      have hnone : afterFirst [':'] (json.drop (first + search.length)) = none :=
        (Scanning.find_eq_none_iff hfirst).mp hcolon
      rw [hnone]
    | some colon =>
      obtain ⟨-, hle, hafter⟩ := Scanning.exists_of_find hcolon
      have hsome : afterFirst [':'] (json.drop (first + search.length)) =
          some (json.drop (colon + 1)) := hafter
      obtain ⟨hskip, hdrop⟩ := skipBlanks_spec json (colon + 1) hle
      rw [hsome]
      dsimp only
      rw [← hdrop]
      generalize skipBlanks json (colon + 1) = pos at hskip
      have hget : json[pos]? = (json.drop pos).head? := by rw [List.head?_drop]
      by_cases hquote : json[pos]? = some '"'
      · obtain ⟨value, hvalue⟩ : ∃ value, json.drop pos = '"' :: value := by
          rw [hget] at hquote
          exact ⟨_, List.eq_cons_of_mem_head? hquote⟩
        have hnext : value = json.drop (pos + 1) := by
          rw [← List.drop_drop, hvalue]
          rfl
        have hlt : pos + 1 ≤ json.length := (List.getElem?_eq_some_iff.mp hquote).1
        rw [if_pos hquote, hvalue]
        show _ = Except.ok (if '"' ∈ value then value.takeWhile fun c => c ≠ '"' else [])
        cases hlast : Scanning.find ['"'] json (pos + 1) with
        | none =>
          have hnot := (Scanning.find_eq_none_iff hlt).mp hlast
          rw [← hnext, Scanning.after_singleton_eq_none_iff] at hnot
          rw [if_neg hnot]
        | some last =>
          have hbefore := before_of_find hlast
          rw [← hnext] at hbefore
          have hmem : '"' ∈ value := by
            obtain ⟨rest, -, hsplit⟩ := before_eq_some_iff.mp hbefore
            rw [hsplit]
            simp
          dsimp only
          rw [if_pos hmem, before_singleton hbefore, Scanning.substr_eq_ok hlt, ← hnext,
            Nat.sub_sub]
      · rw [if_neg hquote, Scanning.substr_eq_ok hskip, takeWhile_of_findFirst]
        have hother : ∀ value, json.drop pos ≠ '"' :: value := by
          intro value hvalue
          rw [hget, hvalue] at hquote
          exact hquote rfl
        split
        · exact absurd ‹_› (hother _)
        · simp

theorem jsonGetIntAt_eq_ok (json key : List Char) :
    jsonGetIntAt json key = .ok (jsonGetInt json key) := by
  rw [jsonGetIntAt, jsonGetStringAt_eq_ok, jsonGetInt]
  cases jsonGetString json key with
  | nil => rfl
  | cons c val => rfl

/-- `handle_announce` raises no exception. -/
theorem announcementAt_eq_ok (body : List Char) :
    announcementAt body = .ok (announcement body) := by
  simp only [announcementAt, jsonGetIntAt_eq_ok, jsonGetStringAt_eq_ok]
  rfl

theorem requestLineAt_eq_ok (headers : List Char) :
    requestLineAt headers = .ok ((before crlf headers).getD []) := by
  unfold requestLineAt
  cases hfind : Scanning.find crlf headers 0 with
  | none =>
    have hnone : afterFirst crlf headers = none := Scanning.find_zero_eq_none_iff.mp hfind
    rw [before, hnone]
    rfl
  | some nl =>
    have hbefore := before_of_find hfind
    rw [List.drop_zero] at hbefore
    rw [hbefore]
    dsimp only
    rw [Scanning.substr_eq_ok (Nat.zero_le _), List.drop_zero]
    rfl

theorem queryAt_eq_ok (requestLine : List Char) :
    queryAt requestLine = .ok (queryOf requestLine) := by
  unfold queryAt queryOf
  cases hmark : Scanning.find ['?'] requestLine 0 with
  | none =>
    have hnone : afterFirst ['?'] requestLine = none := Scanning.find_zero_eq_none_iff.mp hmark
    rw [hnone]
    rfl
  | some qpos =>
    obtain ⟨-, hle, hafter⟩ := Scanning.exists_of_find hmark
    have hsome : afterFirst ['?'] requestLine = some (requestLine.drop (qpos + 1)) := hafter
    have hlt : qpos < requestLine.length := hle
    have hqpos : requestLine.drop qpos = '?' :: requestLine.drop (qpos + 1) := by
      obtain ⟨front, hsplit⟩ := Scanning.exists_of_after hafter
      have hfront : front.length = qpos := by
        have := congrArg List.length hsplit
        simp only [List.drop_zero, List.length_append, List.length_drop, List.length_cons,
          List.length_nil] at this
        omega
      rw [List.drop_zero] at hsplit
      subst hfront
      conv_lhs => rw [hsplit, List.append_assoc, List.drop_left]
      rfl
    rw [hsome]
    dsimp only
    cases hspace : Scanning.find [' '] requestLine qpos with
    | none =>
      have hnot := (Scanning.find_eq_none_iff hlt.le).mp hspace
      rw [Scanning.after_singleton_eq_none_iff, hqpos, List.mem_cons, not_or] at hnot
      have hall : (requestLine.drop (qpos + 1)).takeWhile (fun c => c ≠ ' ') =
          requestLine.drop (qpos + 1) :=
        List.takeWhile_eq_self_iff.mpr fun c hc => by
          simp only [ne_eq, decide_not, Bool.not_eq_eq_eq_not, Bool.not_true,
            decide_eq_false_iff_not]
          rintro rfl
          exact hnot.2 hc
      rw [Option.map_some, Option.getD_some, hall]
      exact if_pos hlt
    | some last =>
      have hbefore := before_singleton (before_of_find hspace)
      have hlast : qpos < last := by
        by_contra hge
        rw [Nat.sub_eq_zero_of_le (by omega), List.take_zero, hqpos] at hbefore
        simp at hbefore
      rw [hqpos, List.takeWhile_cons_of_pos (by decide), List.take_cons (by omega)] at hbefore
      rw [Option.map_some, Option.map_some, Option.getD_some, Scanning.substr_eq_ok hlt,
        (List.cons.inj hbefore).2]

/-- `substr` is given `npos` where nothing but blanks is left. -/
theorem keyValueAt_eq (hpos : pos ≤ headers.length) : keyValueAt headers pos =
    match (headers.drop pos).dropWhile fun c => c = ' ' || c = '\t' with
    | [] => .error .outOfRange
    | value => .ok ((before crlf value).getD value) := by
  unfold keyValueAt Scanning.findFirst
  rw [List.dropWhile_eq_drop_findIdx_not]
  cases hfind : (headers.drop pos).findIdx? fun c => !(c = ' ' || c = '\t') with
  | none =>
    have hall : (headers.drop pos).length ≤
        (headers.drop pos).findIdx fun c => !(c = ' ' || c = '\t') :=
      (List.findIdx_eq_length.mpr (List.findIdx?_eq_none_iff.mp hfind)).ge
    rw [List.drop_eq_nil_of_le hall]
    rfl
  | some i =>
    obtain ⟨hlt, hindex⟩ := List.findIdx?_eq_some_iff_findIdx_eq.mp hfind
    have hlength : pos + i < headers.length := by
      rw [List.length_drop] at hlt
      omega
    rw [hindex, List.drop_drop, Option.map_some]
    have hvalue : headers.drop (pos + i) = headers[pos + i] :: headers.drop (pos + i + 1) :=
      List.drop_eq_getElem_cons hlength
    have hmatch : (match headers.drop (pos + i) with
        | [] => .error .outOfRange
        | value => .ok ((before crlf value).getD value) : Except OutOfRange (List Char)) =
        .ok ((before crlf (headers.drop (pos + i))).getD (headers.drop (pos + i))) := by
      rw [hvalue]
    rw [hmatch]
    dsimp only
    cases hcrlf : Scanning.find crlf headers (pos + i) with
    | none =>
      have hnone : afterFirst crlf (headers.drop (pos + i)) = none :=
        (Scanning.find_eq_none_iff hlength.le).mp hcrlf
      rw [before, hnone]
      exact if_pos hlength.le
    | some ve =>
      rw [Option.map_some, Scanning.substr_eq_ok hlength.le, before_of_find hcrlf]
      rfl

/-- `substr` throws where the model has no key. -/
theorem wsKeyAt_eq (headers : List Char) :
    wsKeyAt headers = match wsKey headers with
      | none => .error .outOfRange
      | some key => .ok key := by
  have hposition : ∀ name : List Char, name.length = 18 → ∀ kp,
      Scanning.find name headers 0 = some kp →
      kp + 18 ≤ headers.length ∧ afterFirst name headers = some (headers.drop (kp + 18)) := by
    intro name hname kp hkp
    obtain ⟨-, hle, hafter⟩ := Scanning.exists_of_find hkp
    rw [hname] at hle hafter
    exact ⟨hle, hafter⟩
  have hvalue : ∀ kp, kp + 18 ≤ headers.length → keyValueAt headers (kp + 18) =
      match (match (headers.drop (kp + 18)).dropWhile fun c => c = ' ' || c = '\t' with
        | [] => none
        | value => some ((before crlf value).getD value) : Option (List Char)) with
      | none => .error .outOfRange
      | some key => .ok key := by
    intro kp hkp
    rw [keyValueAt_eq hkp]
    cases (headers.drop (kp + 18)).dropWhile fun c => c = ' ' || c = '\t' with
    | nil => rfl
    | cons c value => rfl
  unfold wsKeyAt wsKey
  cases hfirst : Scanning.find "Sec-WebSocket-Key:".toList headers 0 with
  | some kp =>
    obtain ⟨hle, hafter⟩ := hposition _ (by decide) kp hfirst
    rw [hafter]
    exact hvalue kp hle
  | none =>
    have hnone : afterFirst "Sec-WebSocket-Key:".toList headers = none :=
      Scanning.find_zero_eq_none_iff.mp hfirst
    rw [hnone, Option.none_or, Option.none_or]
    cases hsecond : Scanning.find "sec-websocket-key:".toList headers 0 with
    | some kp =>
      obtain ⟨hle, hafter⟩ := hposition _ (by decide) kp hsecond
      rw [hafter]
      exact hvalue kp hle
    | none =>
      have hnone : afterFirst "sec-websocket-key:".toList headers = none :=
        Scanning.find_zero_eq_none_iff.mp hsecond
      rw [hnone]

/-- The routing is what the positions say; where one is out of range, the program ends. -/
theorem route_eq_respond (sha1 : List Char → List Char) (fd : Descriptor)
    (requestLine headers body : List Char) : route sha1 fd requestLine headers body =
      match routeAt requestLine headers body with
      | .error _ => terminate
      | .ok r => respond sha1 fd r := by
  unfold route routeAt
  simp only [find_isSome_eq_contains, queryAt_eq_ok, wsKeyAt_eq]
  split_ifs
  · rfl
  · rfl
  · rfl
  · rfl
  · cases wsKey headers with
    | none => rfl
    | some key => rfl
  · rfl

/-! ## Exceptions -/

/-- The request line is taken for that of a WebSocket client. -/
def Upgrades (requestLine headers : List Char) : Prop :=
  contains requestLine "POST /announce".toList = false ∧
  contains requestLine "GET /health".toList = false ∧
  contains requestLine "GET /nodes".toList = false ∧
  contains requestLine "GET /topology".toList = false ∧
  contains requestLine "GET /resolve".toList = false ∧
  contains requestLine "GET /ws".toList = true ∧
  contains headers "Upgrade: websocket".toList = true

/-- What stands behind the name of the key. -/
def keyText (headers : List Char) : Option (List Char) :=
  (afterFirst "Sec-WebSocket-Key:".toList headers).or
    (afterFirst "sec-websocket-key:".toList headers)

/-- Nothing but blanks stands behind the name of the key. -/
def BlankKey (headers : List Char) : Prop :=
  ∃ text, keyText headers = some text ∧ ∀ c ∈ text, c = ' ' ∨ c = '\t'

theorem wsKey_eq_none_iff : wsKey headers = none ↔ BlankKey headers := by
  unfold wsKey BlankKey
  rw [show (afterFirst "Sec-WebSocket-Key:".toList headers).or
    (afterFirst "sec-websocket-key:".toList headers) = keyText headers from rfl]
  cases keyText headers with
  | none => simp
  | some text =>
    cases hvalue : text.dropWhile fun c => c = ' ' || c = '\t' with
    | nil => simpa [hvalue] using List.dropWhile_eq_nil_iff.mp hvalue
    | cons c value =>
      have hblank : ¬∀ c ∈ text, c = ' ' ∨ c = '\t' := by
        intro hall
        have hnil : text.dropWhile (fun c => c = ' ' || c = '\t') = [] :=
          List.dropWhile_eq_nil_iff.mpr fun d hd => by simpa using hall d hd
        rw [hvalue] at hnil
        cases hnil
      simp [hblank]

theorem routeAt_eq_error_iff :
    (∃ e, routeAt requestLine headers body = .error e) ↔
      Upgrades requestLine headers ∧ BlankKey headers := by
  unfold routeAt Upgrades
  simp only [find_isSome_eq_contains, queryAt_eq_ok, wsKeyAt_eq, ← wsKey_eq_none_iff]
  generalize contains requestLine "POST /announce".toList = announce
  generalize contains requestLine "GET /health".toList = health
  generalize contains requestLine "GET /nodes".toList = nodes
  generalize contains requestLine "GET /topology".toList = topology
  generalize contains requestLine "GET /resolve".toList = resolve
  generalize contains requestLine "GET /ws".toList = ws
  generalize contains headers "Upgrade: websocket".toList = upgrade
  split_ifs with hannounce hhealth hnodes hresolve hupgrade
  · grind
  · grind
  · grind
  · grind [Except.map]
  · cases hkey : wsKey headers with
    | none =>
      have herror : ∃ e, (Except.error .outOfRange : Except OutOfRange (List Char)).map
          Route.upgrade =
          .error e := ⟨_, rfl⟩
      grind
    | some key => grind [Except.map]
  · grind

theorem parseAt_eq_error_iff : (∃ e, parseAt headers body = .error e) ↔
    Upgrades ((before crlf headers).getD []) headers ∧ BlankKey headers := by
  have hroute : (∃ e, routeAt ((before crlf headers).getD []) headers body = .error e) ↔ _ :=
    routeAt_eq_error_iff
  rw [← hroute, parseAt, requestLineAt_eq_ok]
  show
    (∃ e, (routeAt ((before crlf headers).getD []) headers body >>= fun route => _) = .error e) ↔ _
  cases routeAt ((before crlf headers).getD []) headers body with
  | error e => simp [Bind.bind, Except.bind]
  | ok r =>
    cases r with
    | announce body =>
      simp only [Bind.bind, Except.bind, announcementAt_eq_ok]
      simp [pure, Except.pure]
    | _ => simp [Bind.bind, Except.bind, pure, Except.pure]

/-- The request that the server reads raises an exception. -/
def Raises (sha1 : List Char → List Char) (fd : Descriptor) (s : List Outcome) : Prop :=
  ∃ t new s' requestLine headers body e,
    (peer sha1).Plays Reading (code sha1 (.handleConnection fd)) s t new
      (.ret (some (.routing fd requestLine headers body))) s' ∧
    parseAt headers body = .error e

/-- The stream begins with an upgrade whose headers end with a blank key. -/
def LosesKey (stream : List Char) : Prop :=
  ∃ headers, headersOf (stream.take 4095) = some headers ∧
    Upgrades ((before crlf headers).getD []) headers ∧ BlankKey headers

theorem losesKey_of_raises {stream : List Char} {ending s : List Outcome}
    {sha1 : List Char → List Char}
    {fd : Descriptor} (hstops : Stops ending) (hdelivers : Delivers stream ending s)
    (h : Raises sha1 fd s) : LosesKey stream := by
  obtain ⟨t, new, s', requestLine, headers, body, e, hplays, herror⟩ := h
  obtain ⟨stray, hrequest⟩ : ∃ stray, some ⟨requestLine, headers, body⟩ =
      requestOf stray stream := requestOf_of_plays hstops hdelivers hplays
  unfold requestOf at hrequest
  obtain ⟨headers', hheaders, heq⟩ := Option.map_eq_some_iff.mp hrequest.symm
  cases heq
  exact ⟨headers, hheaders, parseAt_eq_error_iff.mp ⟨e, herror⟩⟩

theorem raises_of_losesKey {stream : List Char} {ending s : List Outcome}
    (sha1 : List Char → List Char) (fd : Descriptor) (hstops : Stops ending)
    (hdelivers : Delivers stream ending s) (h : LosesKey stream) : Raises sha1 fd s := by
  obtain ⟨headers, hheaders, hloses⟩ := h
  obtain ⟨t, s', hplays⟩ := gets_goal sha1 fd [] hstops hdelivers
  rw [requestOf, hheaders] at hplays
  obtain ⟨e, herror⟩ := parseAt_eq_error_iff.mpr hloses
  exact ⟨t, [], s', _, headers, _, e, hplays, herror⟩

/-- However a stream is cut and ends, its request raises no exception, exactly if it is no
upgrade whose headers end with a blank key. -/
theorem not_raises_iff (sha1 : List Char → List Char) (fd : Descriptor) (stream : List Char) :
    (∀ ending s, Stops ending → Delivers stream ending s → ¬Raises sha1 fd s) ↔
      ¬LosesKey stream := by
  constructor
  · intro h hloses
    obtain ⟨s, hdelivers⟩ := delivers_whole stream [.closed]
    exact h _ s stops_closed hdelivers (raises_of_losesKey sha1 fd stops_closed hdelivers hloses)
  · intro h ending s hstops hdelivers hraises
    exact h (losesKey_of_raises hstops hdelivers hraises)

/-- An upgrade with an empty key, in one piece. -/
theorem raises_emptyKey : Raises id ⟨3, 0⟩ [.data
    ('G' :: "ET /ws HTTP/1.1\r\nUpgrade: websocket\r\nSec-WebSocket-Key:\r\n\r\n".toList),
      .closed] := by
  refine raises_of_losesKey id ⟨3, 0⟩ stops_closed ⟨[_], ?_, List.flatten_singleton, rfl⟩ ?_
  · simp
  · refine ⟨'G' :: "ET /ws HTTP/1.1\r\nUpgrade: websocket\r\nSec-WebSocket-Key:".toList, ?_, ?_,
      [], ?_, List.forall_mem_nil _⟩
    · decide +kernel
    · unfold Upgrades
      decide +kernel
    · decide +kernel

end Freehold.Discovery.Descriptors
