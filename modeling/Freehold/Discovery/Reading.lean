import Freehold.Discovery.Descriptors
import Freehold.Foundation.Scanning

/-!
# Reading a request (`discovery.cpp`)

`handle_connection` runs alone against what its client does: the outcomes of the `recv`s. A
stream arrives in pieces, and the two loops that read a request make of the pieces what the
stream says as a whole.

## Main results

* `asserts_reading` — wherever a handler that reads has got to, it is on the way to the request
  of the stream.
* `gets_goal` — it gets there.
* `reads_iff` — the pieces make no difference, unless a length is read from behind the headers.
-/

namespace Freehold.Discovery.Descriptors

open Interaction Interaction.Program
open Freehold.Mail (atoi)

/-! ## What the client does -/

/-- What a `recv` finds. -/
inductive Outcome where
  | data (bytes : List Char)
  | timeout
  /-- The client has closed its sending side. -/
  | closed
  | error

/-- The most that one `recv` reads. -/
def recvMax : ℕ := 0x7ffff000

/-- What `recv` reads, and what there is still to come; the end of a stream stays. -/
def receive (size : ℕ) : List Outcome → Option (List Char × List Outcome)
  | [] => none
  | .data bytes :: rest =>
    let n := min size recvMax
    some (bytes.take n, if bytes.length ≤ n then rest else .data (bytes.drop n) :: rest)
  | .closed :: rest => some ([], .closed :: rest)
  | .timeout :: rest => some ([], rest)
  | .error :: rest => some ([], rest)

def peerEffect : (o : Call) → List Outcome → Sockets.Answer o → List Outcome → Prop
  | .recv _ size, s, x, s' => receive size s = some (x, s')
  | _, s, _, s' => s' = s

/-- The threads of the server against one client. What is not read is answered anyhow. -/
def peer (sha1 : List Char → List Char) : Threads Point Sockets Empty (List Outcome) where
  code := code sha1
  effect := peerEffect
  started := started

/-- The stream in pieces, and then `ending`. -/
def Delivers (stream : List Char) (ending s : List Outcome) : Prop :=
  ∃ segments : List (List Char), (∀ d ∈ segments, d ≠ []) ∧ segments.flatten = stream ∧
    s = segments.map .data ++ ending

/-- No more data, but an outcome. -/
def Stops : List Outcome → Prop
  | [] | .data _ :: _ => False
  | _ => True

theorem stops_closed : Stops [.closed] := trivial

variable {stream rest x : List Char} {ending s s' : List Outcome} {size : ℕ}

theorem receive_of_stops (h : Stops ending) (size : ℕ) :
    ∃ s', receive size ending = some ([], s') := by
  match ending, h with
  | .closed :: rest, _ => exact ⟨_, rfl⟩
  | .timeout :: rest, _ => exact ⟨_, rfl⟩
  | .error :: rest, _ => exact ⟨_, rfl⟩

/-- A `recv` with room reads some of what is left, if anything is. -/
theorem Delivers.exists_receive (h : Delivers stream ending s) (hstream : stream ≠ [])
    (hsize : 0 < size) : ∃ x rest s', receive size s = some (x, s') ∧ x ≠ [] ∧
      x.length ≤ size ∧ stream = x ++ rest ∧ Delivers rest ending s' := by
  obtain ⟨_ | ⟨d, segments⟩, hne, rfl, rfl⟩ := h
  · exact absurd rfl hstream
  · have hd : d ≠ [] := hne d List.mem_cons_self
    have hrest : ∀ d ∈ segments, d ≠ [] := fun d hmem => hne d (List.mem_cons_of_mem _ hmem)
    have hpos : 0 < min size recvMax := lt_min hsize (by decide)
    have htake : d.take (min size recvMax) ≠ [] := by
      rw [Ne, List.take_eq_nil_iff]
      rintro (hzero | hnil)
      · omega
      · exact hd hnil
    by_cases hlong : d.length ≤ min size recvMax
    · refine ⟨d, segments.flatten, segments.map .data ++ ending, ?_, hd, by omega, rfl,
        segments, hrest, rfl, rfl⟩
      simp [receive, hlong, List.take_of_length_le]
    · refine ⟨d.take (min size recvMax), d.drop (min size recvMax) ++ segments.flatten,
        .data (d.drop (min size recvMax)) :: (segments.map .data ++ ending), ?_, htake, ?_, ?_,
        d.drop (min size recvMax) :: segments, ?_, rfl, rfl⟩
      · simp [receive, hlong]
      · rw [List.length_take]
        omega
      · rw [List.flatten_cons, ← List.append_assoc, List.take_append_drop]
      · refine List.forall_mem_cons.mpr ⟨?_, hrest⟩
        rw [Ne, List.drop_eq_nil_iff]
        exact hlong

theorem Delivers.receive_nil (h : Delivers [] ending s) (hstops : Stops ending) (size : ℕ) :
    ∃ s', receive size s = some ([], s') := by
  obtain ⟨_ | ⟨d, segments⟩, hne, hnil, rfl⟩ := h
  · exact receive_of_stops hstops size
  · rw [List.flatten_cons, List.append_eq_nil_iff] at hnil
    exact absurd hnil.1 (hne d List.mem_cons_self)

/-- What a `recv` has read, if the stream is not at its end. -/
theorem Delivers.of_receive (h : Delivers stream ending s) (hstops : Stops ending)
    (hsize : 0 < size) (hreceive : receive size s = some (x, s')) :
    (stream = [] ∧ x = []) ∨
      (x ≠ [] ∧ x.length ≤ size ∧ ∃ rest, stream = x ++ rest ∧ Delivers rest ending s') := by
  by_cases hstream : stream = []
  · subst hstream
    obtain ⟨s'', hnil⟩ := h.receive_nil hstops size
    cases hreceive.symm.trans hnil
    exact .inl ⟨rfl, rfl⟩
  · obtain ⟨y, rest, s'', hy, hne, hlength, hsplit, hrest⟩ := h.exists_receive hstream hsize
    cases hreceive.symm.trans hy
    exact .inr ⟨hne, hlength, rest, hsplit, hrest⟩

/-! ## The stream as a whole -/

variable {needle text front headers buf : List Char}

theorem before_eq_some_iff : before needle text = some front ↔
    ∃ rest, afterFirst needle text = some rest ∧ text = front ++ needle ++ rest := by
  unfold before
  constructor
  · intro h
    obtain ⟨rest, hrest, rfl⟩ := Option.map_eq_some_iff.mp h
    obtain ⟨front, hsplit⟩ := Scanning.exists_of_after hrest
    refine ⟨rest, hrest, ?_⟩
    have hlength : text.length - rest.length - needle.length = front.length := by
      rw [hsplit]
      simp only [List.length_append]
      omega
    rw [hlength, hsplit, List.append_assoc, List.take_left, List.append_assoc]
  · rintro ⟨rest, hrest, rfl⟩
    rw [hrest, Option.map_some, Option.some.injEq]
    have hlength : (front ++ needle ++ rest).length - rest.length - needle.length =
        front.length := by
      simp only [List.length_append]
      omega
    rw [hlength, List.append_assoc, List.take_left]

theorem before_append (h : before needle text = some front) (more : List Char) :
    before needle (text ++ more) = some front := by
  obtain ⟨rest, hrest, hsplit⟩ := before_eq_some_iff.mp h
  refine before_eq_some_iff.mpr ⟨rest ++ more, Scanning.after_append hrest more, ?_⟩
  rw [hsplit, List.append_assoc (front ++ needle)]

theorem headersOf_append (h : headersOf buf = some headers) (more : List Char) :
    headersOf (buf ++ more) = some headers := by
  unfold headersOf at h ⊢
  rw [List.takeWhile_append]
  split_ifs with hall
  · rw [(List.takeWhile_prefix _).eq_of_length hall] at h
    exact before_append h _
  · exact h

theorem exists_of_headersOf (h : headersOf buf = some headers) :
    ∃ rest, buf = headers ++ crlf ++ crlf ++ rest := by
  obtain ⟨rest, -, hsplit⟩ := before_eq_some_iff.mp h
  refine ⟨rest ++ buf.dropWhile fun c => c ≠ '\x00', ?_⟩
  conv_lhs => rw [← List.takeWhile_append_dropWhile (p := fun c => c ≠ '\x00') (l := buf)]
  rw [hsplit]
  simp only [List.append_assoc]

/-- What `handle_connection` makes of a stream. -/
structure Request where
  requestLine : List Char
  headers : List Char
  body : List Char

/-- `content_length`, when `stray` is behind the headers in memory. -/
def lengthWith (stray headers : List Char) : ℤ :=
  match lengthText headers with
  | none => 0
  | some [] => atoi stray
  | some (_ :: text) => atoi text

/-- The request, read from the whole stream at once. -/
def requestOf (stray stream : List Char) : Option Request :=
  (headersOf (stream.take 4095)).map fun headers =>
    { requestLine := (before crlf headers).getD []
      headers
      body := (stream.drop (headers.length + 4)).take (lengthWith stray headers).toNat }

/-! ## On the way to the request -/

/-- The handler reads, and does nothing else. -/
def Reading (e : SocketEvent) (_ : List Outcome) : Prop :=
  match e.op with
  | .setTimeout _ | .recv _ _ | .overrun => True
  | _ => False

/-- Where a handler gets that has read a request, or none. -/
def goal (fd : Descriptor) : Option Request → Code (Option Point)
  | none => closeSocket fd
  | some r => .ret (some (.routing fd r.requestLine r.headers r.body))

/-- The handler of `fd` is on its way to a request of the stream. -/
def OnTheWay (fd : Descriptor) (stream : List Char) (ending : List Outcome) :
    Point → List Outcome → Prop
  | .handleConnection fd', s => fd' = fd ∧ Delivers stream ending s
  | .readHeaders fd' buf, s =>
    fd' = fd ∧ headersOf buf = none ∧ buf.length ≤ 4095 ∧
      ∃ rest, stream = buf ++ rest ∧ Delivers rest ending s
  | .readBody fd' requestLine headers length body, s =>
    fd' = fd ∧ ∃ stray rest, requestOf stray stream =
      some ⟨requestLine, headers, body ++ rest.take (length - body.length)⟩ ∧
      (body.length < length → Delivers rest ending s)
  | .routing fd' requestLine headers body, _ =>
    fd' = fd ∧ ∃ stray, requestOf stray stream = some ⟨requestLine, headers, body⟩
  | _, _ => False

/-- The connection is closed only if there is no request. -/
def ClosesWithout (stream : List Char) : Call → List Outcome → Prop
  | .close _, _ => ∀ stray, requestOf stray stream = none
  | _, _ => True

variable {sha1 : List Char → List Char} {fd : Descriptor} {K : Point → List Outcome → Prop}
  {A : Call → List Outcome → Prop}

/-- Every route begins with something else than reading and closing. -/
theorem exists_route_eq_call (sha1 : List Char → List Char) (fd : Descriptor)
    (requestLine headers body : List Char) : ∃ o next,
      route sha1 fd requestLine headers body = .call o next ∧ (∀ x s, ¬Reading ⟨o, x⟩ s) ∧
      ∀ stream s, ClosesWithout stream o s := by
  unfold route
  split_ifs
  · unfold handleAnnounce
    cases announcement body with
    | none => exact ⟨_, _, rfl, nofun, fun _ _ => trivial⟩
    | some a => exact ⟨_, _, rfl, nofun, fun _ _ => trivial⟩
  · exact ⟨_, _, rfl, nofun, fun _ _ => trivial⟩
  · exact ⟨_, _, rfl, nofun, fun _ _ => trivial⟩
  · exact ⟨_, _, rfl, nofun, fun _ _ => trivial⟩
  · cases wsKey headers with
    | none => exact ⟨_, _, rfl, nofun, fun _ _ => trivial⟩
    | some key => exact ⟨_, _, rfl, nofun, fun _ _ => trivial⟩
  · exact ⟨_, _, rfl, nofun, fun _ _ => trivial⟩

theorem requestOf_eq_none {stray : List Char} (h : headersOf (stream.take 4095) = none) :
    requestOf stray stream = none := by
  rw [requestOf, h, Option.map_none]

/-- The buffer is full, or the stream is at its end, and the headers are not. -/
theorem requestOf_of_stuck (hheaders : headersOf buf = none) (hbuf : buf.length ≤ 4095)
    (hstream : stream = buf ++ rest) (hstuck : buf.length = 4095 ∨ rest = []) (stray : List Char) :
    requestOf stray stream = none := by
  have htake : stream.take 4095 = buf := by
    rcases hstuck with hfull | rfl
    · rw [hstream, ← hfull, List.take_left]
    · rw [hstream, List.append_nil, List.take_of_length_le hbuf]
  refine requestOf_eq_none ?_
  rw [htake, hheaders]

theorem requestOf_of_headersOf (hheaders : headersOf buf = some headers) (hbuf : buf.length ≤ 4095)
    (hstream : stream = buf ++ rest) (stray : List Char) : requestOf stray stream =
      some ⟨(before crlf headers).getD [], headers,
        (buf.drop (headers.length + 4) ++ rest).take (lengthWith stray headers).toNat⟩ := by
  obtain ⟨tail, hsplit⟩ := exists_of_headersOf hheaders
  have hlength : headers.length + 4 ≤ buf.length := by
    rw [hsplit]
    simp [crlf]
  have htake : stream.take 4095 = buf ++ rest.take (4095 - buf.length) := by
    rw [hstream, List.take_append, List.take_of_length_le hbuf]
  rw [requestOf, htake, headersOf_append hheaders, Option.map_some, hstream,
    List.drop_append_of_le_length hlength]

/-- What is read goes to the end of the body. -/
theorem append_append_take {body data rest : List Char} {length : ℕ}
    (h : data.length ≤ length - body.length) :
    body ++ data ++ rest.take (length - (body ++ data).length) =
      body ++ (data ++ rest).take (length - body.length) := by
  have hlength : length - (body ++ data).length = length - body.length - data.length := by
    rw [List.length_append]
    omega
  rw [hlength, List.take_append, List.take_of_length_le h, List.append_assoc]

theorem take_append_take (front : List Char) (length : ℕ) :
    front.take length ++ rest.take (length - (front.take length).length) =
      (front ++ rest).take length := by
  have hlength : length - (front.take length).length = length - front.length := by
    rw [List.length_take]
    omega
  rw [hlength, List.take_append]

abbrev Asserts (sha1 : List Char → List Char) (stream : List Char) {α : Type}
    (Q : α → List Outcome → Prop) : Code α → List Outcome → Prop :=
  (peer sha1).Asserts Reading (ClosesWithout stream) Q

theorem asserts_contentLength (headers : List Char) (s : List Outcome) :
    Asserts sha1 stream (fun length s' => s' = s ∧ ∃ stray, length = lengthWith stray headers)
      (contentLength headers) s := by
  unfold contentLength lengthWith
  match lengthText headers with
  | none => exact ⟨rfl, [], rfl⟩
  | some [] =>
    refine ⟨trivial, ?_⟩
    rintro stray s' rfl -
    exact ⟨rfl, stray, rfl⟩
  | some (_ :: text) => exact ⟨rfl, [], rfl⟩

theorem asserts_received (hbuf : buf.length ≤ 4095) (hstream : stream = buf ++ rest)
    (hdelivers : Delivers rest ending s) :
    Asserts sha1 stream (Threads.Continues (OnTheWay fd stream ending)) (received fd buf) s := by
  unfold received
  cases hheaders : headersOf buf with
  | none => exact ⟨rfl, hheaders, hbuf, rest, hstream, hdelivers⟩
  | some headers =>
    refine (asserts_contentLength headers s).bind ?_
    rintro length s' ⟨rfl, stray, rfl⟩
    have hrequest := requestOf_of_headersOf hheaders hbuf hstream stray
    split_ifs with hpos
    · refine ⟨rfl, stray, rest, ?_, fun _ => hdelivers⟩
      rw [take_append_take, hrequest]
    · refine ⟨rfl, stray, ?_⟩
      rw [hrequest, Int.toNat_of_nonpos (not_lt.mp hpos), List.take_zero]

theorem asserts_reading (k : Point) (s : List Outcome) (hstops : Stops ending)
    (hk : OnTheWay fd stream ending k s) :
    Asserts sha1 stream (Threads.Continues (OnTheWay fd stream ending)) (code sha1 k) s := by
  cases k with
  | handleConnection fd' =>
    obtain ⟨rfl, hdelivers⟩ := hk
    refine ⟨trivial, ?_⟩
    rintro - s' rfl -
    exact ⟨rfl, by decide +kernel, Nat.zero_le _, stream, rfl, hdelivers⟩
  | readHeaders fd' buf =>
    obtain ⟨rfl, hheaders, hbuf, rest, hstream, hdelivers⟩ := hk
    rw [code]
    split_ifs with hroom
    · refine ⟨trivial, ?_⟩
      rintro data s' heffect -
      rcases hdelivers.of_receive hstops (Nat.sub_pos_of_lt hroom) heffect with
        ⟨rfl, rfl⟩ | ⟨hne, hlength, rest', rfl, hrest⟩
      · exact ⟨requestOf_of_stuck hheaders hbuf hstream (.inr rfl), fun _ _ _ _ => trivial⟩
      · obtain ⟨c, data, rfl⟩ := List.exists_cons_of_ne_nil hne
        refine asserts_received ?_ (by rw [hstream, List.append_assoc]) hrest
        rw [List.length_append]
        omega
    · exact ⟨requestOf_of_stuck hheaders hbuf hstream (.inl (by omega)), fun _ _ _ _ => trivial⟩
  | readBody fd' requestLine headers length body =>
    obtain ⟨rfl, stray, rest, hrequest, hdelivers⟩ := hk
    rw [code]
    split_ifs with hshort
    · refine ⟨trivial, ?_⟩
      rintro data s' heffect -
      have hsize : 0 < min 4096 (length - body.length) :=
        lt_min (by decide) (Nat.sub_pos_of_lt hshort)
      rcases (hdelivers hshort).of_receive hstops hsize heffect with
        ⟨rfl, rfl⟩ | ⟨hne, hlength, rest', rfl, hrest⟩
      · rw [List.take_nil, List.append_nil] at hrequest
        exact ⟨rfl, stray, hrequest⟩
      · obtain ⟨c, data, rfl⟩ := List.exists_cons_of_ne_nil hne
        refine ⟨rfl, stray, rest', ?_, fun _ => hrest⟩
        rw [append_append_take (hlength.trans (min_le_right _ _)), hrequest]
    · rw [Nat.sub_eq_zero_of_le (by omega), List.take_zero, List.append_nil] at hrequest
      exact ⟨rfl, stray, hrequest⟩
  | routing fd' requestLine headers body =>
    obtain ⟨o, next, hroute, hreading, hcloses⟩ :=
      exists_route_eq_call sha1 fd' requestLine headers body
    rw [code, hroute]
    exact ⟨hcloses stream s, fun x s' _ hC => absurd hC (hreading x s)⟩
  | _ => exact hk.elim

/-! ## Getting there -/

/-- A handler that only reads. -/
abbrev Gets (sha1 : List Char → List Char) (p : Code (Option Point)) (s : List Outcome)
    (q : Code (Option Point)) : Prop :=
  ∃ t s', (peer sha1).Plays Reading p s t [] q s'

theorem gets_of_goto {k : Point} {q : Code (Option Point)} (h : Gets sha1 (code sha1 k) s q) :
    Gets sha1 (.ret (some k)) s q := by
  obtain ⟨t, s', hplays⟩ := h
  exact ⟨t, s', .goto hplays⟩

theorem gets_of_recv {next : List Char → Code (Option Point)} {q : Code (Option Point)}
    (hreceive : receive size s = some (x, s')) (h : Gets sha1 (next x) s' q) :
    Gets sha1 (.call (.recv fd size) next) s q := by
  obtain ⟨t, s'', hplays⟩ := h
  exact ⟨_, s'', .act hreceive trivial hplays⟩

theorem code_readBody {requestLine headers body : List Char} {length : ℕ}
    (hshort : body.length < length) : code sha1 (.readBody fd requestLine headers length body) =
      .call (.recv fd (min 4096 (length - body.length))) fun data => match data with
        | [] => .ret (some (.routing fd requestLine headers body))
        | data => .ret (some (.readBody fd requestLine headers length (body ++ data))) := by
  rw [code, if_pos hshort, perform_bind]
  congr 1
  funext data
  cases data with
  | nil => rfl
  | cons c data => rfl

theorem gets_readBody (hstops : Stops ending) (requestLine headers : List Char) (length : ℕ) :
    ∀ (rest body : List Char) (s : List Outcome), (body.length < length → Delivers rest ending s) →
      Gets sha1 (code sha1 (.readBody fd requestLine headers length body)) s
        (.ret (some (.routing fd requestLine headers
          (body ++ rest.take (length - body.length))))) := by
  intro rest
  induction hrest : rest.length using Nat.strong_induction_on generalizing rest with
  | _ n ih =>
    intro body s hdelivers
    by_cases hshort : body.length < length
    · have hsize : 0 < min 4096 (length - body.length) :=
        lt_min (by decide) (Nat.sub_pos_of_lt hshort)
      rw [code_readBody hshort]
      by_cases hnil : rest = []
      · subst hnil
        obtain ⟨s', hreceive⟩ := (hdelivers hshort).receive_nil hstops
            (min 4096 (length - body.length))
        refine gets_of_recv hreceive ?_
        rw [List.take_nil, List.append_nil]
        exact ⟨[], s', .refl⟩
      · obtain ⟨x, rest', s', hreceive, hne, hlength, rfl, hrest'⟩ :=
          (hdelivers hshort).exists_receive hnil hsize
        refine gets_of_recv hreceive ?_
        obtain ⟨c, data, rfl⟩ := List.exists_cons_of_ne_nil hne
        have hless : rest'.length < n := by
          rw [← hrest, List.length_append, List.length_cons]
          omega
        rw [← append_append_take (hlength.trans (min_le_right _ _))]
        exact gets_of_goto (ih _ hless rest' rfl _ s' fun _ => hrest')
    · have hcode : code sha1 (.readBody fd requestLine headers length body) =
          .ret (some (.routing fd requestLine headers body)) := by
        rw [code, if_neg hshort]
        rfl
      rw [hcode, Nat.sub_eq_zero_of_le (not_lt.mp hshort), List.take_zero, List.append_nil]
      exact ⟨[], s, .refl⟩

theorem gets_contentLength (stray headers : List Char) {next : ℤ → Code (Option Point)}
    {q : Code (Option Point)} (h : Gets sha1 (next (lengthWith stray headers)) s q) :
    Gets sha1 (contentLength headers >>= next) s q := by
  unfold contentLength
  unfold lengthWith at h
  match hlength : lengthText headers with
  | none => simpa only [hlength, pure_eq, ret_bind] using h
  | some [] =>
    simp only [hlength] at h
    obtain ⟨t, s', hplays⟩ := h
    exact ⟨⟨.overrun, stray⟩ :: t, s', .act rfl trivial hplays⟩
  | some (_ :: text) => simpa only [hlength, pure_eq, ret_bind] using h

theorem gets_received (stray : List Char) (hstops : Stops ending)
    (hheaders : headersOf buf = some headers)
    (hbuf : buf.length ≤ 4095) (hstream : stream = buf ++ rest)
    (hdelivers : Delivers rest ending s) :
    Gets sha1 (received fd buf) s (goal fd (requestOf stray stream)) := by
  rw [received, hheaders, requestOf_of_headersOf hheaders hbuf hstream stray]
  refine gets_contentLength stray headers ?_
  split_ifs with hpos
  · rw [← take_append_take]
    exact gets_of_goto (gets_readBody hstops _ headers _ rest _ s fun _ => hdelivers)
  · rw [Int.toNat_of_nonpos (not_lt.mp hpos), List.take_zero]
    exact ⟨[], s, .refl⟩

theorem code_readHeaders {buf : List Char} (hroom : buf.length < 4095) :
    code sha1 (.readHeaders fd buf) =
      .call (.recv fd (4095 - buf.length)) fun data => match data with
        | [] => closeSocket fd
        | data => received fd (buf ++ data) := by
  rw [code, if_pos hroom]
  rfl

theorem gets_readHeaders (stray : List Char) (hstops : Stops ending) :
    ∀ (rest buf : List Char) (s : List Outcome), headersOf buf = none → buf.length ≤ 4095 →
      stream = buf ++ rest → Delivers rest ending s →
      Gets sha1 (code sha1 (.readHeaders fd buf)) s (goal fd (requestOf stray stream)) := by
  intro rest
  induction hrest : rest.length using Nat.strong_induction_on generalizing rest with
  | _ n ih =>
    intro buf s hheaders hbuf hstream hdelivers
    by_cases hroom : buf.length < 4095
    · rw [code_readHeaders hroom]
      by_cases hnil : rest = []
      · subst hnil
        obtain ⟨s', hreceive⟩ := hdelivers.receive_nil hstops (4095 - buf.length)
        refine gets_of_recv hreceive ?_
        rw [requestOf_of_stuck hheaders hbuf hstream (.inr rfl)]
        exact ⟨[], s', .refl⟩
      · obtain ⟨x, rest', s', hreceive, hne, hlength, rfl, hrest'⟩ :=
          hdelivers.exists_receive hnil (Nat.sub_pos_of_lt hroom)
        refine gets_of_recv hreceive ?_
        obtain ⟨c, data, rfl⟩ := List.exists_cons_of_ne_nil hne
        have hless : rest'.length < n := by
          rw [← hrest, List.length_append, List.length_cons]
          omega
        have hsplit : stream = buf ++ c :: data ++ rest' := by rw [hstream, List.append_assoc]
        have hfits : (buf ++ c :: data).length ≤ 4095 := by
          rw [List.length_append]
          omega
        cases hfound : headersOf (buf ++ c :: data) with
        | some headers => exact gets_received stray hstops hfound hfits hsplit hrest'
        | none =>
          have hreceived : received fd (buf ++ c :: data) =
              .ret (some (.readHeaders fd (buf ++ c :: data))) := by
            rw [received, hfound]
            rfl
          show Gets sha1 (received fd (buf ++ c :: data)) _ _
          rw [hreceived]
          exact gets_of_goto (ih _ hless rest' rfl _ s' hfound hfits hsplit hrest')
    · have hcode : code sha1 (.readHeaders fd buf) = closeSocket fd := by rw [code, if_neg hroom]
      rw [hcode, requestOf_of_stuck hheaders hbuf hstream (.inl (by omega))]
      exact ⟨[], s, .refl⟩

/-- A handler that reads gets to the request of its stream. -/
theorem gets_goal (sha1 : List Char → List Char) (fd : Descriptor) (stray : List Char)
    (hstops : Stops ending) (hdelivers : Delivers stream ending s) :
    Gets sha1 (code sha1 (.handleConnection fd)) s (goal fd (requestOf stray stream)) := by
  obtain ⟨t, s', hplays⟩ :
      Gets sha1 (code sha1 (.readHeaders fd [])) s (goal fd (requestOf stray stream)) :=
    gets_readHeaders stray hstops stream [] s (by decide +kernel) (Nat.zero_le _) rfl hdelivers
  exact ⟨⟨.setTimeout fd, ()⟩ :: t, s', .act rfl trivial (.goto hplays)⟩

/-- And to no other. -/
theorem requestOf_of_plays (hstops : Stops ending) (hdelivers : Delivers stream ending s)
    {t : List SocketEvent} {new : List Point} {request : Option Request}
    (hplays : (peer sha1).Plays Reading (code sha1 (.handleConnection fd)) s t new
      (goal fd request) s') : ∃ stray, request = requestOf stray stream := by
  have hasserts := hplays.asserts (K := OnTheWay fd stream ending)
    (fun k s hk => asserts_reading k s hstops hk) (asserts_reading _ s hstops ⟨rfl, hdelivers⟩)
  cases request with
  | none => exact ⟨[], (hasserts.1 []).symm⟩
  | some r =>
    obtain ⟨-, stray, hrequest⟩ := hasserts
    exact ⟨stray, hrequest.symm⟩

/-! ## Pieces make no difference -/

/-- However the stream is cut, the handler gets to `request`, and to nothing else. -/
structure Reads (sha1 : List Char → List Char) (fd : Descriptor) (stream : List Char)
    (ending : List Outcome) (request : Option Request) : Prop where
  reached : ∀ s, Delivers stream ending s →
    Gets sha1 (code sha1 (.handleConnection fd)) s (goal fd request)
  unique : ∀ s t new other s', Delivers stream ending s →
    (peer sha1).Plays Reading (code sha1 (.handleConnection fd)) s t new (goal fd other) s' →
    other = request

/-- The length is read from within the headers, or nothing comes after them. -/
def Measured (stream : List Char) : Prop :=
  ∀ headers, headersOf (stream.take 4095) = some headers → lengthText headers = some [] →
    stream.drop (headers.length + 4) = []

theorem requestOf_congr (h : Measured stream) (stray stray' : List Char) :
    requestOf stray stream = requestOf stray' stream := by
  unfold requestOf
  cases hheaders : headersOf (stream.take 4095) with
  | none => rfl
  | some headers =>
    match hlength : lengthText headers with
    | none => simp [lengthWith, hlength]
    | some [] => simp [h headers hheaders hlength]
    | some (_ :: text) => simp [lengthWith, hlength]

/-- What is behind the headers in memory makes a body empty or not. -/
theorem measured_of_congr (h : requestOf [] stream = requestOf ['1'] stream) : Measured stream := by
  intro headers hheaders hlength
  have hzero : atoi [] = 0 := by decide
  have hone : atoi ['1'] = 1 := by decide +kernel
  simp only [requestOf, hheaders, lengthWith, hlength, hzero, hone, Option.map_some,
    Option.some.injEq, Request.mk.injEq, true_and] at h
  cases hrest : stream.drop (headers.length + 4) with
  | nil => rfl
  | cons c rest =>
    rw [hrest] at h
    cases h

theorem delivers_whole (stream : List Char) (ending : List Outcome) :
    ∃ s, Delivers stream ending s := by
  cases stream with
  | nil => exact ⟨ending, [], nofun, rfl, rfl⟩
  | cons c stream => exact ⟨.data (c :: stream) :: ending, [c :: stream], by simp, by simp, rfl⟩

theorem reads_of_measured (sha1 : List Char → List Char) (fd : Descriptor) (hstops : Stops ending)
    (h : Measured stream) : Reads sha1 fd stream ending (requestOf [] stream) := by
  refine ⟨fun s hdelivers => gets_goal sha1 fd [] hstops hdelivers, ?_⟩
  intro s t new other s' hdelivers hplays
  obtain ⟨stray, rfl⟩ := requestOf_of_plays hstops hdelivers hplays
  exact requestOf_congr h stray []

theorem measured_of_reads {request : Option Request} (hstops : Stops ending)
    (h : Reads sha1 fd stream ending request) : Measured stream := by
  obtain ⟨s, hdelivers⟩ := delivers_whole stream ending
  have heq : ∀ stray, requestOf stray stream = request := by
    intro stray
    obtain ⟨t, s', hplays⟩ := gets_goal sha1 fd stray hstops hdelivers
    exact h.unique s t [] _ s' hdelivers hplays
  exact measured_of_congr ((heq []).trans (heq ['1']).symm)

/-- A stream that the client ends is read in one way exactly if its length is read from within
the headers or nothing comes after them; it is then read as the whole is. -/
theorem reads_iff (sha1 : List Char → List Char) (fd : Descriptor) (stream : List Char) :
    ((∃ request, Reads sha1 fd stream [.closed] request) ↔ Measured stream) ∧
      (Measured stream → Reads sha1 fd stream [.closed] (requestOf [] stream)) := by
  refine ⟨⟨?_, ?_⟩, fun h => reads_of_measured sha1 fd stops_closed h⟩
  · rintro ⟨request, h⟩
    exact measured_of_reads stops_closed h
  · intro h
    exact ⟨_, reads_of_measured sha1 fd stops_closed h⟩

/-- A request whose last header has no length, and a byte behind it. -/
theorem not_reads_unmeasured : ¬∃ request, Reads id ⟨3, 0⟩
    ('P' :: "OST /announce HTTP/1.1\r\nContent-Length:\r\n\r\n1".toList) [.closed] request := by
  rintro ⟨request, hreads⟩
  have hheaders : headersOf
      (('P' :: "OST /announce HTTP/1.1\r\nContent-Length:\r\n\r\n1".toList).take 4095) =
      some ('P' :: "OST /announce HTTP/1.1\r\nContent-Length:".toList) := by decide +kernel
  have hrest := measured_of_reads stops_closed hreads _ hheaders (by decide +kernel)
  revert hrest
  decide +kernel

end Freehold.Discovery.Descriptors
