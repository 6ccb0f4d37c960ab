import Freehold.Discovery.Closing
import Freehold.Foundation.HttpGrammar

/-!
# What a connection gets (`discovery.cpp`)

All that the threads of the server write to one descriptor, in the order in which they write it.
A handler writes one response, or the handshake of a WebSocket and frames; the frames that other
threads write to it come while it is in `ws_clients_`. A frame has a document that the thread has
read from the registry.

## Main results

* `follows_speech` — the code of every point keeps to this.
* `Told.step`, `Told.start` — what a thread has written to what it holds, step by step.
* `output_of_run` — what a connection gets is whole messages, of one kind, and the frames are
  documents that have been read from the registry.
-/

namespace Freehold.Discovery.Descriptors

open Interaction Interaction.Program
open Http (Field Response)

/-! ## Messages -/

/-- What an event writes to `fd`. -/
def writtenBy (fd : Descriptor) : SocketEvent → List Char
  | ⟨.send fd' text, _⟩ => if fd' = fd then text else []
  | ⟨.sendAll frame, clients⟩ => clients.flatMap fun client => if client = fd then frame else []
  | _ => []

def writtenTo (fd : Descriptor) (history : List SocketEvent) : List Char :=
  history.flatMap (writtenBy fd)

/-- The statuses of `send_http`. -/
def Answered (status : ℕ) : Prop := status = 200 ∨ status = 400 ∨ status = 404

/-- The topology that is read from the registry. -/
def documentOf : SocketEvent → Option (List Char)
  | ⟨.topologyJson, json⟩ => some json
  | _ => none

def documentsOf (history : List SocketEvent) : List (List Char) := history.filterMap documentOf

/-- Nothing, a response, or a handshake and frames with some of the documents. -/
inductive Output (sha1 : List Char → List Char) (documents : List (List Char)) :
    List Char → Prop where
  | nothing : Output sha1 documents []
  | response (r : Response) (h : Answered r.status) : Output sha1 documents r.text
  | frames (key : List Char) (texts : List (List Char)) (h : texts ⊆ documents) :
      Output sha1 documents (switchingProtocols sha1 key ++ texts.flatMap wsFrame)

/-- The fields of a response before its length. -/
def contentFields : List Field :=
  [.spaced "Content-Type".toList "application/json".toList (by decide +kernel) (by decide +kernel),
    .spaced "Access-Control-Allow-Origin".toList ['*'] (by decide +kernel) (by decide +kernel),
    .spaced "Access-Control-Allow-Methods".toList "POST, GET, OPTIONS".toList (by decide +kernel)
      (by decide +kernel),
    .spaced "Access-Control-Allow-Headers".toList "Content-Type".toList (by decide +kernel)
      (by decide +kernel)]

def connectionField : Field :=
  .spaced "Connection".toList "close".toList (by decide +kernel) (by decide +kernel)

instance (f : Field) (name : List Char) : Decidable (f.Named name) :=
  inferInstanceAs (Decidable (_ = _))

theorem not_named_contentFields :
    ∀ f ∈ connectionField :: contentFields, ¬f.Named "content-length".toList := by
  decide +kernel

/-- `send_http` sends a response with the status and the body that it is given. -/
def response (status : ℕ) (body : List Char) (h : Answered status) : Response where
  status
  reason := statusText status
  fields := contentFields ++ [Http.lengthField body.length, connectionField]
  body
  status_range := by
    unfold Answered at h
    omega
  reason_chars := by
    unfold statusText
    rcases h with rfl | rfl | rfl
    · exact List.all_eq_true.mp (by decide +kernel)
    · exact List.all_eq_true.mp (by decide +kernel)
    · exact List.all_eq_true.mp (by decide +kernel)
  length_given := ⟨_, by simp, Http.named_lengthField body.length⟩
  length_eq f hf hnamed := by
    rcases List.mem_append.mp hf with hf | hf
    · exact absurd hnamed (not_named_contentFields f (List.mem_cons_of_mem _ hf))
    · rcases List.mem_pair.mp hf with rfl | rfl
      · exact Http.lengthField_value body.length
      · exact absurd hnamed (not_named_contentFields _ List.mem_cons_self)

/-- The lines of a response between its status and its length. -/
def contentLines : List Char :=
  crlf ++ "Content-Type: application/json".toList ++ crlf ++
  "Access-Control-Allow-Origin: *".toList ++ crlf ++
  "Access-Control-Allow-Methods: POST, GET, OPTIONS".toList ++ crlf ++
  "Access-Control-Allow-Headers: Content-Type".toList ++ crlf ++ "Content-Length: ".toList

theorem fieldLines_contentFields (length : ℕ) :
    Http.Request.fieldLines (contentFields ++ [Http.lengthField length, connectionField]) =
      contentLines ++ Decimal.ofInt length ++ (crlf ++ "Connection: close".toList) := by
  have hlines : Http.Request.fieldLines contentFields ++ (crlf ++ "Content-Length".toList ++
      [':', ' ']) = contentLines := by
    decide +kernel
  have hconnection : connectionField.text = "Connection: close".toList := by
    decide +kernel
  have hlength : (Http.lengthField length).text =
      "Content-Length".toList ++ [':', ' '] ++ Decimal.ofInt length := by
    rw [Http.lengthField, Field.text_spaced, List.append_assoc]
    rfl
  rw [← hlines, Http.Request.fieldLines, List.flatMap_append, List.flatMap_cons,
    List.flatMap_cons, List.flatMap_nil, hconnection, hlength]
  generalize "Content-Length".toList = name
  generalize "Connection: close".toList = connection
  simp [Http.Request.fieldLines, Http.crlf, crlf]

theorem text_response {status : ℕ} {body : List Char} (h : Answered status) :
    (response status body h).text = httpResponse status body := by
  have hversion : "HTTP/1.1 ".toList = Http.Request.version ++ [' '] := by decide +kernel
  have hresponse : httpResponse status body = "HTTP/1.1 ".toList ++ Decimal.ofInt status ++ [' '] ++
      statusText status ++ contentLines ++ Decimal.ofInt body.length ++
      (crlf ++ "Connection: close".toList) ++ (crlf ++ crlf ++ body) := by
    unfold httpResponse contentLines
    simp only [List.append_assoc]
  rw [hresponse, Response.text]
  show _ ++ Http.Request.fieldLines (contentFields ++ [Http.lengthField body.length, _]) ++ _ = _
  rw [fieldLines_contentFields, hversion]
  generalize contentLines = content
  generalize "Connection: close".toList = connection
  simp [Response.line, response, Http.crlf, crlf]

/-! ## What a handler has said -/

inductive Stage where
  | silent
  /-- The registry has been asked, and answers with this status. -/
  | resolved (status : ℕ)
  | answered
  | upgraded

/-- What a handler has said so far, and the document that its thread has just read. -/
structure Saying where
  stage : Stage
  document : Option (List Char)

/-- Nothing has been read. -/
abbrev Stage.unread (st : Stage) : Saying := ⟨st, none⟩

def Stage.Wrote (sha1 : List Char → List Char) (documents : List (List Char)) :
    Stage → List Char → Prop
  | .silent, out => out = []
  | .resolved status, out => out = [] ∧ Answered status
  | .answered, out => ∃ r : Response, Answered r.status ∧ out = r.text
  | .upgraded, out => ∃ key, ∃ texts ⊆ documents,
    out = switchingProtocols sha1 key ++ texts.flatMap wsFrame

/-- The operations that read no document, write nothing and change no stage. -/
def Call.Quiet : Call → Prop
  | .accept | .send _ _ | .sendAll _ | .resolve _ | .addClient _ | .topologyJson => False
  | _ => True

inductive Utters (sha1 : List Char → List Char) : Saying → Call → Prop where
  | quiet {u o} (ho : o.Quiet) : Utters sha1 u o
  | accept : Utters sha1 (Stage.silent.unread) .accept
  | read {u} : Utters sha1 u .topologyJson
  | resolve : ∀ {query}, Utters sha1 (Stage.silent.unread) (.resolve query)
  | broadcast {st text} : Utters sha1 ⟨st, some text⟩ (.sendAll (wsFrame text))
  | answer {fd document status body} (h : Answered status) :
      Utters sha1 ⟨.silent, document⟩ (.send fd (httpResponse status body))
  | found {fd status body} : Utters sha1 (Stage.resolved status).unread
      (.send fd (httpResponse status body))
  | handshake {fd key} : Utters sha1 (Stage.silent.unread) (.send fd (switchingProtocols sha1 key))
  | frame {fd text} : Utters sha1 ⟨.upgraded, some text⟩ (.send fd (wsFrame text))
  | addClient {fd} : Utters sha1 (Stage.upgraded.unread) (.addClient fd)

/-- What the response of `handle_ws_upgrade` begins with. -/
def handshakeLine : List Char := "HTTP/1.1 101 Switching Protocols".toList

def Stage.after : Stage → (o : Call) → Sockets.Answer o → Stage
  | .silent, .resolve _, answer => .resolved answer.1
  | .upgraded, .send _ _, _ => .upgraded
  | _, .send _ text, _ => if handshakeLine <+: text then .upgraded else .answered
  | st, _, _ => st

/-- A document is sent once. -/
def documentAfter : Option (List Char) → (o : Call) → Sockets.Answer o → Option (List Char)
  | _, .topologyJson, json => some json
  | _, .send _ _, _ => none
  | _, .sendAll _, _ => none
  | document, _, _ => document

def speech (sha1 : List Char → List Char) : Discipline Point Sockets Saying where
  allows := Utters sha1
  after u o x := ⟨u.stage.after o x, documentAfter u.document o x⟩
  given
    | .readFrames _ | .readPayload _ _ => Stage.upgraded.unread
    | _ => Stage.silent.unread
  final _ := True

variable {sha1 : List Char → List Char} {st : Stage} {u : Saying} {documents : List (List Char)}

theorem after_of_quiet {o : Call} (ho : o.Quiet) (x : Sockets.Answer o) :
    (speech sha1).after u o x = u := by
  obtain ⟨st, document⟩ := u
  cases o with
  | accept | send | sendAll | resolve | addClient | topologyJson => exact ho.elim
  | _ => cases st <;> rfl

theorem after_topologyJson (json : List Char) :
    (speech sha1).after u .topologyJson json = ⟨u.stage, some json⟩ := by
  obtain ⟨st, document⟩ := u
  cases st <;> rfl

theorem after_sendAll (frame : List Char) (clients : List Descriptor) :
    (speech sha1).after u (.sendAll frame) clients = u.stage.unread := by
  obtain ⟨st, document⟩ := u
  cases st <;> rfl

theorem startsWith_handshakeLine (key : List Char) :
    handshakeLine <+: switchingProtocols sha1 key := by
  unfold switchingProtocols handshakeLine
  simp only [List.append_assoc]
  exact List.prefix_append _ _

/-- No response has the status line of the handshake. -/
theorem not_startsWith_handshakeLine (status : ℕ) (body : List Char) :
    ¬handshakeLine <+: httpResponse status body := by
  have hline : handshakeLine = "HTTP/1.1 ".toList ++ (['1', '0', '1'] ++ ' ' ::
      'S' :: "witching Protocols".toList) := by
    decide +kernel
  have hdigits : ∀ d ∈ Decimal.ofInt status, decide (d ≠ ' ') = true := by
    intro d hd
    have hspace : ' ' ∉ Decimal.ofInt status := Decimal.notMem_ofInt (by decide) (by decide)
    exact decide_eq_true (ne_of_mem_of_not_mem hd hspace)
  obtain ⟨c, tail, htext, hc⟩ : ∃ c tail, statusText status = c :: tail ∧ c ≠ 'S' := by
    unfold statusText
    split_ifs
    · exact ⟨'B', "ad Request".toList, by decide +kernel, by decide⟩
    · exact ⟨'N', "ot Found".toList, by decide +kernel, by decide⟩
    · exact ⟨'O', ['K'], by decide +kernel, by decide⟩
  rintro ⟨rest, hrest⟩
  rw [hline] at hrest
  unfold httpResponse at hrest
  simp only [List.append_assoc, htext] at hrest
  -- the two texts agree up to the first space, and behind it
  have hbehind := congrArg (fun l : List Char => (l.dropWhile fun c => c ≠ ' ').drop 1)
    (List.append_cancel_left hrest)
  rw [List.dropWhile_append_of_pos hdigits] at hbehind
  exact hc (List.cons.inj hbehind).1.symm

theorem after_handshake {fd : Descriptor} {key : List Char} (x : Unit) :
    (speech sha1).after Stage.silent.unread (.send fd (switchingProtocols sha1 key)) x =
      Stage.upgraded.unread := by
  have hfirst : handshakeLine <+: switchingProtocols sha1 key := startsWith_handshakeLine key
  generalize switchingProtocols sha1 key = text at hfirst ⊢
  show Stage.unread (if handshakeLine <+: text then Stage.upgraded else .answered) = _
  rw [if_pos hfirst]

theorem after_response {fd : Descriptor} {status : ℕ} {body : List Char}
    (hst : u.stage ≠ .upgraded) (x : Unit) :
    (speech sha1).after u (.send fd (httpResponse status body)) x = Stage.answered.unread := by
  have hnot := not_startsWith_handshakeLine status body
  generalize httpResponse status body = text at hnot ⊢
  obtain ⟨st, document⟩ := u
  cases st with
  | upgraded => exact absurd rfl hst
  | _ => exact congrArg Stage.unread (if_neg hnot)

/-! ## The code keeps to the stages -/

section Code

variable {α : Type} {Q : α → Saying → Prop} {fd : Descriptor}

theorem speaks_quiet {o : Call} {next : Sockets.Answer o → Code α} (ho : o.Quiet)
    (hnext : ∀ x, (speech sha1).Follows Q u (next x)) :
    (speech sha1).Follows Q u (.call o next) := by
  refine .call (.quiet ho) fun x => ?_
  rw [after_of_quiet ho]
  exact hnext x

theorem speaks_quiet_bind {o : Call} {f : Sockets.Answer o → Code α} (ho : o.Quiet)
    (hnext : ∀ x, (speech sha1).Follows Q u (f x)) :
    (speech sha1).Follows Q u (perform o >>= f) :=
  speaks_quiet ho hnext

/-- A document is read. -/
theorem speaks_read {next : List Char → Code α}
    (hnext : ∀ json, (speech sha1).Follows Q ⟨u.stage, some json⟩ (next json)) :
    (speech sha1).Follows Q u (.call .topologyJson next) := by
  refine .call .read fun json => ?_
  rw [after_topologyJson]
  exact hnext json

/-- The stage stays as it is, and a document that is read is sent. -/
abbrev Stays (sha1 : List Char → List Char) (st : Stage) (p : Code α) : Prop :=
  (speech sha1).Follows (fun _ u => u = st.unread) st.unread p

theorem Stays.bind {β : Type} {Q : β → Saying → Prop} {p : Code α} {f : α → Code β}
    (hp : Stays sha1 st p) (hf : ∀ a, (speech sha1).Follows Q st.unread (f a)) :
    (speech sha1).Follows Q st.unread (p >>= f) := by
  refine Discipline.Follows.bind hp ?_
  rintro a _ rfl
  exact hf a

theorem stays_broadcastTopology : Stays sha1 st broadcastTopology := by
  refine speaks_read fun json => .call .broadcast fun clients => .ret ?_
  rw [after_sendAll]

theorem stays_registerNode (p q : ℤ) (hostname status : List Char) :
    Stays sha1 st (registerNode p q hostname status) := by
  refine speaks_quiet trivial fun isNew => ?_
  cases isNew with
  | false => exact .ret rfl
  | true => exact stays_broadcastTopology

theorem stays_pruneStale : Stays sha1 st pruneStale := by
  refine speaks_quiet trivial fun pruned => ?_
  cases pruned with
  | false => exact .ret rfl
  | true => exact stays_broadcastTopology

theorem speaks_sendHttp {document : Option (List Char)} {status : ℕ} (h : Answered status)
    (body : List Char) :
    (speech sha1).Follows (fun _ u => u = Stage.answered.unread) ⟨.silent, document⟩
      (sendHttp fd status body) := by
  have hsilent : Stage.silent ≠ .upgraded := nofun
  exact .call (.answer h) fun x => .ret (after_response hsilent x)

theorem speaks_closeSocket : (speech sha1).Follows (speech sha1).Continues u (closeSocket fd) :=
  speaks_quiet trivial fun _ => .ret trivial

theorem speaks_disconnect : (speech sha1).Follows (speech sha1).Continues u (disconnect fd) :=
  speaks_quiet trivial fun _ => speaks_closeSocket

theorem speaks_terminate : (speech sha1).Follows (speech sha1).Continues u terminate :=
  speaks_quiet trivial fun x => nomatch x

theorem speaks_handleAnnounce (body : List Char) :
    (speech sha1).Follows (fun _ _ => True) Stage.silent.unread (handleAnnounce fd body) := by
  unfold handleAnnounce
  cases announcement body with
  | none => exact (speaks_sendHttp (by simp [Answered]) _).imp fun _ _ _ => trivial
  | some a =>
    refine (stays_registerNode _ _ _ _).bind fun _ => ?_
    refine (speaks_sendHttp (by simp [Answered]) _).bind ?_
    rintro _ _ rfl
    exact stays_broadcastTopology.imp fun _ _ _ => trivial

theorem speaks_handleResolve (query : List Char) :
    (speech sha1).Follows (fun _ _ => True) Stage.silent.unread (handleResolve fd query) :=
  .call .resolve fun _ => .call .found fun _ => .ret trivial

/-- A response, and the end of the connection. -/
theorem speaks_answer {p : Code Unit}
    (hp : (speech sha1).Follows (fun _ _ => True) Stage.silent.unread p) :
    (speech sha1).Follows (speech sha1).Continues Stage.silent.unread
      (p >>= fun _ => closeSocket fd) :=
  hp.bind fun _ _ _ => speaks_closeSocket

theorem speaks_handleWsUpgrade (key : List Char) :
    (speech sha1).Follows (speech sha1).Continues Stage.silent.unread
      (handleWsUpgrade sha1 fd key) := by
  refine .call .handshake fun x => ?_
  rw [after_handshake]
  exact .call .addClient fun _ => speaks_read fun json => .call .frame fun _ => .ret rfl

theorem speaks_route (requestLine headers body : List Char) :
    (speech sha1).Follows (speech sha1).Continues Stage.silent.unread
      (route sha1 fd requestLine headers body) := by
  unfold route
  split_ifs
  · exact speaks_answer (speaks_handleAnnounce body)
  · refine speaks_answer (speaks_quiet_bind trivial fun count => ?_)
    exact (speaks_sendHttp (by simp [Answered]) _).imp fun _ _ _ => trivial
  · refine speaks_answer (speaks_read fun json => ?_)
    exact (speaks_sendHttp (by simp [Answered]) _).imp fun _ _ _ => trivial
  · exact speaks_answer (speaks_handleResolve _)
  · cases wsKey headers with
    | none => exact speaks_terminate
    | some key => exact speaks_handleWsUpgrade key
  · exact speaks_answer ((speaks_sendHttp (by simp [Answered]) _).imp fun _ _ _ => trivial)

theorem stays_contentLength (headers : List Char) : Stays sha1 st (contentLength headers) := by
  unfold contentLength
  match lengthText headers with
  | none => exact .ret rfl
  | some [] => exact speaks_quiet trivial fun _ => .ret rfl
  | some (_ :: _) => exact .ret rfl

theorem speaks_received (buf : List Char) :
    (speech sha1).Follows (speech sha1).Continues Stage.silent.unread (received fd buf) := by
  unfold received
  cases headersOf buf with
  | none => exact .ret rfl
  | some headers =>
    refine (stays_contentLength headers).bind fun length => ?_
    split_ifs
    · exact .ret rfl
    · exact .ret rfl

theorem stays_readLength (length : ℕ) : Stays sha1 st (readLength fd length) := by
  unfold readLength
  split_ifs
  · exact speaks_quiet trivial fun _ => .ret rfl
  · exact speaks_quiet trivial fun _ => .ret rfl
  · exact .ret rfl

theorem stays_readMask (masked : Bool) : Stays sha1 st (readMask fd masked) := by
  cases masked with
  | false => exact .ret rfl
  | true => exact speaks_quiet trivial fun _ => .ret rfl

theorem stays_secondByte (rest : List Char) : Stays sha1 st (secondByte rest) := by
  cases rest with
  | nil => exact speaks_quiet trivial fun _ => .ret rfl
  | cons second rest => exact .ret rfl

theorem speaks_readPrelude (second : Char) :
    (speech sha1).Follows (speech sha1).Continues Stage.upgraded.unread
      (readPrelude fd second) := by
  refine (stays_readLength _).bind ?_
  rintro (_ | length)
  · exact speaks_disconnect
  · refine (stays_readMask _).bind ?_
    rintro (_ | _)
    · exact speaks_disconnect
    · refine speaks_quiet trivial fun allocated => ?_
      cases allocated with
      | false => exact speaks_terminate
      | true => exact .ret rfl

theorem speaks_readFrame :
    (speech sha1).Follows (speech sha1).Continues Stage.upgraded.unread (readFrame fd) := by
  refine speaks_quiet trivial fun head => ?_
  match head with
  | [] => exact speaks_disconnect
  | first :: rest =>
    show (speech sha1).Follows _ _ (if first.toNat % 16 = 8 then disconnect fd else _)
    split_ifs
    · exact speaks_disconnect
    · exact (stays_secondByte rest).bind fun second => speaks_readPrelude second

theorem speaks_command (c : Command) :
    (speech sha1).Follows (speech sha1).Continues Stage.silent.unread (command c) := by
  cases c with
  | start =>
    refine speaks_quiet trivial fun running => ?_
    cases running with
    | true => exact .ret trivial
    | false =>
      exact speaks_quiet trivial fun _ => speaks_quiet trivial fun _ => speaks_quiet trivial
        fun _ => .ret trivial
  | stop =>
    refine speaks_quiet trivial fun running => ?_
    cases running with
    | false => exact .ret trivial
    | true =>
      exact speaks_quiet trivial fun _ => speaks_quiet trivial fun _ => speaks_quiet trivial
        fun _ => .ret trivial
  | registerNode p q hostname status =>
    exact (stays_registerNode p q hostname status).bind fun _ => .ret trivial
  | updateRelayStatus p q registered fqdn =>
    exact speaks_quiet trivial fun _ => stays_broadcastTopology.bind fun _ => .ret trivial

theorem follows_speech (sha1 : List Char → List Char) (k : Point) :
    (speech sha1).Follows (speech sha1).Continues ((speech sha1).given k) (code sha1 k) := by
  cases k with
  | command c => exact speaks_command c
  | acceptLoop =>
    refine speaks_quiet trivial fun opened => ?_
    cases opened with
    | false => exact .ret trivial
    | true =>
      refine speaks_quiet trivial fun bound => ?_
      cases bound with
      | true => exact .ret rfl
      | false => exact speaks_quiet trivial fun _ => .ret trivial
  | acceptNext =>
    refine speaks_quiet trivial fun running => ?_
    cases running with
    | false => exact .ret trivial
    | true =>
      refine .call .accept fun accepted => ?_
      cases accepted with
      | none => exact .ret rfl
      | some fd => exact speaks_quiet trivial fun _ => .ret rfl
  | pruneLoop =>
    refine speaks_quiet trivial fun running => ?_
    cases running with
    | false => exact .ret trivial
    | true => exact stays_pruneStale.bind fun _ => .ret rfl
  | handleConnection fd => exact speaks_quiet trivial fun _ => .ret rfl
  | readHeaders fd buf =>
    rw [code]
    split_ifs
    · refine speaks_quiet trivial fun data => ?_
      cases data with
      | nil => exact speaks_closeSocket
      | cons c data => exact speaks_received (buf ++ c :: data)
    · exact speaks_closeSocket
  | readBody fd requestLine headers contentLength body =>
    rw [code]
    split_ifs
    · refine speaks_quiet trivial fun data => ?_
      cases data <;> exact .ret rfl
    · exact .ret rfl
  | routing fd requestLine headers body => exact speaks_route requestLine headers body
  | readFrames fd =>
    refine speaks_quiet trivial fun running => ?_
    cases running with
    | true => exact speaks_readFrame
    | false => exact speaks_disconnect
  | readPayload fd remaining =>
    rw [code]
    split_ifs
    · refine speaks_quiet trivial fun data => ?_
      cases data <;> exact .ret rfl
    · exact .ret rfl

end Code

/-! ## What has been written -/

theorem writtenTo_snoc (fd : Descriptor) (history : List SocketEvent) (e : SocketEvent) :
    writtenTo fd (history ++ [e]) = writtenTo fd history ++ writtenBy fd e := by
  simp [writtenTo]

theorem writtenTo_of_silent {fd : Descriptor} {e : SocketEvent} (h : writtenBy fd e = [])
    (history : List SocketEvent) : writtenTo fd (history ++ [e]) = writtenTo fd history := by
  rw [writtenTo_snoc, h, List.append_nil]

theorem writtenBy_of_quiet {o : Call} (ho : o.Quiet) (fd : Descriptor) (x : Sockets.Answer o) :
    writtenBy fd ⟨o, x⟩ = [] := by
  cases o with
  | send | sendAll => exact ho.elim
  | _ => rfl

/-- A broadcast writes whole frames. -/
theorem writtenBy_sendAll (fd : Descriptor) (text : List Char) (clients : List Descriptor) :
    ∃ texts ⊆ [text], writtenBy fd ⟨.sendAll (wsFrame text), clients⟩ = texts.flatMap wsFrame := by
  show ∃ texts ⊆ [text], (clients.flatMap fun client =>
    if client = fd then wsFrame text else []) = texts.flatMap wsFrame
  induction clients with
  | nil => exact ⟨[], List.nil_subset _, rfl⟩
  | cons client clients ih =>
    obtain ⟨texts, hsubset, htexts⟩ := ih
    by_cases hclient : client = fd
    · refine ⟨text :: texts, List.cons_subset.mpr ⟨List.mem_singleton_self text, hsubset⟩, ?_⟩
      rw [List.flatMap_cons, List.flatMap_cons, if_pos hclient, htexts]
    · refine ⟨texts, hsubset, ?_⟩
      rw [List.flatMap_cons, if_neg hclient, htexts, List.nil_append]

theorem writtenBy_sendAll_of_notMem {fd : Descriptor} {frame : List Char}
    {clients : List Descriptor} (h : fd ∉ clients) : writtenBy fd ⟨.sendAll frame, clients⟩ = [] :=
  List.flatMap_eq_nil_iff.mpr fun _ hclient => if_neg (ne_of_mem_of_not_mem hclient h)

theorem documentsOf_subset_snoc (history : List SocketEvent) (e : SocketEvent) :
    documentsOf history ⊆ documentsOf (history ++ [e]) := by
  rw [documentsOf, documentsOf, List.filterMap_append]
  exact List.subset_append_left _ _

theorem mem_documentsOf_snoc (history : List SocketEvent) (json : List Char) :
    json ∈ documentsOf (history ++ [⟨.topologyJson, json⟩]) := by
  rw [documentsOf, List.filterMap_append]
  exact List.mem_append_right _ (List.mem_singleton_self json)

theorem Output.mono {out : List Char} (h : Output sha1 documents out)
    {documents' : List (List Char)} (hsubset : documents ⊆ documents') :
    Output sha1 documents' out := by
  cases h with
  | nothing => exact .nothing
  | response r hr => exact .response r hr
  | frames key texts htexts => exact .frames key texts (List.Subset.trans htexts hsubset)

theorem Stage.Wrote.mono {out : List Char} (h : st.Wrote sha1 documents out)
    {documents' : List (List Char)} (hsubset : documents ⊆ documents') :
    st.Wrote sha1 documents' out := by
  cases st with
  | upgraded =>
    obtain ⟨key, texts, htexts, hout⟩ := h
    exact ⟨key, texts, List.Subset.trans htexts hsubset, hout⟩
  | _ => exact h

theorem Stage.Wrote.output {out : List Char} (h : st.Wrote sha1 documents out) :
    Output sha1 documents out := by
  cases st with
  | silent =>
    obtain rfl : out = [] := h
    exact .nothing
  | resolved status =>
    obtain ⟨rfl, -⟩ := h
    exact .nothing
  | answered =>
    obtain ⟨r, hr, rfl⟩ := h
    exact .response r hr
  | upgraded =>
    obtain ⟨key, texts, htexts, rfl⟩ := h
    exact .frames key texts htexts

theorem Stage.Wrote.frames {out : List Char} (h : Stage.upgraded.Wrote sha1 documents out)
    {texts : List (List Char)} (htexts : texts ⊆ documents) :
    Stage.upgraded.Wrote sha1 documents (out ++ texts.flatMap wsFrame) := by
  obtain ⟨key, before, hbefore, rfl⟩ := h
  refine ⟨key, before ++ texts, List.append_subset.mpr ⟨hbefore, htexts⟩, ?_⟩
  rw [List.flatMap_append, List.append_assoc]

/-- A handler writes as its stage permits. -/
theorem Stage.Wrote.send {out text : List Char} {fd : Descriptor}
    (h : u.stage.Wrote sha1 documents out) (hread : ∀ json ∈ u.document, json ∈ documents)
    (hpermits : Utters sha1 u (.send fd text)) (x : Unit) :
    ((speech sha1).after u (.send fd text) x).stage.Wrote sha1 documents (out ++ text) := by
  have hsilent : Stage.silent ≠ .upgraded := nofun
  cases hpermits with
  | quiet ho => exact ho.elim
  | @answer _ _ status body hstatus =>
    obtain rfl : out = [] := h
    rw [after_response hsilent, List.nil_append]
    exact ⟨response status body hstatus, hstatus, (text_response hstatus).symm⟩
  | @found _ status body =>
    have hstatus : Answered status := h.2
    have hresolved : Stage.resolved status ≠ .upgraded := nofun
    rw [after_response hresolved, show out = [] from h.1, List.nil_append]
    exact ⟨response status body hstatus, hstatus, (text_response hstatus).symm⟩
  | @handshake _ key =>
    obtain rfl : out = [] := h
    rw [after_handshake]
    refine ⟨key, [], List.nil_subset _, ?_⟩
    rw [List.flatMap_nil, List.append_nil, List.nil_append]
  | @frame _ text =>
    have hone := Stage.Wrote.frames h (List.forall_mem_singleton.mpr (hread text rfl))
    rwa [List.flatMap_singleton] at hone

/-! ## The invariant -/

/-- What each thread holds, apart from what it has said. -/
def holdings (ledger : Ledger Point (Holding × Saying)) : Ledger Point Holding :=
  fun i => (ledger i).map fun entry => (entry.1, entry.2.1)

theorem holdings_of_some {ledger : Ledger Point (Holding × Saying)} {i : ℕ} {k : Point}
    {r : Holding} (h : ledger i = some (k, (r, u))) : holdings ledger i = some (k, r) := by
  rw [holdings, h]
  rfl

theorem holdings_update (ledger : Ledger Point (Holding × Saying)) (i : ℕ) (k : Point)
    (r : Holding) (u : Saying) : holdings (Function.update ledger i (some (k, (r, u)))) =
      Function.update (holdings ledger) i (some (k, r)) := by
  funext j
  by_cases hj : j = i
  · subst hj
    rw [Function.update_self, holdings, Function.update_self]
    rfl
  · rw [Function.update_of_ne hj, holdings, Function.update_of_ne hj]
    rfl

/-- What a thread has written to what it holds, and where its document is from. -/
structure Spoken (sha1 : List Char → List Char) (history : List SocketEvent)
    (entry : Holding × Saying) : Prop where
  wrote : ∀ fd, entry.1.descriptor = some fd →
    entry.2.stage.Wrote sha1 (documentsOf history) (writtenTo fd history)
  read : ∀ json ∈ entry.2.document, json ∈ documentsOf history
  accepted : ∀ fd, entry.1 = .accepted fd → entry.2.stage = .silent
  joined : ∀ fd, entry.1 = .joined fd → entry.2.stage = .upgraded

structure Told (sha1 : List Char → List Char) (history : List SocketEvent)
    (ledger : Ledger Point (Holding × Saying)) (s : State) : Prop where
  held : Held history (holdings ledger) s
  spoken : ∀ i k entry, ledger i = some (k, entry) → Spoken sha1 history entry
  output : ∀ fd, Output sha1 (documentsOf history) (writtenTo fd history)
  fresh : ∀ fd : Descriptor, s.accepted ≤ fd.connection → writtenTo fd history = []

section Told

variable {setup : Setup} {history : List SocketEvent}
  {ledger : Ledger Point (Holding × Saying)} {s s' : State} {i j : ℕ} {root k : Point}
  {r : Holding} {fd : Descriptor} {e : SocketEvent}

theorem accepted_le_of_effect {o : Call} {x : Sockets.Answer o} (h : effect setup o s x s') :
    s.accepted ≤ s'.accepted := by
  cases o with
  | accept =>
    rcases h with ⟨-, rfl⟩ | ⟨n, -, -, rfl⟩
    · exact le_rfl
    · exact Nat.le_succ _
  | socket =>
    rcases h with ⟨-, rfl⟩ | ⟨-, n, -, rfl⟩
    · exact le_rfl
    · exact le_rfl
  | closeListener =>
    obtain rfl : s' = s.closeListener := h
    unfold State.closeListener
    cases s.listenFd with
    | none => exact le_rfl
    | some number => exact le_rfl
  | closeClients =>
    obtain ⟨-, rfl⟩ := h
    have hfold : ∀ (clients : List Descriptor) (s : State),
        (clients.foldl (fun s fd => s.closeSocket fd.number) s).accepted = s.accepted := by
      intro clients
      induction clients with
      | nil => exact fun s => rfl
      | cons client clients ih => exact fun s => ih (s.closeSocket client.number)
    exact (hfold s.wsClients s).ge
  | running | recv | sendAll | topologyJson | resolve | countNodes =>
    have hs : s' = s := by first | exact h.2 | exact h.2.2
    exact hs ▸ le_rfl
  | registerNode | pruneStale =>
    obtain ⟨-, -, hs⟩ := h
    exact hs ▸ le_rfl
  | terminate => exact nomatch x
  | setRunning | bind | listenThread | pruneThread | detach | setTimeout | send | close | addClient
  | removeClient | updateRelayStatus | allocate | unassigned | overrun =>
    obtain rfl := h
    exact le_rfl

/-- Two threads hold different descriptors. -/
theorem Told.descriptor_ne {entry : Holding × Saying} {fd' : Descriptor}
    (h : Told sha1 history ledger s) (hi : ledger i = some (root, (r, u)))
    (hr : r.descriptor = some fd) (hj : ledger j = some (k, entry)) (hji : j ≠ i)
    (hentry : entry.1.descriptor = some fd') : fd' ≠ fd := by
  rintro rfl
  have hview : ∀ {a : ℕ} {k : Point} {r : Holding} {u : Saying},
      ledger a = some (k, (r, u)) → r.descriptor = some fd' →
      view Holding.descriptor (holdings ledger) a = some fd' := fun ha hr =>
    (view_of_some (holdings_of_some ha)).trans hr
  exact hji (h.held.owned.exclusive j i fd' fd' (hview hj hentry) (hview hi hr) rfl)

/-- What is held has been accepted. -/
theorem Told.connection_lt (h : Told sha1 history ledger s) (hi : ledger i = some (root, (r, u)))
    (hr : r.descriptor = some fd) : fd.connection < s.accepted := by
  have hlive := h.held.owned.holder i fd ((view_of_some (holdings_of_some hi)).trans hr)
  exact h.held.owned.fresh fd hlive.1

/-- A client is held by a thread that has sent the handshake. -/
theorem Told.exists_of_client (h : Told sha1 history ledger s) (hfd : fd ∈ s.wsClients) :
    ∃ i k document, ledger i = some (k, (.joined fd, ⟨.upgraded, document⟩)) := by
  obtain ⟨i, hi⟩ := (h.held.clients fd).mp hfd
  obtain ⟨k, r, hentry, hr⟩ := exists_of_view hi
  obtain ⟨⟨k', r', st, document⟩, hledger, heq⟩ := Option.map_eq_some_iff.mp hentry
  cases heq
  cases r' with
  | joined fd' =>
    cases hr
    obtain rfl : st = .upgraded := (h.spoken i _ _ hledger).joined fd rfl
    exact ⟨i, k', document, hledger⟩
  | _ => cases hr

theorem Spoken.snoc {entry : Holding × Saying} (h : Spoken sha1 history entry)
    (hsilent : ∀ fd, entry.1.descriptor = some fd → writtenBy fd e = []) :
    Spoken sha1 (history ++ [e]) entry where
  wrote fd hfd := by
    rw [writtenTo_of_silent (hsilent fd hfd)]
    exact (h.wrote fd hfd).mono (documentsOf_subset_snoc history e)
  read json hjson := documentsOf_subset_snoc history e (h.read json hjson)
  accepted := h.accepted
  joined := h.joined

/-- A step that writes nothing. -/
theorem Told.quiet {ledger' : Ledger Point (Holding × Saying)} (h : Told sha1 history ledger s)
    (hheld : Held (history ++ [e]) (holdings ledger') s')
    (hspoken : ∀ j k entry, ledger' j = some (k, entry) → Spoken sha1 (history ++ [e]) entry)
    (hsilent : ∀ fd, writtenBy fd e = []) (hcount : s.accepted ≤ s'.accepted) :
    Told sha1 (history ++ [e]) ledger' s' where
  held := hheld
  spoken := hspoken
  output fd := by
    rw [writtenTo_of_silent (hsilent fd)]
    exact (h.output fd).mono (documentsOf_subset_snoc history e)
  fresh fd hfd := by
    rw [writtenTo_of_silent (hsilent fd)]
    exact h.fresh fd (hcount.trans hfd)

/-- What is spoken of all entries and of a new one is spoken of all entries then. -/
theorem spoken_update {entry : Holding × Saying}
    (h : ∀ j k entry, ledger j = some (k, entry) → j ≠ i → Spoken sha1 history entry)
    (hentry : Spoken sha1 history entry) :
    ∀ j k' entry', Function.update ledger i (some (k, entry)) j = some (k', entry') →
      Spoken sha1 history entry' := by
  intro j k' entry' hj
  rcases update_eq_some_iff.mp hj with ⟨-, heq⟩ | ⟨hji, hj⟩
  · cases heq
    exact hentry
  · exact h j k' entry' hj hji

/-- A thread writes to what it holds. -/
theorem Told.send {text : List Char} (h : Told sha1 history ledger s)
    (hentry : ledger i = some (root, (r, u))) (hr : r = .held fd ∨ r = .joined fd)
    (hpermits : Utters sha1 u (.send fd text))
    (hheld : Held (history ++ [⟨.send fd text, ()⟩])
      (Function.update (holdings ledger) i (some (root, r))) s) :
    Told sha1 (history ++ [⟨.send fd text, ()⟩])
      (Function.update ledger i
        (some (root, (r, (speech sha1).after u (.send fd text) ())))) s := by
  have hdescriptor : r.descriptor = some fd := by
    rcases hr with rfl | rfl
    · rfl
    · rfl
  have hown : writtenTo fd (history ++ [⟨.send fd text, ()⟩]) = writtenTo fd history ++ text := by
    rw [writtenTo_snoc]
    exact congrArg _ (if_pos rfl)
  have hother : ∀ fd', fd' ≠ fd → writtenBy fd' ⟨.send fd text, ()⟩ = [] := fun fd' hne =>
    if_neg (Ne.symm hne)
  have hsubset := documentsOf_subset_snoc history ⟨.send fd text, ()⟩
  have hspoken := h.spoken i _ _ hentry
  have hwrote := ((hspoken.wrote fd hdescriptor).send hspoken.read hpermits ()).mono hsubset
  refine ⟨?_, spoken_update (fun j k entry hj hji => ?_) ?_, fun fd' => ?_, fun fd' hfd' => ?_⟩
  · rw [holdings_update]
    exact hheld
  · exact (h.spoken j k entry hj).snoc fun fd' hfd' =>
      hother fd' (h.descriptor_ne hentry hdescriptor hj hji hfd')
  · refine ⟨fun fd' hfd' => ?_, nofun, fun fd' hfd' => ?_, fun fd' hfd' => ?_⟩
    · cases hdescriptor.symm.trans hfd'
      rw [hown]
      exact hwrote
    · rcases hr with rfl | rfl <;> cases hfd'
    · obtain ⟨st, document⟩ := u
      obtain rfl : st = .upgraded := hspoken.joined fd' hfd'
      rfl
  · by_cases hfd' : fd' = fd
    · subst hfd'
      rw [hown]
      exact hwrote.output
    · rw [writtenTo_of_silent (hother fd' hfd')]
      exact (h.output fd').mono hsubset
  · have hne : fd' ≠ fd := by
      rintro rfl
      exact absurd (h.connection_lt hentry hdescriptor) (not_lt.mpr hfd')
    rw [writtenTo_of_silent (hother fd' hne)]
    exact h.fresh fd' hfd'

/-- A document goes to all clients. -/
theorem Told.sendAll {text : List Char} (h : Told sha1 history ledger s)
    (hentry : ledger i = some (root, (r, ⟨st, some text⟩)))
    (hheld : Held (history ++ [⟨.sendAll (wsFrame text), s.wsClients⟩]) (holdings ledger) s) :
    Told sha1 (history ++ [⟨.sendAll (wsFrame text), s.wsClients⟩])
      (Function.update ledger i (some (root, (r, st.unread)))) s := by
  have hsubset := documentsOf_subset_snoc history ⟨.sendAll (wsFrame text), s.wsClients⟩
  have hread := (h.spoken i _ _ hentry).read text rfl
  have hclient : ∀ fd ∈ s.wsClients, Stage.upgraded.Wrote sha1
      (documentsOf (history ++ [⟨.sendAll (wsFrame text), s.wsClients⟩]))
      (writtenTo fd (history ++ [⟨.sendAll (wsFrame text), s.wsClients⟩])) := by
    intro fd hfd
    obtain ⟨a, k, document, ha⟩ := h.exists_of_client hfd
    obtain ⟨texts, htexts, hwritten⟩ := writtenBy_sendAll fd text s.wsClients
    rw [writtenTo_snoc, hwritten]
    refine Stage.Wrote.mono ?_ hsubset
    refine Stage.Wrote.frames ((h.spoken a k _ ha).wrote fd rfl) fun json hjson => ?_
    rwa [List.mem_singleton.mp (htexts hjson)]
  have hkept : ∀ j k entry, ledger j = some (k, entry) →
      Spoken sha1 (history ++ [⟨.sendAll (wsFrame text), s.wsClients⟩]) entry := by
    intro j k entry hj
    have hspoken := h.spoken j k entry hj
    refine ⟨fun fd hfd => ?_, fun json hjson => hsubset (hspoken.read json hjson),
      hspoken.accepted, hspoken.joined⟩
    by_cases hmem : fd ∈ s.wsClients
    · obtain ⟨a, k', document, ha⟩ := h.exists_of_client hmem
      obtain rfl : j = a := by
        by_contra hja
        exact h.descriptor_ne ha rfl hj hja hfd rfl
      rw [ha] at hj
      cases hj
      exact hclient fd hmem
    · rw [writtenTo_of_silent (writtenBy_sendAll_of_notMem hmem)]
      exact (hspoken.wrote fd hfd).mono hsubset
  refine ⟨?_, spoken_update (fun j k entry hj _ => hkept j k entry hj) ?_, fun fd => ?_,
    fun fd hfd => ?_⟩
  · rwa [holdings_update, ← holdings_of_some hentry, Function.update_eq_self]
  · have hspoken := hkept i _ _ hentry
    exact ⟨hspoken.wrote, nofun, hspoken.accepted, hspoken.joined⟩
  · by_cases hmem : fd ∈ s.wsClients
    · exact (hclient fd hmem).output
    · rw [writtenTo_of_silent (writtenBy_sendAll_of_notMem hmem)]
      exact (h.output fd).mono hsubset
  · have hmem : fd ∉ s.wsClients := by
      intro hmem
      obtain ⟨a, k, document, ha⟩ := h.exists_of_client hmem
      exact absurd (h.connection_lt ha rfl) (not_lt.mpr hfd)
    rw [writtenTo_of_silent (writtenBy_sendAll_of_notMem hmem)]
    exact h.fresh fd hfd

theorem answered_handleResolve (nodes : Nodes) (query : List Char) :
    Answered (Discovery.handleResolve nodes query).1 := by
  unfold Discovery.handleResolve Answered
  dsimp only
  split <;> simp

theorem shared_sendAll (frame : List Char) : Call.Shared (.sendAll frame) := trivial

theorem writtenBy_of_permits {o : Call} {x : Sockets.Answer o}
    (hpermits : Utters sha1 u o) (hsend : ∀ fd text, o ≠ .send fd text)
    (hsendAll : ∀ frame, o ≠ .sendAll frame) (fd : Descriptor) : writtenBy fd ⟨o, x⟩ = [] := by
  cases hpermits with
  | answer | found | handshake | frame => exact absurd rfl (hsend _ _)
  | broadcast => exact absurd rfl (hsendAll _)
  | quiet ho => exact writtenBy_of_quiet ho fd x
  | accept => rfl
  | read => rfl
  | resolve => rfl
  | addClient => rfl

/-- What is spoken after a step that writes nothing. -/
theorem Told.spoken_after {o : Call} {x : Sockets.Answer o} (h : Told sha1 history ledger s)
    (hentry : ledger i = some (root, (r, u))) (hallows : Allows r o)
    (hpermits : Utters sha1 u o) (heffect : effect setup o s x s')
    (hsend : ∀ fd text, o ≠ .send fd text) (hsendAll : ∀ frame, o ≠ .sendAll frame) :
    Spoken sha1 (history ++ [⟨o, x⟩]) (ownership.after r o x, (speech sha1).after u o x) := by
  have hsilent := writtenBy_of_permits (x := x) hpermits hsend hsendAll
  have hspoken := h.spoken i _ _ hentry
  have hsnoc := hspoken.snoc fun fd _ => hsilent fd
  cases hpermits with
  | answer | found | handshake | frame => exact absurd rfl (hsend _ _)
  | broadcast => exact absurd rfl (hsendAll _)
  | accept =>
    cases hallows with
    | shared _ ho => exact ho.elim
    | use _ ho => exact ho.elim
    | accept =>
      rcases heffect with ⟨rfl, -⟩ | ⟨n, -, rfl, -⟩
      · exact hsnoc
      · refine ⟨fun fd hfd => ?_, nofun, fun _ _ => rfl, nofun⟩
        cases hfd
        rw [writtenTo_of_silent (hsilent _)]
        exact h.fresh _ le_rfl
  | read =>
    rw [after_topologyJson]
    rw [after_of_shared (show Call.Shared .topologyJson from trivial)]
    refine ⟨hsnoc.wrote, fun json hjson => ?_, hsnoc.accepted, hsnoc.joined⟩
    cases hjson
    exact mem_documentsOf_snoc history x
  | resolve =>
    cases hallows with
    | use _ ho => exact ho.elim
    | shared hr _ =>
      obtain ⟨rfl, -⟩ := heffect
      refine ⟨fun fd hfd => ⟨hsnoc.wrote fd hfd, answered_handleResolve _ _⟩, nofun,
        fun fd hfd => absurd hfd (hr fd), fun fd hfd => ?_⟩
      cases hspoken.joined fd hfd
  | addClient =>
    cases hallows with
    | shared _ ho => exact ho.elim
    | use _ ho => exact ho.elim
    | addClient => exact ⟨fun fd hfd => hsnoc.wrote fd hfd, nofun, nofun, fun _ _ => rfl⟩
  | quiet ho =>
    rw [after_of_quiet ho]
    cases hallows with
    | shared _ hshared =>
      rw [after_of_shared hshared]
      exact hsnoc
    | use _ huse =>
      rw [after_of_uses huse]
      exact hsnoc
    | accept => exact ho.elim
    | addClient => exact ho.elim
    | detach => exact ⟨nofun, hsnoc.read, nofun, nofun⟩
    | removeClient => exact ⟨fun fd hfd => hsnoc.wrote fd hfd, hsnoc.read, nofun, nofun⟩
    | close => exact ⟨nofun, hsnoc.read, nofun, nofun⟩

/-- What others have spoken stays, if nothing is written. -/
theorem Told.spoken_snoc (h : Told sha1 history ledger s) (hsilent : ∀ fd, writtenBy fd e = [])
    (j : ℕ) (k : Point) (entry : Holding × Saying) (hj : ledger j = some (k, entry)) (_ : j ≠ i) :
    Spoken sha1 (history ++ [e]) entry :=
  (h.spoken j k entry hj).snoc fun fd _ => hsilent fd

theorem Told.step {o : Call} {x : Sockets.Answer o} (h : Told sha1 history ledger s)
    (hentry : ledger i = some (root, (r, u))) (hallows : Allows r o)
    (hpermits : Utters sha1 u o) (heffect : effect setup o s x s')
    (hsound : NoClients ⟨o, x⟩ s) (hstarted : started o x = none) :
    Told sha1 (history ++ [⟨o, x⟩]) (Function.update ledger i
      (some (root, (ownership.after r o x, (speech sha1).after u o x)))) s' := by
  have hheld := h.held.step (holdings_of_some hentry) hallows heffect hsound hstarted
  by_cases hsend : ∀ fd text, o ≠ .send fd text
  · by_cases hsendAll : ∀ frame, o ≠ .sendAll frame
    · have hsilent := writtenBy_of_permits (x := x) hpermits hsend hsendAll
      refine h.quiet ?_ (spoken_update (h.spoken_snoc hsilent)
        (h.spoken_after hentry hallows hpermits heffect hsend hsendAll)) hsilent
        (accepted_le_of_effect heffect)
      rw [holdings_update]
      exact hheld
    · push Not at hsendAll
      obtain ⟨frame, rfl⟩ := hsendAll
      cases hpermits with
      | quiet ho => exact ho.elim
      | broadcast =>
        obtain ⟨rfl, rfl⟩ := heffect
        rw [after_sendAll, after_of_shared (shared_sendAll _)]
        rw [after_of_shared (shared_sendAll _), ← holdings_of_some hentry,
          Function.update_eq_self] at hheld
        exact h.sendAll hentry hheld
  · push Not at hsend
    obtain ⟨fd, text, rfl⟩ := hsend
    obtain rfl : s' = s := heffect
    cases hallows with
    | shared _ ho => exact ho.elim
    | use hr ho =>
      obtain rfl := ho
      exact h.send hentry hr hpermits hheld

/-- A new thread has written nothing to what it holds. -/
theorem Told.spoken_started {o : Call} {x : Sockets.Answer o} (h : Told sha1 history ledger s)
    (hentry : ledger i = some (root, (r, u))) (hallows : Allows r o)
    (hstarted : started o x = some k) :
    Spoken sha1 history (ownership.given k, (speech sha1).given k) := by
  cases o with
  | listenThread =>
    cases hstarted
    exact ⟨by rintro _ ⟨⟩, by rintro _ ⟨⟩, by rintro _ ⟨⟩, by rintro _ ⟨⟩⟩
  | pruneThread =>
    cases hstarted
    exact ⟨by rintro _ ⟨⟩, by rintro _ ⟨⟩, by rintro _ ⟨⟩, by rintro _ ⟨⟩⟩
  | detach fd =>
    cases hstarted
    refine ⟨fun fd' hfd' => ?_, nofun, nofun, nofun⟩
    cases hfd'
    cases hallows with
    | shared _ ho => exact ho.elim
    | use _ ho => exact ho.elim
    | detach =>
      have hspoken := h.spoken i _ _ hentry
      have hwrote := hspoken.wrote fd rfl
      rwa [hspoken.accepted fd rfl] at hwrote
  | _ => cases hstarted

theorem Told.start {o : Call} {x : Sockets.Answer o} (h : Told sha1 history ledger s)
    (hentry : ledger i = some (root, (r, u))) (hallows : Allows r o)
    (hpermits : Utters sha1 u o) (heffect : effect setup o s x s')
    (hsound : NoClients ⟨o, x⟩ s) (hstarted : started o x = some k) (hj : ledger j = none) :
    Told sha1 (history ++ [⟨o, x⟩]) (Function.update (Function.update ledger i
        (some (root, (ownership.after r o x, (speech sha1).after u o x)))) j
      (some (k, (ownership.given k, (speech sha1).given k)))) s' := by
  have hnone : holdings ledger j = none := by
    rw [holdings, hj]
    rfl
  have hheld := h.held.start (holdings_of_some hentry) hallows heffect hsound hstarted hnone
  have hsend : ∀ fd text, o ≠ .send fd text := by
    rintro fd text rfl
    cases hstarted
  have hsendAll : ∀ frame, o ≠ .sendAll frame := by
    rintro frame rfl
    cases hstarted
  have hsilent := writtenBy_of_permits (x := x) hpermits hsend hsendAll
  have hspoken := h.spoken_after hentry hallows hpermits heffect hsend hsendAll
  have hnew := (h.spoken_started hentry hallows hstarted).snoc fun fd _ => hsilent fd
  refine h.quiet ?_ (spoken_update (fun a k' entry ha _ =>
    spoken_update (h.spoken_snoc hsilent) hspoken a k' entry ha) hnew) hsilent
    (accepted_le_of_effect heffect)
  rw [holdings_update, holdings_update]
  exact hheld

end Told

/-! ## Runs -/

theorem told_initial (sha1 : List Char → List Char) (commands : List Command) :
    Told sha1 [] (fun i => (commands.map Point.command)[i]?.map fun k =>
      (k, (ownership.prod (speech sha1)).given k)) .initial where
  held := by
    have hsame : holdings (fun i => (commands.map Point.command)[i]?.map fun k =>
        (k, (ownership.prod (speech sha1)).given k)) = idle commands := by
      funext i
      rw [holdings, idle, Option.map_map]
      rfl
    rw [hsame]
    exact held_initial commands
  spoken i k entry hi := by
    rw [List.getElem?_map, Option.map_map, Option.map_eq_some_iff] at hi
    obtain ⟨c, -, heq⟩ := hi
    cases heq
    exact ⟨by rintro _ ⟨⟩, by rintro _ ⟨⟩, by rintro _ ⟨⟩, by rintro _ ⟨⟩⟩
  output _ := .nothing
  fresh _ _ := rfl

variable {setup : Setup} {commands : List Command} {history : List SocketEvent}
  {threads : List ServerThread} {s : State}

theorem told_of_run
    (hrun : (server setup).Run NoClients (commands.map .command) .initial history threads s) :
    ∃ ledger, Told setup.sha1 history ledger s := by
  obtain ⟨ledger, -, htold⟩ := hrun.ledger_induction
    (fun k => Discipline.follows_prod (follows_code setup.sha1 k) (follows_speech setup.sha1 k))
    (told_initial setup.sha1 commands)
    (fun _ _ _ _ _ _ _ _ _ h hi hallows => h.step hi hallows.1 hallows.2)
    (fun _ _ _ _ _ _ _ _ _ _ _ h hi hallows => h.start hi hallows.1 hallows.2)
  exact ⟨ledger, htold⟩

/-- In every run in which `stop` finds no client to close, what the threads have written to a
descriptor is nothing, one whole response that gives the length of its body, or the response to
a handshake with whole frames behind it, each with a document that was read in the run. -/
theorem output_of_run (setup : Setup) (commands : List Command) (history : List SocketEvent)
    (threads : List ServerThread) (s : State)
    (hrun : (server setup).Run NoClients (commands.map .command) .initial history threads s)
    (fd : Descriptor) : Output setup.sha1 (documentsOf history) (writtenTo fd history) := by
  obtain ⟨ledger, htold⟩ := told_of_run hrun
  exact htold.output fd

theorem output_of_run_demo : ∃ history threads s,
    (server demoSetup).Run NoClients ([Command.start, Command.stop].map .command) .initial history
      threads s ∧
    history.flatMap acceptedBy = [demoClient] ∧
    Output demoSetup.sha1 (documentsOf history) (writtenTo demoClient history) := by
  obtain ⟨history, accepting, pruning, hrun, haccepted, -⟩ := exists_joinedRun demoSetup
  exact ⟨history, _, _, hrun, haccepted,
    output_of_run demoSetup [.start, .stop] history _ _ hrun demoClient⟩

end Freehold.Discovery.Descriptors
