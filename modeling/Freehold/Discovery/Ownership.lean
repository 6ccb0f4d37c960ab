import Freehold.Discovery.Descriptors

/-!
# Who may close a descriptor (`discovery.cpp`)

`accept_loop` holds a descriptor until it has started the handler, which holds it until it has
closed it. The handler lends it to `ws_clients_` while it reads frames.

## Main results

* `follows_code` — the code of every point keeps to this.
-/

namespace Freehold.Discovery.Descriptors

open Interaction Interaction.Program

inductive Holding where
  | idle
  /-- By `accept_loop`. -/
  | accepted (fd : Descriptor)
  /-- By its handler. -/
  | held (fd : Descriptor)
  /-- By its handler, and `ws_clients_` has it. -/
  | joined (fd : Descriptor)
  /-- The handler has closed it. -/
  | closed (fd : Descriptor)

namespace Holding

/-- What is open. -/
def descriptor : Holding → Option Descriptor
  | .accepted fd | .held fd | .joined fd => some fd
  | _ => none

/-- What `ws_clients_` has. -/
def client : Holding → Option Descriptor
  | .joined fd => some fd
  | _ => none

/-- What the thread is the handler of. -/
def handled : Holding → Option Descriptor
  | .held fd | .joined fd | .closed fd => some fd
  | _ => none

end Holding

/-- What a thread that is started here is the handler of. -/
def Point.handled : Point → Option Descriptor
  | .handleConnection fd => some fd
  | _ => none

/-- The operations that name no descriptor. -/
def Call.Shared : Call → Prop
  | .accept | .detach _ | .setTimeout _ | .recv _ _ | .send _ _ | .close _ | .addClient _
  | .removeClient _ => False
  | _ => True

/-- Reading from a descriptor and writing to it. -/
def Call.Uses (fd : Descriptor) : Call → Prop
  | .setTimeout fd' | .recv fd' _ | .send fd' _ => fd' = fd
  | _ => False

inductive Allows : Holding → Call → Prop where
  | shared {r o} (hr : ∀ fd, r ≠ .accepted fd) (ho : o.Shared) : Allows r o
  | accept : Allows .idle .accept
  | detach {fd} : Allows (.accepted fd) (.detach fd)
  | use {r fd o} (hr : r = .held fd ∨ r = .joined fd) (ho : o.Uses fd) : Allows r o
  | addClient {fd} : Allows (.held fd) (.addClient fd)
  | removeClient {fd} : Allows (.joined fd) (.removeClient fd)
  | close {fd} : Allows (.held fd) (.close fd)

def ownership : Discipline Point Sockets Holding where
  allows := Allows
  after
    | _, .accept, some fd => .accepted fd
    | _, .detach _, _ => .idle
    | _, .addClient fd, _ => .joined fd
    | _, .removeClient fd, _ => .held fd
    | _, .close fd, _ => .closed fd
    | r, _, _ => r
  given
    | .handleConnection fd | .readHeaders fd _ | .readBody fd _ _ _ _ | .routing fd _ _ _ =>
      .held fd
    | .readFrames fd | .readPayload fd _ => .joined fd
    | _ => .idle
  final r := r = .idle ∨ ∃ fd, r = .closed fd

theorem after_of_shared {o : Call} (ho : o.Shared) (r : Holding) (x : Sockets.Answer o) :
    ownership.after r o x = r := by
  cases o with
  | accept | detach | addClient | removeClient | close => exact ho.elim
  | _ => rfl

theorem after_of_uses {o : Call} {fd : Descriptor} (ho : o.Uses fd) (r : Holding)
    (x : Sockets.Answer o) : ownership.after r o x = r := by
  cases o with
  | setTimeout | recv | send => rfl
  | _ => exact ho.elim

/-! ## The code follows the discipline -/

section Code

variable {α : Type} {Q : α → Holding → Prop} {r : Holding} {fd : Descriptor}

theorem follows_shared {o : Call} {next : Sockets.Answer o → Code α} (hr : ∀ fd, r ≠ .accepted fd)
    (ho : o.Shared) (hnext : ∀ x, ownership.Follows Q r (next x)) :
    ownership.Follows Q r (.call o next) := by
  refine .call (.shared hr ho) fun x => ?_
  rw [after_of_shared ho]
  exact hnext x

theorem follows_use {o : Call} {next : Sockets.Answer o → Code α}
    (hr : r = .held fd ∨ r = .joined fd) (ho : o.Uses fd)
    (hnext : ∀ x, ownership.Follows Q r (next x)) : ownership.Follows Q r (.call o next) := by
  refine .call (.use hr ho) fun x => ?_
  rw [after_of_uses ho]
  exact hnext x

/-- Nothing changes hands. -/
abbrev Keeps (r : Holding) (p : Code α) : Prop := ownership.Follows (fun _ r' => r' = r) r p

theorem Keeps.bind {β : Type} {Q : β → Holding → Prop} {p : Code α} {f : α → Code β}
    (hp : Keeps r p)
    (hf : ∀ a, ownership.Follows Q r (f a)) : ownership.Follows Q r (p >>= f) := by
  refine Discipline.Follows.bind hp ?_
  rintro a _ rfl
  exact hf a

theorem keeps_broadcastTopology (hr : ∀ fd, r ≠ .accepted fd) : Keeps r broadcastTopology :=
  follows_shared hr trivial fun _ => follows_shared hr trivial fun _ => .ret rfl

theorem keeps_registerNode (hr : ∀ fd, r ≠ .accepted fd) (p q : ℤ) (hostname status : List Char) :
    Keeps r (registerNode p q hostname status) := by
  refine follows_shared hr trivial fun isNew => ?_
  cases isNew with
  | false => exact .ret rfl
  | true => exact keeps_broadcastTopology hr

theorem keeps_pruneStale (hr : ∀ fd, r ≠ .accepted fd) : Keeps r pruneStale := by
  refine follows_shared hr trivial fun pruned => ?_
  cases pruned with
  | false => exact .ret rfl
  | true => exact keeps_broadcastTopology hr

theorem keeps_sendHttp (status : ℕ) (body : List Char) :
    Keeps (.held fd) (sendHttp fd status body) :=
  follows_use (.inl rfl) rfl fun _ => .ret rfl

theorem keeps_handleAnnounce (body : List Char) : Keeps (.held fd) (handleAnnounce fd body) := by
  unfold handleAnnounce
  cases announcement body with
  | none => exact keeps_sendHttp _ _
  | some a =>
    refine (keeps_registerNode (r := .held fd) nofun _ _ _ _).bind ?_
    intro _
    refine (keeps_sendHttp _ _).bind ?_
    intro _
    exact keeps_broadcastTopology nofun

theorem follows_closeSocket :
    ownership.Follows ownership.Continues (.held fd) (closeSocket fd) :=
  .call .close fun _ => .ret (.inr ⟨fd, rfl⟩)

theorem follows_disconnect : ownership.Follows ownership.Continues (.joined fd) (disconnect fd) :=
  .call .removeClient fun _ => follows_closeSocket

theorem follows_terminate (hr : ∀ fd, r ≠ .accepted fd) :
    ownership.Follows ownership.Continues r terminate :=
  follows_shared hr trivial fun x => nomatch x

/-- A response, and the end of the connection. -/
theorem follows_answer {p : Code Unit} (hp : Keeps (.held fd) p) :
    ownership.Follows ownership.Continues (.held fd) (p >>= fun _ => closeSocket fd) := by
  refine hp.bind ?_
  intro _
  exact follows_closeSocket

theorem follows_handleWsUpgrade (sha1 : List Char → List Char) (key : List Char) :
    ownership.Follows ownership.Continues (.held fd) (handleWsUpgrade sha1 fd key) :=
  follows_use (.inl rfl) rfl fun _ => .call .addClient fun _ =>
    follows_shared nofun trivial fun _ =>
    follows_use (.inr rfl) rfl fun _ => .ret rfl

theorem follows_route (sha1 : List Char → List Char) (requestLine headers body : List Char) :
    ownership.Follows ownership.Continues (.held fd) (route sha1 fd requestLine headers body) := by
  unfold route
  split_ifs
  · exact follows_answer (keeps_handleAnnounce body)
  · exact follows_answer (follows_shared nofun trivial fun _ => keeps_sendHttp _ _)
  · exact follows_answer (follows_shared nofun trivial fun _ => keeps_sendHttp _ _)
  · exact follows_answer (follows_shared nofun trivial fun _ => keeps_sendHttp _ _)
  · cases wsKey headers with
    | none => exact follows_terminate nofun
    | some key => exact follows_handleWsUpgrade sha1 key
  · exact follows_answer (keeps_sendHttp _ _)

theorem keeps_contentLength (headers : List Char) : Keeps (.held fd) (contentLength headers) := by
  unfold contentLength
  match lengthText headers with
  | none => exact .ret rfl
  | some [] => exact follows_shared nofun trivial fun _ => .ret rfl
  | some (_ :: _) => exact .ret rfl

theorem follows_afterHeaders (buf headers : List Char) :
    ownership.Follows ownership.Continues (.held fd) (afterHeaders fd buf headers) := by
  refine (keeps_contentLength headers).bind ?_
  intro length
  split_ifs
  · exact .ret rfl
  · exact .ret rfl

theorem follows_received (buf : List Char) :
    ownership.Follows ownership.Continues (.held fd) (received fd buf) := by
  unfold received
  cases headersOf buf with
  | none => exact .ret rfl
  | some headers => exact follows_afterHeaders buf headers

theorem keeps_readLength (length : ℕ) : Keeps (.joined fd) (readLength fd length) := by
  unfold readLength
  split_ifs
  · exact follows_use (.inr rfl) rfl fun _ => .ret rfl
  · exact follows_use (.inr rfl) rfl fun _ => .ret rfl
  · exact .ret rfl

theorem keeps_readMask (masked : Bool) : Keeps (.joined fd) (readMask fd masked) := by
  cases masked with
  | false => exact .ret rfl
  | true => exact follows_use (.inr rfl) rfl fun _ => .ret rfl

theorem keeps_secondByte (rest : List Char) : Keeps (.joined fd) (secondByte rest) := by
  cases rest with
  | nil => exact follows_shared nofun trivial fun _ => .ret rfl
  | cons second rest => exact .ret rfl

theorem follows_readPrelude (second : Char) :
    ownership.Follows ownership.Continues (.joined fd) (readPrelude fd second) := by
  refine (keeps_readLength _).bind ?_
  rintro (_ | length)
  · exact follows_disconnect
  · refine (keeps_readMask _).bind ?_
    rintro (_ | _)
    · exact follows_disconnect
    · refine follows_shared nofun trivial fun allocated => ?_
      cases allocated with
      | false => exact follows_terminate nofun
      | true => exact .ret rfl

theorem follows_readFrame : ownership.Follows ownership.Continues (.joined fd) (readFrame fd) := by
  refine follows_use (.inr rfl) rfl fun head => ?_
  match head with
  | [] => exact follows_disconnect
  | first :: rest =>
    show ownership.Follows _ (.joined fd) (if first.toNat % 16 = 8 then disconnect fd else _)
    split_ifs
    · exact follows_disconnect
    · refine (keeps_secondByte rest).bind ?_
      intro second
      exact follows_readPrelude second

theorem follows_command (c : Command) :
    ownership.Follows ownership.Continues .idle (command c) := by
  cases c with
  | start =>
    refine follows_shared nofun trivial fun running => ?_
    cases running with
    | true => exact .ret (.inl rfl)
    | false =>
      exact follows_shared nofun trivial fun _ => follows_shared nofun trivial fun _ =>
        follows_shared nofun trivial fun _ => .ret (.inl rfl)
  | stop =>
    refine follows_shared nofun trivial fun running => ?_
    cases running with
    | false => exact .ret (.inl rfl)
    | true =>
      exact follows_shared nofun trivial fun _ => follows_shared nofun trivial fun _ =>
        follows_shared nofun trivial fun _ => .ret (.inl rfl)
  | registerNode p q hostname status =>
    refine (keeps_registerNode (r := .idle) nofun p q hostname status).bind ?_
    intro _
    exact .ret (.inl rfl)
  | updateRelayStatus p q registered fqdn =>
    refine follows_shared nofun trivial fun _ => ?_
    refine (keeps_broadcastTopology (r := .idle) nofun).bind ?_
    intro _
    exact .ret (.inl rfl)

theorem follows_code (sha1 : List Char → List Char) (k : Point) :
    ownership.Follows ownership.Continues (ownership.given k) (code sha1 k) := by
  cases k with
  | command c => exact follows_command c
  | acceptLoop =>
    refine follows_shared nofun trivial fun opened => ?_
    cases opened with
    | false => exact .ret (.inl rfl)
    | true =>
      refine follows_shared nofun trivial fun bound => ?_
      cases bound with
      | true => exact .ret rfl
      | false => exact follows_shared nofun trivial fun _ => .ret (.inl rfl)
  | acceptNext =>
    refine follows_shared nofun trivial fun running => ?_
    cases running with
    | false => exact .ret (.inl rfl)
    | true =>
      refine .call .accept fun accepted => ?_
      cases accepted with
      | none => exact .ret rfl
      | some fd => exact .call .detach fun _ => .ret rfl
  | pruneLoop =>
    refine follows_shared nofun trivial fun running => ?_
    cases running with
    | false => exact .ret (.inl rfl)
    | true =>
      refine (keeps_pruneStale (r := .idle) nofun).bind ?_
      intro _
      exact .ret rfl
  | handleConnection fd => exact follows_use (.inl rfl) rfl fun _ => .ret rfl
  | readHeaders fd buf =>
    rw [code]
    split_ifs
    · refine follows_use (.inl rfl) rfl fun data => ?_
      match data with
      | [] => exact follows_closeSocket
      | c :: data => exact follows_received (buf ++ c :: data)
    · exact follows_closeSocket
  | readBody fd requestLine headers contentLength body =>
    rw [code]
    split_ifs
    · refine follows_use (.inl rfl) rfl fun data => ?_
      match data with
      | [] => exact .ret rfl
      | c :: data => exact .ret rfl
    · exact .ret rfl
  | routing fd requestLine headers body => exact follows_route sha1 requestLine headers body
  | readFrames fd =>
    refine follows_shared nofun trivial fun running => ?_
    cases running with
    | true => exact follows_readFrame
    | false => exact follows_disconnect
  | readPayload fd remaining =>
    rw [code]
    split_ifs
    · refine follows_use (.inr rfl) rfl fun data => ?_
      match data with
      | [] => exact .ret rfl
      | c :: data => exact .ret rfl
    · exact .ret rfl

end Code

end Freehold.Discovery.Descriptors
