import Freehold.Discovery.Ownership

/-!
# Every descriptor is closed once (`discovery.cpp`)

The invariant of the runs in which `stop` finds no client to close, step by step.

## Main results

* `Held.step`, `Held.start` — each open descriptor has one thread that holds it.
* `disciplined_of_run` — every descriptor is closed once, and left alone after that.
* `not_disciplined_of_stop` — a client that is connected when `stop` runs is closed twice.
-/

namespace Freehold.Discovery.Descriptors

open Interaction Interaction.Program

/-! ## What the threads hold -/

theorem update_eq_some_iff {α : Type} {f : ℕ → Option α} {i j : ℕ} {x : Option α} {a : α} :
    Function.update f i x j = some a ↔ j = i ∧ x = some a ∨ j ≠ i ∧ f j = some a := by
  by_cases hj : j = i
  · subst hj
    simp
  · simp [hj]

/-- What the threads hold, seen through `f`. -/
def view (f : Holding → Option Descriptor) (ledger : Ledger Point Holding) (i : ℕ) :
    Option Descriptor :=
  (ledger i).bind fun entry => f entry.2

section View

variable {f : Holding → Option Descriptor} {ledger : Ledger Point Holding} {i : ℕ} {k : Point}
  {r r' : Holding}

theorem view_of_some (h : ledger i = some (k, r)) : view f ledger i = f r := by
  rw [view, h]
  rfl

theorem view_of_none (h : ledger i = none) : view f ledger i = none := by
  rw [view, h]
  rfl

theorem view_update : view f (Function.update ledger i (some (k, r))) =
    Function.update (view f ledger) i (f r) := by
  funext j
  by_cases hj : j = i
  · subst hj
    rw [Function.update_self, view, Function.update_self]
    rfl
  · rw [Function.update_of_ne hj, view, Function.update_of_ne hj]
    rfl

theorem view_update_of_eq (h : ledger i = some (k, r)) (hf : f r' = f r) :
    view f (Function.update ledger i (some (k, r'))) = view f ledger := by
  rw [view_update, hf, ← view_of_some (f := f) h, Function.update_eq_self]

/-- A new thread that holds nothing. -/
theorem view_update_of_none (h : ledger i = none) (hf : f r = none) :
    view f (Function.update ledger i (some (k, r))) = view f ledger := by
  rw [view_update, hf, ← view_of_none (f := f) h, Function.update_eq_self]

theorem exists_of_view {fd : Descriptor} (h : view f ledger i = some fd) :
    ∃ k r, ledger i = some (k, r) ∧ f r = some fd := by
  obtain ⟨⟨k, r⟩, hentry, hr⟩ := Option.bind_eq_some_iff.mp h
  exact ⟨k, r, hentry, hr⟩

end View

/-- The open descriptors: `live i` is what thread `i` holds. -/
structure Owned (history : List SocketEvent) (live : ℕ → Option Descriptor) (s : State) :
    Prop where
  holder : ∀ i fd, live i = some fd → fd ∈ history.flatMap acceptedBy ∧
    fd ∉ history.flatMap closedBy ∧ fd.number ∈ s.inUse ∧ s.listenFd ≠ some fd.number
  exclusive : ∀ i j fd fd', live i = some fd → live j = some fd' → fd.number = fd'.number → i = j
  held : ∀ fd ∈ history.flatMap acceptedBy, fd ∈ history.flatMap closedBy ∨ ∃ i, live i = some fd
  fresh : ∀ fd ∈ history.flatMap acceptedBy, fd.connection < s.accepted
  accepted : ∀ fd ∈ history.flatMap closedBy, fd ∈ history.flatMap acceptedBy
  nodup : (history.flatMap closedBy).Nodup
  listener : ∀ n, s.listenFd = some n → n ∈ s.inUse

namespace Owned

variable {history : List SocketEvent} {live : ℕ → Option Descriptor} {s s' : State}
  {e : SocketEvent} {i j n : ℕ} {fd : Descriptor}

theorem initial : Owned [] (fun _ => none) State.initial where
  holder _ _ h := nomatch h
  exclusive _ _ _ _ h := nomatch h
  held _ h := nomatch h
  fresh _ h := nomatch h
  accepted _ h := nomatch h
  nodup := List.nodup_nil
  listener _ h := nomatch h

/-- A step that accepts and closes nothing. -/
theorem snoc (h : Owned history live s) (haccepted : acceptedBy e = []) (hclosed : closedBy e = [])
    (hinUse : ∀ i fd, live i = some fd → fd.number ∈ s'.inUse ∧ s'.listenFd ≠ some fd.number)
    (hcount : s'.accepted = s.accepted) (hlistener : ∀ n, s'.listenFd = some n → n ∈ s'.inUse) :
    Owned (history ++ [e]) live s' := by
  have ha : (history ++ [e]).flatMap acceptedBy = history.flatMap acceptedBy := by
    simp [haccepted]
  have hc : (history ++ [e]).flatMap closedBy = history.flatMap closedBy := by
    simp [hclosed]
  constructor
  · intro i fd hi
    rw [ha, hc]
    obtain ⟨hfd, hopen, -, -⟩ := h.holder i fd hi
    exact ⟨hfd, hopen, hinUse i fd hi⟩
  · exact h.exclusive
  · rw [ha, hc]
    exact h.held
  · rw [ha, hcount]
    exact h.fresh
  · rw [ha, hc]
    exact h.accepted
  · rw [hc]
    exact h.nodup
  · exact hlistener

theorem frame (h : Owned history live s) (haccepted : acceptedBy e = []) (hclosed : closedBy e = [])
    (hinUse : s'.inUse = s.inUse) (hlistenFd : s'.listenFd = s.listenFd)
    (hcount : s'.accepted = s.accepted) : Owned (history ++ [e]) live s' := by
  refine h.snoc haccepted hclosed (fun i fd hi => ?_) hcount ?_
  · rw [hinUse, hlistenFd]
    exact (h.holder i fd hi).2.2
  · rw [hinUse, hlistenFd]
    exact h.listener

theorem number_ne (h : Owned history live s) (hn : n ∉ s.inUse) (hi : live i = some fd) :
    fd.number ≠ n := by
  rintro rfl
  exact hn (h.holder i fd hi).2.2.1

/-- `fd` goes from thread `i` to thread `j`. -/
theorem move (h : Owned history live s) (hi : live i = some fd) (hj : live j = none) :
    Owned history (Function.update (Function.update live i none) j (some fd)) s := by
  have hback : ∀ a fd', Function.update (Function.update live i none) j (some fd) a = some fd' →
      a = j ∧ fd' = fd ∨ a ≠ j ∧ a ≠ i ∧ live a = some fd' := by
    intro a fd' ha
    rcases update_eq_some_iff.mp ha with ⟨haj, hfd⟩ | ⟨haj, ha⟩
    · exact .inl ⟨haj, (Option.some.inj hfd).symm⟩
    · rcases update_eq_some_iff.mp ha with ⟨-, hfd⟩ | ⟨hai, ha⟩
      · cases hfd
      · exact .inr ⟨haj, hai, ha⟩
  constructor
  · intro a fd' ha
    rcases hback a fd' ha with ⟨-, rfl⟩ | ⟨-, -, ha⟩
    · exact h.holder i fd' hi
    · exact h.holder a fd' ha
  · intro a b x y ha hb hxy
    rcases hback a x ha with ⟨haj, rfl⟩ | ⟨-, hai, hx⟩
    · rcases hback b y hb with ⟨hbj, -⟩ | ⟨-, hbi, hy⟩
      · rw [haj, hbj]
      · exact absurd (h.exclusive i b _ _ hi hy hxy).symm hbi
    · rcases hback b y hb with ⟨-, rfl⟩ | ⟨-, -, hy⟩
      · exact absurd (h.exclusive a i _ _ hx hi hxy) hai
      · exact h.exclusive a b x y hx hy hxy
  · intro fd' hfd'
    refine (h.held fd' hfd').imp id ?_
    rintro ⟨a, ha⟩
    by_cases hai : a = i
    · subst hai
      rw [hi, Option.some.injEq] at ha
      subst ha
      exact ⟨j, Function.update_self ..⟩
    · refine ⟨a, ?_⟩
      have haj : a ≠ j := by
        rintro rfl
        rw [hj] at ha
        cases ha
      rw [Function.update_of_ne haj, Function.update_of_ne hai, ha]
  · exact h.fresh
  · exact h.accepted
  · exact h.nodup
  · exact h.listener

/-- Thread `i` gets a descriptor with a free number. -/
theorem accept (h : Owned history live s) (hi : live i = none) (hn : n ∉ s.inUse) :
    Owned (history ++ [⟨.accept, some ⟨n, s.accepted⟩⟩])
      (Function.update live i (some ⟨n, s.accepted⟩))
      { s with inUse := n :: s.inUse, accepted := s.accepted + 1 } := by
  have ha : (history ++ [(⟨.accept, some ⟨n, s.accepted⟩⟩ : SocketEvent)]).flatMap acceptedBy =
      history.flatMap acceptedBy ++ [⟨n, s.accepted⟩] := by simp [acceptedBy]
  have hc : (history ++ [(⟨.accept, some ⟨n, s.accepted⟩⟩ : SocketEvent)]).flatMap closedBy =
      history.flatMap closedBy := by simp [closedBy]
  have hback : ∀ a fd, Function.update live i (some ⟨n, s.accepted⟩) a = some fd →
      a = i ∧ fd = ⟨n, s.accepted⟩ ∨ live a = some fd := by
    intro a fd ha
    exact (update_eq_some_iff.mp ha).imp (fun h => ⟨h.1, (Option.some.inj h.2).symm⟩) And.right
  have hnew : (⟨n, s.accepted⟩ : Descriptor) ∉ history.flatMap closedBy := fun hmem =>
    absurd (h.fresh _ (h.accepted _ hmem)) (lt_irrefl _)
  constructor
  · intro a fd hfd
    rw [ha, hc]
    rcases hback a fd hfd with ⟨-, rfl⟩ | hfd
    · refine ⟨List.mem_append_right _ (List.mem_singleton_self _), hnew, List.mem_cons_self, ?_⟩
      exact fun hlisten => hn (h.listener n hlisten)
    · obtain ⟨hmem, hopen, huse, hlisten⟩ := h.holder a fd hfd
      exact ⟨List.mem_append_left _ hmem, hopen, List.mem_cons_of_mem _ huse, hlisten⟩
  · intro a b x y hx hy hxy
    rcases hback a x hx with ⟨hai, rfl⟩ | hx'
    · rcases hback b y hy with ⟨hbi, -⟩ | hy'
      · rw [hai, hbi]
      · exact absurd hxy.symm (h.number_ne hn hy')
    · rcases hback b y hy with ⟨-, rfl⟩ | hy'
      · exact absurd hxy (h.number_ne hn hx')
      · exact h.exclusive a b x y hx' hy' hxy
  · intro fd hfd
    rw [ha] at hfd
    rw [hc]
    rcases List.mem_append.mp hfd with hfd | hfd
    · refine (h.held fd hfd).imp id ?_
      rintro ⟨a, hlive⟩
      refine ⟨a, ?_⟩
      have hai : a ≠ i := by
        rintro rfl
        rw [hi] at hlive
        cases hlive
      rw [Function.update_of_ne hai, hlive]
    · rw [List.mem_singleton.mp hfd]
      exact .inr ⟨i, Function.update_self ..⟩
  · intro fd hfd
    rw [ha] at hfd
    rcases List.mem_append.mp hfd with hfd | hfd
    · exact Nat.lt_succ_of_lt (h.fresh fd hfd)
    · rw [List.mem_singleton.mp hfd]
      exact Nat.lt_succ_self _
  · intro fd hfd
    rw [hc] at hfd
    rw [ha]
    exact List.mem_append_left _ (h.accepted fd hfd)
  · rw [hc]
    exact h.nodup
  · exact fun m hm => List.mem_cons_of_mem _ (h.listener m hm)

/-- Thread `i` closes what it holds. -/
theorem close (h : Owned history live s) (hi : live i = some fd) :
    Owned (history ++ [⟨.close fd, ()⟩]) (Function.update live i none)
      (s.closeSocket fd.number) := by
  have ha : (history ++ [(⟨.close fd, ()⟩ : SocketEvent)]).flatMap acceptedBy =
      history.flatMap acceptedBy := by simp [acceptedBy]
  have hc : (history ++ [(⟨.close fd, ()⟩ : SocketEvent)]).flatMap closedBy =
      history.flatMap closedBy ++ [fd] := by simp [closedBy]
  have hback : ∀ a fd', Function.update live i none a = some fd' → a ≠ i ∧ live a = some fd' := by
    intro a fd' ha
    exact (update_eq_some_iff.mp ha).resolve_left nofun
  constructor
  · intro a fd' hfd'
    obtain ⟨hai, hfd'⟩ := hback a fd' hfd'
    have hne : fd'.number ≠ fd.number := fun heq => hai (h.exclusive a i _ _ hfd' hi heq)
    obtain ⟨hmem, hopen, huse, hlisten⟩ := h.holder a fd' hfd'
    rw [ha, hc]
    refine ⟨hmem, ?_, List.mem_filter.mpr ⟨huse, decide_eq_true hne⟩, hlisten⟩
    rw [List.mem_append, List.mem_singleton, not_or]
    exact ⟨hopen, fun heq => hne (congrArg Descriptor.number heq)⟩
  · intro a b x y hx hy hxy
    exact h.exclusive a b x y (hback a x hx).2 (hback b y hy).2 hxy
  · intro fd' hfd'
    rw [ha] at hfd'
    rw [hc, List.mem_append, List.mem_singleton]
    rcases h.held fd' hfd' with hclosed | ⟨a, hlive⟩
    · exact .inl (.inl hclosed)
    · by_cases hai : a = i
      · subst hai
        rw [hi, Option.some.injEq] at hlive
        exact .inl (.inr hlive.symm)
      · refine .inr ⟨a, ?_⟩
        rw [Function.update_of_ne hai, hlive]
  · rw [ha]
    exact h.fresh
  · intro fd' hfd'
    rw [hc, List.mem_append, List.mem_singleton] at hfd'
    rw [ha]
    rcases hfd' with hfd' | rfl
    · exact h.accepted fd' hfd'
    · exact (h.holder i fd' hi).1
  · rw [hc, List.nodup_append]
    refine ⟨h.nodup, List.nodup_singleton fd, ?_⟩
    rintro x hx y hy rfl
    rw [List.mem_singleton.mp hy] at hx
    exact (h.holder i fd hi).2.1 hx
  · intro m hm
    refine List.mem_filter.mpr ⟨h.listener m hm, decide_eq_true ?_⟩
    rintro rfl
    exact (h.holder i fd hi).2.2.2 hm

/-- `listen_fd_` gets a free number. -/
theorem socket (h : Owned history live s) (hn : n ∉ s.inUse) :
    Owned (history ++ [⟨.socket, true⟩]) live
      { s with inUse := n :: s.inUse, listenFd := some n } := by
  refine h.snoc rfl rfl (fun i fd hi => ?_) rfl ?_
  · refine ⟨List.mem_cons_of_mem _ (h.holder i fd hi).2.2.1, fun heq => ?_⟩
    exact h.number_ne hn hi (Option.some.inj heq).symm
  · intro m hm
    rw [Option.some.injEq] at hm
    exact hm ▸ List.mem_cons_self

theorem closeListener (h : Owned history live s) :
    Owned (history ++ [⟨.closeListener, ()⟩]) live s.closeListener := by
  unfold State.closeListener
  cases hlisten : s.listenFd with
  | none => exact h.frame rfl rfl rfl rfl rfl
  | some number =>
    refine h.snoc rfl rfl (fun i fd hi => ?_) rfl ?_
    · obtain ⟨-, -, huse, hne⟩ := h.holder i fd hi
      rw [hlisten] at hne
      have hnumber : fd.number ≠ number := fun heq => hne (congrArg some heq.symm)
      exact ⟨List.mem_filter.mpr ⟨huse, decide_eq_true hnumber⟩, nofun⟩
    · rintro m ⟨⟩

end Owned

theorem Untouched.snoc {history : List SocketEvent} {e : SocketEvent} (h : Untouched history)
    (he : ∀ fd ∈ usedBy e, fd ∉ history.flatMap closedBy) : Untouched (history ++ [e]) := by
  intro before e' after heq
  rcases List.eq_nil_or_concat after with rfl | ⟨after, last, rfl⟩
  · obtain ⟨rfl, hlast⟩ := List.append_inj' heq rfl
    cases hlast
    exact he
  · rw [List.concat_eq_append, ← List.cons_append, ← List.append_assoc] at heq
    exact h before e' after (List.append_inj' heq rfl).1

/-- What holds of the entry of a thread. -/
structure Fits (history : List SocketEvent) (entry : Point × Holding) : Prop where
  handled : entry.1.handled = entry.2.handled
  closed : ∀ fd, entry.2 = .closed fd → fd ∈ history.flatMap closedBy

theorem Fits.snoc {history : List SocketEvent} {entry : Point × Holding}
    (h : Fits history entry) (e : SocketEvent) : Fits (history ++ [e]) entry where
  handled := h.handled
  closed := by
    intro fd hfd
    rw [List.flatMap_append]
    exact List.mem_append_left _ (h.closed fd hfd)

/-- What holds of all entries and of a new one holds of all entries then. -/
theorem forall_update {ledger : Ledger Point Holding} {P : Point × Holding → Prop}
    {i : ℕ} {entry : Point × Holding} (h : ∀ j entry, ledger j = some entry → P entry)
    (hentry : P entry) :
    ∀ j entry', Function.update ledger i (some entry) j = some entry' → P entry' := by
  intro j entry' hj
  rcases update_eq_some_iff.mp hj with ⟨-, hnew⟩ | ⟨-, hj⟩
  · exact Option.some.inj hnew ▸ hentry
  · exact h j entry' hj

/-- What holds in a run in which `stop` finds no clients. -/
structure Held (history : List SocketEvent) (ledger : Ledger Point Holding) (s : State) :
    Prop where
  owned : Owned history (view Holding.descriptor ledger) s
  fits : ∀ i entry, ledger i = some entry → Fits history entry
  clients : ∀ fd, fd ∈ s.wsClients ↔ ∃ i, view Holding.client ledger i = some fd
  untouched : Untouched history

namespace Held

variable {setup : Setup} {history : List SocketEvent} {ledger : Ledger Point Holding}
  {s s' : State} {i j : ℕ} {root k : Point} {r r' : Holding} {fd : Descriptor} {e : SocketEvent}

theorem notMem_closed (h : Held history ledger s) (hentry : ledger i = some (root, r))
    (hr : r.descriptor = some fd) : fd ∉ history.flatMap closedBy :=
  (h.owned.holder i fd ((view_of_some hentry).trans hr)).2.1

theorem notMem_closed_of_client (h : Held history ledger s) (hfd : fd ∈ s.wsClients) :
    fd ∉ history.flatMap closedBy := by
  obtain ⟨i, hi⟩ := (h.clients fd).mp hfd
  obtain ⟨k, r, hentry, hr⟩ := exists_of_view hi
  refine h.notMem_closed hentry ?_
  cases r with
  | joined => exact hr
  | _ => cases hr

/-- A step in which nothing changes hands. -/
theorem stay (h : Held history ledger s)
    (howned : Owned (history ++ [e]) (view Holding.descriptor ledger) s')
    (hclients : s'.wsClients = s.wsClients)
    (hused : ∀ fd ∈ usedBy e, fd ∉ history.flatMap closedBy) : Held (history ++ [e]) ledger s' where
  owned := howned
  fits i entry hi := (h.fits i entry hi).snoc e
  clients := by
    rw [hclients]
    exact h.clients
  untouched := h.untouched.snoc hused

theorem shared {o : Call} {x : Sockets.Answer o} (h : Held history ledger s) (ho : o.Shared)
    (heffect : effect setup o s x s') (hsound : NoClients ⟨o, x⟩ s) :
    Held (history ++ [⟨o, x⟩]) ledger s' := by
  have hnone : ∀ fd : Descriptor, fd ∈ [] → fd ∉ history.flatMap closedBy := nofun
  cases o with
  | accept | detach | setTimeout | recv | send | close | addClient | removeClient => exact ho.elim
  | socket =>
    rcases heffect with ⟨-, rfl⟩ | ⟨rfl, n, hn, rfl⟩
    · refine h.stay (h.owned.snoc rfl rfl (fun i fd hi => ?_) rfl ?_) rfl hnone
      · exact ⟨(h.owned.holder i fd hi).2.2.1, nofun⟩
      · rintro n ⟨⟩
    · exact h.stay (h.owned.socket hn) rfl hnone
  | closeListener =>
    obtain rfl := heffect
    refine h.stay h.owned.closeListener ?_ hnone
    unfold State.closeListener
    cases s.listenFd with
    | none => rfl
    | some number => rfl
  | sendAll frame =>
    obtain ⟨rfl, rfl⟩ := heffect
    exact h.stay (h.owned.frame rfl rfl rfl rfl rfl) rfl fun fd hfd => h.notMem_closed_of_client hfd
  | closeClients =>
    obtain ⟨rfl, rfl⟩ := heffect
    have hempty : s.wsClients = [] := hsound rfl
    rw [hempty]
    exact h.stay (h.owned.frame rfl rfl rfl rfl rfl) hempty.symm hnone
  | setRunning | updateRelayStatus | bind | listenThread | pruneThread | allocate | unassigned
  | overrun =>
    obtain rfl := heffect
    exact h.stay (h.owned.frame rfl rfl rfl rfl rfl) rfl hnone
  | running | topologyJson | resolve | countNodes =>
    obtain ⟨-, rfl⟩ := heffect
    exact h.stay (h.owned.frame rfl rfl rfl rfl rfl) rfl hnone
  | registerNode | pruneStale =>
    obtain ⟨now, -, hs⟩ := heffect
    rw [hs]
    exact h.stay (h.owned.frame rfl rfl rfl rfl rfl) rfl hnone
  | terminate => exact nomatch x

/-- A thread reads from or writes to what it holds. -/
theorem use {o : Call} {x : Sockets.Answer o} (h : Held history ledger s)
    (hentry : ledger i = some (root, r)) (hr : r.descriptor = some fd) (ho : o.Uses fd)
    (heffect : effect setup o s x s') : Held (history ++ [⟨o, x⟩]) ledger s' := by
  have hopen := h.notMem_closed hentry hr
  cases o with
  | setTimeout fd' | send fd' =>
    obtain rfl : fd' = fd := ho
    obtain rfl : s' = s := heffect
    refine h.stay (h.owned.frame rfl rfl rfl rfl rfl) rfl fun fd'' hfd'' => ?_
    rwa [List.mem_singleton.mp hfd'']
  | recv fd' =>
    obtain rfl : fd' = fd := ho
    obtain ⟨-, -, rfl⟩ := heffect
    refine h.stay (h.owned.frame rfl rfl rfl rfl rfl) rfl fun fd'' hfd'' => ?_
    rwa [List.mem_singleton.mp hfd'']
  | _ => exact ho.elim

/-- Thread `i` goes on with `r'`. -/
theorem set (h : Held history ledger s) (hentry : ledger i = some (root, r))
    (hhandled : r'.handled = r.handled)
    (howned : Owned (history ++ [e])
      (Function.update (view Holding.descriptor ledger) i r'.descriptor) s')
    (hclosed : ∀ fd, r' = .closed fd → fd ∈ (history ++ [e]).flatMap closedBy)
    (hclients : ∀ fd, fd ∈ s'.wsClients ↔
      ∃ j, Function.update (view Holding.client ledger) i r'.client j = some fd)
    (hused : usedBy e = []) :
    Held (history ++ [e]) (Function.update ledger i (some (root, r'))) s' where
  owned := by
    rw [view_update]
    exact howned
  fits := forall_update (fun j entry hj => (h.fits j entry hj).snoc e)
    ⟨(h.fits i _ hentry).handled.trans hhandled.symm, hclosed⟩
  clients := by
    intro fd
    rw [view_update]
    exact hclients fd
  untouched := by
    refine h.untouched.snoc fun fd hfd => ?_
    rw [hused] at hfd
    cases hfd

/-- The clients stay as they are. -/
theorem clients_update (h : Held history ledger s) (hentry : ledger i = some (root, r))
    (hr : r'.client = r.client) : ∀ fd, fd ∈ s.wsClients ↔
      ∃ j, Function.update (view Holding.client ledger) i r'.client j = some fd := by
  rw [hr, ← view_of_some (f := Holding.client) hentry, Function.update_eq_self]
  exact h.clients

theorem accept {n : ℕ} (h : Held history ledger s) (hentry : ledger i = some (root, .idle))
    (hn : n ∉ s.inUse) :
    Held (history ++ [⟨.accept, some ⟨n, s.accepted⟩⟩])
      (Function.update ledger i (some (root, .accepted ⟨n, s.accepted⟩)))
      { s with inUse := n :: s.inUse, accepted := s.accepted + 1 } :=
  h.set hentry rfl (h.owned.accept (view_of_some hentry) hn) nofun (h.clients_update hentry rfl) rfl

theorem close (h : Held history ledger s) (hentry : ledger i = some (root, .held fd)) :
    Held (history ++ [⟨.close fd, ()⟩]) (Function.update ledger i (some (root, .closed fd)))
      (s.closeSocket fd.number) := by
  refine h.set hentry rfl (h.owned.close (view_of_some hentry)) ?_ (h.clients_update hentry rfl) rfl
  rintro _ ⟨⟩
  rw [List.flatMap_append]
  exact List.mem_append_right _ (List.mem_singleton_self fd)

/-- What `i` holds stays open. -/
theorem owned_update (h : Held history ledger s) (hentry : ledger i = some (root, r))
    (hr : r'.descriptor = r.descriptor) (haccepted : acceptedBy e = []) (hclosed : closedBy e = [])
    (hinUse : s'.inUse = s.inUse) (hlistenFd : s'.listenFd = s.listenFd)
    (hcount : s'.accepted = s.accepted) :
    Owned (history ++ [e])
      (Function.update (view Holding.descriptor ledger) i r'.descriptor) s' := by
  rw [hr, ← view_of_some (f := Holding.descriptor) hentry, Function.update_eq_self]
  exact h.owned.frame haccepted hclosed hinUse hlistenFd hcount

theorem addClient (h : Held history ledger s) (hentry : ledger i = some (root, .held fd)) :
    Held (history ++ [⟨.addClient fd, ()⟩]) (Function.update ledger i (some (root, .joined fd)))
      { s with wsClients := s.wsClients ++ [fd] } := by
  have hnone : view Holding.client ledger i = none := view_of_some hentry
  refine h.set hentry rfl (h.owned_update hentry rfl rfl rfl rfl rfl rfl) nofun (fun fd' => ?_) rfl
  rw [List.mem_append, List.mem_singleton, h.clients fd']
  simp only [update_eq_some_iff]
  constructor
  · rintro (⟨j, hj⟩ | rfl)
    · refine ⟨j, .inr ⟨?_, hj⟩⟩
      rintro rfl
      rw [hnone] at hj
      cases hj
    · exact ⟨i, .inl ⟨rfl, rfl⟩⟩
  · rintro ⟨j, ⟨-, hfd⟩ | ⟨-, hj⟩⟩
    · exact .inr (Option.some.inj hfd).symm
    · exact .inl ⟨j, hj⟩

/-- Two clients have different numbers. -/
theorem number_ne_of_client {fd' : Descriptor} (h : Held history ledger s)
    (hentry : ledger i = some (root, .joined fd)) (hj : view Holding.client ledger j = some fd')
    (hji : j ≠ i) : fd'.number ≠ fd.number := by
  intro heq
  obtain ⟨k, r, hk, hr⟩ := exists_of_view hj
  refine hji (h.owned.exclusive j i fd' fd ?_ (view_of_some hentry) heq)
  rw [view_of_some hk]
  cases r with
  | joined => exact hr
  | _ => cases hr

theorem removeClient (h : Held history ledger s) (hentry : ledger i = some (root, .joined fd)) :
    Held (history ++ [⟨.removeClient fd, ()⟩]) (Function.update ledger i (some (root, .held fd)))
      { s with wsClients := s.wsClients.filter fun client => client.number ≠ fd.number } := by
  have hsome : view Holding.client ledger i = some fd := view_of_some hentry
  refine h.set hentry rfl (h.owned_update hentry rfl rfl rfl rfl rfl rfl) nofun (fun fd' => ?_) rfl
  rw [List.mem_filter, h.clients fd', decide_eq_true_iff]
  simp only [update_eq_some_iff]
  constructor
  · rintro ⟨⟨j, hj⟩, hne⟩
    refine ⟨j, .inr ⟨?_, hj⟩⟩
    rintro rfl
    rw [hsome, Option.some.injEq] at hj
    exact hne (congrArg Descriptor.number hj.symm)
  · rintro ⟨j, ⟨-, hfd⟩ | ⟨hji, hj⟩⟩
    · cases hfd
    · exact ⟨⟨j, hj⟩, h.number_ne_of_client hentry hj hji⟩

/-- A new thread that holds nothing. -/
theorem begin (h : Held history ledger s) (hj : ledger j = none) (hk : k.handled = none) :
    Held history (Function.update ledger j (some (k, .idle))) s where
  owned := by
    rw [view_update_of_none hj rfl]
    exact h.owned
  fits := forall_update h.fits ⟨hk, nofun⟩
  clients := by
    rw [view_update_of_none hj rfl]
    exact h.clients
  untouched := h.untouched

/-- `accept_loop` hands over what it has accepted. -/
theorem detach (h : Held history ledger s) (hentry : ledger i = some (root, .accepted fd))
    (hj : ledger j = none) :
    Held (history ++ [⟨.detach fd, ()⟩])
      (Function.update (Function.update ledger i (some (root, .idle))) j
        (some (.handleConnection fd, .held fd))) s where
  owned := by
    rw [view_update, view_update]
    exact (h.owned.move (view_of_some hentry) (view_of_none hj)).frame rfl rfl rfl rfl rfl
  fits := by
    have hidle : Fits history (root, .idle) := ⟨(h.fits i _ hentry).handled, nofun⟩
    refine forall_update (forall_update (fun a entry ha => ?_) (hidle.snoc _)) ⟨rfl, nofun⟩
    exact (h.fits a entry ha).snoc _
  clients := by
    have hnone : Function.update ledger i (some (root, .idle)) j = none := by
      rw [Function.update_of_ne, hj]
      rintro rfl
      rw [hj] at hentry
      cases hentry
    have hview : view Holding.client (Function.update ledger i (some (root, .idle))) =
        view Holding.client ledger := view_update_of_eq hentry rfl
    rw [view_update_of_none hnone rfl, hview]
    exact h.clients
  untouched := h.untouched.snoc nofun

theorem step {o : Call} {x : Sockets.Answer o} (h : Held history ledger s)
    (hentry : ledger i = some (root, r)) (hallows : Allows r o) (heffect : effect setup o s x s')
    (hsound : NoClients ⟨o, x⟩ s) (hstarted : started o x = none) :
    Held (history ++ [⟨o, x⟩])
      (Function.update ledger i (some (root, ownership.after r o x))) s' := by
  cases hallows with
  | shared hr ho =>
    rw [after_of_shared ho, ← hentry, Function.update_eq_self]
    exact h.shared ho heffect hsound
  | @use r fd o hr ho =>
    rw [after_of_uses ho, ← hentry, Function.update_eq_self]
    rcases hr with rfl | rfl
    · exact h.use hentry rfl ho heffect
    · exact h.use hentry rfl ho heffect
  | accept =>
    rcases heffect with ⟨rfl, rfl⟩ | ⟨n, hn, rfl, rfl⟩
    · have hsame : Function.update ledger i (some (root, .idle)) = ledger := by
        rw [← hentry, Function.update_eq_self]
      show Held _ (Function.update ledger i (some (root, .idle))) _
      rw [hsame]
      exact h.stay (h.owned.frame rfl rfl rfl rfl rfl) rfl nofun
    · exact h.accept hentry hn
  | detach => cases hstarted
  | addClient =>
    obtain rfl := heffect
    exact h.addClient hentry
  | removeClient =>
    obtain rfl := heffect
    exact h.removeClient hentry
  | close =>
    obtain rfl := heffect
    exact h.close hentry

theorem start {o : Call} {x : Sockets.Answer o} (h : Held history ledger s)
    (hentry : ledger i = some (root, r)) (hallows : Allows r o) (heffect : effect setup o s x s')
    (hsound : NoClients ⟨o, x⟩ s) (hstarted : started o x = some k) (hj : ledger j = none) :
    Held (history ++ [⟨o, x⟩])
      (Function.update (Function.update ledger i (some (root, ownership.after r o x))) j
        (some (k, ownership.given k))) s' := by
  cases hallows with
  | shared hr ho =>
    rw [after_of_shared ho, ← hentry, Function.update_eq_self]
    have hshared := h.shared ho heffect hsound
    cases o with
    | listenThread | pruneThread =>
      cases hstarted
      exact hshared.begin hj rfl
    | detach => exact ho.elim
    | _ => cases hstarted
  | detach =>
    cases hstarted
    obtain rfl := heffect
    exact h.detach hentry hj
  | @use r fd o hr ho =>
    cases o with
    | setTimeout | send | recv => cases hstarted
    | _ => exact ho.elim
  | accept | addClient | removeClient | close => cases hstarted

end Held

/-! ## Runs -/

variable {setup : Setup} {commands : List Command} {history : List SocketEvent}
  {threads : List ServerThread} {s : State}

/-- The threads that run the commands hold nothing at first. -/
def idle (commands : List Command) : Ledger Point Holding :=
  fun i => (commands.map Point.command)[i]?.map fun k => (k, ownership.given k)

theorem eq_idle {i : ℕ} {entry : Point × Holding} (h : idle commands i = some entry) :
    ∃ c, entry = (.command c, .idle) := by
  rw [idle, List.getElem?_map, Option.map_map, Option.map_eq_some_iff] at h
  obtain ⟨c, -, rfl⟩ := h
  exact ⟨c, rfl⟩

theorem held_initial (commands : List Command) : Held [] (idle commands) .initial := by
  have hview : ∀ f : Holding → Option Descriptor, f .idle = none →
      view f (idle commands) = fun _ => none := by
    intro f hf
    funext i
    cases hentry : idle commands i with
    | none => exact view_of_none hentry
    | some entry =>
      obtain ⟨c, rfl⟩ := eq_idle hentry
      exact (view_of_some hentry).trans hf
  constructor
  · rw [hview Holding.descriptor rfl]
    exact Owned.initial
  · intro i entry hentry
    obtain ⟨c, rfl⟩ := eq_idle hentry
    exact ⟨rfl, nofun⟩
  · intro fd
    rw [hview Holding.client rfl]
    simp [State.initial]
  · intro before e after heq
    exact absurd heq.symm (by simp)

theorem held_of_run
    (hrun : (server setup).Run NoClients (commands.map .command) .initial history threads s) :
    ∃ ledger : Ledger Point Holding, ledger.Records ownership threads ∧ Held history ledger s :=
  hrun.ledger_induction (follows_code setup.sha1) (held_initial commands)
    (fun _ _ _ _ _ _ _ _ _ h => h.step) (fun _ _ _ _ _ _ _ _ _ _ _ h => h.start)

/-- A handler that has something open has not ended. -/
theorem inCharge_of_handler {k : Point} {r : Holding} {fd : Descriptor}
    {rest : Code (Option Point)} (hk : k.handled = some fd) (hr : ¬ownership.final r)
    (hfollows : ownership.Follows ownership.Continues r rest) : InCharge fd ⟨k, rest⟩ := by
  cases k with
  | handleConnection fd' =>
    cases hk
    refine .handler fun hrest => ?_
    rw [hrest] at hfollows
    exact hr hfollows.ret_inv
  | _ => cases hk

/-- Who holds an open descriptor is in charge of it. -/
theorem inCharge_of_holding {r : Holding} {fd : Descriptor} {t : ServerThread}
    (hroot : t.root.handled = r.handled) (hr : r.descriptor = some fd)
    (hfollows : ownership.Follows ownership.Continues r t.rest) : InCharge fd t := by
  obtain ⟨root, rest⟩ := t
  cases r with
  | idle | closed => cases hr
  | held | joined =>
    cases hr
    exact inCharge_of_handler hroot (by simp [ownership]) hfollows
  | accepted fd' =>
    cases hr
    cases hfollows with
    | @ret r next h =>
      cases next with
      | none => simp [Discipline.Continues, ownership] at h
      | some k => cases k <;> cases h
    | @call r o next ho hnext =>
      cases ho with
      | shared hr => exact absurd rfl (hr fd)
      | use hr => simp at hr
      | detach => exact .accepted

/-- A client that sends no key: the SHA-1 digest is that of `wsMagic`. -/
def demoSetup : Setup where
  sha1 _ := List.map byte [0xB2, 0x04, 0x45, 0x65, 0x04, 0x57, 0x9C, 0x1C, 0xB8, 0xB7,
    0x49, 0xEC, 0x5E, 0x71, 0xBC, 0x8B, 0x60, 0xBC, 0x0C, 0xD7]
  print := ⟨fun x => Decimal.ofInt ⌊x⌋, fun x => (Json.Number.ofInt ⌊x⌋).valid⟩
  nodeTtl := 30

def demoClient : Descriptor := ⟨7, 0⟩

def demoRequest : List Char := 'G' :: "ET /ws HTTP/1.1\r\nUpgrade: websocket\r\n\r\n".toList

def demoHeaders : List Char := 'G' :: "ET /ws HTTP/1.1\r\nUpgrade: websocket".toList

theorem received_demoRequest : received demoClient demoRequest =
    .ret (some (.routing demoClient "GET /ws HTTP/1.1".toList demoHeaders [])) := by
  have hheaders : headersOf demoRequest = some demoHeaders := by decide +kernel
  have hline : (before crlf demoHeaders).getD [] = "GET /ws HTTP/1.1".toList := by decide +kernel
  have hlength : contentLength demoHeaders = .ret 0 := by
    have htext : lengthText demoHeaders = none := by decide +kernel
    rw [contentLength, htext]
    rfl
  rw [received, hheaders]
  dsimp only
  rw [afterHeaders, hline, hlength]
  rfl

theorem route_demoRequest (sha1 : List Char → List Char) :
    route sha1 demoClient "GET /ws HTTP/1.1".toList demoHeaders [] =
      handleWsUpgrade sha1 demoClient [] := by
  have hkey : wsKey demoHeaders = some [] := by decide +kernel
  rw [route, if_neg (by decide +kernel), if_neg (by decide +kernel), if_neg (by decide +kernel),
    if_neg (by decide +kernel), if_pos (by decide +kernel), hkey]

/-- A client has joined, and `stop` has not begun. -/
theorem exists_joinedRun (setup : Setup) : ∃ history accepting pruning,
    (server setup).Run NoClients ([Command.start, Command.stop].map .command) .initial history
      [⟨.command .start, .ret none⟩, ⟨.command .stop, stop⟩, accepting, pruning,
        ⟨.handleConnection demoClient, code setup.sha1 (.readFrames demoClient)⟩]
      ⟨true, [7, 3], some 3, 1, [demoClient], ∅⟩ ∧
    history.flatMap acceptedBy = [demoClient] ∧ history.flatMap closedBy = [] := by
  have hstart : (server setup).Plays NoClients start .initial
      [⟨.running, false⟩, ⟨.setRunning true, ()⟩, ⟨.listenThread, ()⟩, ⟨.pruneThread, ()⟩]
      [.acceptLoop, .pruneLoop] (.ret none) ⟨true, [], none, 0, [], ∅⟩ :=
    .act ⟨rfl, rfl⟩ nofun <| .act rfl nofun <| .act rfl nofun <| .act rfl nofun .refl
  have haccept : (server setup).Plays NoClients acceptLoop ⟨true, [], none, 0, [], ∅⟩
      [⟨.socket, true⟩, ⟨.bind, true⟩, ⟨.running, true⟩, ⟨.accept, some demoClient⟩,
        ⟨.detach demoClient, ()⟩]
      [.handleConnection demoClient] (.ret (some .acceptNext)) ⟨true, [7, 3], some 3, 1, [], ∅⟩ :=
    .act (.inr ⟨rfl, 3, nofun, rfl⟩) nofun <| .act rfl nofun <| .goto <| .act ⟨rfl, rfl⟩ nofun <|
      .act (.inr ⟨7, by decide, rfl, rfl⟩) nofun <| .act rfl nofun .refl
  have hupgrade : (server setup).Plays NoClients (received demoClient demoRequest)
      ⟨true, [7, 3], some 3, 1, [], ∅⟩
      [⟨.send demoClient (switchingProtocols setup.sha1 []), ()⟩, ⟨.addClient demoClient, ()⟩,
        ⟨.topologyJson, topologyJson setup.print ∅ 0 0⟩,
        ⟨.send demoClient (wsFrame (topologyJson setup.print ∅ 0 0)), ()⟩]
      [] (code setup.sha1 (.readFrames demoClient)) ⟨true, [7, 3], some 3, 1, [demoClient], ∅⟩ := by
    have hcode :
        (server setup).code (.routing demoClient "GET /ws HTTP/1.1".toList demoHeaders []) =
        handleWsUpgrade setup.sha1 demoClient [] := route_demoRequest setup.sha1
    rw [received_demoRequest]
    refine .goto ?_
    rw [hcode]
    exact .act rfl nofun <| .act rfl nofun <| .act ⟨⟨0, 0, rfl⟩, rfl⟩ nofun <| .act rfl nofun <|
      .goto .refl
  have hread : (server setup).Plays NoClients (code setup.sha1 (.handleConnection demoClient))
      ⟨true, [7, 3], some 3, 1, [], ∅⟩
      (⟨.setTimeout demoClient, ()⟩ :: ⟨.recv demoClient 4095, demoRequest⟩ :: _)
      [] (code setup.sha1 (.readFrames demoClient)) ⟨true, [7, 3], some 3, 1, [demoClient], ∅⟩ :=
    .act rfl nofun <| .goto <| .act ⟨by decide +kernel, by decide, rfl⟩ nofun hupgrade
  have hrun : (server setup).Run NoClients ([Command.start, Command.stop].map .command) .initial []
      _ _ := .init
  have haccepted := (hrun.plays (i := 0) rfl hstart).plays (i := 2) rfl haccept
  have hjoined := haccepted.plays (i := 4) rfl hread
  exact ⟨_, _, _, hjoined, rfl, rfl⟩

/-- In every run in which `stop` finds no client to close, each accepted descriptor is closed
exactly once and not used after that. -/
theorem disciplined_of_run (setup : Setup) (commands : List Command)
    (history : List SocketEvent) (threads : List ServerThread) (s : State)
    (hrun : (server setup).Run NoClients (commands.map .command) .initial history threads s) :
    Disciplined history threads := by
  obtain ⟨ledger, hrecords, hheld⟩ := held_of_run hrun
  have hle : ∀ fd, (history.flatMap closedBy).count fd ≤ 1 := fun fd =>
    List.nodup_iff_count_le_one.mp hheld.owned.nodup fd
  refine ⟨hle, fun fd hended => ?_, fun fd hfd => ?_, hheld.untouched⟩
  · obtain ⟨i, hi⟩ := List.mem_iff_getElem?.mp hended
    obtain ⟨r, hentry, hfollows⟩ := hrecords.get hi
    have hfits := hheld.fits i _ hentry
    have hmem : fd ∈ history.flatMap closedBy := by
      refine hfits.closed fd ?_
      rcases hfollows.ret_inv with rfl | ⟨fd', rfl⟩
      · cases hfits.handled
      · cases hfits.handled
        rfl
    exact le_antisymm (hle fd) (List.count_pos_iff.mpr hmem)
  · refine (hheld.owned.held fd hfd).imp id ?_
    rintro ⟨i, hi⟩
    obtain ⟨k, r, hentry, hr⟩ := exists_of_view hi
    obtain ⟨t, ht, hroot, hfollows⟩ := hrecords.get_of_some hentry
    have hhandled : t.root.handled = r.handled := hroot ▸ (hheld.fits i _ hentry).handled
    exact ⟨t, List.mem_of_getElem? ht, inCharge_of_holding hhandled hr hfollows⟩

/-- The client leaves, and the server is stopped. -/
theorem disciplined_of_run_demo : ∃ setup history threads s,
    (server setup).Run NoClients ([Command.start, Command.stop].map .command) .initial history
      threads s ∧
    history.flatMap acceptedBy = [demoClient] ∧
    ⟨.handleConnection demoClient, .ret none⟩ ∈ threads ∧ Disciplined history threads := by
  obtain ⟨history, accepting, pruning, hrun, haccepted, -⟩ := exists_joinedRun demoSetup
  have hleave : (server demoSetup).Plays NoClients (code demoSetup.sha1 (.readFrames demoClient))
      ⟨true, [7, 3], some 3, 1, [demoClient], ∅⟩
      [⟨.running, true⟩, ⟨.recv demoClient 2, []⟩, ⟨.removeClient demoClient, ()⟩,
        ⟨.close demoClient, ()⟩]
      [] (.ret none) ⟨true, [3], some 3, 1, [], ∅⟩ :=
    .act ⟨rfl, rfl⟩ nofun <| .act ⟨Nat.zero_le _, fun _ => rfl, rfl⟩ nofun <| .act rfl nofun <|
      .act rfl nofun .refl
  have hstop : (server demoSetup).Plays NoClients stop ⟨true, [3], some 3, 1, [], ∅⟩
      [⟨.running, true⟩, ⟨.setRunning false, ()⟩, ⟨.closeListener, ()⟩, ⟨.closeClients, []⟩]
      [] (.ret none) ⟨false, [], none, 1, [], ∅⟩ :=
    .act ⟨rfl, rfl⟩ nofun <| .act rfl nofun <| .act rfl nofun <|
      .act ⟨rfl, rfl⟩ (fun _ => rfl) .refl
  have hended := (hrun.plays (i := 4) rfl hleave).plays (i := 1) rfl hstop
  refine ⟨demoSetup, _, _, _, hended, ?_, ?_,
    disciplined_of_run demoSetup [.start, .stop] _ _ _ hended⟩
  · simp [haccepted, acceptedBy]
  · simp

/-- A client is connected when the server is stopped: `stop` closes its descriptor, and so does
its handler. -/
theorem not_disciplined_of_stop : ¬∀ (setup : Setup) (commands : List Command)
    (history : List SocketEvent) (threads : List ServerThread) (s : State),
    (server setup).Run (fun _ _ => True) (commands.map .command) .initial history threads s →
      Disciplined history threads := by
  intro hall
  obtain ⟨history, accepting, pruning, hrun, -, hclosed⟩ := exists_joinedRun demoSetup
  have hstop : (server demoSetup).Plays (fun _ _ => True) stop
      ⟨true, [7, 3], some 3, 1, [demoClient], ∅⟩
      [⟨.running, true⟩, ⟨.setRunning false, ()⟩, ⟨.closeListener, ()⟩,
        ⟨.closeClients, [demoClient]⟩]
      [] (.ret none) ⟨false, [], none, 1, [], ∅⟩ :=
    .act ⟨rfl, rfl⟩ trivial <| .act rfl trivial <| .act rfl trivial <| .act ⟨rfl, rfl⟩ trivial .refl
  have hleave : (server demoSetup).Plays (fun _ _ => True)
      (code demoSetup.sha1 (.readFrames demoClient)) ⟨false, [], none, 1, [], ∅⟩
      [⟨.running, false⟩, ⟨.removeClient demoClient, ()⟩, ⟨.close demoClient, ()⟩]
      [] (.ret none) ⟨false, [], none, 1, [], ∅⟩ :=
    .act ⟨rfl, rfl⟩ trivial <| .act rfl trivial <| .act rfl trivial .refl
  have hstopped : (server demoSetup).Run (fun _ _ => True) _ _ _ _ _ :=
    hrun.mono fun _ _ _ => trivial
  have hended := (hstopped.plays (i := 1) rfl hstop).plays (i := 4) rfl hleave
  have htwice := (hall _ _ _ _ _ hended).closed_le_one demoClient
  simp [hclosed, closedBy] at htwice

end Freehold.Discovery.Descriptors
