import Freehold.Proxy.H3Proxy

/-!
# Where packets are routed

The map knows a connection by the first eight bytes of the id that it was created with, and by
nothing else.
-/

namespace Freehold.Proxy

/-- The server has chosen the id for the state. -/
def ChosenFor (log : List Handled) (address : ℕ) (dcid : Cid) : Prop :=
  ∃ e ∈ log, e.routed = some address ∧ dcid ∈ e.chosen

/-- The packet has created the state. -/
def Handled.Creates (e : Handled) (address : ℕ) : Prop := e.created = true ∧ e.routed = some address

/-- The packet is routed to a state if and only if its id is that of the packet that created the
state or one that the server has chosen for it. -/
def RoutedRight (before : List Handled) (e : Handled) : Prop :=
  ∀ c ∈ before ++ [e], ∀ address, c.Creates address →
    (e.routed = some address ↔ e.dcid = c.dcid ∨ ChosenFor before address e.dcid)

/-- The id agrees in its first eight bytes with the id of the packet that created a state if and
only if it is this id or one that the server has chosen for the state. -/
structure Unmistakable (before : List Handled) (dcid : Cid) : Prop where
  /-- No other id is like that of the packet that created a state. -/
  distinct : ∀ c ∈ before, ∀ address, c.Creates address → firstEight dcid = firstEight c.dcid →
    dcid = c.dcid ∨ ChosenFor before address dcid
  /-- No id that the server has chosen is used, unless it is like the first. -/
  unused : ∀ c ∈ before, ∀ address, c.Creates address → ChosenFor before address dcid →
    firstEight dcid = firstEight c.dcid

variable {decode : List UInt8 → Option Cid} {proxy proxy' : H3Proxy} {packet : Packet}
  {answers : Answers} {e : Handled} {before : List Handled} {address : ℕ}

/-! ## One packet -/

/-- What can happen to a packet whose header is decoded. -/
inductive Outcome (proxy : H3Proxy) (e : Handled) (proxy' : H3Proxy) : Prop where
  | found (state : ConnectionState) (hstate : proxy.connections[connKey e.dcid]? = some state)
      (hrouted : e.routed = some state.address) (hcreated : e.created = false)
      (hproxy : proxy' = proxy)
  | failed (hstate : proxy.connections[connKey e.dcid]? = none) (hrouted : e.routed = none)
      (hcreated : e.created = false) (hconnections : proxy'.connections = proxy.connections)
      (hallocated : proxy'.allocated = proxy.allocated + 1)
  | created (state : ConnectionState) (hstate : proxy.connections[connKey e.dcid]? = none)
      (hrouted : e.routed = some proxy.allocated) (hcreated : e.created = true)
      (haddress : state.address = proxy.allocated)
      (hconnections : proxy'.connections = proxy.connections.insert (connKey e.dcid) state)
      (hallocated : proxy'.allocated = proxy.allocated + 1)

/-- A state that is not there is allocated, and entered into the map if nothing fails. -/
theorem getOrCreateConn_of_none {dcid : Cid} (remote : SockaddrIn) (answers : Answers)
    (h : proxy.connections[connKey dcid]? = none) :
    getOrCreateConn proxy dcid remote answers =
        (none, { proxy with allocated := proxy.allocated + 1 }) ∨
      ∃ state : ConnectionState, state.address = proxy.allocated ∧
        getOrCreateConn proxy dcid remote answers =
          (some state, { proxy with
            allocated := proxy.allocated + 1
            connections := proxy.connections.insert (connKey dcid) state }) := by
  simp only [getOrCreateConn, h]
  split
  · exact .inl rfl
  · split
    · exact .inl rfl
    · split
      · exact .inl rfl
      · exact .inr ⟨_, rfl, rfl⟩

theorem outcome_of_handled (h : handleQuicPacket decode proxy packet answers = (some e, proxy')) :
    Outcome proxy e proxy' := by
  unfold handleQuicPacket at h
  split at h
  · cases h
  · cases hdecode : decode packet.data with
    | none =>
      rw [hdecode] at h
      cases h
    | some dcid =>
      have hcontains := Std.ExtTreeMap.contains_eq_isSome_getElem? (t := proxy.connections)
        (a := connKey dcid)
      simp only [hdecode, hcontains] at h
      cases hstate : proxy.connections[connKey dcid]? with
      | some state =>
        simp only [getOrCreateConn, hstate] at h
        cases h
        exact .found state hstate rfl rfl rfl
      | none =>
        rcases getOrCreateConn_of_none packet.remote answers hstate with
          hfailed | ⟨state, haddress, hcreated⟩
        · rw [hfailed] at h
          cases h
          exact .failed hstate rfl rfl rfl rfl
        · rw [hcreated, hstate] at h
          cases h
          exact .created state hstate (congrArg some haddress) rfl haddress rfl rfl

/-- A packet that is not decoded changes nothing. -/
theorem eq_of_not_handled (h : handleQuicPacket decode proxy packet answers = (none, proxy')) :
    proxy' = proxy := by
  unfold handleQuicPacket at h
  split at h
  · cases h
    rfl
  · split at h
    · cases h
      rfl
    · split at h <;> cases h

/-! ## The invariant -/

/-- The map holds each state that a packet has created, under the key of this packet's id. -/
structure Tracks (log : List Handled) (proxy : H3Proxy) : Prop where
  mem : ∀ key address, (∃ state, proxy.connections[key]? = some state ∧ state.address = address) ↔
    ∃ c ∈ log, c.Creates address ∧ connKey c.dcid = key
  fresh : ∀ c ∈ log, ∀ address, c.routed = some address → address < proxy.allocated
  inj : ∀ c ∈ log, ∀ c' ∈ log, ∀ address, c.Creates address → c'.Creates address → c = c'

theorem tracks_started (sslCtx : Bool) : Tracks [] (started sslCtx) where
  mem key address := by simp [started]
  fresh _ hc := absurd hc List.not_mem_nil
  inj _ hc := absurd hc List.not_mem_nil

/-- A state is found under the key of its creator's id. -/
theorem Tracks.exists_state {log : List Handled} (h : Tracks log proxy) {c : Handled}
    (hc : c ∈ log) (hcreates : c.Creates address) :
    ∃ state, proxy.connections[connKey c.dcid]? = some state ∧ state.address = address :=
  (h.mem _ _).mpr ⟨c, hc, hcreates, rfl⟩

/-- The states that were there before are those of the packets before. -/
theorem Tracks.not_creates {log : List Handled} (h : Tracks log proxy) {c : Handled}
    (hc : c ∈ log) :
    ¬c.Creates proxy.allocated := fun hcreates =>
  (h.fresh c hc _ hcreates.2).false

/-- A packet goes to a state that was there before if and only if its id has the state's key. -/
theorem routed_iff_of_outcome {c : Handled} (htracks : Tracks before proxy)
    (h : Outcome proxy e proxy') (hc : c ∈ before) (hcreates : c.Creates address) :
    e.routed = some address ↔ firstEight e.dcid = firstEight c.dcid := by
  rw [← connKey_eq_iff]
  obtain ⟨state', hstate', haddress'⟩ := htracks.exists_state hc hcreates
  cases h with
  | found state hstate hrouted hcreated hproxy =>
    rw [hrouted, Option.some.injEq]
    constructor
    · intro haddress
      obtain ⟨c', hc', hcreates', hkey⟩ := (htracks.mem _ _).mp ⟨state, hstate, haddress⟩
      rw [← hkey, htracks.inj c' hc' c hc address hcreates' hcreates]
    · intro hkey
      rw [hkey, hstate'] at hstate
      cases hstate
      exact haddress'
  | failed hstate hrouted hcreated hconnections hallocated =>
    refine iff_of_false (by simp [hrouted]) fun hkey => ?_
    rw [hkey, hstate'] at hstate
    cases hstate
  | created state hstate hrouted hcreated haddress hconnections hallocated =>
    refine iff_of_false (fun haddress => ?_) fun hkey => ?_
    · rw [hrouted] at haddress
      cases haddress
      exact htracks.not_creates hc hcreates
    · rw [hkey, hstate'] at hstate
      cases hstate

/-- One packet is routed right if and only if its id cannot be mistaken. -/
theorem routedRight_iff_of_outcome (htracks : Tracks before proxy) (h : Outcome proxy e proxy') :
    RoutedRight before e ↔ Unmistakable before e.dcid := by
  constructor
  · intro hright
    have hiff : ∀ c ∈ before, ∀ address, c.Creates address →
        (firstEight e.dcid = firstEight c.dcid ↔
          e.dcid = c.dcid ∨ ChosenFor before address e.dcid) := fun c hc address hcreates =>
      (routed_iff_of_outcome htracks h hc hcreates).symm.trans
        (hright c (List.mem_append_left _ hc) address hcreates)
    exact ⟨fun c hc address hcreates => (hiff c hc address hcreates).mp,
      fun c hc address hcreates hchosen => (hiff c hc address hcreates).mpr (.inr hchosen)⟩
  · intro hplain c hc address hcreates
    rcases List.mem_append.mp hc with hc | hc
    · rw [routed_iff_of_outcome htracks h hc hcreates]
      refine ⟨hplain.distinct c hc address hcreates, ?_⟩
      rintro (heq | hchosen)
      · rw [heq]
      · exact hplain.unused c hc address hcreates hchosen
    · obtain rfl := List.mem_singleton.mp hc
      exact iff_of_true hcreates.2 (.inl rfl)

/-- A packet that creates nothing, and the map as it was. -/
theorem Tracks.snoc_of_not_created (htracks : Tracks before proxy) (hcreated : e.created = false)
    (hconnections : proxy'.connections = proxy.connections)
    (hallocated : proxy.allocated ≤ proxy'.allocated)
    (hrouted : ∀ address, e.routed = some address → address < proxy'.allocated) :
    Tracks (before ++ [e]) proxy' := by
  have hnot : ∀ address, ¬e.Creates address := fun address h => by
    rw [Handled.Creates, hcreated] at h
    exact Bool.false_ne_true h.1
  have hmem : ∀ c ∈ before ++ [e], ∀ address, c.Creates address → c ∈ before := by
    intro c hc address hcreates
    rcases List.mem_append.mp hc with hc | hc
    · exact hc
    · rw [List.mem_singleton.mp hc] at hcreates
      exact absurd hcreates (hnot address)
  refine ⟨fun key address => ?_, fun c hc address hrouted' => ?_, ?_⟩
  · rw [hconnections, htracks.mem]
    constructor
    · rintro ⟨c, hc, hcreates⟩
      exact ⟨c, List.mem_append_left _ hc, hcreates⟩
    · rintro ⟨c, hc, hcreates⟩
      exact ⟨c, hmem c hc address hcreates.1, hcreates⟩
  · rcases List.mem_append.mp hc with hc | hc
    · exact (htracks.fresh c hc address hrouted').trans_le hallocated
    · rw [List.mem_singleton.mp hc] at hrouted'
      exact hrouted address hrouted'
  · intro c hc c' hc' address hcreates hcreates'
    exact htracks.inj c (hmem c hc address hcreates) c' (hmem c' hc' address hcreates') address
      hcreates hcreates'

/-- A packet that creates a state. -/
theorem Tracks.snoc_of_created (htracks : Tracks before proxy) {state : ConnectionState}
    (hstate : proxy.connections[connKey e.dcid]? = none)
    (hrouted : e.routed = some proxy.allocated) (hcreated : e.created = true)
    (haddress : state.address = proxy.allocated)
    (hconnections : proxy'.connections = proxy.connections.insert (connKey e.dcid) state)
    (hallocated : proxy'.allocated = proxy.allocated + 1) : Tracks (before ++ [e]) proxy' := by
  have hcreates : ∀ address, e.Creates address ↔ address = proxy.allocated := fun address => by
    rw [Handled.Creates, hcreated, hrouted]
    simp [eq_comm]
  refine ⟨fun key address => ?_, fun c hc address hrouted' => ?_, ?_⟩
  · rw [hconnections, Std.ExtTreeMap.getElem?_insert]
    by_cases hkey : connKey e.dcid = key
    · subst hkey
      have hold : ¬∃ c ∈ before, c.Creates address ∧ connKey c.dcid = connKey e.dcid := by
        rw [← htracks.mem, hstate]
        simp
      simp only [List.mem_append, List.mem_singleton, or_and_right, exists_or, exists_eq_left, hold,
        false_or, hcreates]
      simp [haddress, eq_comm]
    · have hother : ¬compare (connKey e.dcid) key = .eq := by simpa using hkey
      simp only [List.mem_append, List.mem_singleton, or_and_right, exists_or, exists_eq_left, hkey,
        and_false, or_false, hother, if_false]
      exact htracks.mem key address
  · rw [hallocated]
    rcases List.mem_append.mp hc with hc | hc
    · exact (htracks.fresh c hc address hrouted').trans_le (Nat.le_succ _)
    · rw [List.mem_singleton.mp hc, hrouted] at hrouted'
      cases hrouted'
      exact Nat.lt_succ_self _
  · intro c hc c' hc' address hc₁ hc₂
    rcases List.mem_append.mp hc with hc | hc <;> rcases List.mem_append.mp hc' with hc' | hc'
    · exact htracks.inj c hc c' hc' address hc₁ hc₂
    · rw [List.mem_singleton.mp hc', hcreates] at hc₂
      exact absurd (hc₂ ▸ hc₁) (htracks.not_creates hc)
    · rw [List.mem_singleton.mp hc, hcreates] at hc₁
      exact absurd (hc₁ ▸ hc₂) (htracks.not_creates hc')
    · rw [List.mem_singleton.mp hc, List.mem_singleton.mp hc']

/-- The invariant is kept. -/
theorem Tracks.snoc (htracks : Tracks before proxy) (h : Outcome proxy e proxy') :
    Tracks (before ++ [e]) proxy' := by
  cases h with
  | found state hstate hrouted hcreated hproxy =>
    subst hproxy
    refine htracks.snoc_of_not_created hcreated rfl le_rfl fun address haddress => ?_
    obtain ⟨c, hc, hcreates, -⟩ := (htracks.mem _ _).mp ⟨state, hstate, rfl⟩
    rw [hrouted] at haddress
    cases haddress
    exact htracks.fresh c hc _ hcreates.2
  | failed hstate hrouted hcreated hconnections hallocated =>
    refine htracks.snoc_of_not_created hcreated hconnections (by omega) fun address haddress => ?_
    rw [hrouted] at haddress
    cases haddress
  | created state hstate hrouted hcreated haddress hconnections hallocated =>
    exact htracks.snoc_of_created hstate hrouted hcreated haddress hconnections hallocated

/-! ## Runs -/

theorem routedRight_iff_of_tracks (inputs : List (Packet × Answers)) {past after : List Handled}
    (htracks : Tracks past proxy) (h : history decode proxy inputs = before ++ e :: after) :
    RoutedRight (past ++ before) e ↔ Unmistakable (past ++ before) e.dcid := by
  induction inputs generalizing past before proxy with
  | nil => simp [history] at h
  | cons input inputs ih =>
    obtain ⟨packet, answers⟩ := input
    rw [history] at h
    cases hhandled : handleQuicPacket decode proxy packet answers with
    | mk handled proxy' =>
      rw [hhandled] at h
      cases handled with
      | none =>
        rw [eq_of_not_handled hhandled] at h
        exact ih htracks h
      | some e₀ =>
        have houtcome := outcome_of_handled hhandled
        cases before with
        | nil =>
          obtain ⟨rfl, -⟩ := List.cons.inj h
          rw [List.append_nil]
          exact routedRight_iff_of_outcome htracks houtcome
        | cons e₁ before =>
          obtain ⟨rfl, hrest⟩ := List.cons.inj h
          have hnext := ih (htracks.snoc houtcome) hrest
          rwa [List.append_assoc] at hnext

/-- All packets of a run are routed to the states that they are for if and only if none of them has
an id that the server has chosen for a state that was created for another key, or an id that only
looks, in its first eight bytes, like that of a packet that created a state. -/
theorem routedRight_iff (decode : List UInt8 → Option Cid) (sslCtx : Bool)
    (inputs : List (Packet × Answers)) :
    (∀ before e after, history decode (started sslCtx) inputs = before ++ e :: after →
      RoutedRight before e) ↔
    ∀ before e after, history decode (started sslCtx) inputs = before ++ e :: after →
      Unmistakable before e.dcid := by
  refine forall_congr' fun before => forall_congr' fun e => forall_congr' fun after =>
    forall_congr' fun h => ?_
  exact routedRight_iff_of_tracks inputs (tracks_started sslCtx) h

/-- The id in a long header: its length stands behind the version. -/
def longHeader (data : List UInt8) : Option Cid :=
  if 6 ≤ data.length then some ((data.drop 6).take (data.getD 5 0).toNat) else none

def demoAnswers (first : UInt8) : Answers where
  wolfSslNew := true
  rand i := first + UInt8.ofNat i
  ngtcp2ConnServerNew := true
  nghttp3ConnServerNew := true
  newConnectionIds := []

/-- A first packet, and one to the id that the server has chosen. -/
def demoInputs : List (Packet × Answers) :=
  [(⟨[0xC0, 0, 0, 0, 1, 8, 1, 2, 3, 4, 5, 6, 7, 8, 0], ⟨0x7F000001, 5000⟩⟩, demoAnswers 11),
    (⟨[0xE0, 0, 0, 0, 1, 8, 11, 12, 13, 14, 15, 16, 17, 18, 0], ⟨0x7F000001, 5000⟩⟩,
      demoAnswers 21)]

/-- The second packet creates another state. -/
theorem not_routedRight_scid :
    ((history longHeader (started false) demoInputs).flatMap Handled.chosen).Nodup ∧
      ¬∀ before e after, history longHeader (started false) demoInputs = before ++ e :: after →
        RoutedRight before e := by
  have hlog : history longHeader (started false) demoInputs =
      [⟨[1, 2, 3, 4, 5, 6, 7, 8], some 0, true, [[11, 12, 13, 14, 15, 16, 17, 18]]⟩] ++
        ⟨[11, 12, 13, 14, 15, 16, 17, 18], some 1, true, [[21, 22, 23, 24, 25, 26, 27, 28]]⟩ ::
          [] := by
    decide +kernel
  refine ⟨by rw [hlog]; decide, fun h => ?_⟩
  have hright := h _ _ _ hlog _ List.mem_cons_self 0 ⟨rfl, rfl⟩
  cases hright.mpr (.inr ⟨_, List.mem_cons_self, rfl, List.mem_cons_self⟩)

end Freehold.Proxy
