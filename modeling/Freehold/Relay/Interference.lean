import Freehold.Foundation.ChangeLog
import Freehold.Relay.Registration

/-!
# Who can move the relay state

The socket takes datagrams from anybody, and the sender is not looked at. A Challenge marks the
log of a service and an assigned subdomain is a write to it, so what the service issues is the
report of `ChangeLog`; the writes of others are harmless exactly if the relay makes them too.
-/

namespace Freehold.Relay

open ChangeLog

/-- A datagram and its sender. -/
abbrev Datagram := Address × List UInt8

/-- The datagrams that the loop has been handed. -/
def deliveries (turns : List Turn) : List Datagram := turns.filterMap Turn.received

def Datagram.fromRelay (relayAddr : Address) (d : Datagram) : Bool := d.1 = relayAddr

/-- The bytes in `buf`. -/
def Datagram.data (d : Datagram) : List UInt8 := d.2.take 2048

/-- What is sent because of the time. -/
def Output.timeDriven : Output → Bool
  | .sendto _ bytes =>
    bytes[1]? = some RelayMsgType.register.byte || bytes[1]? = some RelayMsgType.heartbeat.byte
  | _ => false

/-- The Confirm messages and the callbacks. -/
def issued (outputs : List Output) : List Output := outputs.filter fun o => !o.timeDriven

/-- What a datagram means to the service: a Challenge, or a subdomain for it. -/
def entry (svc : RelayService) (relayAddr : Address) (d : Datagram) :
    Option (Entry Cookie (List Char)) :=
  match challenge? d.data with
  | some k => some ⟨d.fromRelay relayAddr, .inl k⟩
  | none =>
    if assigned svc d.data = [] then none
    else some ⟨d.fromRelay relayAddr, .inr (assigned svc d.data)⟩

def entries (svc : RelayService) (relayAddr : Address) (datagrams : List Datagram) :
    List (Entry Cookie (List Char)) :=
  datagrams.filterMap (entry svc relayAddr)

/-- A datagram that sets the flag. -/
def Datagram.registers (d : Datagram) : Bool := (challenge? d.data).isSome || isNeighbors d.data

/-- The datagrams of others do no harm: their Challenges and subdomains are harmless as entries,
and they do not set the flag for the relay. -/
structure Innocuous (svc : RelayService) (relayAddr : Address) (datagrams : List Datagram) :
    Prop where
  entries : Harmless (entries svc relayAddr datagrams)
  flag : ∀ d ∈ datagrams, d.registers → ∃ r ∈ datagrams, r.fromRelay relayAddr ∧ r.registers

/-- The same state of the service in the end, and the same Confirms and callbacks. -/
structure SameEffect (a b : Engine × List Output) : Prop where
  cookie : a.1.st.cookie = b.1.st.cookie
  registered : a.1.st.registered = b.1.st.registered
  subdomain : a.1.st.subdomain = b.1.st.subdomain
  issued : issued a.2 = issued b.2

variable {svc : RelayService} {relayAddr : Address} {started : ℕ} {turns : List Turn} {t : Turn}
  {d : Datagram} {datagrams : List Datagram}

/-! ## What is issued -/

/-- What the service issues for an item of its report. -/
def issue (svc : RelayService) (relayAddr : Address) : Cookie ⊕ List Char → List Output
  | .inl k => [confirm svc relayAddr k, .onRegistered svc.name svc.relayPort]
  | .inr sub => [.onSubdomain svc.name (fqdn sub)]

/-- What holds after every run. The first thing that is issued is the byte through the NAT. -/
structure Reports (svc : RelayService) (relayAddr : Address) (datagrams : List Datagram)
    (reached : Engine × List Output) : Prop where
  cookie : reached.1.st.cookie = (marks (entries svc relayAddr datagrams)).getLast?.getD .zero
  registered : reached.1.st.registered = datagrams.any Datagram.registers
  subdomain : reached.1.st.subdomain = (held none (entries svc relayAddr datagrams)).getD []
  issued : issued reached.2 = .sendto { relayAddr with port := svc.relayPort } [0] ::
    (report none (entries svc relayAddr datagrams)).flatMap (issue svc relayAddr)

/-- The messages that are due in a turn are time-driven. -/
theorem issued_turn (svc : RelayService) (relayAddr : Address) (e : Engine) (t : Turn) :
    issued (e.turn svc relayAddr t).2 = issued (t.handled svc relayAddr e.st).2 := by
  unfold Engine.turn issued
  simp only [List.filter_append]
  split <;> split <;> simp [sendHeartbeat, sendRegister, Output.timeDriven, relayMsg_type]

theorem deliveries_snoc : deliveries (turns ++ [t]) = deliveries turns ++ t.received.toList := by
  unfold deliveries
  rw [List.filterMap_append]
  cases h : t.received <;> simp [h]

theorem assigned_of_not_isNeighbors {data : List UInt8} (h : isNeighbors data = false) :
    assigned svc data = [] := by
  simp [assigned, h]

/-- What one datagram does to the state and to the report. -/
theorem demux_entry (svc : RelayService) (relayAddr : Address) (d : Datagram) {st : ServiceState}
    {cur : Option (List Char)} (hst : st.subdomain = cur.getD []) :
    (demux svc relayAddr st d.data).1 =
      { cookie := (marks (entry svc relayAddr d).toList).getLast?.getD st.cookie
        registered := st.registered || d.registers
        subdomain := (held cur (entry svc relayAddr d).toList).getD [] } ∧
    (demux svc relayAddr st d.data).2 =
      (report cur (entry svc relayAddr d).toList).flatMap (issue svc relayAddr) := by
  cases hchallenge : challenge? d.data with
  | some k =>
    have hentry : entry svc relayAddr d = some ⟨d.fromRelay relayAddr, .inl k⟩ := by
      simp [entry, hchallenge]
    rw [demux_of_challenge hchallenge, hentry]
    simp [marks, held, hst, Datagram.registers, hchallenge, issue]
  | none =>
    cases hneighbors : isNeighbors d.data with
    | false =>
      have hentry : entry svc relayAddr d = none := by
        simp [entry, hchallenge, assigned_of_not_isNeighbors hneighbors]
      rw [demux_of_other hchallenge hneighbors, hentry]
      simp [marks, held, hst.symm, Datagram.registers, hchallenge, hneighbors]
    | true =>
      rw [demux_of_neighbors hneighbors]
      by_cases hempty : assigned svc d.data = []
      · have hentry : entry svc relayAddr d = none := by simp [entry, hchallenge, hempty]
        simp [hempty, hentry, marks, held, hst.symm, Datagram.registers, hneighbors]
      · have hentry : entry svc relayAddr d =
            some ⟨d.fromRelay relayAddr, .inr (assigned svc d.data)⟩ := by
          simp [entry, hchallenge, hempty]
        rw [hentry]
        by_cases hsame : some (assigned svc d.data) = cur
        · subst hsame
          rw [Option.getD_some] at hst
          simp [hst, marks, held, Datagram.registers, hneighbors]
        · have hne : assigned svc d.data ≠ st.subdomain := by
            rintro heq
            rw [hst] at heq
            cases cur with
            | none => exact hempty heq
            | some x => exact hsame (congrArg some heq)
          simp [hempty, hne, marks, held, report_change hsame, Datagram.registers, hneighbors,
            issue]

/-- No answer to a datagram is time-driven. -/
theorem issued_flatMap_issue (items : List (Cookie ⊕ List Char)) :
    issued (items.flatMap (issue svc relayAddr)) = items.flatMap (issue svc relayAddr) := by
  refine List.filter_eq_self.mpr fun o ho => ?_
  obtain ⟨item, -, ho⟩ := List.mem_flatMap.mp ho
  cases item with
  | inl k =>
    rcases List.mem_cons.mp ho with rfl | ho
    · rfl
    · rw [List.mem_singleton.mp ho]
      rfl
  | inr sub =>
    rw [List.mem_singleton.mp ho]
    rfl

theorem handled_of_received (h : t.received = some d) (svc : RelayService) (relayAddr : Address)
    (st : ServiceState) :
    t.handled svc relayAddr st = demux svc relayAddr st d.data := by
  unfold Turn.handled Turn.data
  rw [h]
  rfl

theorem handled_of_timeout (h : t.received = none) (svc : RelayService) (relayAddr : Address)
    (st : ServiceState) :
    t.handled svc relayAddr st = (st, []) := by
  unfold Turn.handled Turn.data
  rw [h]
  rfl

theorem reports (svc : RelayService) (relayAddr : Address) (started : ℕ) (turns : List Turn) :
    Reports svc relayAddr (deliveries turns) (engineLoop svc relayAddr started turns) := by
  induction turns using List.reverseRecOn with
  | nil => exact ⟨rfl, rfl, rfl, rfl⟩
  | append_singleton turns t ih =>
    rw [engineLoop_snoc, deliveries_snoc]
    generalize engineLoop svc relayAddr started turns = reached at ih ⊢
    have hissued : ∀ outputs, issued (outputs ++ (reached.1.turn svc relayAddr t).2) =
        issued outputs ++ issued (t.handled svc relayAddr reached.1.st).2 := fun outputs => by
      rw [← issued_turn, issued, List.filter_append]
      rfl
    cases hreceived : t.received with
    | none =>
      have hhandled := handled_of_timeout hreceived svc relayAddr reached.1.st
      rw [Option.toList_none, List.append_nil]
      refine ⟨?_, ?_, ?_, ?_⟩
      · rw [← ih.cookie, turn_st, hhandled]
      · rw [← ih.registered, turn_st, hhandled]
      · rw [← ih.subdomain, turn_st, hhandled]
      · rw [hissued, hhandled, ← ih.issued]
        exact List.append_nil _
    | some d =>
      have hhandled := handled_of_received hreceived svc relayAddr reached.1.st
      have hentries : entries svc relayAddr (deliveries turns ++ [d]) =
          entries svc relayAddr (deliveries turns) ++ (entry svc relayAddr d).toList := by
        unfold entries
        rw [List.filterMap_append]
        cases h : entry svc relayAddr d <;> simp [h]
      obtain ⟨hst, houtputs⟩ := demux_entry svc relayAddr d ih.subdomain
      rw [Option.toList_some]
      refine ⟨?_, ?_, ?_, ?_⟩
      · rw [turn_st, hhandled, hst, hentries, marks_append, List.getLast?_append, ih.cookie]
        cases (marks (entry svc relayAddr d).toList).getLast? <;> rfl
      · rw [turn_st, hhandled, hst, List.any_append, ih.registered]
        simp
      · rw [turn_st, hhandled, hst, hentries, held_append]
      · rw [hissued, hhandled, houtputs, hentries, report_append, List.flatMap_append, ih.issued,
          issued_flatMap_issue]
        rfl

/-! ## Without the datagrams of others -/

theorem confirm_injective : Function.Injective (confirm svc relayAddr) := by
  intro k k' h
  have hmsg := (Output.sendto.inj h).2
  have hbytes : k.bytes = k'.bytes := by
    calc k.bytes = ((relayMsg .confirm svc.relayPort (some k) []).drop 4).take 16 :=
          (relayMsg_cookie .confirm svc.relayPort (some k) []).symm
      _ = ((relayMsg .confirm svc.relayPort (some k') []).drop 4).take 16 := by rw [hmsg]
      _ = k'.bytes := relayMsg_cookie .confirm svc.relayPort (some k') []
  cases k
  cases k'
  cases hbytes
  rfl

theorem fqdn_injective : Function.Injective fqdn := fun _ _ => List.append_cancel_right

/-- What is issued tells what has been reported. -/
theorem flatMap_issue_injective :
    Function.Injective fun items : List (Cookie ⊕ List Char) =>
      items.flatMap (issue svc relayAddr) := by
  intro items others h
  induction items generalizing others with
  | nil =>
    cases others with
    | nil => rfl
    | cons other others => cases other <;> simp [issue] at h
  | cons item items ih =>
    cases others with
    | nil => cases item <;> simp [issue] at h
    | cons other others =>
      simp only [List.flatMap_cons] at h
      cases item with
      | inl k =>
        cases other with
        | inl k' =>
          obtain ⟨hconfirm, h⟩ := List.cons.inj h
          rw [confirm_injective hconfirm, ih (List.cons.inj h).2]
        | inr sub => cases (List.cons.inj h).1
      | inr sub =>
        cases other with
        | inl k => cases (List.cons.inj h).1
        | inr sub' =>
          obtain ⟨hsubdomain, h⟩ := List.cons.inj h
          rw [fqdn_injective (Output.onSubdomain.inj hsubdomain).2, ih h]

theorem trusted_of_entry {e : Entry Cookie (List Char)} (h : entry svc relayAddr d = some e) :
    e.trusted = d.fromRelay relayAddr := by
  unfold entry at h
  split at h
  · cases h
    rfl
  · split at h
    · cases h
    · cases h
      rfl

theorem entries_filter (svc : RelayService) (relayAddr : Address) (datagrams : List Datagram) :
    entries svc relayAddr (datagrams.filter (Datagram.fromRelay relayAddr)) =
      trustedOnly (entries svc relayAddr datagrams) := by
  induction datagrams with
  | nil => rfl
  | cons d datagrams ih =>
    unfold entries trustedOnly at ih ⊢
    cases hentry : entry svc relayAddr d with
    | none => cases hrelay : d.fromRelay relayAddr <;> simp [hentry, hrelay, ih]
    | some e =>
      have htrusted := trusted_of_entry hentry
      cases hrelay : d.fromRelay relayAddr <;> simp [hentry, hrelay, htrusted, ih]

theorem deliveries_map_some (datagrams : List Datagram) :
    deliveries (datagrams.map fun d => ⟨some d, 0⟩) = datagrams := by
  simp [deliveries, List.filterMap_map]

/-- Without the datagrams that are not the relay's, whatever the timing, the service ends in the
same state and issues the same, if and only if those datagrams are innocuous. -/
theorem sameEffect_iff (svc : RelayService) (relayAddr : Address) (started : ℕ)
    (turns : List Turn) :
    (∀ started' turns', deliveries turns' =
        (deliveries turns).filter (Datagram.fromRelay relayAddr) →
      SameEffect (engineLoop svc relayAddr started turns)
        (engineLoop svc relayAddr started' turns')) ↔
      Innocuous svc relayAddr (deliveries turns) := by
  have hfull := reports svc relayAddr started turns
  constructor
  · intro h
    have heffect := h started (((deliveries turns).filter (Datagram.fromRelay relayAddr)).map
      fun d => ⟨some d, 0⟩) (deliveries_map_some _)
    have hrelay := reports svc relayAddr started
      (((deliveries turns).filter (Datagram.fromRelay relayAddr)).map fun d => ⟨some d, 0⟩)
    rw [deliveries_map_some] at hrelay
    refine ⟨(report_trusted_eq_iff _).mp ?_, fun d hd hregisters => ?_⟩
    · have hissued := heffect.issued
      rw [hfull.issued, hrelay.issued, entries_filter] at hissued
      exact (flatMap_issue_injective (List.cons.inj hissued).2).symm
    · have hflag := heffect.registered
      rw [hfull.registered, hrelay.registered, List.any_filter, List.any_eq_true.mpr
        ⟨d, hd, hregisters⟩, eq_comm, List.any_eq_true] at hflag
      obtain ⟨r, hr, hboth⟩ := hflag
      exact ⟨r, hr, Bool.and_eq_true_iff.mp hboth⟩
  · rintro hinnocuous started' turns' hturns'
    have hrelay := reports svc relayAddr started' turns'
    rw [hturns'] at hrelay
    have hreport := (report_trusted_eq_iff _).mpr hinnocuous.entries
    rw [← entries_filter] at hreport
    refine ⟨?_, ?_, ?_, ?_⟩
    · rw [hfull.cookie, hrelay.cookie, marks_eq none, marks_eq none, hreport]
    · rw [hfull.registered, hrelay.registered, Bool.eq_iff_iff, List.any_filter]
      simp only [List.any_eq_true, Bool.and_eq_true]
      constructor
      · rintro ⟨d, hd, hregisters⟩
        exact hinnocuous.flag d hd hregisters
      · rintro ⟨r, hr, -, hregisters⟩
        exact ⟨r, hr, hregisters⟩
    · rw [hfull.subdomain, hrelay.subdomain, held_eq, held_eq, hreport]
    · rw [hfull.issued, hrelay.issued, hreport]

/-- Somebody else's Challenge of 20 bytes, to a service that the relay has sent nothing. -/
def forgedChallenge (sender : Address) : List Turn :=
  [⟨some (sender, [relayMagic, RelayMsgType.challenge.byte, 0, 0] ++ List.replicate 16 1), 0⟩]

/-- It is confirmed and registers the service; without it nothing happens. -/
theorem forged_challenge_confirmed :
    let svc : RelayService := ⟨"mpc-node".toList, 9000⟩
    let relayAddr : Address := ⟨0x0A000001, 9999⟩
    let sender : Address := ⟨0x0A000002, 9999⟩
    let forged := engineLoop svc relayAddr 0 (forgedChallenge sender)
    let clean := engineLoop svc relayAddr 0 [⟨none, 0⟩]
    (deliveries (forgedChallenge sender)).filter (Datagram.fromRelay relayAddr) = [] ∧
      deliveries [⟨none, 0⟩] = [] ∧
      forged.1.st.registered = true ∧ clean.1.st.registered = false ∧
      confirm svc relayAddr ⟨List.replicate 16 1, rfl⟩ ∈ issued forged.2 ∧
      confirm svc relayAddr ⟨List.replicate 16 1, rfl⟩ ∉ issued clean.2 := by
  decide +kernel

end Freehold.Relay
