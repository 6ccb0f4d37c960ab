import Freehold.Discovery.Reading
import Freehold.Foundation.Pieces
import Freehold.Foundation.WebSocket

/-!
# The loop of a subscriber (`discovery.cpp`)

`handle_ws_upgrade` reads the frames of its client only to see when the client is gone. The parts
of a header are read by one `recv` each, the payload by as many as it takes.

## Main results

* `asserts_subscriber` — wherever the loop has got to, it is at a frame or in its payload.
* `readFrames_aligned` — the loop stays at the boundaries of the frames, unless a part of a header
  is divided or a length is too large.
* `removeClient_of_plays` — a client is removed once it is gone, unless a `recv` times out.
-/

namespace Freehold.Discovery.Descriptors

open Interaction Interaction.Program

/-! ## What there is to read -/

abbrev Boundary : List Char → List Char → Prop := WebSocket.Boundary Char.toNat

abbrev extendedSize : Char → ℕ := WebSocket.extendedSize Char.toNat

abbrev maskSize : Char → ℕ := WebSocket.maskSize Char.toNat

abbrev payloadLength : Char → List Char → ℕ := WebSocket.payloadLength Char.toNat

/-- The data that has not been read. -/
def unread (s : List Outcome) : List Char :=
  s.flatMap fun
    | .data bytes => bytes
    | _ => []

/-- The stream is at its end, or broken. -/
def Ended : List Outcome → Prop
  | .closed :: _ | .error :: _ => True
  | _ => False

/-- An error has been found. -/
def Lost (ending s : List Outcome) : Prop :=
  ∃ rest, ending = .error :: rest ∧ s.length ≤ rest.length

/-- What is left behind `n` bytes. -/
def leftOf (segments : List (List Char)) (ending : List Outcome) (n : ℕ) : List Outcome :=
  (Pieces.advance n segments).map .data ++ ending

/-- No segment ends among the `size` bytes from `n` on, or it is the end of the stream. -/
def Undivided (segments : List (List Char)) (ending : List Outcome) (n size : ℕ) : Prop :=
  ∀ m, Pieces.Cut segments m → n < m → m < n + size → segments.flatten.length ≤ m ∧ Ended ending

variable {segments : List (List Char)} {ending s s' : List Outcome} {x : List Char} {n size : ℕ}

theorem unread_data (segments : List (List Char)) (ending : List Outcome) :
    unread (segments.map .data ++ ending) = segments.flatten ++ unread ending := by
  induction segments with
  | nil => rfl
  | cons d ds ih =>
    rw [List.map_cons, List.cons_append, List.flatten_cons, List.append_assoc, ← ih]
    rfl

theorem unread_leftOf (segments : List (List Char)) (ending : List Outcome) (n : ℕ) :
    unread (leftOf segments ending n) = segments.flatten.drop n ++ unread ending := by
  rw [leftOf, unread_data, Pieces.flatten_advance]

theorem leftOf_zero (hne : ∀ d ∈ segments, d ≠ []) (ending : List Outcome) :
    leftOf segments ending 0 = segments.map .data ++ ending := by
  rw [leftOf, Pieces.advance_zero hne]

theorem leftOf_of_le (hn : segments.flatten.length ≤ n) (ending : List Outcome) :
    leftOf segments ending n = ending := by
  rw [leftOf, Pieces.advance_of_le hn]
  rfl

theorem length_of_receive (h : receive size s = some (x, s')) : s'.length ≤ s.length := by
  match s, h with
  | .data bytes :: rest, h =>
    simp only [receive, Option.some.injEq, Prod.mk.injEq] at h
    rw [← h.2]
    split_ifs
    · exact Nat.le_succ _
    · exact le_rfl
  | .closed :: rest, h =>
    cases h
    exact le_rfl
  | .timeout :: rest, h =>
    cases h
    exact Nat.le_succ _
  | .error :: rest, h =>
    cases h
    exact Nat.le_succ _

theorem Lost.of_effect {o : Call} {a : Sockets.Answer o} (h : Lost ending s)
    (heffect : peerEffect o s a s') : Lost ending s' := by
  obtain ⟨rest, hending, hlength⟩ := h
  refine ⟨rest, hending, le_trans ?_ hlength⟩
  cases o with
  | recv fd size => exact length_of_receive heffect
  | _ =>
    cases heffect
    exact le_rfl

/-- A `recv` before the end reads some bytes, and all it can hold if they are not divided. -/
theorem receive_leftOf (hne : ∀ d ∈ segments, d ≠ []) (ending : List Outcome)
    (hn : n < segments.flatten.length) (hsize : 0 < size) :
    ∃ k, 0 < k ∧ k ≤ min size recvMax ∧ n + k ≤ segments.flatten.length ∧
      receive size (leftOf segments ending n) =
        some ((segments.flatten.drop n).take k, leftOf segments ending (n + k)) ∧
      (size ≤ recvMax → Undivided segments ending n size →
        k = size ∨ (k < size ∧ n + k = segments.flatten.length ∧ Ended ending)) := by
  obtain ⟨d, ds, hadvance, hd, hcut, hmore⟩ := Pieces.exists_advance hne hn
  have hpos : 0 < d.length := List.length_pos_iff.mpr hd
  have hroom : 0 < min size recvMax := lt_min hsize (by decide)
  have hdrop : segments.flatten.drop n = d ++ ds.flatten := by
    rw [← Pieces.flatten_advance, hadvance, List.flatten_cons]
  have hlength := congrArg List.length hdrop
  rw [List.length_drop, List.length_append] at hlength
  refine ⟨min (min size recvMax) d.length, lt_min hroom hpos, min_le_left _ _, ?_, ?_, ?_⟩
  · omega
  · have hleft := hmore (min (min size recvMax) d.length) (min_le_right _ _)
    rw [leftOf, leftOf, hadvance, hleft, hdrop,
      List.take_append_of_le_length (min_le_right _ _), ← List.take_eq_take_min]
    by_cases hall : d.length ≤ min size recvMax
    · simp [receive, hall]
    · simp [receive, hall, min_eq_left (not_le.mp hall).le, not_le.mp hall]
  · intro hmax hundivided
    rw [min_eq_left hmax]
    by_cases hall : size ≤ d.length
    · exact .inl (min_eq_left hall)
    · have hend := hundivided _ hcut (by omega) (by omega)
      exact .inr ⟨by omega, by omega, hend.2⟩

/-- What a `recv` finds behind the data. -/
theorem receive_ending (hdata : ∀ bytes rest, ending ≠ .data bytes :: rest)
    (htimeout : ∀ rest, ending ≠ .timeout :: rest) (h : receive size ending = some (x, s')) :
    x = [] ∧ Ended ending ∧ (s' = ending ∨ Lost ending s') := by
  match ending, hdata, htimeout, h with
  | .data bytes :: rest, hdata, _, _ => exact absurd rfl (hdata bytes rest)
  | .timeout :: rest, _, htimeout, _ => exact absurd rfl (htimeout rest)
  | .closed :: rest, _, _, h =>
    cases h
    exact ⟨rfl, trivial, .inl rfl⟩
  | .error :: rest, _, _, h =>
    cases h
    exact ⟨rfl, trivial, .inr ⟨_, rfl, le_rfl⟩⟩

/-! ## When the loop keeps to the frames -/

/-- A frame that is no close frame begins behind `n` bytes of the stream. -/
structure Begins (stream : List Char) (n : ℕ) (first : Char) (rest : List Char) : Prop where
  drop : stream.drop n = first :: rest
  boundary : Boundary stream (first :: rest)
  opcode : first.toNat % 16 ≠ 8

/-- The length of a payload fits `(int)(length - read)`, or the stream ends before that is 0. -/
def FitsInt (length left : ℕ) : Prop := length < 2 ^ 32 ∨ left ≤ length % 2 ^ 32

/-- Every part of a header can be read at once, and no length is too large. -/
structure Smooth (segments : List (List Char)) (ending : List Outcome) : Prop where
  head : ∀ n first rest, Begins segments.flatten n first rest → Undivided segments ending n 2
  extended : ∀ n first second bytes, Begins segments.flatten n first (second :: bytes) →
    Undivided segments ending (n + 2) (extendedSize second)
  mask : ∀ n first second bytes, Begins segments.flatten n first (second :: bytes) →
    Undivided segments ending (n + 2 + extendedSize second) (maskSize second)
  length : ∀ n first second bytes, Begins segments.flatten n first (second :: bytes) →
    extendedSize second + maskSize second ≤ bytes.length →
    FitsInt (payloadLength second (bytes.take (extendedSize second)))
      (bytes.length - (extendedSize second + maskSize second))

/-- There is memory for every payload. A second byte that has not been read may say anything. -/
structure Granted (grants : ℕ → Prop) (stream : List Char) : Prop where
  length : ∀ n first second bytes, Begins stream n first (second :: bytes) →
    extendedSize second + maskSize second ≤ bytes.length →
    grants (payloadLength second (bytes.take (extendedSize second)))
  unassigned : ∀ n first, Begins stream n first [] → ∀ size < 126, grants size

/-- The server is running, memory is there for what `grants` says, and no `recv` times out. -/
def Serving (grants : ℕ → Prop) : SocketEvent → List Outcome → Prop
  | ⟨.running, x⟩, _ => x = true
  | ⟨.allocate size, x⟩, _ => grants size → x = true
  | ⟨.recv _ _, _⟩, s => ∀ rest, s ≠ .timeout :: rest
  | _, _ => True

/-- The client has sent a close frame, of which the first byte has been read. -/
def ReadClose (stream left : List Char) : Prop :=
  ∃ first rest, Boundary stream (first :: rest) ∧ first.toNat % 16 = 8 ∧
    (left = rest ∨ left = rest.tail)

/-! ## On the way from frame to frame -/

/-- A client is removed behind a close frame or once it is gone, and no exception is thrown. -/
def Permits (segments : List (List Char)) (ending : List Outcome) (granted : Prop) :
    Call → List Outcome → Prop
  | .removeClient _, s =>
    (∃ n, s = leftOf segments ending n ∧
      ReadClose segments.flatten (segments.flatten.drop n)) ∨
    (s = ending ∧ Ended ending) ∨ Lost ending s
  | .terminate, s => Lost ending s ∨ ¬granted
  | _, _ => True

/-- The loop of `fd` is at a frame or in its payload. -/
inductive AtFrame (fd : Descriptor) (segments : List (List Char)) (ending : List Outcome) :
    Point → List Outcome → Prop where
  | readFrames (n : ℕ) (h : Boundary segments.flatten (segments.flatten.drop n) ∨
      segments.flatten.length ≤ n) :
      AtFrame fd segments ending (.readFrames fd) (leftOf segments ending n)
  | readPayload (n remaining : ℕ) (hn : n ≤ segments.flatten.length)
      (h : Boundary segments.flatten (segments.flatten.drop (n + remaining)) ∨
        segments.flatten.length ≤ n + remaining)
      (hfits : FitsInt remaining (segments.flatten.length - n)) :
      AtFrame fd segments ending (.readPayload fd remaining) (leftOf segments ending n)
  | lost (k : Point) (s : List Outcome) (h : Lost ending s) : AtFrame fd segments ending k s

variable {sha1 : List Char → List Char} {fd : Descriptor} {grants : ℕ → Prop} {granted : Prop}

abbrev Goes (sha1 : List Char → List Char) (fd : Descriptor) (grants : ℕ → Prop)
    (segments : List (List Char)) (ending : List Outcome) (granted : Prop) :
    Code (Option Point) → List Outcome → Prop :=
  (peer sha1).Asserts (Serving grants) (Permits segments ending granted)
    (Threads.Continues (AtFrame fd segments ending))

/-- Behind an error nothing is asserted. -/
theorem goes_of_lost (sha1 : List Char → List Char) (fd : Descriptor) (h : Lost ending s)
    (p : Code (Option Point)) :
    Goes sha1 fd grants segments ending granted p s := by
  refine Threads.Asserts.of_invariant (I := Lost ending) ?_ ?_ ?_ h
  · intro o s a s' hlost heffect
    exact hlost.of_effect heffect
  · intro o s hlost
    cases o with
    | removeClient fd => exact .inr (.inr hlost)
    | terminate => exact .inl hlost
    | _ => trivial
  · intro next s hlost
    cases next with
    | none => trivial
    | some k => exact .lost k s hlost

theorem goes_disconnect (h : Permits segments ending granted (.removeClient fd) s) :
    Goes sha1 fd grants segments ending granted (disconnect fd) s :=
  ⟨h, fun _ _ _ _ => ⟨trivial, fun _ _ _ _ => trivial⟩⟩

section Loop

variable (hne : ∀ d ∈ segments, d ≠ []) (hdata : ∀ bytes rest, ending ≠ .data bytes :: rest)

include hdata in
/-- A `recv` behind the data. -/
theorem goes_recv_ending {next : List Char → Code (Option Point)}
    (h : Ended ending → Goes sha1 fd grants segments ending granted (next []) ending) :
    Goes sha1 fd grants segments ending granted (.call (.recv fd size) next) ending := by
  refine ⟨trivial, fun x s' heffect hserving => ?_⟩
  obtain ⟨rfl, hended, rfl | hlost⟩ := receive_ending hdata hserving heffect
  · exact h hended
  · exact goes_of_lost sha1 fd hlost _

include hne hdata in
/-- A part of a header is read whole, or the stream ends in it. -/
theorem goes_recv {next : List Char → Code (Option Point)} (hsize : 0 < size)
    (hmax : size ≤ recvMax) (hn : n ≤ segments.flatten.length)
    (hundivided : Undivided segments ending n size)
    (hwhole : ∀ x, x = (segments.flatten.drop n).take size → x.length = size →
      n + size ≤ segments.flatten.length →
      Goes sha1 fd grants segments ending granted (next x) (leftOf segments ending (n + size)))
    (hpart : ∀ x, x = segments.flatten.drop n → x.length < size → Ended ending →
      Goes sha1 fd grants segments ending granted (next x) ending) :
    Goes sha1 fd grants segments ending granted (.call (.recv fd size) next)
      (leftOf segments ending n) := by
  rcases hn.lt_or_eq with hlt | heq
  · refine ⟨trivial, fun x s' heffect _ => ?_⟩
    obtain ⟨k, -, -, hk, hreceive, hall⟩ := receive_leftOf hne ending hlt hsize
    cases Option.some.inj (heffect.symm.trans hreceive)
    have hlength : ((segments.flatten.drop n).take k).length = k := by
      rw [List.length_take, List.length_drop]
      omega
    rcases hall hmax hundivided with rfl | ⟨hless, hend, hended⟩
    · exact hwhole _ rfl hlength hk
    · have hall : (segments.flatten.drop n).length ≤ k := by
        rw [List.length_drop]
        omega
      rw [leftOf_of_le hend.ge]
      exact hpart _ (List.take_of_length_le hall) (hlength.trans_lt hless) hended
  · rw [leftOf_of_le heq.ge]
    refine goes_recv_ending hdata fun hended => ?_
    exact hpart [] (List.drop_eq_nil_of_le heq.ge).symm hsize hended

include hne hdata in
theorem goes_recv_length {next : Option ℕ → Code (Option Point)} (hsize : 0 < size)
    (hmax : size ≤ recvMax) (hn : n ≤ segments.flatten.length)
    (hundivided : Undivided segments ending n size)
    (hwhole : n + size ≤ segments.flatten.length → Goes sha1 fd grants segments ending granted
      (next (some (bigEndian ((segments.flatten.drop n).take size))))
      (leftOf segments ending (n + size)))
    (hpart : Ended ending → Goes sha1 fd grants segments ending granted (next none) ending) :
    Goes sha1 fd grants segments ending granted
      (.call (.recv fd size) fun x => next (if x.length = size then some (bigEndian x) else none))
      (leftOf segments ending n) := by
  refine goes_recv hne hdata hsize hmax hn hundivided ?_ ?_
  · rintro x rfl hx hle
    rw [if_pos hx]
    exact hwhole hle
  · intro x _ hx hended
    rw [if_neg hx.ne]
    exact hpart hended

include hne hdata in
theorem goes_readLength {second : Char} {next : Option ℕ → Code (Option Point)}
    (hn : n ≤ segments.flatten.length)
    (hundivided : Undivided segments ending n (extendedSize second))
    (hwhole : n + extendedSize second ≤ segments.flatten.length →
      Goes sha1 fd grants segments ending granted
        (next (some (payloadLength second ((segments.flatten.drop n).take (extendedSize second)))))
        (leftOf segments ending (n + extendedSize second)))
    (hpart : Ended ending → Goes sha1 fd grants segments ending granted (next none) ending) :
    Goes sha1 fd grants segments ending granted
      (readLength fd (second.toNat % 128) >>= next) (leftOf segments ending n) := by
  by_cases hshort : second.toNat % 128 < 126
  · have hlength : payloadLength second ((segments.flatten.drop n).take (extendedSize second)) =
        second.toNat % 128 := WebSocket.payloadLength_short hshort _
    have hsize : extendedSize second = 0 := WebSocket.extendedSize_short hshort
    rw [hlength, hsize] at hwhole
    rw [readLength, if_neg (by omega), if_neg (by omega)]
    exact hwhole hn
  · have hlength (extended : List Char) : payloadLength second extended = bigEndian extended :=
      WebSocket.payloadLength_long (by omega) extended
    rw [hlength] at hwhole
    by_cases htwo : second.toNat % 128 = 126
    · have hsize : extendedSize second = 2 := WebSocket.extendedSize_two htwo
      rw [hsize] at hundivided hwhole
      rw [readLength, if_pos htwo]
      exact goes_recv_length hne hdata (by decide) (by decide) hn hundivided hwhole hpart
    · have height : second.toNat % 128 = 127 := by omega
      have hsize : extendedSize second = 8 := WebSocket.extendedSize_eight height
      rw [hsize] at hundivided hwhole
      rw [readLength, if_neg htwo, if_pos height]
      exact goes_recv_length hne hdata (by decide) (by decide) hn hundivided hwhole hpart

include hne hdata in
theorem goes_readMask {second : Char} {next : Bool → Code (Option Point)}
    (hn : n ≤ segments.flatten.length)
    (hundivided : Undivided segments ending n (maskSize second))
    (hwhole : n + maskSize second ≤ segments.flatten.length →
      Goes sha1 fd grants segments ending granted (next true)
        (leftOf segments ending (n + maskSize second)))
    (hpart : Ended ending → Goes sha1 fd grants segments ending granted (next false) ending) :
    Goes sha1 fd grants segments ending granted
      (readMask fd (128 ≤ second.toNat) >>= next) (leftOf segments ending n) := by
  by_cases hmasked : 128 ≤ second.toNat
  · have hcode : (readMask fd (128 ≤ second.toNat) >>= next) =
        .call (.recv fd 4) fun x => next (decide (x.length = 4)) := by
      rw [readMask, if_pos (decide_eq_true hmasked)]
      rfl
    rw [show maskSize second = 4 from if_pos hmasked] at hundivided hwhole
    rw [hcode]
    refine goes_recv hne hdata (by decide) (by decide) hn hundivided ?_ ?_
    · intro x _ hx hle
      rw [decide_eq_true hx]
      exact hwhole hle
    · intro x _ hx hended
      rw [decide_eq_false hx.ne]
      exact hpart hended
  · rw [show maskSize second = 0 from if_neg hmasked] at hwhole
    rw [readMask, if_neg (by simpa using hmasked)]
    exact hwhole hn

include hne hdata in
/-- From the second byte of a frame to its payload. -/
theorem goes_readPrelude {second : Char} (hn : n ≤ segments.flatten.length)
    (hextended : Undivided segments ending n (extendedSize second))
    (hmask : Undivided segments ending (n + extendedSize second) (maskSize second))
    (hgrants : n + extendedSize second + maskSize second ≤ segments.flatten.length → granted →
      grants (payloadLength second ((segments.flatten.drop n).take (extendedSize second))))
    (hnext : n + extendedSize second + maskSize second ≤ segments.flatten.length →
      AtFrame fd segments ending (.readPayload fd
        (payloadLength second ((segments.flatten.drop n).take (extendedSize second))))
        (leftOf segments ending (n + extendedSize second + maskSize second))) :
    Goes sha1 fd grants segments ending granted (readPrelude fd second)
      (leftOf segments ending n) := by
  have hgone (hended : Ended ending) :
      Goes sha1 fd grants segments ending granted (disconnect fd) ending :=
    goes_disconnect (.inr (.inl ⟨rfl, hended⟩))
  refine goes_readLength hne hdata hn hextended ?_ ?_
  · intro hle
    refine goes_readMask hne hdata hle hmask ?_ hgone
    intro hheader
    refine ⟨trivial, ?_⟩
    rintro allocated s' rfl hserving
    cases allocated with
    | true => exact hnext hheader
    | false =>
      have hnot : ¬granted := fun hgranted =>
        absurd (hserving (hgrants hheader hgranted)) Bool.false_ne_true
      exact ⟨.inr hnot, nofun⟩
  · exact hgone

include hne hdata in
/-- The header of a frame that is there with its second byte. -/
theorem goes_readPrelude_of_begins {first second : Char} {bytes : List Char}
    (hsmooth : Smooth segments ending) (hgranted : granted → Granted grants segments.flatten)
    (hbegins : Begins segments.flatten n first (second :: bytes)) :
    Goes sha1 fd grants segments ending granted (readPrelude fd second)
      (leftOf segments ending (n + 2)) := by
  have hdrop : segments.flatten.drop (n + 2) = bytes := by
    rw [← List.drop_drop, hbegins.drop, List.drop_succ_cons, List.drop_succ_cons, List.drop_zero]
  have hlength := congrArg List.length hbegins.drop
  rw [List.length_drop, List.length_cons, List.length_cons] at hlength
  have hheader (hle : n + 2 + extendedSize second + maskSize second ≤ segments.flatten.length) :
      extendedSize second + maskSize second ≤ bytes.length := by omega
  refine goes_readPrelude hne hdata (by omega) (hsmooth.extended _ _ _ _ hbegins)
    (hsmooth.mask _ _ _ _ hbegins) ?_ ?_
  · intro hle hall
    rw [hdrop]
    exact (hgranted hall).length _ _ _ _ hbegins (hheader hle)
  · intro hle
    rw [hdrop]
    refine .readPayload _ _ hle ?_ ?_
    · by_cases hpayload : extendedSize second + maskSize second +
          payloadLength second (bytes.take (extendedSize second)) ≤ bytes.length
      · have hnext :=
          hbegins.boundary.next (WebSocket.frame_eq_some rfl rfl hpayload) hbegins.opcode
        rw [← hdrop, List.drop_drop, hdrop, ← Nat.add_assoc, ← Nat.add_assoc] at hnext
        exact .inl hnext
      · exact .inr (by omega)
    · have hfits := hsmooth.length _ _ _ _ hbegins (hheader hle)
      rwa [show bytes.length - (extendedSize second + maskSize second) =
        segments.flatten.length - (n + 2 + extendedSize second + maskSize second) by omega] at hfits

include hne hdata in
/-- A frame that is no close frame, up to its payload. -/
theorem goes_readFrame_of_begins {first : Char} {rest : List Char}
    (hsmooth : Smooth segments ending) (hgranted : granted → Granted grants segments.flatten)
    (hbegins : Begins segments.flatten n first rest) :
    Goes sha1 fd grants segments ending granted (readFrame fd) (leftOf segments ending n) := by
  have hlength := congrArg List.length hbegins.drop
  rw [List.length_drop, List.length_cons] at hlength
  refine goes_recv hne hdata (by decide) (by decide) (by omega)
    (hsmooth.head _ _ _ hbegins) ?_ ?_
  · rintro x rfl hx hle
    obtain ⟨second, bytes, rfl⟩ : ∃ second bytes, rest = second :: bytes :=
      List.exists_cons_of_length_pos (by omega)
    rw [hbegins.drop]
    show Goes sha1 fd grants segments ending granted (if _ then _ else _) _
    rw [if_neg hbegins.opcode]
    exact goes_readPrelude_of_begins hne hdata hsmooth hgranted hbegins
  · rintro x rfl hx hended
    obtain rfl : rest = [] := by
      rw [hbegins.drop, List.length_cons] at hx
      exact List.length_eq_zero_iff.mp (by omega)
    rw [hbegins.drop]
    show Goes sha1 fd grants segments ending granted (if _ then _ else _) _
    rw [if_neg hbegins.opcode]
    refine ⟨trivial, ?_⟩
    -- the second byte is what has been in memory
    intro second s' heffect _
    have hend : leftOf segments ending segments.flatten.length = s' :=
      (leftOf_of_le le_rfl ending).trans heffect.symm
    have hundivided (more size : ℕ) :
        Undivided segments ending (segments.flatten.length + more) size :=
      fun m _ hm _ => ⟨by omega, hended⟩
    rw [← hend]
    refine goes_readPrelude hne hdata le_rfl (hundivided 0 _) (hundivided _ _) ?_ ?_
    · intro hle hall
      have hnone : extendedSize second = 0 := by omega
      have hshort : second.toNat % 128 < 126 := WebSocket.extendedSize_eq_zero_iff.mp hnone
      rw [show payloadLength second _ = _ from WebSocket.payloadLength_short hshort _]
      exact (hgranted hall).unassigned _ _ hbegins _ hshort
    · intro hle
      have hnone : extendedSize second = 0 := by omega
      have hshort : second.toNat % 128 < 126 := WebSocket.extendedSize_eq_zero_iff.mp hnone
      rw [show payloadLength second _ = _ from WebSocket.payloadLength_short hshort _]
      exact .readPayload _ _ hle (.inr (by omega)) (.inl (by omega))

include hne hdata in
/-- A frame up to its payload. -/
theorem goes_readFrame (hsmooth : Smooth segments ending)
    (hgranted : granted → Granted grants segments.flatten)
    (h : Boundary segments.flatten (segments.flatten.drop n) ∨ segments.flatten.length ≤ n) :
    Goes sha1 fd grants segments ending granted (readFrame fd) (leftOf segments ending n) := by
  by_cases hn : n < segments.flatten.length
  · have hboundary := h.resolve_right (not_le.mpr hn)
    obtain ⟨first, rest, hdrop⟩ : ∃ first rest, segments.flatten.drop n = first :: rest := by
      refine List.exists_cons_of_ne_nil ?_
      rwa [Ne, List.drop_eq_nil_iff, not_le]
    rw [hdrop] at hboundary
    by_cases hopcode : first.toNat % 16 = 8
    · refine ⟨trivial, fun x s' heffect _ => ?_⟩
      obtain ⟨k, hpos, hk, -, hreceive, -⟩ := receive_leftOf hne ending hn Nat.two_pos
      cases Option.some.inj (heffect.symm.trans hreceive)
      obtain ⟨k, rfl⟩ := Nat.exists_eq_add_one.mpr hpos
      rw [hdrop, List.take_succ_cons]
      show Goes sha1 fd grants segments ending granted (if _ then _ else _) _
      rw [if_pos hopcode]
      have hread : segments.flatten.drop (n + (k + 1)) = rest.drop k := by
        rw [← List.drop_drop, hdrop, List.drop_succ_cons]
      refine goes_disconnect (.inl ⟨_, rfl, first, rest, hboundary, hopcode, ?_⟩)
      rw [hread]
      obtain rfl | rfl : k = 0 ∨ k = 1 := by
        have := hk.trans (min_le_left _ _)
        omega
      · exact .inl List.drop_zero
      · exact .inr List.drop_one
    · exact goes_readFrame_of_begins hne hdata hsmooth hgranted ⟨hdrop, hboundary, hopcode⟩
  · rw [leftOf_of_le (not_lt.mp hn)]
    refine goes_recv_ending hdata fun hended => ?_
    exact goes_disconnect (.inr (.inl ⟨rfl, hended⟩))

/-- While a length fits, `recv` gets room for some bytes, and for no more than are missing. -/
theorem recvSize_of_fits {remaining left : ℕ} (hfits : FitsInt remaining left)
    (hremaining : 0 < remaining) (hleft : 0 < left) :
    0 < recvSize remaining ∧ min (recvSize remaining) recvMax ≤ remaining % 2 ^ 32 := by
  have hlow : 0 < remaining % 2 ^ 32 := by
    rcases hfits with hsmall | hend
    · rwa [Nat.mod_eq_of_lt hsmall]
    · omega
  unfold recvSize recvMax
  dsimp only
  split_ifs with hhalf
  · exact ⟨hlow, min_le_left _ _⟩
  · exact ⟨by omega, (min_le_right _ _).trans (by omega)⟩

theorem FitsInt.sub {remaining left k : ℕ} (h : FitsInt remaining left)
    (hk : k ≤ remaining % 2 ^ 32) :
    FitsInt (remaining - k) (left - k) := by
  unfold FitsInt at h ⊢
  omega

include hne hdata in
/-- Some more of a payload. -/
theorem goes_readPayload {remaining : ℕ} (hn : n ≤ segments.flatten.length)
    (h : Boundary segments.flatten (segments.flatten.drop (n + remaining)) ∨
      segments.flatten.length ≤ n + remaining)
    (hfits : FitsInt remaining (segments.flatten.length - n)) :
    Goes sha1 fd grants segments ending granted (code sha1 (.readPayload fd remaining))
      (leftOf segments ending n) := by
  rw [code]
  split_ifs with hremaining
  · rcases hn.lt_or_eq with hlt | heq
    · refine ⟨trivial, fun x s' heffect _ => ?_⟩
      obtain ⟨hsize, hmod⟩ := recvSize_of_fits hfits hremaining (Nat.sub_pos_of_lt hlt)
      obtain ⟨k, hpos, hk, hend, hreceive, -⟩ := receive_leftOf hne ending hlt hsize
      cases Option.some.inj (heffect.symm.trans hreceive)
      have hlow := hk.trans hmod
      have hlength : ((segments.flatten.drop n).take k).length = k := by
        rw [List.length_take, List.length_drop]
        omega
      obtain ⟨c, data, hread⟩ : ∃ c data, (segments.flatten.drop n).take k = c :: data :=
        List.exists_cons_of_length_pos (by omega)
      rw [hread] at hlength ⊢
      show AtFrame fd segments ending (.readPayload fd (remaining - (c :: data).length)) _
      rw [hlength]
      have hsum : n + k + (remaining - k) = n + remaining := by
        have := hlow.trans (Nat.mod_le _ _)
        omega
      refine .readPayload _ _ hend ?_ ?_
      · rwa [hsum]
      · rw [← Nat.sub_sub]
        exact hfits.sub hlow
    · have hend := leftOf_of_le heq.ge ending
      rw [hend]
      refine goes_recv_ending hdata fun _ => ?_
      have hnext : AtFrame fd segments ending (.readFrames fd) (leftOf segments ending n) :=
        .readFrames n (.inr heq.ge)
      rwa [hend] at hnext
  · obtain rfl : remaining = 0 := by omega
    exact .readFrames n h

include hne hdata in
theorem asserts_subscriber (hsmooth : Smooth segments ending)
    (hgranted : granted → Granted grants segments.flatten) (k : Point) (s : List Outcome)
    (hk : AtFrame fd segments ending k s) :
    Goes sha1 fd grants segments ending granted (code sha1 k) s := by
  cases hk with
  | readFrames n h =>
    refine ⟨trivial, ?_⟩
    rintro running s' rfl rfl
    exact goes_readFrame hne hdata hsmooth hgranted h
  | readPayload n remaining hn h hfits => exact goes_readPayload hne hdata hn h hfits
  | lost k s h => exact goes_of_lost sha1 fd h _

end Loop

/-- Whatever the client sends, and however far the loop gets. -/
theorem goes_of_plays (hne : ∀ d ∈ segments, d ≠ [])
    (hdata : ∀ bytes rest, ending ≠ .data bytes :: rest) (hsmooth : Smooth segments ending)
    (hgranted : granted → Granted grants segments.flatten) {t : List SocketEvent}
    {new : List Point} {q : Code (Option Point)}
    (hplays : (peer sha1).Plays (Serving grants) (.ret (some (.readFrames fd)))
      (segments.map .data ++ ending) t new q s) :
    Goes sha1 fd grants segments ending granted q s := by
  refine hplays.asserts (K := AtFrame fd segments ending)
    (asserts_subscriber hne hdata hsmooth hgranted) ?_
  have hstart : AtFrame fd segments ending (.readFrames fd) (leftOf segments ending 0) :=
    .readFrames 0 (.inl .start)
  rwa [leftOf_zero hne] at hstart

/-! ## The boundaries of the frames -/

/-- Where the loop is with what it has read of a stream. -/
structure Aligned (fd : Descriptor) (stream : List Char) (q : Code (Option Point))
    (s : List Outcome) : Prop where
  /-- A frame begins, or the stream is at its end. -/
  boundary : q = .ret (some (.readFrames fd)) → Boundary stream (unread s) ∨ unread s = []
  leaves : q = disconnect fd → ReadClose stream (unread s) ∨ unread s = []
  raises : q ≠ terminate

/-- The loop stays at the boundaries of the frames, leaves at a close frame or at the end of the
stream, and raises no exception. -/
theorem readFrames_aligned (sha1 : List Char → List Char) (fd : Descriptor) (grants : ℕ → Prop)
    (segments : List (List Char)) (hne : ∀ d ∈ segments, d ≠ [])
    (hsmooth : Smooth segments [.closed]) (hgranted : Granted grants segments.flatten)
    (t : List SocketEvent) (new : List Point) (q : Code (Option Point)) (s : List Outcome)
    (hplays : (peer sha1).Plays (Serving grants) (.ret (some (.readFrames fd)))
      (segments.map .data ++ [.closed]) t new q s) : Aligned fd segments.flatten q s := by
  have hdata : ∀ bytes rest, [Outcome.closed] ≠ .data bytes :: rest := nofun
  have hgoes := goes_of_plays hne hdata hsmooth (fun _ : True => hgranted) hplays
  have hlost : ¬Lost [.closed] s := by
    rintro ⟨rest, heq, -⟩
    cases heq
  have hunread (n : ℕ) : unread (leftOf segments [.closed] n) = segments.flatten.drop n := by
    rw [unread_leftOf]
    exact List.append_nil _
  refine ⟨?_, ?_, ?_⟩
  · rintro rfl
    generalize hk : Point.readFrames fd = k at hgoes
    cases hgoes with
    | readFrames n h =>
      rw [hunread]
      exact h.imp_right List.drop_eq_nil_of_le
    | readPayload => cases hk
    | lost k s h => exact absurd h hlost
  · rintro rfl
    rcases hgoes.1 with ⟨n, rfl, hclose⟩ | ⟨rfl, -⟩ | h
    · rw [hunread]
      exact .inl hclose
    · exact .inr rfl
    · exact absurd h hlost
  · rintro rfl
    rcases hgoes.1 with h | h
    · exact hlost h
    · exact h trivial

/-- A ping and then a close frame. -/
def pingSegments : List (List Char) :=
  [[byte 0x89, byte 0x80], ['m', 'a', 's', 'k', byte 0x88, byte 0x80], ['m', 'a', 's', 'k']]

theorem begins_ping {first : Char} {rest : List Char}
    (h : Begins pingSegments.flatten n first rest) :
    n = 0 ∧ first = byte 0x89 ∧ rest = byte 0x80 :: pingSegments.flatten.drop 2 := by
  have hping : WebSocket.frame Char.toNat pingSegments.flatten =
      some ((9, []), pingSegments.flatten.drop 6) := by decide +kernel
  have hclose : WebSocket.frame Char.toNat (pingSegments.flatten.drop 6) =
      some ((8, []), []) := by decide +kernel
  have hboundary : ∀ bytes, Boundary pingSegments.flatten bytes →
      bytes = pingSegments.flatten ∨ bytes = pingSegments.flatten.drop 6 := by
    intro bytes hbytes
    induction hbytes with
    | start => exact .inl rfl
    | next _ hframe hopcode ih =>
      rcases ih with rfl | rfl
      · rw [hping] at hframe
        cases hframe
        exact .inr rfl
      · rw [hclose] at hframe
        cases hframe
        exact absurd rfl hopcode
  rcases hboundary _ h.boundary with heq | heq
  · have hlength := congrArg List.length (h.drop.trans heq)
    rw [List.length_drop] at hlength
    have hstream : pingSegments.flatten.length = 12 := rfl
    cases heq
    exact ⟨by omega, rfl, rfl⟩
  · cases heq
    exact absurd (by decide +kernel) h.opcode

theorem cut_ping (h : Pieces.Cut pingSegments n) : n = 0 ∨ n = 2 ∨ n = 8 ∨ n = 12 := by
  obtain ⟨k, rfl⟩ := h
  match k with
  | 0 => exact .inl rfl
  | 1 => exact .inr (.inl rfl)
  | 2 => exact .inr (.inr (.inl rfl))
  | k + 3 =>
    have hall : pingSegments.take (k + 3) = pingSegments :=
      List.take_of_length_le (Nat.le_add_left 3 k)
    rw [hall]
    exact .inr (.inr (.inr rfl))

theorem smooth_ping (ending : List Outcome) : Smooth pingSegments ending := by
  refine ⟨?_, ?_, ?_, ?_⟩
  · intro n first rest h m hcut hlow hhigh
    obtain ⟨rfl, -, -⟩ := begins_ping h
    have := cut_ping hcut
    omega
  · intro n first second bytes h m hcut hlow hhigh
    obtain ⟨rfl, -, heq⟩ := begins_ping h
    cases heq
    have hsize : extendedSize (byte 0x80) = 0 := by decide +kernel
    omega
  · intro n first second bytes h m hcut hlow hhigh
    obtain ⟨rfl, -, heq⟩ := begins_ping h
    cases heq
    have hsize : extendedSize (byte 0x80) = 0 ∧ maskSize (byte 0x80) = 4 := by decide +kernel
    have := cut_ping hcut
    omega
  · intro n first second bytes h _
    obtain ⟨rfl, -, heq⟩ := begins_ping h
    cases heq
    exact .inl (by decide +kernel)

theorem granted_ping : Granted (fun size => size < 126) pingSegments.flatten := by
  refine ⟨?_, fun _ _ _ size hsize => hsize⟩
  intro n first second bytes h _
  obtain ⟨rfl, -, heq⟩ := begins_ping h
  cases heq
  decide +kernel

/-- What the server does with the ping and the close frame. -/
def pingEvents (fd : Descriptor) : List SocketEvent :=
  [⟨.running, true⟩, ⟨.recv fd 2, [byte 0x89, byte 0x80]⟩, ⟨.recv fd 4, ['m', 'a', 's', 'k']⟩,
    ⟨.allocate 0, true⟩, ⟨.running, true⟩, ⟨.recv fd 2, [byte 0x88, byte 0x80]⟩]

theorem plays_ping (fd : Descriptor) (ending : List Outcome) :
    (peer id).Plays (Serving fun size => size < 126) (.ret (some (.readFrames fd)))
      (pingSegments.map .data ++ ending) (pingEvents fd) [] (disconnect fd)
      (.data ['m', 'a', 's', 'k'] :: ending) := by
  refine .goto (.act rfl rfl ?_)
  refine .act rfl nofun ?_
  refine .act rfl nofun ?_
  refine .act rfl (fun _ => rfl) ?_
  refine .goto (.goto (.act rfl rfl ?_))
  refine .act rfl nofun ?_
  exact .refl

theorem readFrames_aligned_ping : Aligned ⟨3, 0⟩ pingSegments.flatten (disconnect ⟨3, 0⟩)
    [.data ['m', 'a', 's', 'k'], .closed] :=
  readFrames_aligned id ⟨3, 0⟩ (fun size => size < 126) pingSegments (by decide) (smooth_ping _)
    granted_ping (pingEvents ⟨3, 0⟩) [] _ _ (plays_ping ⟨3, 0⟩ [.closed])

/-- A text of 126 bytes. The first segment ends within its length. -/
def dividedSegments : List (List Char) :=
  [[byte 0x81, byte 0xFE, byte 0], byte 126 :: 'm' :: 'a' :: 's' :: 'k' :: List.replicate 126 'a']

/-- The loop is left with the rest of the frame unread. -/
theorem not_aligned_divided : ∃ t s,
    (peer id).Plays (Serving fun _ => True) (.ret (some (.readFrames ⟨3, 0⟩)))
      (dividedSegments.map .data ++ [.closed]) t [] (disconnect ⟨3, 0⟩) s ∧
      ¬Aligned ⟨3, 0⟩ dividedSegments.flatten (disconnect ⟨3, 0⟩) s := by
  refine ⟨[⟨.running, true⟩, ⟨.recv ⟨3, 0⟩ 2, [byte 0x81, byte 0xFE]⟩,
    ⟨.recv ⟨3, 0⟩ 2, [byte 0]⟩], dividedSegments.tail.map .data ++ [.closed], ?_, ?_⟩
  · refine .goto (.act rfl rfl ?_)
    refine .act rfl nofun ?_
    refine .act rfl nofun ?_
    exact .refl
  · intro h
    have hframe : WebSocket.frame Char.toNat dividedSegments.flatten =
        some ((1, List.replicate 126 'a'), []) := by decide +kernel
    have hboundary : ∀ bytes, Boundary dividedSegments.flatten bytes →
        bytes = dividedSegments.flatten ∨ bytes = [] := by
      intro bytes hbytes
      induction hbytes with
      | start => exact .inl rfl
      | next _ hnext _ ih =>
        rcases ih with rfl | rfl
        · rw [hframe] at hnext
          cases hnext
          exact .inr rfl
        · cases hnext
    rcases h.leaves rfl with ⟨first, rest, hclose, hopcode, -⟩ | hend
    · rcases hboundary _ hclose with heq | heq
      · cases heq
        exact absurd hopcode (by decide +kernel)
      · cases heq
    · cases hend

/-! ## When a client is removed -/

/-- The server is running. -/
def Running : SocketEvent → List Outcome → Prop
  | ⟨.running, x⟩, _ => x = true
  | _, _ => True

/-- Of the outcomes, the client has ended the stream or an error has been found, or it is next. -/
def Gone (outcomes s : List Outcome) : Prop :=
  ∃ o ∈ outcomes.take (outcomes.length + 1 - s.length), o = .closed ∨ o = .error

theorem gone_of_length {front rest : List Outcome} {o : Outcome} (ho : o = .closed ∨ o = .error)
    (hs : s.length ≤ rest.length + 1) : Gone (front ++ o :: rest) s := by
  refine ⟨o, ?_, ho⟩
  rw [List.take_append, List.mem_append]
  right
  have hpos : 0 < (front ++ o :: rest).length + 1 - s.length - front.length := by
    rw [List.length_append, List.length_cons]
    omega
  obtain ⟨k, hk⟩ := Nat.exists_eq_add_one.mpr hpos
  rw [hk, List.take_succ_cons]
  exact List.mem_cons_self

theorem gone_of_ended (hended : Ended ending) (front : List Outcome) :
    Gone (front ++ ending) ending := by
  match ending, hended with
  | .closed :: rest, _ => exact gone_of_length (.inl rfl) le_rfl
  | .error :: rest, _ => exact gone_of_length (.inr rfl) le_rfl

theorem ReadClose.append {stream left : List Char} (h : ReadClose stream left) (more : List Char) :
    ReadClose (stream ++ more) (left ++ more) := by
  obtain ⟨first, rest, hboundary, hopcode, hleft⟩ := h
  refine ⟨first, rest ++ more, hboundary.append more, hopcode, ?_⟩
  rcases hleft with rfl | rfl
  · exact .inl rfl
  · cases rest with
    | nil => exact .inl rfl
    | cons second rest => exact .inr rfl

/-- A client is removed once it has sent a close frame, has ended the stream or is lost, if no
`recv` times out. -/
theorem removeClient_of_plays (sha1 : List Char → List Char) (fd : Descriptor) (grants : ℕ → Prop)
    (segments : List (List Char)) (ending : List Outcome) (hne : ∀ d ∈ segments, d ≠ [])
    (hdata : ∀ bytes rest, ending ≠ .data bytes :: rest) (hsmooth : Smooth segments ending)
    (t : List SocketEvent) (new : List Point) (s : List Outcome)
    (hplays : (peer sha1).Plays (Serving grants) (.ret (some (.readFrames fd)))
      (segments.map .data ++ ending) t new (disconnect fd) s) :
    ReadClose (unread (segments.map .data ++ ending)) (unread s) ∨
      Gone (segments.map .data ++ ending) s := by
  have hgoes := goes_of_plays hne hdata hsmooth False.elim hplays
  rcases hgoes.1 with ⟨n, rfl, hclose⟩ | ⟨rfl, hended⟩ | ⟨rest, rfl, hlength⟩
  · rw [unread_leftOf, unread_data]
    exact .inl (hclose.append _)
  · exact .inr (gone_of_ended hended _)
  · exact .inr (gone_of_length (.inr rfl) (hlength.trans (Nat.le_succ _)))

theorem removeClient_of_plays_ping :
    ReadClose (unread (pingSegments.map .data ++ [.timeout]))
        (unread [.data ['m', 'a', 's', 'k'], .timeout]) ∨
      Gone (pingSegments.map .data ++ [.timeout]) [.data ['m', 'a', 's', 'k'], .timeout] :=
  removeClient_of_plays id ⟨3, 0⟩ (fun size => size < 126) pingSegments [.timeout] (by decide)
    nofun (smooth_ping _) (pingEvents ⟨3, 0⟩) [] _ (plays_ping ⟨3, 0⟩ [.timeout])

/-- A client that sends nothing is removed when the first `recv` times out. -/
theorem removeClient_timeout : ∃ t s,
    (peer id).Plays Running (.ret (some (.readFrames ⟨3, 0⟩))) [.timeout] t []
      (disconnect ⟨3, 0⟩) s ∧ ¬(ReadClose (unread [.timeout]) (unread s) ∨ Gone [.timeout] s) := by
  refine ⟨[⟨.running, true⟩, ⟨.recv ⟨3, 0⟩ 2, []⟩], [], ?_, ?_⟩
  · refine .goto (.act rfl rfl ?_)
    refine .act rfl trivial ?_
    exact .refl
  · have hnone : ∀ bytes, Boundary [] bytes → bytes = [] := by
      intro bytes h
      induction h with
      | start => rfl
      | next _ hframe _ ih =>
        subst ih
        cases hframe
    rintro (⟨first, rest, hboundary, -⟩ | ⟨o, ho, hended⟩)
    · cases hnone _ hboundary
    · obtain rfl : o = .timeout := List.mem_singleton.mp ho
      rcases hended with h | h
      · cases h
      · cases h

end Freehold.Discovery.Descriptors
