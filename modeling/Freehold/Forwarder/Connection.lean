import Freehold.Forwarder.Proof

/-!
# Reading a client's request (`forwarder.cpp`)

`handle_client` reads a proof header up to a blank line and the ciphertext behind it. What
arrives is a list of segments, and a `recv` returns at most one of them: the two loops
depend on where the segments end.
-/

namespace Freehold.Forwarder

open Freehold.Server

/-! ## Sockets -/

/-- What a socket has still to deliver before its end, cut as `recv` finds it. -/
abbrev Segments := {segments : List (List UInt8) // ∀ segment ∈ segments, segment ≠ []}

namespace Segments

def bytes (incoming : Segments) : List UInt8 := incoming.val.flatten

/-- `recv` with room for `cap` bytes; it returns 0 bytes at the end only. -/
def recv (cap : ℕ) : Segments → List UInt8 × Segments
  | ⟨[], h⟩ => ([], ⟨[], h⟩)
  | ⟨segment :: rest, h⟩ =>
    if hcap : cap < segment.length then
      (segment.take cap, ⟨segment.drop cap :: rest, by
        simp only [List.mem_cons, forall_eq_or_imp] at h ⊢
        exact ⟨by simpa using hcap, h.2⟩⟩)
    else (segment, ⟨rest, fun s hs => h s (List.mem_cons_of_mem _ hs)⟩)

/-- All of `bytes` in one segment, or in none. -/
def single (bytes : List UInt8) : Segments :=
  ⟨if bytes = [] then [] else [bytes], by
    split_ifs with h
    · simp
    · simpa using h⟩

/-- `front` arrives in a segment of its own. -/
def cons (front : List UInt8) (h : front ≠ []) (incoming : Segments) : Segments :=
  ⟨front :: incoming.val, by
    simp only [List.mem_cons, forall_eq_or_imp]
    exact ⟨h, incoming.property⟩⟩

@[simp] theorem bytes_single (bytes : List UInt8) : (single bytes).bytes = bytes := by
  unfold single Segments.bytes
  split_ifs with h <;> simp [h]

@[simp] theorem bytes_cons {front : List UInt8} (h : front ≠ []) (incoming : Segments) :
    (cons front h incoming).bytes = front ++ incoming.bytes := by
  simp [cons, bytes]

theorem recv_append (cap : ℕ) (incoming : Segments) :
    (incoming.recv cap).1 ++ (incoming.recv cap).2.bytes = incoming.bytes := by
  obtain ⟨_ | ⟨segment, rest⟩, h⟩ := incoming
  · simp [recv, bytes]
  · by_cases hcap : cap < segment.length
    · simp [recv, bytes, hcap]
      simp [← List.append_assoc]
    · simp [recv, bytes, hcap]

theorem length_recv_le (cap : ℕ) (incoming : Segments) : (incoming.recv cap).1.length ≤ cap := by
  obtain ⟨_ | ⟨segment, rest⟩, h⟩ := incoming
  · simp [recv]
  · by_cases hcap : cap < segment.length
    · simp only [recv, hcap, dite_true]
      exact List.length_take_le cap segment
    · simp only [recv, hcap, dite_false]
      omega

/-- With room for a byte, `recv` returns nothing at the end of the stream only. -/
theorem bytes_eq_nil_of_recv {cap : ℕ} (hcap : 0 < cap) {incoming : Segments}
    (h : (incoming.recv cap).1 = []) : incoming.bytes = [] := by
  obtain ⟨_ | ⟨segment, rest⟩, hne⟩ := incoming
  · rfl
  · have hsegment := List.length_pos_iff.mpr (hne segment (by simp))
    by_cases hlt : cap < segment.length
    · simp only [recv, hlt, dite_true, List.take_eq_nil_iff] at h
      rcases h with hzero | hnil
      · omega
      · exact absurd hnil (hne _ (by simp))
    · simp only [recv, hlt, dite_false] at h
      simp [h] at hsegment

theorem length_recv_lt {cap : ℕ} {incoming : Segments} (h : (incoming.recv cap).1 ≠ []) :
    (incoming.recv cap).2.bytes.length < incoming.bytes.length := by
  have hsum := congrArg List.length (recv_append cap incoming)
  have hpos := List.length_pos_iff.mpr h
  rw [List.length_append] at hsum
  omega

/-- A segment for which there is room is returned whole. -/
theorem recv_cons (cap : ℕ) {front : List UInt8} (h : front ≠ []) (hle : front.length ≤ cap)
    (incoming : Segments) : (cons front h incoming).recv cap = (front, incoming) := by
  simp [cons, recv, Nat.not_lt.mpr hle]

theorem recv_single (cap : ℕ) (bytes : List UInt8) :
    ((single bytes).recv cap).1 = bytes.take cap := by
  unfold single
  split_ifs with h
  · simp [recv, h]
  · by_cases hcap : cap < bytes.length
    · simp [recv, hcap]
    · simp [recv, hcap, List.take_of_length_le (Nat.not_lt.mp hcap)]

end Segments

/-! ## The read loops of `handle_client` -/

/-- The size of `buf`. -/
def bufSize : ℕ := 8192

/-- Where the first `\n\n` starts. -/
def delimiter : List UInt8 → Option ℕ
  | a :: b :: rest =>
    if a = 10 ∧ b = 10 then some 0 else (delimiter (b :: rest)).map (· + 1)
  | _ => none

/-- The first loop, entered with `buf` filled so far: the buffer, `header_end` and what the
socket has still to deliver. -/
def readHeader (buf : List UInt8) (client : Segments) : List UInt8 × Option ℕ × Segments :=
  if buf.length < bufSize - 1 then
    let got := (client.recv (bufSize - buf.length)).1
    let rest := (client.recv (bufSize - buf.length)).2
    if _ : got = [] then (buf, none, rest)
    else
      match delimiter (buf ++ got) with
      | some headerEnd => (buf ++ got, some headerEnd, rest)
      | none => readHeader (buf ++ got) rest
  else (buf, none, client)
termination_by client.bytes.length
decreasing_by exact Segments.length_recv_lt ‹_›

/-- The second loop, entered with the ciphertext read so far. -/
def readCiphertext (ciphertext : List UInt8) (client : Segments) : List UInt8 × Segments :=
  if ciphertext.length < 4096 then
    let got := (client.recv bufSize).1
    let rest := (client.recv bufSize).2
    if _ : got = [] then (ciphertext, rest)
    else readCiphertext (ciphertext ++ got) rest
  else (ciphertext, client)
termination_by client.bytes.length
decreasing_by exact Segments.length_recv_lt ‹_›

/-- Header, ciphertext and what the client has still to deliver. -/
structure Request where
  headerJson : List UInt8
  ciphertext : List UInt8
  client : Segments

/-- What `handle_client` reads before it checks the proof; `none` without a delimiter. -/
def readRequest (client : Segments) : Option Request :=
  match readHeader [] client with
  | (_, none, _) => none
  | (buf, some headerEnd, client) =>
    let (ciphertext, client) := readCiphertext (buf.drop (headerEnd + 2)) client
    some ⟨buf.take headerEnd, ciphertext, client⟩

/-! ## The header's JSON fields -/

/-- `find`: the text from the first occurrence of `text` on. -/
def find (text : List UInt8) : List UInt8 → Option (List UInt8)
  | [] => if text = [] then some [] else none
  | byte :: rest => if text.isPrefixOf (byte :: rest) then some (byte :: rest) else find text rest

/-- The text before the first `byte`. -/
def upTo (byte : UInt8) (text : List UInt8) : Option (List UInt8) :=
  if byte ∈ text then some (text.takeWhile (· ≠ byte)) else none

/-- `"`. -/
def quote : UInt8 := 34

/-- The key in quotation marks. -/
def search (key : List UInt8) : List UInt8 := quote :: key ++ [quote]

def jsonGetString (json key : List UInt8) : List UInt8 :=
  Option.getD (do
    let found ← find (search key) json
    let colon ← find (ascii [':']) (found.drop (search key).length)
    let opening ← find [quote] (colon.drop 1)
    upTo quote (opening.drop 1)) []

theorem length_find_le {text json found : List UInt8} (h : find text json = some found) :
    found.length ≤ json.length := by
  induction json with
  | nil =>
    rw [find] at h
    split_ifs at h
    cases h
    rfl
  | cons byte rest ih =>
    rw [find] at h
    split_ifs at h
    · cases h
      rfl
    · exact (ih h).trans (Nat.le_succ _)

theorem find_ne_nil {text json found : List UInt8} (htext : text ≠ [])
    (h : find text json = some found) : found ≠ [] := by
  induction json with
  | nil =>
    rw [find, if_neg htext] at h
    cases h
  | cons byte rest ih =>
    rw [find] at h
    split_ifs at h
    · cases h
      exact List.cons_ne_nil byte rest
    · exact ih h

/-- The loop over the strings between the brackets. -/
def quoted (arr : List UInt8) : List (List UInt8) :=
  match _h : find [quote] arr with
  | none => []
  | some opening =>
    match upTo quote (opening.drop 1) with
    | none => []
    | some text => text :: quoted (opening.drop (1 + text.length + 1))
termination_by arr.length
decreasing_by
  have hle := length_find_le _h
  have hpos := List.length_pos_iff.mpr (find_ne_nil (List.cons_ne_nil quote []) _h)
  rw [List.length_drop]
  omega

def jsonGetStringArray (json key : List UInt8) : List (List UInt8) :=
  Option.getD (do
    let found ← find (search key) json
    let bracket ← find (ascii ['[']) found
    let arr ← upTo 93 (bracket.drop 1)
    pure (quoted arr)) []

/-- The proof in the header. -/
def ProofHeader.parse (headerJson : List UInt8) : ProofHeader where
  circuitHash := jsonGetString headerJson (ascii "circuit_hash".toList)
  signatureHex := jsonGetString headerJson (ascii "signature".toList)
  commitments := jsonGetStringArray headerJson (ascii "commitments".toList)

/-- What `handle_client` passes to `verify_proof`, if it gets there. -/
def verifyProofCall (client : Segments) : Option (List UInt8 × ProofHeader) :=
  (readRequest client).map fun request =>
    (request.ciphertext, ProofHeader.parse request.headerJson)

/-! ## What the loops read -/

theorem delimiter_append {buf : List UInt8} {i : ℕ} (h : delimiter buf = some i)
    (rest : List UInt8) : delimiter (buf ++ rest) = some i := by
  fun_induction delimiter buf generalizing i with
  | case1 =>
    cases h
    simp [delimiter, *]
  | case2 a b tail hne ih =>
    obtain ⟨j, hj, rfl⟩ := Option.map_eq_some_iff.mp h
    simpa [delimiter, hne] using ih hj
  | case3 => cases h

theorem delimiter_le {buf : List UInt8} {i : ℕ} (h : delimiter buf = some i) :
    i + 2 ≤ buf.length := by
  fun_induction delimiter buf generalizing i with
  | case1 =>
    cases h
    simp
  | case2 a b tail hne ih =>
    obtain ⟨j, hj, rfl⟩ := Option.map_eq_some_iff.mp h
    have := ih hj
    simp only [List.length_cons] at this ⊢
    omega
  | case3 => cases h

/-- The delimiter is found as soon as both its bytes are there. -/
theorem delimiter_take {buf : List UInt8} (rest : List UInt8) {i : ℕ}
    (h : delimiter (buf ++ rest) = some i)
    (hle : i + 2 ≤ buf.length) : delimiter buf = some i := by
  fun_induction delimiter buf generalizing i with
  | case1 => simpa [delimiter, *] using h
  | case2 a b tail hne ih =>
    rw [List.cons_append, List.cons_append, delimiter, if_neg hne] at h
    obtain ⟨j, hj, rfl⟩ := Option.map_eq_some_iff.mp h
    have hle' : j + 2 ≤ (b :: tail).length := by
      simp only [List.length_cons] at hle ⊢
      omega
    rw [ih hj hle', Option.map_some]
  | case3 buf hshort =>
    match buf, hshort with
    | [], _ => simp at hle
    | [_], _ => simp at hle
    | a :: b :: tail, hshort => exact absurd rfl (hshort a b tail)

/-- What the first loop leaves: nothing is lost, and it stops at the delimiter, at the end of
the stream or with the buffer full. -/
structure HeaderRead (stream : List UInt8) (read : List UInt8 × Option ℕ × Segments) : Prop where
  append : read.1 ++ read.2.2.bytes = stream
  delimiter_eq : delimiter read.1 = read.2.1
  length_le : read.1.length ≤ bufSize
  stop : read.2.1 = none → read.2.2.bytes = [] ∨ bufSize - 1 ≤ read.1.length

theorem readHeader_spec (buf : List UInt8) (client : Segments) (hnone : delimiter buf = none)
    (hle : buf.length ≤ bufSize) :
    HeaderRead (buf ++ client.bytes) (readHeader buf client) := by
  fun_induction readHeader buf client with
  | case1 buf client hroom got rest hgot =>
    have happend : got ++ rest.bytes = client.bytes := Segments.recv_append _ client
    have hend : client.bytes = [] := Segments.bytes_eq_nil_of_recv (by omega) hgot
    rw [hgot, List.nil_append] at happend
    exact ⟨by rw [happend], hnone, hle, fun _ => .inl (happend.trans hend)⟩
  | case2 buf client hroom got rest hgot headerEnd hsome =>
    have happend : got ++ rest.bytes = client.bytes := Segments.recv_append _ client
    have hgot_le : got.length ≤ bufSize - buf.length := Segments.length_recv_le _ client
    refine ⟨by rw [List.append_assoc, happend], hsome, ?_, fun h => by cases h⟩
    rw [List.length_append]
    omega
  | case3 buf client hroom got rest hgot hnone' ih =>
    have happend : got ++ rest.bytes = client.bytes := Segments.recv_append _ client
    have hgot_le : got.length ≤ bufSize - buf.length := Segments.length_recv_le _ client
    rw [← happend, ← List.append_assoc]
    apply ih hnone'
    rw [List.length_append]
    omega
  | case4 buf client hfull => exact ⟨rfl, hnone, hle, fun _ => .inr (by simpa using hfull)⟩

/-- The second loop stops at the end of the stream or with 4096 bytes. -/
theorem readCiphertext_spec (ciphertext : List UInt8) (client : Segments) :
    (readCiphertext ciphertext client).1 ++ (readCiphertext ciphertext client).2.bytes =
        ciphertext ++ client.bytes ∧
      ((readCiphertext ciphertext client).2.bytes = [] ∨
        4096 ≤ (readCiphertext ciphertext client).1.length) := by
  fun_induction readCiphertext ciphertext client with
  | case1 ciphertext client hshort got rest hgot =>
    have happend : got ++ rest.bytes = client.bytes := Segments.recv_append _ client
    have hend : client.bytes = [] := Segments.bytes_eq_nil_of_recv (by decide) hgot
    rw [hgot, List.nil_append] at happend
    exact ⟨by rw [happend], .inl (happend.trans hend)⟩
  | case2 ciphertext client hshort got rest hgot ih =>
    have happend : got ++ rest.bytes = client.bytes := Segments.recv_append _ client
    rwa [List.append_assoc, happend] at ih
  | case3 ciphertext client hlong => exact ⟨rfl, .inr (by simpa using hlong)⟩

/-! ## Framing and segmentation -/

/-- The framing as it is meant: a header that fits the buffer with its blank line, and
behind it everything. -/
def frame (stream : List UInt8) : Option (List UInt8 × List UInt8) :=
  (delimiter stream).bind fun headerEnd =>
    if headerEnd + 2 ≤ bufSize then
      some (stream.take headerEnd, stream.drop (headerEnd + 2))
    else none

/-- The blank line comes too late for the buffer, or it is read before the buffer is full
and the second loop can take all that follows. -/
def SegmentationFree (stream : List UInt8) : Prop :=
  ∀ headerEnd, delimiter stream = some headerEnd →
    bufSize < headerEnd + 2 ∨
      (headerEnd + 2 < bufSize ∧ stream.length ≤ headerEnd + 2 + 4096)

instance (stream : List UInt8) : Decidable (SegmentationFree stream) :=
  match h : delimiter stream with
  | none => .isTrue fun headerEnd hsome => by rw [h] at hsome; cases hsome
  | some headerEnd =>
    decidable_of_iff (bufSize < headerEnd + 2 ∨
      (headerEnd + 2 < bufSize ∧ stream.length ≤ headerEnd + 2 + 4096)) <| by
        rw [SegmentationFree, h]
        simp

theorem readHeader_nil (client : Segments) :
    HeaderRead client.bytes (readHeader [] client) := by
  simpa using readHeader_spec [] client rfl (Nat.zero_le _)

/-- A request cuts the stream: header, blank line, ciphertext and what is still to come. -/
structure RequestRead (stream : List UInt8) (request : Request) (headerEnd : ℕ) : Prop where
  delimiter_eq : delimiter stream = some headerEnd
  fits : headerEnd + 2 ≤ bufSize
  header : request.headerJson = stream.take headerEnd
  append : request.ciphertext ++ request.client.bytes = stream.drop (headerEnd + 2)
  stop : request.client.bytes = [] ∨ 4096 ≤ request.ciphertext.length

theorem readRequest_some {client : Segments} {request : Request}
    (h : readRequest client = some request) :
    ∃ headerEnd, RequestRead client.bytes request headerEnd := by
  have hread := readHeader_nil client
  unfold readRequest at h
  generalize readHeader [] client = read at hread h
  obtain ⟨buf, _ | headerEnd, rest⟩ := read
  · cases h
  · obtain ⟨happend, hfound, hlength, -⟩ := hread
    dsimp only at happend hfound hlength
    have hle := delimiter_le hfound
    obtain ⟨hct, hstop⟩ := readCiphertext_spec (buf.drop (headerEnd + 2)) rest
    cases h
    refine ⟨headerEnd, ?_, hle.trans hlength, ?_, ?_, hstop⟩
    · rw [← happend, delimiter_append hfound]
    · rw [← happend, List.take_append_of_le_length (by omega)]
    · rw [hct, ← happend, List.drop_append_of_le_length hle]

/-- A delimiter is missed only if it ends with the last byte of the buffer or behind it. -/
theorem readRequest_none {client : Segments} (h : readRequest client = none) {headerEnd : ℕ}
    (hdelimiter : delimiter client.bytes = some headerEnd) : bufSize ≤ headerEnd + 2 := by
  have hread := readHeader_nil client
  unfold readRequest at h
  generalize readHeader [] client = read at hread h
  obtain ⟨buf, _ | found, rest⟩ := read
  · obtain ⟨happend, hfound, hlength, hstop⟩ := hread
    dsimp only at happend hfound hlength hstop
    have hshort : buf.length < headerEnd + 2 := by
      by_contra hge
      rw [← happend] at hdelimiter
      rw [delimiter_take _ hdelimiter (by omega)] at hfound
      cases hfound
    rcases hstop rfl with hend | hfull
    · rw [hend, List.append_nil] at happend
      have := delimiter_le hdelimiter
      rw [← happend] at this
      omega
    · omega
  · cases h

/-- Where the segments do not matter, the request is the frame of the stream. -/
theorem readRequest_eq_frame (client : Segments) (hfree : SegmentationFree client.bytes) :
    (readRequest client).map (fun request => (request.headerJson, request.ciphertext)) =
      frame client.bytes := by
  unfold frame
  cases hrequest : readRequest client with
  | none =>
    cases hdelimiter : delimiter client.bytes with
    | none => rfl
    | some headerEnd =>
      have hmissed := readRequest_none hrequest hdelimiter
      have hlate := hfree headerEnd hdelimiter
      rw [Option.bind_some, if_neg (by omega)]
      rfl
  | some request =>
    obtain ⟨headerEnd, hdelimiter, hfits, hheader, happend, hstop⟩ := readRequest_some hrequest
    have hshort : request.client.bytes = [] := by
      rcases hfree headerEnd hdelimiter with hlate | ⟨-, hshort⟩
      · omega
      · rcases hstop with hend | hlong
        · exact hend
        · have hlen := congrArg List.length happend
          rw [List.length_append, List.length_drop] at hlen
          exact List.eq_nil_of_length_eq_zero (by omega)
    rw [hshort, List.append_nil] at happend
    rw [hdelimiter, Option.bind_some, if_pos hfits, Option.map_some, hheader, happend]

theorem verifyProofCall_eq_none {client : Segments} (h : (readHeader [] client).2.1 = none) :
    verifyProofCall client = none := by
  unfold verifyProofCall readRequest
  generalize readHeader [] client = read at h
  obtain ⟨buf, found, rest⟩ := read
  cases h
  rfl

/-- A first `recv` that ends behind the delimiter. -/
theorem verifyProofCall_of_recv {client : Segments} {headerEnd : ℕ}
    (h : delimiter (client.recv bufSize).1 = some headerEnd) :
    verifyProofCall client =
      some ((readCiphertext ((client.recv bufSize).1.drop (headerEnd + 2))
          (client.recv bufSize).2).1,
        ProofHeader.parse ((client.recv bufSize).1.take headerEnd)) := by
  have hne : (client.recv bufSize).1 ≠ [] := by
    intro hnil
    rw [hnil] at h
    cases h
  have hread : readHeader [] client =
      ((client.recv bufSize).1, some headerEnd, (client.recv bufSize).2) := by
    rw [readHeader, if_pos (by decide)]
    simp [hne, h]
  rw [verifyProofCall, readRequest, hread]
  rfl

theorem verifyProofCall_cons {front : List UInt8} {headerEnd : ℕ} (hne : front ≠ [])
    (h : delimiter front = some headerEnd) (hle : front.length ≤ bufSize) (client : Segments) :
    verifyProofCall (.cons front hne client) =
      some ((readCiphertext (front.drop (headerEnd + 2)) client).1,
        ProofHeader.parse (front.take headerEnd)) := by
  have hrecv := Segments.recv_cons bufSize hne hle client
  have hfound : delimiter ((Segments.cons front hne client).recv bufSize).1 = some headerEnd := by
    rw [hrecv, h]
  rw [verifyProofCall_of_recv hfound, hrecv]

/-- A `recv` of 4096 bytes and more ends the second loop. -/
theorem readCiphertext_of_recv {client : Segments} (h : 4096 ≤ (client.recv bufSize).1.length) :
    (readCiphertext [] client).1 = (client.recv bufSize).1 := by
  have hne : (client.recv bufSize).1 ≠ [] := List.ne_nil_of_length_pos (by omega)
  rw [readCiphertext, if_pos (by decide)]
  simp only [hne, dite_false, List.nil_append]
  rw [readCiphertext, if_neg (by omega)]

/-- Header, 4096 bytes and the rest: the rest is not part of the ciphertext. -/
theorem readCiphertext_cons {front : List UInt8} (hlen : front.length = 4096) (client : Segments) :
    (readCiphertext [] (.cons front (List.ne_nil_of_length_pos (by omega)) client)).1 = front := by
  have hrecv := Segments.recv_cons bufSize
    (List.ne_nil_of_length_pos (by omega : 0 < front.length)) (hlen.le.trans (by decide)) client
  rw [readCiphertext_of_recv (by rw [hrecv]; exact hlen.ge), hrecv]

theorem readCiphertext_single {bytes : List UInt8} (hlen : 4096 ≤ bytes.length) :
    (readCiphertext [] (.single bytes)).1 = bytes.take bufSize := by
  have hrecv := Segments.recv_single bufSize bytes
  rw [readCiphertext_of_recv (by rw [hrecv, List.length_take, bufSize]; omega), hrecv]

/-- The delimiter is not in what comes before its end. -/
theorem delimiter_take_eq_none {stream : List UInt8} {headerEnd n : ℕ}
    (h : delimiter stream = some headerEnd) (hn : n < headerEnd + 2) :
    delimiter (stream.take n) = none := by
  cases hsome : delimiter (stream.take n) with
  | none => rfl
  | some i =>
    have happend := delimiter_append hsome (stream.drop n)
    rw [List.take_append_drop, h] at happend
    cases happend
    have hle := delimiter_le hsome
    rw [List.length_take] at hle
    omega

/-- A delimiter that ends with the last byte of the buffer is missed when the byte before
comes in a segment of its own. -/
theorem exists_verifyProofCall_ne_of_full {stream : List UInt8} {headerEnd : ℕ}
    (h : delimiter stream = some headerEnd) (hfull : headerEnd + 2 = bufSize) :
    ∃ a b : Segments, a.bytes = stream ∧ b.bytes = stream ∧
      verifyProofCall a ≠ verifyProofCall b := by
  have hle := delimiter_le h
  have hfront : (stream.take (bufSize - 1)).length = bufSize - 1 := by
    rw [List.length_take]
    omega
  have hne : stream.take (bufSize - 1) ≠ [] :=
    List.ne_nil_of_length_pos (by rw [hfront]; decide)
  refine ⟨.cons _ hne (.single (stream.drop (bufSize - 1))), .single stream, ?_, ?_, ?_⟩
  · rw [Segments.bytes_cons, Segments.bytes_single, List.take_append_drop]
  · exact Segments.bytes_single stream
  · have hmissed := delimiter_take_eq_none h (n := bufSize - 1) (by omega)
    have hnone : verifyProofCall (.cons _ hne (.single (stream.drop (bufSize - 1)))) = none := by
      apply verifyProofCall_eq_none
      have hrecv := Segments.recv_cons bufSize hne (by omega)
        (.single (stream.drop (bufSize - 1)))
      rw [readHeader, if_pos (by decide)]
      simp only [List.length_nil, Nat.sub_zero, hrecv, hne, dite_false, List.nil_append, hmissed]
      rw [readHeader, if_neg (by omega)]
    have hrecv := Segments.recv_single bufSize stream
    have hsome : delimiter ((Segments.single stream).recv bufSize).1 = some headerEnd := by
      rw [hrecv]
      apply delimiter_take (stream.drop bufSize)
      · rw [List.take_append_drop, h]
      · rw [List.length_take]
        omega
    rw [hnone, verifyProofCall_of_recv hsome]
    exact Option.some_ne_none _ |>.symm

/-- What follows the 4096th byte is ciphertext or not, as it comes in the same segment or in
the next. -/
theorem exists_verifyProofCall_ne_of_long {stream : List UInt8} {headerEnd : ℕ}
    (h : delimiter stream = some headerEnd) (hearly : headerEnd + 2 ≤ bufSize)
    (hlong : headerEnd + 2 + 4096 < stream.length) :
    ∃ a b : Segments, a.bytes = stream ∧ b.bytes = stream ∧
      verifyProofCall a ≠ verifyProofCall b := by
  have hheader : (stream.take (headerEnd + 2)).length = headerEnd + 2 := by
    rw [List.length_take]
    omega
  have hne : stream.take (headerEnd + 2) ≠ [] := List.ne_nil_of_length_pos (by omega)
  have hfront : ((stream.drop (headerEnd + 2)).take 4096).length = 4096 := by
    rw [List.length_take, List.length_drop]
    omega
  have hfound : delimiter (stream.take (headerEnd + 2)) = some headerEnd := by
    apply delimiter_take (stream.drop (headerEnd + 2))
    · rw [List.take_append_drop, h]
    · exact hheader.ge
  have hfront_ne : (stream.drop (headerEnd + 2)).take 4096 ≠ [] :=
    List.ne_nil_of_length_pos (by omega)
  refine ⟨.cons _ hne (.cons _ hfront_ne
      (.single ((stream.drop (headerEnd + 2)).drop 4096))),
    .cons _ hne (.single (stream.drop (headerEnd + 2))), ?_, ?_, ?_⟩
  · rw [Segments.bytes_cons, Segments.bytes_cons, Segments.bytes_single, List.take_append_drop,
      List.take_append_drop]
  · rw [Segments.bytes_cons, Segments.bytes_single, List.take_append_drop]
  · have hnil : (stream.take (headerEnd + 2)).drop (headerEnd + 2) = [] :=
      List.drop_eq_nil_of_le hheader.le
    have hfits := hheader.le.trans hearly
    rw [verifyProofCall_cons hne hfound hfits, verifyProofCall_cons hne hfound hfits,
      hnil, readCiphertext_cons hfront, readCiphertext_single (by rw [List.length_drop]; omega)]
    intro heq
    have hct := congrArg (fun call => call.map fun c => c.1.length) heq
    simp only [Option.map_some, hfront, List.length_take, List.length_drop, bufSize,
      Option.some.injEq] at hct
    omega

/-- The segments never matter for what reaches `verify_proof` exactly if the blank line comes
before the buffer is full and at most 4096 bytes follow it, or if it comes too late or never. -/
theorem verifyProofCall_eq_iff (stream : List UInt8) :
    (∀ a b : Segments, a.bytes = stream → b.bytes = stream →
      verifyProofCall a = verifyProofCall b) ↔ SegmentationFree stream := by
  constructor
  · intro hsame headerEnd h
    by_contra hbad
    have hexists : ∃ a b : Segments, a.bytes = stream ∧ b.bytes = stream ∧
        verifyProofCall a ≠ verifyProofCall b := by
      by_cases hfull : headerEnd + 2 = bufSize
      · exact exists_verifyProofCall_ne_of_full h hfull
      · exact exists_verifyProofCall_ne_of_long h (by omega) (by omega)
    obtain ⟨a, b, ha, hb, hne⟩ := hexists
    exact hne (hsame a b ha hb)
  · rintro hfree a b rfl hb
    have hframe : ∀ c : Segments, c.bytes = a.bytes → verifyProofCall c =
        (frame a.bytes).map fun framed => (framed.2, ProofHeader.parse framed.1) := by
      intro c hc
      rw [← hc, ← readRequest_eq_frame c (hc ▸ hfree), Option.map_map]
      rfl
    rw [hframe a rfl, hframe b hb]

/-- A blank line and 4097 bytes: the last one is lost to the proof if it comes alone. -/
theorem verifyProofCall_segmented :
    (Segments.cons [10, 10] (by decide) (.cons (List.replicate 4096 0x17) (by decide)
        (.single [0x17]))).bytes =
      (Segments.cons [10, 10] (by decide) (.single (List.replicate 4097 0x17))).bytes ∧
    verifyProofCall (.cons [10, 10] (by decide) (.cons (List.replicate 4096 0x17) (by decide)
        (.single [0x17]))) ≠
      verifyProofCall (.cons [10, 10] (by decide) (.single (List.replicate 4097 0x17))) := by
  have hlen : (List.replicate 4096 (0x17 : UInt8)).length = 4096 := List.length_replicate
  constructor
  · have hsplit : List.replicate 4097 (0x17 : UInt8) = List.replicate 4096 0x17 ++ [0x17] :=
      List.replicate_succ'
    rw [Segments.bytes_cons, Segments.bytes_cons, Segments.bytes_cons, Segments.bytes_single,
      Segments.bytes_single, hsplit]
  · have hfound : delimiter [10, 10] = some 0 := rfl
    rw [verifyProofCall_cons _ hfound (by decide), verifyProofCall_cons _ hfound (by decide)]
    intro heq
    have hct := congrArg (fun call => call.map fun c => c.1.length) heq
    have ha := readCiphertext_cons hlen (.single [0x17])
    have hb : (readCiphertext [] (.single (List.replicate 4097 0x17))).1 = _ :=
      readCiphertext_single (by rw [List.length_replicate]; decide)
    simp only [List.drop_succ_cons, List.drop_nil, Option.map_some] at hct
    rw [ha, hb, List.length_take, List.length_replicate, List.length_replicate] at hct
    cases hct

end Freehold.Forwarder
