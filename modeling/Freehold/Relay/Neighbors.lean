import Freehold.Relay.Engine

/-!
# The payload of a Neighbors message (`relay_client.cpp`)

`extract_subdomain` walks over the payload with an offset and reads the bytes at it. Here every
read is checked against the length.

## Main results

* `extractSubdomainAt_eq` — no read is out of bounds.
* `extractSubdomain_encoded` — of a list of entries, what comes out is the first subdomain of the
  port.
-/

namespace Freehold.Relay

/-- The bytes at `off` to `off + n`, if all of them are there. -/
def bytesAt (payload : List UInt8) (off n : ℕ) : Option (List UInt8) :=
  (List.range n).mapM fun i => payload[off + i]?

/-- The loop of `extract_subdomain` from `off` on; `none` is a read at `len` or behind. -/
def extractSubdomainAt (payload : List UInt8) (ourPort : UInt16) (off : ℕ) : Option (List Char) :=
  if off + 3 ≤ payload.length then do
    let high ← payload[off]?
    let low ← payload[off + 1]?
    let slen ← payload[off + 2]?
    let port := (high.toUInt16 <<< 8) ||| low.toUInt16
    if payload.length < off + 3 + slen.toNat then some []
    else if port = ourPort then (bytesAt payload (off + 3) slen.toNat).map text
    else extractSubdomainAt payload ourPort (off + 3 + slen.toNat)
  else some []
termination_by payload.length - off

/-- A port and its subdomain, as the relay sends them. -/
structure Neighbor where
  port : UInt16
  subdomain : List UInt8
  length_le : subdomain.length ≤ 255

def Neighbor.encoded (e : Neighbor) : List UInt8 :=
  [(e.port >>> 8).toUInt8, e.port.toUInt8, UInt8.ofNat e.subdomain.length] ++ e.subdomain

/-- A beginning of an entry that is not the whole of it. -/
def Incomplete (tail : List UInt8) : Prop := ∃ e : Neighbor, tail <+: e.encoded ∧ tail ≠ e.encoded

/-- The subdomain of the first entry with the port. -/
def firstSubdomain (l : List Neighbor) (ourPort : UInt16) : List Char :=
  ((l.find? fun e => e.port = ourPort).map fun e => text e.subdomain).getD []

variable {payload tail rest : List UInt8} {ourPort : UInt16} {off : ℕ}

/-! ## The offsets -/

theorem bytesAt_of_le {n : ℕ} (h : off + n ≤ payload.length) :
    bytesAt payload off n = some ((payload.drop off).take n) := by
  rw [bytesAt]
  induction n with
  | zero => simp
  | succ n ih =>
    have hn : n < (payload.drop off).length := by
      rw [List.length_drop]
      omega
    have hbyte : payload[off + n]? = some (payload.drop off)[n] := by
      rw [← List.getElem?_drop, List.getElem?_eq_getElem hn]
    rw [List.range_succ, List.mapM_append, ih (by omega), List.take_succ_eq_append_getElem hn]
    simp [hbyte]

/-- The three bytes in front of a subdomain. -/
theorem exists_drop_eq (h : off + 3 ≤ payload.length) : ∃ high low slen,
    payload[off]? = some high ∧ payload[off + 1]? = some low ∧ payload[off + 2]? = some slen ∧
      payload.drop off = high :: low :: slen :: payload.drop (off + 3) := by
  have h0 : off < payload.length := by omega
  have h1 : off + 1 < payload.length := by omega
  have h2 : off + 2 < payload.length := by omega
  refine ⟨payload[off], payload[off + 1], payload[off + 2], List.getElem?_eq_getElem h0,
    List.getElem?_eq_getElem h1, List.getElem?_eq_getElem h2, ?_⟩
  rw [List.drop_eq_getElem_cons h0, List.drop_eq_getElem_cons h1, List.drop_eq_getElem_cons h2]

theorem extractSubdomain_of_short (h : payload.length < 3) :
    extractSubdomain payload ourPort = [] := by
  unfold extractSubdomain
  split
  · simp at h
    omega
  · rfl

/-- The loop at `off` is the loop on the rest of the payload. -/
theorem extractSubdomainAt_eq (payload : List UInt8) (ourPort : UInt16) (off : ℕ) :
    extractSubdomainAt payload ourPort off =
      some (extractSubdomain (payload.drop off) ourPort) := by
  induction hn : payload.length - off using Nat.strong_induction_on generalizing off with
  | _ n ih =>
    unfold extractSubdomainAt
    by_cases hoff : off + 3 ≤ payload.length
    · obtain ⟨high, low, slen, hhigh, hlow, hslen, hdrop⟩ := exists_drop_eq hoff
      rw [if_pos hoff, hhigh, hlow, hslen, hdrop, extractSubdomain]
      simp only [Option.bind_eq_bind, Option.bind_some, List.length_drop]
      by_cases hlen : payload.length < off + 3 + slen.toNat
      · have hrest : payload.length - (off + 3) < slen.toNat := by omega
        rw [if_pos hlen, if_pos hrest]
      · have hrest : ¬payload.length - (off + 3) < slen.toNat := by omega
        rw [if_neg hlen, if_neg hrest]
        by_cases hport : high.toUInt16 <<< 8 ||| low.toUInt16 = ourPort
        · rw [if_pos hport, if_pos hport, bytesAt_of_le (by omega), Option.map_some]
        · rw [if_neg hport, if_neg hport, ih _ (by omega) _ rfl, List.drop_drop]
    · have hshort : (payload.drop off).length < 3 := by
        rw [List.length_drop]
        omega
      rw [if_neg hoff, extractSubdomain_of_short hshort]

/-! ## Entries -/

theorem port_of_bytes (port : UInt16) :
    ((port >>> 8).toUInt8.toUInt16 <<< 8) ||| port.toUInt8.toUInt16 = port := by
  apply UInt16.toNat_inj.mp
  have hport := port.toNat_lt
  have hhigh : port.toNat >>> 8 % 256 = port.toNat / 256 := by
    rw [Nat.shiftRight_eq_div_pow]
    omega
  have hlow : port.toNat % 256 < 2 ^ 8 := by omega
  have hshift : (port.toNat / 256) <<< 8 % 65536 = (port.toNat / 256) <<< 8 := by
    rw [Nat.shiftLeft_eq]
    omega
  have hor : (port.toNat / 256) <<< 8 ||| port.toNat % 256 = port.toNat := by
    rw [← Nat.shiftLeft_add_eq_or_of_lt hlow, Nat.shiftLeft_eq]
    omega
  simpa [hhigh, hshift] using hor

theorem Neighbor.toNat_length (e : Neighbor) :
    (UInt8.ofNat e.subdomain.length).toNat = e.subdomain.length := by
  have hle := e.length_le
  rw [UInt8.toNat_ofNat', Nat.mod_eq_of_lt (by omega)]

theorem extractSubdomain_append (e : Neighbor) (rest : List UInt8) :
    extractSubdomain (e.encoded ++ rest) ourPort =
      if e.port = ourPort then text e.subdomain else extractSubdomain rest ourPort := by
  have hcons : e.encoded ++ rest = (e.port >>> 8).toUInt8 :: e.port.toUInt8 ::
      UInt8.ofNat e.subdomain.length :: (e.subdomain ++ rest) := rfl
  have hroom : ¬(e.subdomain ++ rest).length < e.subdomain.length := by simp
  rw [hcons, extractSubdomain, e.toNat_length, if_neg hroom, port_of_bytes, List.take_left,
    List.drop_left]

/-- An entry that is cut off ends the loop. -/
theorem extractSubdomain_of_incomplete (h : Incomplete tail) :
    extractSubdomain tail ourPort = [] := by
  obtain ⟨e, hbegins, hne⟩ := h
  have hlt : tail.length < e.encoded.length :=
    hbegins.length_le.lt_of_ne fun heq => hne (hbegins.eq_of_length heq)
  by_cases hshort : tail.length < 3
  · exact extractSubdomain_of_short hshort
  · obtain ⟨high, low, slen, -, -, -, htail⟩ :=
      exists_drop_eq (show 0 + 3 ≤ tail.length by omega)
    rw [List.drop_zero, Nat.zero_add] at htail
    generalize tail.drop 3 = rest at htail
    subst htail
    obtain ⟨missing, hmissing⟩ := hbegins
    have hslen : slen = UInt8.ofNat e.subdomain.length := by
      injection hmissing with _ hmissing
      injection hmissing with _ hmissing
      injection hmissing
    have hroom : rest.length < slen.toNat := by
      rw [hslen, e.toNat_length]
      simp only [Neighbor.encoded, List.length_append, List.length_cons, List.length_nil] at hlt
      omega
    rw [extractSubdomain, if_pos hroom]

/-- A list of entries, and what is left of one more. -/
theorem extractSubdomain_encoded (l : List Neighbor) (h : Incomplete tail) :
    extractSubdomain (l.flatMap Neighbor.encoded ++ tail) ourPort = firstSubdomain l ourPort := by
  induction l with
  | nil => exact extractSubdomain_of_incomplete h
  | cons e l ih =>
    rw [List.flatMap_cons, List.append_assoc, extractSubdomain_append, ih, firstSubdomain,
      firstSubdomain, List.find?_cons]
    by_cases hport : e.port = ourPort
    · simp [hport]
    · simp [hport]

/-- Every payload is read within its bounds, and a list of entries, with a part of one more behind
it, for the first subdomain of the port. -/
theorem extractSubdomainAt_entries (payload : List UInt8) (l : List Neighbor) (tail : List UInt8)
    (ourPort : UInt16) (h : Incomplete tail) : (extractSubdomainAt payload ourPort 0).isSome ∧
      extractSubdomainAt (l.flatMap Neighbor.encoded ++ tail) ourPort 0 =
        some (firstSubdomain l ourPort) := by
  constructor
  · rw [extractSubdomainAt_eq]
    rfl
  · rw [extractSubdomainAt_eq, List.drop_zero, extractSubdomain_encoded l h]

def demoEntries : List Neighbor :=
  [⟨7, [], by decide⟩, ⟨258, [97], by decide⟩, ⟨258, [98], by decide⟩]

/-- Two entries of the port 258, and the first two bytes of another. -/
theorem extractSubdomainAt_entries_demo :
    (extractSubdomainAt [1, 2, 9] 258 0).isSome ∧
      extractSubdomainAt [0, 7, 0, 1, 2, 1, 97, 1, 2, 1, 98, 1, 2] 258 0 = some ['a'] := by
  have hpayload : demoEntries.flatMap Neighbor.encoded ++ [1, 2] =
      [0, 7, 0, 1, 2, 1, 97, 1, 2, 1, 98, 1, 2] := by decide
  have hfirst : firstSubdomain demoEntries 258 = ['a'] := by decide
  rw [← hpayload, ← hfirst]
  exact extractSubdomainAt_entries [1, 2, 9] demoEntries [1, 2] 258
    ⟨⟨258, [99], by decide⟩, by decide, by decide⟩

end Freehold.Relay
