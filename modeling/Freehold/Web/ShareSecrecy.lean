import Freehold.Web.RoundTrip
import Mathlib.Data.List.InsertIdx
import Mathlib.SetTheory.Cardinal.Finite

/-!
# What all shares but one tell

Only the parity of a random byte matters. Without share 0 the others do not depend on the input
at all; without share `o` the inputs are exchanged by changing the parity of the bytes drawn for
`o` where they differ (`Draws.flip`), and nothing else moves.
-/

namespace Freehold.Web

/-- The random bytes of one call, for the parties from 1 on. -/
abbrev Draws (numParties len : ℕ) := Fin (numParties - 1) → Fin len → UInt8

/-- The draws as the source of random bytes. -/
def Draws.random {numParties len : ℕ} (r : Draws numParties len) (i k : ℕ) : UInt8 :=
  if h : (1 ≤ i ∧ i - 1 < numParties - 1) ∧ k < len then r ⟨i - 1, h.1.2⟩ ⟨k, h.2⟩ else 0

/-- The arrays that are left when that of the party `omitted` is taken away. -/
def observed (inputBits : List Bool) (numParties omitted : ℕ) (random : ℕ → ℕ → UInt8) :
    Option (List (List Bool)) :=
  (generateXorShares inputBits numParties random).map fun shares => shares.eraseIdx omitted

/-- Change the parity of the bytes that are drawn for the party `omitted` where the inputs
differ. -/
def Draws.flip {numParties len : ℕ} (omitted : ℕ) (x y : List Bool) (r : Draws numParties len) :
    Draws numParties len := fun i k =>
  if i.val + 1 = omitted ∧ x.getD k false ≠ y.getD k false then r i k ^^^ 1 else r i k

variable {numParties len omitted : ℕ} {x y : List Bool} {random random' : ℕ → ℕ → UInt8}

theorem flip_flip (omitted : ℕ) (x y : List Bool) (r : Draws numParties len) :
    (r.flip omitted x y).flip omitted x y = r := by
  funext i k
  unfold Draws.flip
  split
  · rw [UInt8.xor_assoc, UInt8.xor_self, UInt8.xor_zero]
  · rfl

def Draws.flipEquiv (omitted : ℕ) (x y : List Bool) : Draws numParties len ≃ Draws numParties len :=
  Function.Involutive.toPerm (Draws.flip omitted x y) (flip_flip omitted x y)

theorem parity_flip (v : UInt8) : decide ((v ^^^ 1) % 2 = 0) = !decide (v % 2 = 0) := by
  have hall : ∀ n : Fin 256, decide ((UInt8.ofNat n ^^^ 1) % 2 = 0) =
      !decide (UInt8.ofNat n % 2 = 0) := by decide +kernel
  have hv := hall ⟨v.toNat, v.toNat_lt⟩
  rwa [UInt8.ofNat_toNat] at hv

/-! ## The shares as functions of the draws -/

/-- The share of a party from 1 on. -/
def share (random : ℕ → ℕ → UInt8) (len i : ℕ) : List Bool :=
  shareOf ((List.range len).map (random i))

theorem shareLoop_shares {count i : ℕ} {cur last : List Bool} {shares : List (List Bool)}
    (h : shareLoop random len i count cur = some (shares, last)) :
    shares = (List.range' i count).map (share random len) := by
  induction count generalizing i cur shares with
  | zero =>
    cases h
    rfl
  | succ count ih =>
    obtain ⟨randomArray, hrandom, h⟩ := Option.bind_eq_some_iff.mp h
    obtain ⟨⟨others, last'⟩, hothers, h⟩ := Option.bind_eq_some_iff.mp h
    cases h
    unfold getRandomValues at hrandom
    split at hrandom
    · cases hrandom
      rw [ih hothers]
      rfl
    · cases hrandom

/-- The shares of the parties from 1 on come from the draws, share 0 from all of them. -/
theorem generateXorShares_eq (hx : x.length = len) (hlen : len ≤ 65536) (numParties : ℕ)
    (random : ℕ → ℕ → UInt8) :
    ∃ first, generateXorShares x numParties random =
        some (first :: (List.range' 1 (numParties - 1)).map (share random len)) ∧
      first.length = len ∧
      ∀ k, (first.getD k false ^^
        parity ((List.range' 1 (numParties - 1)).map (share random len)) k) = x.getD k false := by
  obtain ⟨⟨others, first⟩, hloop⟩ := exists_shareLoop random hlen 1 (numParties - 1) x
  obtain ⟨-, hlengths, hparity⟩ := shareLoop_spec hx hloop
  obtain rfl := shareLoop_shares hloop
  refine ⟨first, ?_, hlengths first List.mem_cons_self, hparity⟩
  simp [generateXorShares, hx, hloop]

theorem generateXorShares_eq_none (hlen : 65536 < x.length) (hparties : 2 ≤ numParties) :
    generateXorShares x numParties random = none := by
  obtain ⟨count, hcount⟩ : ∃ count, numParties - 1 = count + 1 := ⟨numParties - 2, by omega⟩
  simp [generateXorShares, hcount, shareLoop, getRandomValues, hlen.not_ge]

/-- Changing one share changes the parity by as much. -/
theorem parity_map_of_change {l : List ℕ} {f f' : ℕ → List Bool} {o k : ℕ} {δ : Bool}
    (hl : l.Nodup) (ho : o ∈ l) (hother : ∀ i ∈ l, i ≠ o → f' i = f i)
    (hchange : (f' o).getD k false = ((f o).getD k false ^^ δ)) :
    parity (l.map f') k = (parity (l.map f) k ^^ δ) := by
  induction l with
  | nil => cases ho
  | cons i l ih =>
    obtain ⟨hi, hl⟩ := List.nodup_cons.mp hl
    rw [List.map_cons, List.map_cons, parity_cons, parity_cons]
    by_cases hio : i = o
    · subst hio
      have hrest : l.map f' = l.map f := List.map_congr_left fun j hj =>
        hother j (List.mem_cons_of_mem i hj) fun h => hi (h ▸ hj)
      rw [hchange, hrest, Bool.xor_assoc, Bool.xor_assoc, Bool.xor_comm δ]
    · have ho : o ∈ l := (List.mem_cons.mp ho).resolve_left fun h => hio h.symm
      rw [hother i List.mem_cons_self hio,
        ih hl ho fun j hj => hother j (List.mem_cons_of_mem i hj), Bool.xor_assoc]

theorem getD_share (random : ℕ → ℕ → UInt8) (i : ℕ) {k : ℕ} (hk : k < len) :
    (share random len i).getD k false = decide (random i k % 2 = 0) := by
  simp [share, shareOf, List.getD_eq_getElem?_getD, hk]

/-! ## Exchanging the inputs -/

theorem random_flip (r : Draws numParties len) {i k : ℕ} (hi : 1 ≤ i ∧ i - 1 < numParties - 1)
    (hk : k < len) :
    (r.flip omitted x y).random i k =
      if i = omitted ∧ x.getD k false ≠ y.getD k false then r.random i k ^^^ 1
      else r.random i k := by
  have hindex : i - 1 + 1 = omitted ↔ i = omitted := by omega
  simp only [Draws.random, Draws.flip, hi, hk, and_self, dif_pos, hindex]

theorem share_flip_of_ne (r : Draws numParties len) {i : ℕ} (hi : 1 ≤ i ∧ i - 1 < numParties - 1)
    (hne : i ≠ omitted) : share (r.flip omitted x y).random len i = share r.random len i := by
  unfold share
  refine congrArg shareOf (List.map_congr_left fun k hk => ?_)
  rw [random_flip r hi (List.mem_range.mp hk), if_neg fun h => hne h.1]

theorem getD_share_flip (r : Draws numParties len) (hi : 1 ≤ omitted ∧ omitted - 1 < numParties - 1)
    {k : ℕ} (hk : k < len) :
    (share (r.flip omitted x y).random len omitted).getD k false =
      ((share r.random len omitted).getD k false ^^ (x.getD k false ^^ y.getD k false)) := by
  rw [getD_share _ _ hk, getD_share _ _ hk, random_flip r hi hk]
  cases hxk : x.getD k false <;> cases hyk : y.getD k false <;> simp [parity_flip]

/-- The shares from 1 on, without that of the omitted party. -/
theorem eraseIdx_shares_flip (r : Draws numParties len) (o : ℕ) :
    ((List.range' 1 (numParties - 1)).map
        (share (r.flip (o + 1) x y).random len)).eraseIdx o =
      ((List.range' 1 (numParties - 1)).map (share r.random len)).eraseIdx o := by
  rw [List.eraseIdx_map, List.eraseIdx_map]
  refine List.map_congr_left fun i hi => ?_
  obtain ⟨j, hj, hget⟩ := List.mem_eraseIdx_iff_getElem?.mp hi
  obtain ⟨hlt, rfl⟩ := List.getElem?_eq_some_iff.mp hget
  rw [List.length_range'] at hlt
  rw [List.getElem_range']
  exact share_flip_of_ne r (by omega) (by omega)

/-- Share 0 of the other input, from the flipped draws, is share 0 of the first. -/
theorem first_flip {first first' : List Bool} (r : Draws numParties len)
    (homitted : 1 ≤ omitted ∧ omitted - 1 < numParties - 1)
    (hlength : first.length = len) (hlength' : first'.length = len)
    (hfirst : ∀ k, (first.getD k false ^^
      parity ((List.range' 1 (numParties - 1)).map (share r.random len)) k) = x.getD k false)
    (hfirst' : ∀ k, (first'.getD k false ^^
      parity ((List.range' 1 (numParties - 1)).map
        (share (r.flip omitted x y).random len)) k) = y.getD k false) :
    first' = first := by
  refine List.ext_getElem (hlength'.trans hlength.symm) fun k hk' hk => ?_
  have hparity := parity_map_of_change (List.nodup_range' 1 Nat.one_pos)
    (List.mem_range'_1.mpr (by omega : 1 ≤ omitted ∧ omitted < 1 + (numParties - 1)))
    (fun i hi hne => share_flip_of_ne r (by have := List.mem_range'_1.mp hi; omega) hne)
    (getD_share_flip (x := x) (y := y) r homitted (hlength ▸ hk))
  have hx := hfirst k
  have hy := hfirst' k
  rw [hparity] at hy
  rw [← List.getD_eq_getElem _ false hk', ← List.getD_eq_getElem _ false hk]
  grind

/-- With the flipped draws the other input leaves the same arrays. -/
theorem observed_flip (hx : x.length = len) (hy : y.length = len) (hparties : 2 ≤ numParties)
    (homitted : omitted < numParties) (r : Draws numParties len) :
    observed y numParties omitted (r.flip omitted x y).random =
      observed x numParties omitted r.random := by
  unfold observed
  rcases lt_or_ge 65536 len with hlen | hlen
  · rw [generateXorShares_eq_none (hlen.trans_eq hy.symm) hparties,
      generateXorShares_eq_none (hlen.trans_eq hx.symm) hparties]
  · obtain ⟨first, hshares, hlength, hfirst⟩ :=
      generateXorShares_eq hx hlen numParties r.random
    obtain ⟨first', hshares', hlength', hfirst'⟩ :=
      generateXorShares_eq hy hlen numParties (r.flip omitted x y).random
    rw [hshares, hshares', Option.map_some, Option.map_some]
    refine congrArg some ?_
    cases omitted with
    | zero =>
      -- share 0 is gone, and no draw was changed
      rw [List.eraseIdx_cons_zero, List.eraseIdx_cons_zero]
      refine List.map_congr_left fun i hi => share_flip_of_ne r ?_ ?_
      · have := List.mem_range'_1.mp hi
        omega
      · have := List.mem_range'_1.mp hi
        omega
    | succ o =>
      rw [List.eraseIdx_cons_succ, List.eraseIdx_cons_succ, eraseIdx_shares_flip,
        first_flip r (by omega) hlength hlength' hfirst hfirst']

/-- Each set of arrays of all parties but one comes from as many draws for the one input as for
the other, also when the party that is left out is party 0. -/
theorem card_draws_observed_eq (x y : List Bool) (hlength : x.length = y.length)
    (numParties : ℕ) (hparties : 2 ≤ numParties) (omitted : ℕ) (homitted : omitted < numParties)
    (arrays : List (List Bool)) :
    Nat.card {r : Draws numParties x.length //
        observed x numParties omitted r.random = some arrays} =
      Nat.card {r : Draws numParties x.length //
        observed y numParties omitted r.random = some arrays} := by
  refine Nat.card_congr (Equiv.subtypeEquiv (Draws.flipEquiv omitted x y) fun r => ?_)
  rw [← observed_flip rfl hlength.symm hparties homitted r]
  rfl

theorem card_draws_observed_eq_demo :
    Nat.card {r : Draws 3 2 // observed [true, false] 3 0 r.random =
        some [[true, true], [false, true]]} =
      Nat.card {r : Draws 3 2 // observed [false, false] 3 0 r.random =
        some [[true, true], [false, true]]} :=
  card_draws_observed_eq [true, false] [false, false] rfl 3 (by decide) 0 (by decide)
    [[true, true], [false, true]]

end Freehold.Web
