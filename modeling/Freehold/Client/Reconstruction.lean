import Freehold.Client.Sharding
import Mathlib.Data.ZMod.Coprime

/-!
# Reconstruction recovers the secret

The loops of `reconstruct_secret` compute the interpolation at zero in the field of
residues; every modular inverse they ask for exists when the node ids are distinct.

## Main results

* `reconstructSecret_shardSecret` — any threshold-sized choice of shards gives back
  the secret's bytes.
* `reconstructEmail_enrollEmail_iff` — the e-mail round trip holds exactly for
  addresses below the prime.
-/

namespace Freehold.Client

/-! ## Residues and loops that may raise -/

/-- The canonical representative of a field element. -/
def Residue (z : ℤ) (a : ZMod prime) : Prop := 0 ≤ z ∧ z < prime ∧ (z : ZMod prime) = a

theorem residue_emod (z : ℤ) : Residue (z % prime) (z : ZMod prime) :=
  ⟨Int.emod_nonneg _ (by exact_mod_cast prime_prime.ne_zero),
    Int.emod_lt_of_pos _ (by exact_mod_cast prime_prime.pos), by simp⟩

theorem residue_zero : Residue 0 0 :=
  ⟨le_rfl, by exact_mod_cast prime_prime.pos, by simp⟩

theorem residue_one : Residue 1 1 :=
  ⟨zero_le_one, by exact_mod_cast prime_prime.one_lt, by simp⟩

theorem Residue.eq_mod {z : ℤ} {n : ℕ} (h : Residue z (n : ZMod prime)) :
    z = ((n % prime : ℕ) : ℤ) := by
  obtain ⟨hnonneg, hlt, hcast⟩ := h
  have hmod : z % prime = (n : ℤ) % prime :=
    (ZMod.intCast_eq_intCast_iff' z n prime).mp (by rw [hcast, Int.cast_natCast])
  rw [Int.emod_eq_of_lt hnonneg hlt] at hmod
  rw [hmod, Int.natCast_mod]

/-- Run a loop that may raise in step with a pure one. -/
theorem foldlM_related {α β γ ε : Type} (R : β → γ → Prop) {f : β → α → Except ε β}
    {g : γ → α → γ} {l : List α}
    (hstep : ∀ a ∈ l, ∀ b c, R b c → ∃ b', f b a = .ok b' ∧ R b' (g c a))
    {b : β} {c : γ} (h : R b c) : ∃ b', l.foldlM f b = .ok b' ∧ R b' (l.foldl g c) := by
  induction l generalizing b c with
  | nil => exact ⟨b, rfl, h⟩
  | cons a l ih =>
    obtain ⟨b', hb', hR⟩ := hstep a (List.mem_cons_self) b c h
    obtain ⟨b'', hb'', hR'⟩ := ih (fun x hx => hstep x (List.mem_cons_of_mem _ hx)) hR
    refine ⟨b'', ?_, hR'⟩
    rw [List.foldlM_cons, hb']
    exact hb''

theorem mapM_eq_ok {α β ε : Type} {f : α → Except ε β} {g : α → β} {l : List α}
    (h : ∀ a ∈ l, f a = .ok (g a)) : l.mapM f = .ok (l.map g) := by
  induction l with
  | nil => rfl
  | cons a l ih =>
    rw [List.mapM_cons, h a List.mem_cons_self, ih fun x hx => h x (List.mem_cons_of_mem _ hx)]
    rfl

/-! ## The loops of `reconstruct_secret` -/

theorem powInverse_eq_ok {den : ℤ} (hden : (den : ZMod prime) ≠ 0) :
    ∃ v : ℤ, powInverse den = .ok v ∧ (v : ZMod prime) = (den : ZMod prime)⁻¹ := by
  have hgcd : Int.gcd den prime = 1 := by
    by_contra hne
    exact hden (ZMod.eq_zero_iff_gcd_ne_one.mpr hne)
  refine ⟨_, by rw [powInverse, if_pos hgcd], ?_⟩
  have hbezout : (den : ZMod prime) * (Int.gcdA den prime : ℤ) = 1 := by
    have h := congrArg (Int.cast : ℤ → ZMod prime) (Int.gcd_eq_gcd_ab den prime)
    rw [hgcd] at h
    simpa using h.symm
  rw [ZMod.intCast_mod]
  exact eq_inv_of_mul_eq_one_right hbezout

theorem lagrangeStep_eq_ok {i : ℕ} {xi li : ℤ} {point : (ℤ × ℤ) × ℕ} {c : ZMod prime}
    (hli : Residue li c) (hne : i ≠ point.2 → (xi : ZMod prime) ≠ (point.1.1 : ℤ)) :
    ∃ li', lagrangeStep i xi li point = .ok li' ∧
      Residue li' (c * if i = point.2 then 1
        else (0 - ((point.1.1 : ℤ) : ZMod prime)) *
          ((xi : ZMod prime) - ((point.1.1 : ℤ) : ZMod prime))⁻¹) := by
  unfold lagrangeStep
  by_cases hi : i = point.2
  · refine ⟨li, by rw [if_pos hi], ?_⟩
    rwa [if_pos hi, mul_one]
  · have hden : (((xi - point.1.1) % prime : ℤ) : ZMod prime) ≠ 0 := by
      rw [ZMod.intCast_mod, Int.cast_sub]
      exact sub_ne_zero.mpr (hne hi)
    obtain ⟨v, hv, hinv⟩ := powInverse_eq_ok hden
    refine ⟨_, by rw [if_neg hi]; simp only [hv]; rfl, ?_⟩
    have hres := residue_emod (li * ((0 - point.1.1) % prime) * v)
    rw [if_neg hi]
    convert hres using 1
    rw [Int.cast_mul, Int.cast_mul, hli.2.2, hinv, ZMod.intCast_mod, ZMod.intCast_mod,
      Int.cast_sub, Int.cast_sub, Int.cast_zero, mul_assoc]

theorem zipIdx_eq_map_finRange {α : Type*} (l : List α) :
    l.zipIdx = (List.finRange l.length).map fun j => (l[j], j.val) := by
  refine List.ext_getElem (by simp) fun k _ _ => ?_
  simp

variable {nodeShards : List (ℤ × ℤ)}

/-- The node ids of the points as field elements. -/
noncomputable def abscissa (nodeShards : List (ℤ × ℤ)) (j : Fin nodeShards.length) : ZMod prime :=
  ((nodeShards[j].1 : ℤ) : ZMod prime)

noncomputable def ordinate (nodeShards : List (ℤ × ℤ)) (j : Fin nodeShards.length) : ZMod prime :=
  ((nodeShards[j].2 : ℤ) : ZMod prime)

/-- The inner loop computes coefficient `i` of the interpolation at zero. -/
theorem lagrangeLoop_eq_ok (hx : Function.Injective (abscissa nodeShards))
    (i : Fin nodeShards.length) :
    ∃ v, nodeShards.zipIdx.foldlM (lagrangeStep i nodeShards[i].1) 1 = .ok v ∧
      Residue v (∏ j ∈ Finset.univ.erase i, (0 - abscissa nodeShards j) *
        (abscissa nodeShards i - abscissa nodeShards j)⁻¹) := by
  -- the factor of point `j`; point `i` itself is skipped
  let factor (j : Fin nodeShards.length) : ZMod prime := if i.val = j.val then 1
    else (0 - abscissa nodeShards j) * (abscissa nodeShards i - abscissa nodeShards j)⁻¹
  rw [zipIdx_eq_map_finRange, List.foldlM_map]
  obtain ⟨v, hv, hres⟩ := foldlM_related Residue
    (f := fun li j => lagrangeStep i nodeShards[i].1 li (nodeShards[j], j.val))
    (g := fun c j => c * factor j) (l := List.finRange nodeShards.length)
    (fun j _ li c hli => lagrangeStep_eq_ok hli fun hij heq =>
      hij (congrArg Fin.val (hx heq))) residue_one
  refine ⟨v, hv, ?_⟩
  have hself : factor i = 1 := if_pos rfl
  rw [← List.foldl_map (g := (· * ·)), ← List.prod_eq_foldl, ← List.ofFn_eq_map, List.prod_ofFn,
    ← Finset.prod_erase Finset.univ hself] at hres
  convert hres using 1
  refine Finset.prod_congr rfl fun j hj => ?_
  exact (if_neg fun h => Finset.ne_of_mem_erase hj (Fin.ext h.symm)).symm

/-- On distinct node ids the loops of `reconstruct_secret` compute the interpolation
at zero; only the final conversion to bytes can still raise. -/
theorem reconstructSecret_eq (hx : Function.Injective (abscissa nodeShards)) (originalLen : ℕ) :
    ∃ v, Residue v (SecretSharing.interpolateZero (abscissa nodeShards) (ordinate nodeShards)) ∧
      reconstructSecret nodeShards originalLen = intToBytes v originalLen := by
  let coefficient (i : Fin nodeShards.length) : ZMod prime := ∏ j ∈ Finset.univ.erase i,
    (0 - abscissa nodeShards j) * (abscissa nodeShards i - abscissa nodeShards j)⁻¹
  have hstep : ∀ i ∈ List.finRange nodeShards.length, ∀ secret c, Residue secret c →
      ∃ secret', interpolationStep nodeShards secret (nodeShards[i], i.val) = .ok secret' ∧
        Residue secret' (c + ordinate nodeShards i * coefficient i) := by
    intro i _ secret c hsecret
    obtain ⟨li, hli, hres⟩ := lagrangeLoop_eq_ok hx i
    refine ⟨_, by simp only [interpolationStep, hli]; rfl, ?_⟩
    convert residue_emod (secret + nodeShards[i].2 * li) using 1
    rw [Int.cast_add, Int.cast_mul, hsecret.2.2, hres.2.2]
    rfl
  obtain ⟨v, hv, hres⟩ := foldlM_related Residue hstep residue_zero
  rw [← List.foldl_map (g := (· + ·)), ← List.sum_eq_foldl, ← List.ofFn_eq_map,
    List.sum_ofFn] at hres
  refine ⟨v, hres, ?_⟩
  rw [reconstructSecret, zipIdx_eq_map_finRange, List.foldlM_map, hv]
  rfl

/-! ## Secrets -/

/-- What a caller holds for node `i`: its id and its shard, as integers. -/
def shardPoint (coeffs : List ℕ) (i : ℕ) : ℤ × ℤ := (i, shardValue coeffs i)

/-- From more shards than random coefficients the loops compute the secret modulo the
prime, whichever nodes they come from and in whatever order. -/
theorem reconstructSecret_shardPoints {d : ℕ} (secretInt : ℕ) (randbits : Fin d → ℕ)
    {ids : List ℕ} (hdistinct : ids.Nodup) (hids : ∀ i ∈ ids, i < prime) (hcount : d < ids.length)
    (originalLen : ℕ) :
    reconstructSecret (ids.map (shardPoint
        (secretInt :: List.ofFn fun k => randbits k % prime))) originalLen =
      intToBytes ((secretInt % prime : ℕ) : ℤ) originalLen := by
  set coeffs := secretInt :: List.ofFn fun k => randbits k % prime with hcoeffs
  set points := ids.map (shardPoint coeffs) with hpoints
  have hlen : points.length = ids.length := List.length_map ..
  have hget : ∀ j : Fin points.length, points[j] = shardPoint coeffs (ids.get (j.cast hlen)) :=
    fun j => List.getElem_map ..
  have hx : Function.Injective (abscissa points) := by
    intro j k hjk
    simp only [abscissa, hget, shardPoint, Int.cast_natCast] at hjk
    have hmod := (ZMod.natCast_eq_natCast_iff' _ _ prime).mp hjk
    rw [Nat.mod_eq_of_lt (hids _ (ids.get_mem _)), Nat.mod_eq_of_lt (hids _ (ids.get_mem _))]
      at hmod
    exact Fin.cast_injective hlen (List.nodup_iff_injective_get.mp hdistinct hmod)
  have hy : ordinate points = fun j => SecretSharing.share (secretInt : ZMod prime)
      (fun k => (randbits k : ZMod prime)) (abscissa points j) := by
    funext j
    simp only [ordinate, abscissa, hget, shardPoint, Int.cast_natCast]
    exact shardValue_eq_share secretInt randbits _
  obtain ⟨v, hv, hrun⟩ := reconstructSecret_eq hx originalLen
  rw [hy, SecretSharing.interpolateZero_share hx (by omega)] at hv
  rw [hrun, hv.eq_mod]

/-- Reading chosen shards back gives their nodes' points. -/
theorem mapM_point {self : ThresholdSharder} {randbits : Fin (self.t - 1) → ℕ}
    {secret : List UInt8} {epoch : ℤ} {chosen : List Shard}
    (hchosen : ∀ s ∈ chosen, s ∈ (self.shardSecret randbits secret epoch).shards) :
    chosen.mapM Shard.point = .ok ((chosen.map Shard.nodeId).map (shardPoint
      (intFromBytes secret :: List.ofFn fun k => randbits k % prime))) := by
  rw [List.map_map]
  exact mapM_eq_ok fun s hs => (point_of_mem_shards (hchosen s hs)).2.2

/-- Any choice of at least `t` shards of distinct nodes, in any order, gives back
exactly the bytes of a secret below the prime, leading zeros included. -/
theorem reconstructSecret_shardSecret (self : ThresholdSharder) (ht : 1 ≤ self.t)
    (hn : self.n < prime) (secret : List UInt8) (hsecret : intFromBytes secret < prime)
    (randbits : Fin (self.t - 1) → ℕ) (epoch : ℤ) (chosen : List Shard)
    (hchosen : ∀ s ∈ chosen, s ∈ (self.shardSecret randbits secret epoch).shards)
    (hdistinct : (chosen.map Shard.nodeId).Nodup) (hcount : self.t ≤ chosen.length) :
    (do
      let nodeShards ← chosen.mapM Shard.point
      reconstructSecret nodeShards (self.shardSecret randbits secret epoch).length) =
      .ok secret := by
  have hids : ∀ i ∈ chosen.map Shard.nodeId, i < prime := by
    intro i hi
    obtain ⟨s, hs, rfl⟩ := List.mem_map.mp hi
    exact (point_of_mem_shards (hchosen s hs)).2.1.trans_lt hn
  rw [mapM_point hchosen]
  change reconstructSecret _ secret.length = _
  rw [reconstructSecret_shardPoints _ randbits hdistinct hids (by rw [List.length_map]; omega),
    Nat.mod_eq_of_lt hsecret, intToBytes_natCast (intFromBytes_lt secret), bigEndian_intFromBytes]

/-- All three shards of a two-threshold sharing, last node first. -/
theorem reconstructSecret_shardSecret_reversed :
    (do
      let nodeShards ←
        ((ThresholdSharder.shardSecret ⟨2, 3⟩ (fun _ => 5) [0, 7] 1).shards.reverse).mapM
        Shard.point
      reconstructSecret nodeShards 2) = .ok [0, 7] :=
  reconstructSecret_shardSecret ⟨2, 3⟩ (by decide) (lt_prime_of_lt_byte (by decide)) [0, 7]
    (intFromBytes_lt_prime (by decide)) (fun _ => 5) 1
    (ThresholdSharder.shardSecret ⟨2, 3⟩ (fun _ => 5) [0, 7] 1).shards.reverse
    (fun _ hs => List.mem_reverse.mp hs) (by simp [ThresholdSharder.shardSecret, List.range'])
    (by simp [ThresholdSharder.shardSecret])

/-! ## E-mail addresses -/

theorem decodeUtf8_eq_ok_iff {bytes : List UInt8} {text : String} :
    decodeUtf8 bytes = .ok text ↔ bytes = encodeUtf8 text := by
  constructor
  · intro h
    by_cases hvalid : ByteArray.IsValidUTF8 ⟨bytes.toArray⟩
    · rw [decodeUtf8, String.fromUTF8?, dif_pos hvalid] at h
      obtain rfl := Except.ok.inj h
      rfl
    · rw [decodeUtf8, String.fromUTF8?, dif_neg hvalid] at h
      cases h
  · rintro rfl
    have hvalid : ByteArray.IsValidUTF8 ⟨(encodeUtf8 text).toArray⟩ := text.isValidUTF8
    rw [decodeUtf8, String.fromUTF8?, dif_pos hvalid]
    rfl

/-- The dealer's coefficients for an address. -/
def emailCoeffs (randbits : Fin (3 - 1) → ℕ) (email : String) : List ℕ :=
  intFromBytes (encodeUtf8 email) :: List.ofFn fun k => randbits k % prime

theorem take_shards (randbits : Fin (3 - 1) → ℕ) (email : String) {n : ℕ} (hn : 3 ≤ n) :
    ((enrollEmail randbits email n).shards.map Shard.shard).take 3 =
      [1, 2, 3].map fun i => hex (shardValue (emailCoeffs randbits email) i) := by
  simp only [enrollEmail, ThresholdSharder.shardSecret]
  rw [List.map_map, ← List.map_take, List.take_range'_of_length_ge hn]
  rfl

/-- Three shard texts, read by position, are the points of the first three nodes. -/
theorem mapM_positionPoint (coeffs : List ℕ) :
    ([1, 2, 3].map fun i => hex (shardValue coeffs i)).zipIdx.mapM positionPoint =
      .ok ([1, 2, 3].map (shardPoint coeffs)) := by
  simp only [List.map_cons, List.map_nil, List.zipIdx_cons, List.zipIdx_nil, List.mapM_cons,
    List.mapM_nil, positionPoint, intBase16_hex]
  rfl

theorem reconstructSecret_emailPoints (randbits : Fin (3 - 1) → ℕ) (email : String) :
    reconstructSecret ([1, 2, 3].map (shardPoint (emailCoeffs randbits email)))
      (encodeUtf8 email).length =
    .ok (bigEndian (encodeUtf8 email).length (intFromBytes (encodeUtf8 email) % prime)) := by
  have hfit : intFromBytes (encodeUtf8 email) % prime < 256 ^ (encodeUtf8 email).length :=
    (Nat.mod_le _ _).trans_lt (intFromBytes_lt _)
  have hids : ∀ i ∈ [1, 2, 3], i < prime := fun i hi => lt_prime_of_lt_byte (by simp at hi; omega)
  rw [emailCoeffs, reconstructSecret_shardPoints _ randbits (by decide) hids (by decide),
    intToBytes_natCast hfit]

theorem reconstructEmail_eq_decode {shardsHex : List (List Char)} {nodeShards : List (ℤ × ℤ)}
    {len : ℕ} {bytes : List UInt8}
    (hread : (shardsHex.take 3).zipIdx.mapM positionPoint = .ok nodeShards)
    (hrun : reconstructSecret nodeShards len = .ok bytes) :
    reconstructEmail shardsHex len = decodeUtf8 bytes := by
  simp only [reconstructEmail, hread, hrun, bind, Except.bind]

/-- Whatever the address, the round trip decodes its value modulo the prime. -/
theorem reconstructEmail_enrollEmail_eq (randbits : Fin (3 - 1) → ℕ) (email : String) {n : ℕ}
    (hn : 3 ≤ n) :
    reconstructEmail ((enrollEmail randbits email n).shards.map Shard.shard)
      (enrollEmail randbits email n).length =
    decodeUtf8 (bigEndian (encodeUtf8 email).length (intFromBytes (encodeUtf8 email) % prime)) :=
  reconstructEmail_eq_decode (by rw [take_shards _ _ hn, mapM_positionPoint])
    (reconstructSecret_emailPoints randbits email)

/-- The recorded length and the residue determine the bytes only below the prime. -/
theorem bigEndian_mod_prime_eq_iff (bytes : List UInt8) :
    bigEndian bytes.length (intFromBytes bytes % prime) = bytes ↔ intFromBytes bytes < prime := by
  constructor
  · intro h
    have hle : intFromBytes bytes % prime < 256 ^ bytes.length :=
      (Nat.mod_le _ _).trans_lt (intFromBytes_lt bytes)
    have hval := congrArg intFromBytes h
    rw [intFromBytes_bigEndian, Nat.mod_eq_of_lt hle] at hval
    rw [← hval]
    exact Nat.mod_lt _ prime_prime.pos
  · intro h
    rw [Nat.mod_eq_of_lt h, bigEndian_intFromBytes]

/-- The e-mail round trip returns the address exactly when the address, read as a
big-endian integer, is below the prime. -/
theorem reconstructEmail_enrollEmail_iff (randbits : Fin (3 - 1) → ℕ) (email : String) (n : ℕ)
    (hn : 3 ≤ n) :
    reconstructEmail ((enrollEmail randbits email n).shards.map Shard.shard)
      (enrollEmail randbits email n).length = .ok email ↔
    intFromBytes (encodeUtf8 email) < prime := by
  rw [reconstructEmail_enrollEmail_eq randbits email hn, decodeUtf8_eq_ok_iff,
    bigEndian_mod_prime_eq_iff]

theorem reconstructEmail_enrollEmail_iff_alice :
    reconstructEmail ((enrollEmail (fun _ => 7) "alice@example.com" 5).shards.map Shard.shard)
      (enrollEmail (fun _ => 7) "alice@example.com" 5).length = .ok "alice@example.com" ↔
    intFromBytes (encodeUtf8 "alice@example.com") < prime :=
  reconstructEmail_enrollEmail_iff (fun _ => 7) "alice@example.com" 5 (by decide)

/-- An address of 66 bytes, which mail servers accept. -/
def longAddress : String := String.ofList (List.replicate 54 'a' ++ "@example.com".toList)

/-- Its shards decode to something else, or to nothing. -/
theorem reconstructEmail_longAddress :
    reconstructEmail ((enrollEmail (fun _ => 7) longAddress 5).shards.map Shard.shard)
      (enrollEmail (fun _ => 7) longAddress 5).length ≠ .ok longAddress := by
  have hbytes : encodeUtf8 longAddress = 97 :: (List.replicate 53 97 ++
      [64, 101, 120, 97, 109, 112, 108, 101, 46, 99, 111, 109]) := by decide
  rw [reconstructEmail_enrollEmail_eq _ _ (by decide), Ne, decodeUtf8_eq_ok_iff,
    bigEndian_mod_prime_eq_iff, hbytes, not_lt]
  exact prime_le_intFromBytes (by decide) (by decide)

end Freehold.Client
