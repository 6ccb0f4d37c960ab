import Freehold.Client.Reconstruction
import Freehold.Client.Secrecy

/-!
# Shards next to other points

`validate_resharding.py` writes the new shards over the old ones, one node after the other.
Until the threshold is reached the new shards are too few, and the old ones beside them, or
any other points, make every value equally likely.

## Main results

* `card_reconstruct_eq` — a coalition below the threshold that adds points of its own.
* `card_readBack_relevel_eq` — the cluster in the middle of a resharding.
* `reconstructSecret_altered_iff` — enough shards, one of them altered.
-/

namespace Freehold.Client

/-! ## What comes back, as a residue -/

theorem intToBytes_eq_ok_iff {v : ℤ} (hv : 0 ≤ v) (bytes : List UInt8) :
    intToBytes v bytes.length = .ok bytes ↔ v = intFromBytes bytes := by
  constructor
  · intro h
    unfold intToBytes at h
    split_ifs at h with hneg hlarge
    have hbytes := congrArg intFromBytes (Except.ok.inj h)
    rw [intFromBytes_bigEndian, Nat.mod_eq_of_lt (not_le.mp hlarge)] at hbytes
    omega
  · rintro rfl
    rw [intToBytes_natCast (intFromBytes_lt bytes), bigEndian_intFromBytes]

theorem Residue.eq_natCast_iff {v : ℤ} {a : ZMod prime} (h : Residue v a) {n : ℕ} (hn : n < prime) :
    v = n ↔ a = n := by
  constructor
  · rintro rfl
    rw [← h.2.2, Int.cast_natCast]
  · rintro rfl
    rw [h.eq_mod, Nat.mod_eq_of_lt hn]

/-- The loops on a list of points, indexed by their positions. -/
theorem interpolateZero_ofFn {n : ℕ} (point : Fin n → ℤ × ℤ) :
    SecretSharing.interpolateZero (abscissa (List.ofFn point)) (ordinate (List.ofFn point)) =
      SecretSharing.interpolateZero (fun j => ((point j).1 : ZMod prime))
        fun j => ((point j).2 : ZMod prime) := by
  have hcast : ∀ {m : ℕ} (h : m = n) (x y : Fin m → ZMod prime),
      SecretSharing.interpolateZero x y =
        SecretSharing.interpolateZero (fun j => x (j.cast h.symm)) fun j => y (j.cast h.symm) := by
    rintro m rfl x y
    rfl
  rw [hcast (List.length_ofFn ..)]
  simp [abscissa, ordinate]

/-- No two ids are of the same node, and none is zero, the place of the secret. -/
structure Separate (ids : List ℤ) : Prop where
  nodup : (ids.map fun id => id % (prime : ℤ)).Nodup
  ne_zero : ∀ id ∈ ids, id % (prime : ℤ) ≠ 0

theorem separate_natCast {ids : List ℕ} (hnodup : ids.Nodup)
    (hids : ∀ i ∈ ids, 1 ≤ i ∧ i < prime) : Separate (ids.map Nat.cast) := by
  have hmod : ∀ i ∈ ids, (i : ℤ) % (prime : ℤ) = i := fun i hi =>
    Int.emod_eq_of_lt (Int.natCast_nonneg i) (by exact_mod_cast (hids i hi).2)
  constructor
  · rw [List.map_map]
    refine hnodup.map_on fun i hi k hk hik => ?_
    have heq : (i : ℤ) = k := by rwa [← hmod i hi, ← hmod k hk]
    exact_mod_cast heq
  · intro id hid
    obtain ⟨i, hi, rfl⟩ := List.mem_map.mp hid
    have hpos := (hids i hi).1
    rw [hmod i hi]
    omega

section Points

variable {n : ℕ} {point : Fin n → ℤ × ℤ}

theorem Separate.injective (h : Separate (List.ofFn fun j => (point j).1)) :
    Function.Injective fun j => ((point j).1 : ZMod prime) := by
  have hnodup := h.nodup
  rw [List.map_ofFn, List.nodup_ofFn] at hnodup
  exact fun i j hij => hnodup ((ZMod.intCast_eq_intCast_iff' _ _ prime).mp hij)

theorem Separate.abscissa_ne_zero (h : Separate (List.ofFn fun j => (point j).1)) (j : Fin n) :
    ((point j).1 : ZMod prime) ≠ 0 := by
  have hne := h.ne_zero (point j).1 (List.mem_ofFn.mpr ⟨j, rfl⟩)
  rw [Ne, ZMod.intCast_zmod_eq_zero_iff_dvd]
  exact fun hdvd => hne (Int.emod_eq_zero_of_dvd hdvd)

/-- On separate points a value below the prime comes back exactly if interpolation gives it. -/
theorem reconstructSecret_ofFn_eq_ok_iff (h : Separate (List.ofFn fun j => (point j).1))
    {bytes : List UInt8} (hbytes : intFromBytes bytes < prime) :
    reconstructSecret (List.ofFn point) bytes.length = .ok bytes ↔
      SecretSharing.interpolateZero (fun j => ((point j).1 : ZMod prime))
        (fun j => ((point j).2 : ZMod prime)) = (intFromBytes bytes : ZMod prime) := by
  have hx : Function.Injective (abscissa (List.ofFn point)) := by
    intro i j hij
    simp only [abscissa, Fin.getElem_fin, List.getElem_ofFn] at hij
    exact Fin.ext (Fin.mk.inj (h.injective hij))
  obtain ⟨v, hv, hrun⟩ := reconstructSecret_eq hx bytes.length
  rw [hrun, intToBytes_eq_ok_iff hv.1, hv.eq_natCast_iff hbytes, interpolateZero_ofFn]

end Points

/-! ## Shards next to points from elsewhere -/

/-- The shards of the nodes `ids`, and other points behind them. -/
def mixedPoint (coeffs ids : List ℕ) (others : List (ℤ × ℤ)) :
    Fin (ids.length + others.length) → ℤ × ℤ :=
  Fin.append (fun i => shardPoint coeffs (ids.get i)) others.get

theorem ofFn_mixedPoint (coeffs ids : List ℕ) (others : List (ℤ × ℤ)) :
    List.ofFn (mixedPoint coeffs ids others) = ids.map (shardPoint coeffs) ++ others := by
  rw [mixedPoint, List.ofFn_fin_append]
  congr 1
  · exact List.ofFn_getElem_eq_map ids (shardPoint coeffs)
  · exact List.ofFn_get others

variable {d : ℕ} {ids : List ℕ} {others : List (ℤ × ℤ)}

/-- The dealer's coefficients. -/
def dealtCoeffs (secretInt : ℕ) (c : Fin d → Fin prime) : List ℕ :=
  secretInt :: List.ofFn fun k => (c k).val % prime

/-- The positions of the shards. -/
def ownPositions (ids : List ℕ) (others : List (ℤ × ℤ)) :
    Finset (Fin (ids.length + others.length)) :=
  Finset.univ.map (Fin.castAddEmb others.length)

/-- Whatever the coefficients are, the ids and the other points stay. -/
theorem mixedPoint_dealtCoeffs (secretInt : ℕ) (c c₀ : Fin d → Fin prime)
    (j : Fin (ids.length + others.length)) :
    ((mixedPoint (dealtCoeffs secretInt c) ids others j).1 : ZMod prime) =
        ((mixedPoint (dealtCoeffs secretInt c₀) ids others j).1 : ZMod prime) ∧
      ((mixedPoint (dealtCoeffs secretInt c) ids others j).2 : ZMod prime) =
        SecretSharing.mixed (ownPositions ids others)
          (fun j => ((mixedPoint (dealtCoeffs secretInt c₀) ids others j).1 : ZMod prime))
          (fun j => ((mixedPoint (dealtCoeffs secretInt c₀) ids others j).2 : ZMod prime))
          (secretInt : ZMod prime) (fun k => residueEquiv (c k)) j := by
  induction j using Fin.addCases with
  | left i =>
    have hmem : Fin.castAdd others.length i ∈ ownPositions ids others :=
      Finset.mem_map_of_mem _ (Finset.mem_univ i)
    simp only [mixedPoint, Fin.append_left, SecretSharing.mixed, hmem, if_true, shardPoint]
    refine ⟨trivial, ?_⟩
    rw [Int.cast_natCast, Int.cast_natCast, dealtCoeffs, shardValue_eq_share]
    rfl
  | right i =>
    have hmem : Fin.natAdd ids.length i ∉ ownPositions ids others := by
      intro h
      obtain ⟨k, -, hk⟩ := Finset.mem_map.mp h
      have hval := congrArg Fin.val hk
      simp only [Fin.coe_castAddEmb, Fin.val_castAdd, Fin.val_natAdd] at hval
      omega
    simp only [mixedPoint, Fin.append_right, SecretSharing.mixed, hmem, if_false, and_self]

theorem ofFn_fst_mixedPoint (coeffs ids : List ℕ) (others : List (ℤ × ℤ)) :
    (List.ofFn fun j => (mixedPoint coeffs ids others j).1) =
      ids.map Nat.cast ++ others.map Prod.fst := by
  have hmap := congrArg (List.map Prod.fst) (ofFn_mixedPoint coeffs ids others)
  rw [List.map_ofFn, List.map_append, List.map_map] at hmap
  exact hmap

/-- Among the coefficients of a sharing, those for which some of its shards and the other points
give `bytes` are as many for every `bytes`: one in `prime`. -/
theorem card_reconstructSecret_eq (secretInt : ℕ) (hids : ids ≠ []) (hfew : ids.length ≤ d)
    (hseparate : Separate (ids.map Nat.cast ++ others.map Prod.fst)) {bytes : List UInt8}
    (hbytes : intFromBytes bytes < prime) :
    Nat.card {c : Fin d → Fin prime // reconstructSecret
      (ids.map (shardPoint (dealtCoeffs secretInt c)) ++ others) bytes.length = .ok bytes} * prime =
    Nat.card (Fin d → Fin prime) := by
  let c₀ : Fin d → Fin prime := fun _ => ⟨0, prime_prime.pos⟩
  let point (c : Fin d → Fin prime) := mixedPoint (dealtCoeffs secretInt c) ids others
  let x (j : Fin (ids.length + others.length)) : ZMod prime := ((point c₀ j).1 : ZMod prime)
  let other (j : Fin (ids.length + others.length)) : ZMod prime := ((point c₀ j).2 : ZMod prime)
  have hpoint : ∀ c, Separate (List.ofFn fun j => (point c j).1) := fun c => by
    rwa [ofFn_fst_mixedPoint]
  have hok : ∀ c : Fin d → Fin prime, reconstructSecret
      (ids.map (shardPoint (dealtCoeffs secretInt c)) ++ others) bytes.length = .ok bytes ↔
      SecretSharing.interpolateZero x (SecretSharing.mixed (ownPositions ids others) x other
        (secretInt : ZMod prime) fun k => residueEquiv (c k)) =
          (intFromBytes bytes : ZMod prime) := by
    intro c
    have hmixed := @mixedPoint_dealtCoeffs _ ids others secretInt c c₀
    rw [← ofFn_mixedPoint, reconstructSecret_ofFn_eq_ok_iff (hpoint c) hbytes,
      funext fun j => (hmixed j).1, funext fun j => (hmixed j).2]
  have hown : (ownPositions ids others).card = ids.length := by
    rw [ownPositions, Finset.card_map, Finset.card_univ, Fintype.card_fin]
  have hnonempty : (ownPositions ids others).Nonempty := by
    rw [← Finset.card_pos, hown]
    exact List.length_pos_iff.mpr hids
  have hcard := SecretSharing.card_interpolateZero_eq (hpoint c₀).injective
    (hpoint c₀).abscissa_ne_zero hnonempty (hown.trans_le hfew) other
    (secretInt : ZMod prime) (intFromBytes bytes : ZMod prime)
  rw [Nat.card_zmod] at hcard
  rw [Nat.card_congr (Equiv.piCongrRight fun _ => residueEquiv : (Fin d → Fin prime) ≃ _), ← hcard]
  refine congrArg (· * prime) (Nat.card_congr ?_)
  exact (Equiv.piCongrRight fun _ => residueEquiv).subtypeEquiv fun c => hok c

/-! ## A coalition below the threshold -/

/-- What `reconstruct_secret` makes of the seen shards and other points behind them. -/
def Dealing.reconstruct (d : Dealing) (secret : List UInt8) (others : List (ℤ × ℤ))
    (randbits : Fin (d.sharder.t - 1) → ℕ) (originalLen : ℕ) : Except PyError (List UInt8) := do
  let own ← (d.observed secret randbits).mapM Shard.point
  reconstructSecret (own ++ others) originalLen

def Dealing.seenIds (d : Dealing) : List ℕ :=
  (List.range' 1 d.sharder.n).filter fun i => i ∈ d.seen

theorem Dealing.map_nodeId_observed (d : Dealing) (secret : List UInt8)
    (randbits : Fin (d.sharder.t - 1) → ℕ) :
    (d.observed secret randbits).map Shard.nodeId = d.seenIds := by
  simp [observed, seenIds, ThresholdSharder.shardSecret, List.filter_map, Function.comp_def]

theorem Dealing.length_seenIds_le (d : Dealing) : d.seenIds.length ≤ d.seen.card := by
  have hnodup : d.seenIds.Nodup := List.Nodup.filter _ List.nodup_range'
  rw [← List.toFinset_card_of_nodup hnodup]
  refine Finset.card_le_card fun i hi => ?_
  simpa using (List.mem_filter.mp (List.mem_toFinset.mp hi)).2

/-- With at least one shard, but fewer than the threshold, and whatever else it puts beside them
at other nodes, a coalition gets each byte string of a length for as many coefficients as any
other: one in `prime`. -/
theorem card_reconstruct_eq (d : Dealing) (secret : List UInt8) (others : List (ℤ × ℤ))
    (hseen : d.seenIds ≠ []) (hfew : d.seen.card < d.sharder.t)
    (hseparate : Separate (d.seenIds.map Nat.cast ++ others.map Prod.fst)) (bytes : List UInt8)
    (hbytes : intFromBytes bytes < prime) :
    Nat.card {c : d.Coefficients //
      d.reconstruct secret others (fun k => (c k).val) bytes.length = .ok bytes} * prime =
    Nat.card d.Coefficients := by
  have hrun : ∀ c : d.Coefficients,
      d.reconstruct secret others (fun k => (c k).val) bytes.length =
        reconstructSecret (d.seenIds.map (shardPoint (dealtCoeffs (intFromBytes secret) c)) ++
          others) bytes.length := by
    intro c
    have hread := @mapM_point _ _ _ _ (d.observed secret fun k => (c k).val)
      fun s hs => (List.mem_filter.mp hs).1
    rw [Dealing.reconstruct, hread, d.map_nodeId_observed]
    rfl
  simp only [hrun]
  exact card_reconstructSecret_eq _ hseen
    (d.length_seenIds_le.trans (Nat.le_sub_one_of_lt hfew)) hseparate hbytes

theorem separate_of_lt_byte {ids : List ℕ} (hnodup : ids.Nodup)
    (hids : ∀ i ∈ ids, 1 ≤ i ∧ i < 256) : Separate (ids.map Nat.cast) :=
  separate_natCast hnodup fun i hi => ⟨(hids i hi).1, lt_prime_of_lt_byte (hids i hi).2⟩

theorem seenIds_guess : Dealing.seenIds ⟨⟨3, 5⟩, 1, {1, 2}⟩ = [1, 2] := by decide

/-- Two of five nodes, three being asked for, with a point of their own for node 3. -/
theorem card_reconstruct_eq_guess :
    Nat.card {c : Dealing.Coefficients ⟨⟨3, 5⟩, 1, {1, 2}⟩ //
      Dealing.reconstruct ⟨⟨3, 5⟩, 1, {1, 2}⟩ [7] [(3, 100)] (fun k => (c k).val) 1 = .ok [7]} *
        prime =
    Nat.card (Dealing.Coefficients ⟨⟨3, 5⟩, 1, {1, 2}⟩) :=
  card_reconstruct_eq ⟨⟨3, 5⟩, 1, {1, 2}⟩ [7] [(3, 100)] (by decide) (by decide)
    (by rw [seenIds_guess]; exact separate_of_lt_byte (by decide : [1, 2, 3].Nodup) (by decide))
    [7] (intFromBytes_lt_prime (by decide))

/-! ## Altered shards -/

/-- Reading a list with one altered entry. -/
theorem mapM_set_eq_ok {α β ε : Type} {f : α → Except ε β} {g : α → β} {l : List α} {a : α} {b : β}
    (hl : ∀ x ∈ l, f x = .ok (g x)) (ha : f a = .ok b) (i : ℕ) :
    (l.set i a).mapM f = .ok ((l.map g).set i b) := by
  induction l generalizing i with
  | nil => rfl
  | cons x l ih =>
    have hx := hl x List.mem_cons_self
    have hrest : ∀ y ∈ l, f y = .ok (g y) := fun y hy => hl y (List.mem_cons_of_mem _ hy)
    cases i with
    | zero =>
      rw [List.set_cons_zero, List.mapM_cons, ha, mapM_eq_ok hrest]
      rfl
    | succ i =>
      rw [List.set_cons_succ, List.mapM_cons, hx, ih hrest i]
      rfl

theorem ofFn_update {α : Type} {n : ℕ} (f : Fin n → α) (i : Fin n) (a : α) :
    List.ofFn (Function.update f i a) = (List.ofFn f).set i a := by
  refine List.ext_getElem (by simp) fun k hk _ => ?_
  rw [List.getElem_ofFn, List.getElem_set, List.getElem_ofFn, Function.update_apply]
  simp only [Fin.ext_iff, eq_comm]

/-- Of enough shards of distinct nodes one is altered: the secret comes back exactly if the
altered text says the same residue. -/
theorem reconstructSecret_altered_iff (self : ThresholdSharder) (ht : 1 ≤ self.t)
    (hn : self.n < prime) (secret : List UInt8) (hsecret : intFromBytes secret < prime)
    (randbits : Fin (self.t - 1) → ℕ) (epoch : ℤ) (chosen : List Shard)
    (hchosen : ∀ s ∈ chosen, s ∈ (self.shardSecret randbits secret epoch).shards)
    (hdistinct : (chosen.map Shard.nodeId).Nodup) (hcount : self.t ≤ chosen.length)
    (j : Fin chosen.length) (text : List Char) {value original : ℤ}
    (hvalue : intBase16 text = .ok value) (horiginal : intBase16 chosen[j].shard = .ok original) :
    (do
      let nodeShards ← (chosen.set j { chosen[j] with shard := text }).mapM Shard.point
      reconstructSecret nodeShards (self.shardSecret randbits secret epoch).length) = .ok secret ↔
    value % (prime : ℤ) = original % (prime : ℤ) := by
  let coeffs := intFromBytes secret :: List.ofFn fun k => randbits k % prime
  let point (i : Fin chosen.length) : ℤ × ℤ := shardPoint coeffs chosen[i].nodeId
  have hpoint : ∀ s ∈ chosen, s.point = .ok (shardPoint coeffs s.nodeId) := fun s hs =>
    (point_of_mem_shards (hchosen s hs)).2.2
  have haltered : ({ chosen[j] with shard := text } : Shard).point =
      .ok ((chosen[j].nodeId : ℤ), value) := by
    simp only [Shard.point, hvalue]
    rfl
  have hval : original = (point j).2 := by
    have hj := hpoint chosen[j] (List.getElem_mem j.isLt)
    simp only [Shard.point, horiginal] at hj
    exact congrArg Prod.snd (Except.ok.inj hj)
  have hlist : (chosen.map fun s => shardPoint coeffs s.nodeId).set j (chosen[j].nodeId, value) =
      List.ofFn (Function.update point j (chosen[j].nodeId, value)) := by
    rw [ofFn_update, ← List.ofFn_getElem_eq_map chosen fun s => shardPoint coeffs s.nodeId]
    rfl
  have hfst : ∀ i, (Function.update point j ((chosen[j].nodeId : ℤ), value) i).1 = (point i).1 := by
    intro i
    by_cases hi : i = j
    · subst hi
      rw [Function.update_self]
      rfl
    · rw [Function.update_of_ne hi]
  have hsnd : (fun i => ((Function.update point j ((chosen[j].nodeId : ℤ), value) i).2 :
      ZMod prime)) =
        Function.update (fun i => ((point i).2 : ZMod prime)) j (value : ZMod prime) := by
    funext i
    by_cases hi : i = j
    · subst hi
      rw [Function.update_self, Function.update_self]
    · rw [Function.update_of_ne hi, Function.update_of_ne hi]
  have hseparate : Separate (List.ofFn fun i => (point i).1) := by
    have hids : (List.ofFn fun i => (point i).1) = (chosen.map Shard.nodeId).map Nat.cast := by
      rw [List.map_map, ← List.ofFn_getElem_eq_map chosen]
      rfl
    rw [hids]
    refine separate_natCast hdistinct fun i hi => ?_
    obtain ⟨s, hs, rfl⟩ := List.mem_map.mp hi
    have hbounds := point_of_mem_shards (hchosen s hs)
    exact ⟨hbounds.1, hbounds.2.1.trans_lt hn⟩
  have hshares : (fun i => ((point i).2 : ZMod prime)) =
      fun i => SecretSharing.share (intFromBytes secret : ZMod prime)
        (fun k => (randbits k : ZMod prime)) ((point i).1 : ZMod prime) := by
    funext i
    simp only [point, shardPoint, Int.cast_natCast]
    exact shardValue_eq_share _ randbits _
  have hinjective := hseparate.injective
  have hweight := SecretSharing.weight_ne_zero hinjective hseparate.abscissa_ne_zero j
  rw [mapM_set_eq_ok hpoint haltered, hlist]
  change reconstructSecret _ secret.length = _ ↔ _
  rw [reconstructSecret_ofFn_eq_ok_iff (by simpa only [hfst] using hseparate) hsecret, hsnd]
  simp only [hfst]
  rw [SecretSharing.interpolateZero_update, hshares,
    SecretSharing.interpolateZero_share hinjective (by omega), add_eq_left, mul_eq_zero,
    or_iff_left hweight, sub_eq_zero, ← ZMod.intCast_eq_intCast_iff', hval]

/-- The first of two shards reads `0x0` instead of `0xc`. -/
theorem reconstructSecret_altered_iff_zero :
    (do
      let nodeShards ← ((ThresholdSharder.shardSecret ⟨2, 2⟩ (fun _ => 5) [7] 1).shards.set 0
        ⟨1, 1, ['0', 'x', '0']⟩).mapM Shard.point
      reconstructSecret nodeShards 1) = .ok [7] ↔
    0 % (prime : ℤ) =
      (shardValue (intFromBytes [7] :: List.ofFn fun _ : Fin 1 => 5 % prime) 1 : ℤ) %
        (prime : ℤ) :=
  reconstructSecret_altered_iff ⟨2, 2⟩ (by decide) (lt_prime_of_lt_byte (by decide)) [7]
    (intFromBytes_lt_prime (by decide)) (fun _ => 5) 1
    (ThresholdSharder.shardSecret ⟨2, 2⟩ (fun _ => 5) [7] 1).shards (fun _ hs => hs)
    (by simp [ThresholdSharder.shardSecret, List.range'])
    (by simp [ThresholdSharder.shardSecret]) ⟨0, by simp [ThresholdSharder.shardSecret]⟩
    ['0', 'x', '0'] rfl (intBase16_hex _)

/-! ## Resharding -/

/-- `server_cluster`: the shard of each node, in the order in which the nodes came. -/
abbrev ServerCluster := List (ℕ × List Char)

namespace ServerCluster

/-- `server_cluster[node_id] = shard`. -/
def set : ServerCluster → ℕ → List Char → ServerCluster
  | [], nodeId, shard => [(nodeId, shard)]
  | (id, old) :: cluster, nodeId, shard =>
    if id = nodeId then (nodeId, shard) :: cluster else (id, old) :: set cluster nodeId shard

/-- The loop that writes shards into the cluster. -/
def relevel (cluster : ServerCluster) (shards : List Shard) : ServerCluster :=
  shards.foldl (fun cluster s => cluster.set s.nodeId s.shard) cluster

/-- `del server_cluster[node_id]`, for nodes of the cluster. -/
def decommission (cluster : ServerCluster) (leaving : List ℕ) : ServerCluster :=
  cluster.filter fun entry => entry.1 ∉ leaving

/-- `node_shards`. -/
def nodeShards (cluster : ServerCluster) : Except PyError (List (ℤ × ℤ)) :=
  cluster.mapM fun entry => do
    let y ← intBase16 entry.2
    return ((entry.1 : ℤ), y)

end ServerCluster

/-- The nodes behind the first `m` leave, and the first `k` of the new shards are written. -/
def clusterAfter (old new : ShardedSecret) (m k : ℕ) : ServerCluster :=
  ((ServerCluster.relevel [] old.shards).decommission
    (List.range' (m + 1) (old.totalNodes - m))).relevel (new.shards.take k)

/-- The integrity check of the script. -/
def readBack (cluster : ServerCluster) (originalLen : ℕ) : Except PyError (List UInt8) := do
  let nodeShards ← cluster.nodeShards
  reconstructSecret nodeShards originalLen

theorem ServerCluster.set_append_of_notMem {front : ServerCluster} {nodeId : ℕ}
    (h : nodeId ∉ front.map Prod.fst) (cluster : ServerCluster) (shard : List Char) :
    (front ++ cluster).set nodeId shard = front ++ cluster.set nodeId shard := by
  induction front with
  | nil => rfl
  | cons entry front ih =>
    obtain ⟨hne, hrest⟩ := not_or.mp (List.mem_cons.not.mp h)
    rw [List.cons_append, ServerCluster.set, if_neg (Ne.symm hne), ih hrest]
    rfl

theorem ServerCluster.relevel_append (cluster : ServerCluster) (shards shards' : List Shard) :
    cluster.relevel (shards ++ shards') = (cluster.relevel shards).relevel shards' :=
  List.foldl_append

theorem ServerCluster.relevel_singleton (cluster : ServerCluster) (s : Shard) :
    cluster.relevel [s] = cluster.set s.nodeId s.shard := rfl

/-- The first `k` new shards stand over the old ones, and behind them what is left of these. -/
theorem ServerCluster.relevel_range' (old new : ℕ → List Char) (epoch : ℤ) (m k : ℕ) :
    ServerCluster.relevel ((List.range' 1 m).map fun i => (i, old i))
        ((List.range' 1 k).map fun i => (⟨i, epoch, new i⟩ : Shard)) =
      (List.range' 1 k).map (fun i => (i, new i)) ++
        (List.range' (k + 1) (m - k)).map fun i => (i, old i) := by
  induction k with
  | zero => rfl
  | succ k ih =>
    have hfresh : 1 + k ∉ ((List.range' 1 k).map fun i => (i, new i)).map Prod.fst := by
      simp [Function.comp_def]
    rw [List.range'_1_concat, List.map_append, List.map_append, ServerCluster.relevel_append, ih,
      List.map_singleton, List.map_singleton, ServerCluster.relevel_singleton,
      ServerCluster.set_append_of_notMem hfresh, List.append_assoc]
    congr 1
    cases hrest : m - k with
    | zero =>
      have hnone : m - (k + 1) = 0 := by omega
      rw [hnone, Nat.add_comm 1 k]
      rfl
    | succ r =>
      have hr : m - (k + 1) = r := by omega
      rw [hr, List.range'_succ, List.map_cons, ServerCluster.set, if_pos (Nat.add_comm k 1)]
      rfl

theorem ServerCluster.decommission_range' (old : ℕ → List Char) {m n : ℕ} (hm : m ≤ n) :
    ServerCluster.decommission ((List.range' 1 n).map fun i => (i, old i))
        (List.range' (m + 1) (n - m)) = (List.range' 1 m).map fun i => (i, old i) := by
  obtain ⟨r, rfl⟩ := Nat.exists_eq_add_of_le hm
  rw [ServerCluster.decommission, ← List.range'_append_1, List.map_append, List.filter_append,
    List.filter_eq_self.mpr, List.filter_eq_nil_iff.mpr, List.append_nil]
  · intro entry hentry
    obtain ⟨i, hi, rfl⟩ := List.mem_map.mp hentry
    simp only [List.mem_range'_1, decide_not, Bool.not_eq_true', decide_eq_false_iff_not,
      not_not] at hi ⊢
    omega
  · intro entry hentry
    obtain ⟨i, hi, rfl⟩ := List.mem_map.mp hentry
    simp only [List.mem_range'_1, decide_eq_true_eq] at hi ⊢
    omega

theorem ServerCluster.nodeShards_append {front back : ServerCluster} {p q : List (ℤ × ℤ)}
    (hfront : front.nodeShards = .ok p) (hback : back.nodeShards = .ok q) :
    ServerCluster.nodeShards (front ++ back) = .ok (p ++ q) := by
  rw [ServerCluster.nodeShards] at hfront hback ⊢
  rw [List.mapM_append, hfront, hback]
  rfl

theorem ServerCluster.nodeShards_map (coeffs ids : List ℕ) :
    ServerCluster.nodeShards (ids.map fun i => (i, hex (shardValue coeffs i))) =
      .ok (ids.map (shardPoint coeffs)) := by
  rw [ServerCluster.nodeShards, List.mapM_map]
  exact mapM_eq_ok fun i _ => by simp only [Function.comp_apply, intBase16_hex]; rfl

/-- What the loop has left so far, as the points that go to `reconstruct_secret`. -/
theorem readBack_clusterAfter (old new : ThresholdSharder) (secret : List UInt8)
    (randbits : Fin (old.t - 1) → ℕ) (randbits' : Fin (new.t - 1) → ℕ) (epoch epoch' : ℤ)
    {m k : ℕ} (hm : m ≤ old.n) (hk : k ≤ new.n) (originalLen : ℕ) :
    readBack (clusterAfter (old.shardSecret randbits secret epoch)
        (new.shardSecret randbits' secret epoch') m k) originalLen =
      reconstructSecret
        ((List.range' 1 k).map (shardPoint
            (intFromBytes secret :: List.ofFn fun k => randbits' k % prime)) ++
          (List.range' (k + 1) (m - k)).map (shardPoint
            (intFromBytes secret :: List.ofFn fun k => randbits k % prime))) originalLen := by
  set coeffs := intFromBytes secret :: List.ofFn fun k => randbits k % prime
  set coeffs' := intFromBytes secret :: List.ofFn fun k => randbits' k % prime
  have hold : ServerCluster.relevel [] (old.shardSecret randbits secret epoch).shards =
      (List.range' 1 old.n).map fun i => (i, hex (shardValue coeffs i)) := by
    have hrun := ServerCluster.relevel_range' (fun _ => []) (fun i => hex (shardValue coeffs i))
      epoch 0 old.n
    rwa [Nat.zero_sub, List.range'_zero, List.range'_zero, List.map_nil, List.append_nil] at hrun
  have hnew : (new.shardSecret randbits' secret epoch').shards.take k =
      (List.range' 1 k).map fun i => ⟨i, epoch', hex (shardValue coeffs' i)⟩ := by
    rw [ThresholdSharder.shardSecret, ← List.map_take, List.take_range'_of_length_ge hk]
  rw [readBack, clusterAfter, hold, hnew]
  change (do
    let nodeShards ← ServerCluster.nodeShards (ServerCluster.relevel (ServerCluster.decommission _
      (List.range' (m + 1) (old.n - m))) _)
    _) = _
  rw [ServerCluster.decommission_range' _ hm, ServerCluster.relevel_range',
    ServerCluster.nodeShards_append (ServerCluster.nodeShards_map coeffs' _)
      (ServerCluster.nodeShards_map coeffs _)]
  rfl

/-- In the middle of a resharding, with fewer new shards written than the new threshold, the
cluster gives back each byte string of a length, the secret among them, for as many of the new
coefficients as any other: one in `prime`. -/
theorem card_readBack_relevel_eq (old new : ThresholdSharder) (hold : old.n < prime)
    (hnew : new.n < prime) (secret : List UInt8) (randbits : Fin (old.t - 1) → ℕ)
    (epoch epoch' : ℤ) {m k : ℕ} (hm : m ≤ old.n) (hk : k ≤ new.n) (hpos : 1 ≤ k)
    (hfew : k < new.t) (bytes : List UInt8) (hbytes : intFromBytes bytes < prime) :
    Nat.card {c : Fin (new.t - 1) → Fin prime //
      readBack (clusterAfter (old.shardSecret randbits secret epoch)
        (new.shardSecret (fun k => (c k).val) secret epoch') m k) bytes.length = .ok bytes} *
        prime =
    Nat.card (Fin (new.t - 1) → Fin prime) := by
  have hids : (List.range' 1 k).map Nat.cast ++ ((List.range' (k + 1) (m - k)).map (shardPoint
      (intFromBytes secret :: List.ofFn fun k => randbits k % prime))).map Prod.fst =
      (List.range' 1 k ++ List.range' (k + 1) (m - k)).map (Nat.cast : ℕ → ℤ) := by
    rw [List.map_map, List.map_append]
    rfl
  have hseparate : Separate ((List.range' 1 k ++ List.range' (k + 1) (m - k)).map Nat.cast) := by
    rw [Nat.add_comm k 1, List.range'_append_1]
    refine separate_natCast List.nodup_range' fun i hi => ?_
    have hbounds := List.mem_range'_1.mp hi
    omega
  simp only [readBack_clusterAfter old new secret randbits _ epoch epoch' hm hk]
  exact card_reconstructSecret_eq _ (List.ne_nil_of_length_pos (by simp; omega)) (by simp; omega)
    (hids ▸ hseparate) hbytes

/-- From five nodes to three, when the first new shard is written. -/
theorem card_readBack_relevel_eq_first :
    Nat.card {c : Fin (3 - 1) → Fin prime //
      readBack (clusterAfter (ThresholdSharder.shardSecret ⟨3, 5⟩ (fun _ => 5) [7] 1)
        (ThresholdSharder.shardSecret ⟨3, 3⟩ (fun k => (c k).val) [7] 2) 3 1) 1 = .ok [7]} *
        prime =
    Nat.card (Fin (3 - 1) → Fin prime) :=
  card_readBack_relevel_eq ⟨3, 5⟩ ⟨3, 3⟩ (lt_prime_of_lt_byte (by decide))
    (lt_prime_of_lt_byte (by decide)) [7] (fun _ => 5) 1 2 (by decide) (by decide) (by decide)
    (by decide) [7] (intFromBytes_lt_prime (by decide))

/-- Once all new shards are written, the key comes back. -/
theorem readBack_clusterAfter_all (old new : ThresholdSharder) (hn : new.n < prime)
    (ht : 1 ≤ new.t) (hcount : new.t ≤ new.n) (secret : List UInt8)
    (hsecret : intFromBytes secret < prime) (randbits : Fin (old.t - 1) → ℕ)
    (randbits' : Fin (new.t - 1) → ℕ) (epoch epoch' : ℤ) {m : ℕ} (hm : m ≤ old.n)
    (hstay : m ≤ new.n) :
    readBack (clusterAfter (old.shardSecret randbits secret epoch)
      (new.shardSecret randbits' secret epoch') m new.n) secret.length = .ok secret := by
  have hids : ∀ i ∈ List.range' 1 new.n, i < prime := fun i hi => by
    have hbounds := List.mem_range'_1.mp hi
    omega
  rw [readBack_clusterAfter old new secret randbits randbits' epoch epoch' hm le_rfl,
    Nat.sub_eq_zero_of_le hstay, List.range'_zero, List.map_nil, List.append_nil,
    reconstructSecret_shardPoints _ randbits' List.nodup_range' hids (by simp; omega),
    Nat.mod_eq_of_lt hsecret, intToBytes_natCast (intFromBytes_lt secret), bigEndian_intFromBytes]

end Freehold.Client
