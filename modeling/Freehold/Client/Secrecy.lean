import Freehold.Client.Sharding

/-!
# Fewer shards than the threshold say nothing about the secret

An observer sees, in each epoch of a resharding history, the shards of fewer nodes
than that epoch's threshold. Translating every epoch's coefficients by a multiple of
a masking polynomial turns one secret into another and leaves the observation as it
is, so both secrets explain it equally often.
-/

namespace Freehold.Client

/-- One epoch: who shares, under which epoch number, and the nodes the observer sees. -/
structure Dealing where
  sharder : ThresholdSharder
  epoch : ℤ
  seen : Finset ℕ

/-- The shards of the seen nodes, in the order they were handed out. -/
def Dealing.observed (d : Dealing) (secret : List UInt8)
    (randbits : Fin (d.sharder.t - 1) → ℕ) : List Shard :=
  (d.sharder.shardSecret randbits secret d.epoch).shards.filter (·.nodeId ∈ d.seen)

/-- Coefficients range over the residues `0 .. prime - 1`. -/
abbrev Dealing.Coefficients (d : Dealing) : Type := Fin (d.sharder.t - 1) → Fin prime

noncomputable def residueEquiv : Fin prime ≃ ZMod prime where
  toFun c := (c.val : ZMod prime)
  invFun a := ⟨a.val, a.val_lt⟩
  left_inv c := Fin.ext (ZMod.val_cast_of_lt c.isLt)
  right_inv a := ZMod.natCast_zmod_val a

/-- The seen nodes as evaluation points. -/
noncomputable def Dealing.points (d : Dealing) : Finset (ZMod prime) :=
  (d.seen.filter fun i => 1 ≤ i ∧ i ≤ d.sharder.n).image (Nat.cast : ℕ → ZMod prime)

theorem Dealing.zero_notMem_points {d : Dealing} (hn : d.sharder.n < prime) :
    (0 : ZMod prime) ∉ d.points := by
  intro h
  obtain ⟨i, hi, hzero⟩ := Finset.mem_image.mp h
  obtain ⟨-, hpos, hle⟩ := Finset.mem_filter.mp hi
  have hdvd := (ZMod.natCast_eq_zero_iff i prime).mp hzero
  exact absurd (Nat.le_of_dvd hpos hdvd) (by omega)

theorem Dealing.card_points_le (d : Dealing) : d.points.card ≤ d.seen.card :=
  Finset.card_image_le.trans (Finset.card_filter_le _ _)

/-- Trade one secret for another whose value differs by `δ`. -/
noncomputable def Dealing.shift (d : Dealing) (δ : ZMod prime) : d.Coefficients ≃ d.Coefficients :=
  ((Equiv.piCongrRight fun _ => residueEquiv).trans
    (SecretSharing.shiftedCoefficients _ d.points δ)).trans
    (Equiv.piCongrRight fun _ => residueEquiv.symm)

theorem Dealing.cast_shift (d : Dealing) (δ : ZMod prime) (c : d.Coefficients) :
    (fun k => ((d.shift δ c k).val : ZMod prime)) =
      SecretSharing.shiftedCoefficients _ d.points δ fun k => ((c k).val : ZMod prime) := by
  funext k
  exact residueEquiv.apply_symm_apply _

/-- The translation leaves every seen shard as it is. -/
theorem Dealing.observed_shift {d : Dealing} (hn : d.sharder.n < prime)
    (hseen : d.seen.card < d.sharder.t) (secret secret' : List UInt8) (c : d.Coefficients) :
    d.observed secret' (fun k =>
      (d.shift ((intFromBytes secret' : ZMod prime) -
        (intFromBytes secret : ZMod prime)) c k).val) =
    d.observed secret fun k => (c k).val := by
  set δ := (intFromBytes secret' : ZMod prime) - (intFromBytes secret : ZMod prime) with hδ
  simp only [Dealing.observed, ThresholdSharder.shardSecret, List.filter_map]
  refine List.map_congr_left fun i hi => ?_
  obtain ⟨hrange, hmem⟩ := List.mem_filter.mp hi
  have hbounds := List.mem_range'_1.mp hrange
  have hpoint : (i : ZMod prime) ∈ d.points :=
    Finset.mem_image_of_mem _ (Finset.mem_filter.mpr
      ⟨by simpa using hmem, hbounds.1, by omega⟩)
  have hshare := SecretSharing.share_shiftedCoefficients (Dealing.zero_notMem_points hn)
    (d.card_points_le.trans (Nat.le_sub_one_of_lt hseen)) (intFromBytes secret : ZMod prime) δ
    (fun k => ((c k).val : ZMod prime)) hpoint
  rw [← d.cast_shift, hδ, add_sub_cancel, ← hδ, ← shardValue_eq_share, ← shardValue_eq_share,
    ZMod.natCast_eq_natCast_iff', Nat.mod_eq_of_lt (shardValue_lt _ _),
    Nat.mod_eq_of_lt (shardValue_lt _ _)] at hshare
  rw [hshare]

/-- Over any history of resharding epochs, an observer below every threshold finds as
many coefficient choices behind what it saw for one secret as for any other. -/
theorem card_coefficients_observed_eq {k : ℕ} (dealings : Fin k → Dealing)
    (hn : ∀ e, (dealings e).sharder.n < prime)
    (hseen : ∀ e, (dealings e).seen.card < (dealings e).sharder.t)
    (secret secret' : List UInt8) (view : Fin k → List Shard) :
    Nat.card {c : ∀ e, (dealings e).Coefficients //
      ∀ e, (dealings e).observed secret (fun j => (c e j).val) = view e} =
    Nat.card {c : ∀ e, (dealings e).Coefficients //
      ∀ e, (dealings e).observed secret' (fun j => (c e j).val) = view e} := by
  refine Nat.card_congr (Equiv.subtypeEquiv (Equiv.piCongrRight fun e => (dealings e).shift
    ((intFromBytes secret' : ZMod prime) - (intFromBytes secret : ZMod prime))) fun c => ?_)
  refine forall_congr' fun e => ?_
  rw [Equiv.piCongrRight_apply, Pi.map_apply,
    Dealing.observed_shift (hn e) (hseen e) secret secret' (c e)]

/-- Two nodes watched before a resharding from five nodes to three, two after it. -/
def demoDealings : Fin 2 → Dealing := ![⟨⟨3, 5⟩, 1, {4, 5}⟩, ⟨⟨3, 3⟩, 2, {1, 2}⟩]

/-- What they see of a secret that has been shared. -/
theorem card_coefficients_observed_eq_resharding :
    Nat.card {c : ∀ e, (demoDealings e).Coefficients // ∀ e,
        (demoDealings e).observed [1] (fun j => (c e j).val) =
          (demoDealings e).observed [1] fun _ => 5} =
      Nat.card {c : ∀ e, (demoDealings e).Coefficients // ∀ e,
        (demoDealings e).observed [2] (fun j => (c e j).val) =
          (demoDealings e).observed [1] fun _ => 5} ∧
    0 < Nat.card {c : ∀ e, (demoDealings e).Coefficients // ∀ e,
        (demoDealings e).observed [1] (fun j => (c e j).val) =
          (demoDealings e).observed [1] fun _ => 5} := by
  refine ⟨card_coefficients_observed_eq demoDealings
    (Fin.forall_fin_two.mpr ⟨lt_prime_of_lt_byte (by decide), lt_prime_of_lt_byte (by decide)⟩)
    (Fin.forall_fin_two.mpr ⟨by decide, by decide⟩) [1] [2] _, ?_⟩
  have hshared : Nonempty {c : ∀ e, (demoDealings e).Coefficients // ∀ e,
      (demoDealings e).observed [1] (fun j => (c e j).val) =
        (demoDealings e).observed [1] fun _ => 5} :=
    ⟨fun _ _ => ⟨5, lt_prime_of_lt_byte (by decide)⟩, fun _ => rfl⟩
  exact Nat.card_pos

end Freehold.Client
