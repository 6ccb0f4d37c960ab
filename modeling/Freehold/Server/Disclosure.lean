import Freehold.Foundation.Observation
import Freehold.Server.Mpcauth

/-!
# What the password record discloses

`reveal` to `PUBLIC` shows the revealed wires to both parties. `Joint_SMTP_Authenticate`
reveals its Base64 buffer, and the identity transform has put the password wires there.
-/

namespace Freehold.Server

open Interaction Interaction.Program

/-- The values that a `reveal` shows. -/
def revealedBits : Event Mpc → Option (List Bool)
  | ⟨.reveal blocks, answer⟩ => some ((List.range blocks.length).map answer)
  | _ => none

theorem revealedBits_reveal (blocks : List Block) (answer : ℕ → Bool) :
    revealedBits ⟨.reveal blocks, answer⟩ = some ((List.range blocks.length).map answer) := rfl

/-- What BOB sees of `Joint_SMTP_Authenticate` at ALICE, on a machine that fixes the keys, the IV
and the sequence number. -/
def disclosed (env : Env) (m : Machine) (ciphertextOut : List UInt8) (passwordShard : List Bool) :
    List (List Bool) :=
  (jointSmtpAuthenticate .alice ciphertextOut passwordShard).observed (serve env) revealedBits m

/-- The bits of the Base64 output can be counted in an `int`. -/
theorem int32_b64OutLen_nonneg_iff {n : ℕ} (h : n < 2 ^ 31) :
    0 ≤ int32 (b64OutBytes n * 8) ↔ n < 1610612720 := by
  rw [int32, Int.bmod_def, b64OutBytes]
  split <;> omega

theorem int32_lt (n : ℤ) : int32 n < 2 ^ 31 := by
  rw [int32, Int.bmod_def]
  split <;> omega

/-! ## Passwords that are not disclosed -/

theorem disclosed_of_nonpos {env : Env} {m : Machine} {ciphertextOut : List UInt8}
    {passwordShard : List Bool} (h : int32 passwordShard.length ≤ 0) :
    disclosed env m ciphertextOut passwordShard = [] := by
  rw [disclosed, jointSmtpAuthenticate]
  split
  · rfl
  · next hne => rw [if_pos (lt_of_le_of_ne h hne), observed_throw]

/-- The password wires as `feed` stores them at ALICE. -/
def passBits (passwordShard : List Bool) (passLen : ℕ) : List Block :=
  wires (passwordShard.take passLen).length fun i => (passwordShard.take passLen).getD i false

/-- The values in the Base64 buffer. -/
def b64Bits (env : Env) (passLen : ℕ) (passBits : List Block) : List Bool :=
  values (b64OutBits passBits (env.heap .b64OutBits) (int32 (b64OutBytes passLen * 8)).toNat)

/-- The Base64 buffer is revealed whole, and nothing else of the password is used. -/
theorem authRecord_observed {env : Env} {m : Machine} {ciphertextOut : List UInt8} {passLen : ℕ}
    (hb64 : 0 ≤ int32 (b64OutBytes passLen * 8)) (passBits : List Block) :
    (authRecord .alice ciphertextOut passLen passBits).observed (serve env) revealedBits m =
      b64Bits env passLen passBits ::
        (encryptAuth .alice ciphertextOut passLen fun i =>
          (b64Bits env passLen passBits).getD i false).observed (serve env) revealedBits m := by
  simp only [authRecord, perform_bind, if_neg (not_lt.mpr hb64)]
  rw [observed_call_of_hidden rfl, observed_call_of_shown (revealedBits_reveal _ _),
    ← length_values, serve, serve, range_map_getD, b64Bits]

section Positive

variable {env : Env} {m : Machine} {ciphertextOut : List UInt8} {passwordShard : List Bool}
  (hpos : 0 < int32 passwordShard.length)
include hpos

/-- Only the feed has happened when the record is built. -/
theorem disclosed_of_pos :
    disclosed env m ciphertextOut passwordShard =
      (authRecord .alice ciphertextOut (int32 passwordShard.length).toNat
        (passBits passwordShard (int32 passwordShard.length).toNat)).observed (serve env)
        revealedBits { m with host.feeds := m.host.feeds + 1 } := by
  simp only [disclosed, jointSmtpAuthenticate, if_neg hpos.ne', if_neg hpos.le.not_gt,
    feed_bind, rawPass, if_true]
  rw [observed_call_of_hidden rfl, serve, fedBits_self, passBits]

/-- An output buffer too long for an `int` is refused before anything is revealed. -/
theorem disclosed_of_ge (hge : 1610612720 ≤ int32 passwordShard.length) :
    disclosed env m ciphertextOut passwordShard = [] := by
  have hlt := int32_lt passwordShard.length
  have hb64 : int32 (b64OutBytes (int32 passwordShard.length).toNat * 8) < 0 := by
    by_contra hnonneg
    have := (int32_b64OutLen_nonneg_iff (by omega)).mp (not_lt.mp hnonneg)
    omega
  rw [disclosed_of_pos hpos, authRecord]
  simp only [if_pos hb64, observed_throw]

/-- Otherwise the first thing revealed is the Base64 buffer. -/
theorem disclosed_of_lt (hlt : int32 passwordShard.length < 1610612720) {passLen : ℕ}
    (hlen : (int32 passwordShard.length).toNat = passLen) :
    disclosed env m ciphertextOut passwordShard =
      b64Bits env passLen (passBits passwordShard passLen) ::
        (encryptAuth .alice ciphertextOut passLen fun i =>
          (b64Bits env passLen (passBits passwordShard passLen)).getD i false).observed
          (serve env) revealedBits { m with host.feeds := m.host.feeds + 1 } := by
  subst hlen
  rw [disclosed_of_pos hpos]
  exact authRecord_observed ((int32_b64OutLen_nonneg_iff (by omega)).mpr (by omega)) _

end Positive

theorem int32_b64OutLen_pos {n : ℕ} (hn : 8 ≤ n) (hlt : n < 1610612720) :
    0 < int32 (b64OutBytes n * 8) := by
  rw [int32, Int.bmod_def, b64OutBytes]
  split <;> omega

/-- The first bit of a password of at least one byte is the first bit of the buffer. -/
theorem head_b64Bits (env : Env) {n : ℕ} (hn : 8 ≤ n) (hlt : n < 1610612720) (bit : Bool)
    (rest : List Bool) : (b64Bits env n (passBits (bit :: rest) n)).head? = some bit := by
  have hlen := int32_b64OutLen_pos hn hlt
  obtain ⟨len, hlen⟩ : ∃ len, (int32 (b64OutBytes n * 8)).toNat = len + 1 :=
    Nat.exists_eq_succ_of_ne_zero (by omega)
  obtain ⟨n, rfl⟩ : ∃ k, n = k + 1 := Nat.exists_eq_succ_of_ne_zero (by omega)
  rw [b64Bits, hlen]
  simp [values, b64OutBits, passBits, wires, List.range_succ_eq_map, Block.value]

/-- Less than one byte leaves the buffer empty. -/
theorem b64Bits_of_lt (env : Env) {n : ℕ} (h : n < 8) (passBits : List Block) :
    b64Bits env n passBits = [] := by
  have hbytes : b64OutBytes n = 0 := by
    rw [b64OutBytes]
    omega
  rw [b64Bits, hbytes]
  rfl

/-- A password of at least one byte shows in what is revealed. -/
theorem disclosed_head (env : Env) (m : Machine) (ciphertextOut : List UInt8) (bit : Bool)
    {rest : List Bool} {len : ℕ} (hlen : (bit :: rest).length = len) (hge : 8 ≤ int32 len)
    (hlt : int32 len < 1610612720) :
    (disclosed env m ciphertextOut (bit :: rest)).head?.bind List.head? = some bit := by
  subst hlen
  rw [disclosed_of_lt (by omega) hlt rfl, List.head?_cons, Option.bind_some]
  exact head_b64Bits env (by omega) (by omega) bit rest

/-- Passwords of `len` bits stay hidden exactly when they are shorter than a byte, or so long
that a length of the code is not a positive `int`. -/
theorem disclosed_eq_iff (env : Env) (m : Machine) (ciphertextOut : List UInt8) (len : ℕ) :
    (∀ shard shard' : List Bool, shard.length = len → shard'.length = len →
        disclosed env m ciphertextOut shard = disclosed env m ciphertextOut shard') ↔
      int32 len < 8 ∨ 1610612720 ≤ int32 len := by
  constructor
  · intro hsame
    by_contra hout
    obtain ⟨hge, hlt⟩ := not_or.mp hout
    obtain ⟨n, rfl⟩ : ∃ n, len = n + 1 := by
      refine Nat.exists_eq_succ_of_ne_zero fun hzero => hge ?_
      rw [hzero]
      decide
    have hlen (bit : Bool) : (bit :: List.replicate n false).length = n + 1 := by simp
    have hhead (bit : Bool) : (disclosed env m ciphertextOut
        (bit :: List.replicate n false)).head?.bind List.head? = some bit :=
      disclosed_head env m ciphertextOut bit (hlen bit) (by omega) (by omega)
    have hfalse := hhead false
    rw [hsame _ _ (hlen false) (hlen true), hhead true] at hfalse
    cases hfalse
  · intro hhidden shard shard' hlen hlen'
    subst hlen
    by_cases hpos : 0 < int32 shard.length
    · have hpos' : 0 < int32 shard'.length := by simpa only [hlen'] using hpos
      rcases hhidden with hlt | hge
      · have hbound : int32 shard.length < 1610612720 := by omega
        have hbound' : int32 shard'.length < 1610612720 := by simpa only [hlen'] using hbound
        rw [disclosed_of_lt hpos hbound rfl, disclosed_of_lt hpos' hbound' (by rw [hlen']),
          b64Bits_of_lt env (by omega), b64Bits_of_lt env (by omega)]
      · have hge' : 1610612720 ≤ int32 shard'.length := by simpa only [hlen'] using hge
        rw [disclosed_of_ge hpos hge, disclosed_of_ge hpos' hge']
    · have hnonpos' : int32 shard'.length ≤ 0 := by simpa only [hlen', not_lt] using hpos
      rw [disclosed_of_nonpos (not_lt.mp hpos), disclosed_of_nonpos hnonpos']

/-- Two passwords of one byte, told apart by the first revealed bit. -/
theorem disclosed_ne_of_one_byte :
    disclosed (demoEnv .alice []) ⟨Host.start, none⟩ (List.replicate 4096 0)
        (pushBits [0x00]) ≠
      disclosed (demoEnv .alice []) ⟨Host.start, none⟩ (List.replicate 4096 0)
        (pushBits [0x80]) := by
  intro heq
  have hlen (bit : Bool) : (bit :: List.replicate 7 false).length = 8 := rfl
  have hzero := disclosed_head (demoEnv .alice []) ⟨Host.start, none⟩ (List.replicate 4096 0)
    false (hlen false) (by decide) (by decide)
  have hone := disclosed_head (demoEnv .alice []) ⟨Host.start, none⟩ (List.replicate 4096 0)
    true (hlen true) (by decide) (by decide)
  have hbits : pushBits [0x00] = false :: List.replicate 7 false := by decide
  have hbits' : pushBits [0x80] = true :: List.replicate 7 false := by decide
  rw [hbits, hbits'] at heq
  rw [heq, hone] at hzero
  cases hzero

end Freehold.Server
