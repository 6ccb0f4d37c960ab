import Mathlib.Tactic

/-!
# Base64

Three bytes are four digits of six bits; one or two bytes at the end are padded with `=`.
-/

namespace Base64

def alphabet : List Char :=
  "ABCDEFGHIJKLMNOPQRSTUVWXYZabcdefghijklmnopqrstuvwxyz0123456789+/".toList

def digit (n : ℕ) : Char := alphabet.getD n '='

def digitValue (c : Char) : Option ℕ := alphabet.idxOf? c

def encode : List UInt8 → List Char
  | a :: b :: c :: rest =>
    let n := a.toNat * 65536 + b.toNat * 256 + c.toNat
    digit (n / 262144) :: digit (n / 4096 % 64) :: digit (n / 64 % 64) :: digit (n % 64) ::
      encode rest
  | [a, b] =>
    let n := a.toNat * 65536 + b.toNat * 256
    [digit (n / 262144), digit (n / 4096 % 64), digit (n / 64 % 64), '=']
  | [a] =>
    let n := a.toNat * 65536
    [digit (n / 262144), digit (n / 4096 % 64), '=', '=']
  | [] => []

/-- `none` if the text is no base64. -/
def decode : List Char → Option (List UInt8)
  | [] => some []
  | [a, b, '=', '='] => do
    let a ← digitValue a
    let b ← digitValue b
    let n := a * 262144 + b * 4096
    return [UInt8.ofNat (n / 65536)]
  | [a, b, c, '='] => do
    let a ← digitValue a
    let b ← digitValue b
    let c ← digitValue c
    let n := a * 262144 + b * 4096 + c * 64
    return [UInt8.ofNat (n / 65536), UInt8.ofNat (n / 256)]
  | a :: b :: c :: d :: rest => do
    let a ← digitValue a
    let b ← digitValue b
    let c ← digitValue c
    let d ← digitValue d
    let n := a * 262144 + b * 4096 + c * 64 + d
    let others ← decode rest
    return UInt8.ofNat (n / 65536) :: UInt8.ofNat (n / 256) :: UInt8.ofNat n :: others
  | _ => none

example : encode [0x66, 0x6F, 0x6F, 0x62] = "Zm9vYg==".toList := by decide

theorem digitValue_digit {n : ℕ} (h : n < 64) : digitValue (digit n) = some n := by
  have hall : ∀ k : Fin 64, digitValue (digit k) = some k.val := by decide +kernel
  exact hall ⟨n, h⟩

theorem digit_ne_pad {n : ℕ} (h : n < 64) : digit n ≠ '=' := by
  have hall : ∀ k : Fin 64, digit k ≠ '=' := by decide +kernel
  exact hall ⟨n, h⟩

/-- A group without padding. -/
theorem decode_group {a b c d : ℕ} {rest : List Char} (ha : a < 64) (hb : b < 64) (hc : c < 64)
    (hd : d < 64) :
    decode (digit a :: digit b :: digit c :: digit d :: rest) =
      (decode rest).map fun others =>
        let n := a * 262144 + b * 4096 + c * 64 + d
        UInt8.ofNat (n / 65536) :: UInt8.ofNat (n / 256) :: UInt8.ofNat n :: others := by
  rw [decode]
  · simp only [digitValue_digit ha, digitValue_digit hb, digitValue_digit hc, digitValue_digit hd]
    cases decode rest <;> rfl
  · intro _ h
    exact absurd h (digit_ne_pad hd)
  · intro h
    exact absurd h (digit_ne_pad hd)

theorem ofNat_eq_of_mod {x : ℕ} {a : UInt8} (h : x % 256 = a.toNat) : UInt8.ofNat x = a := by
  rw [← UInt8.toNat_inj, UInt8.toNat_ofNat']
  exact h

/-- Decoding gives back what has been encoded. -/
theorem decode_encode (bytes : List UInt8) : decode (encode bytes) = some bytes := by
  fun_induction encode bytes with
  | case1 a b c rest n ih =>
    have ha := a.toNat_lt
    have hb := b.toNat_lt
    have hc := c.toNat_lt
    rw [decode_group (by omega) (by omega) (by omega) (by omega), ih]
    have hn : n / 262144 * 262144 + n / 4096 % 64 * 4096 + n / 64 % 64 * 64 + n % 64 = n := by omega
    have h₁ : UInt8.ofNat (n / 65536) = a := ofNat_eq_of_mod (by omega)
    have h₂ : UInt8.ofNat (n / 256) = b := ofNat_eq_of_mod (by omega)
    have h₃ : UInt8.ofNat n = c := ofNat_eq_of_mod (by omega)
    simp only [Option.map_some, hn, h₁, h₂, h₃]
  | case2 a b n =>
    have ha := a.toNat_lt
    have hb := b.toNat_lt
    have hn : n / 262144 * 262144 + n / 4096 % 64 * 4096 + n / 64 % 64 * 64 = n := by omega
    have h₁ : UInt8.ofNat (n / 65536) = a := ofNat_eq_of_mod (by omega)
    have h₂ : UInt8.ofNat (n / 256) = b := ofNat_eq_of_mod (by omega)
    have hpad : digit (n / 64 % 64) ≠ '=' := digit_ne_pad (by omega)
    rw [decode]
    · simp only [digitValue_digit (show n / 262144 < 64 by omega),
        digitValue_digit (show n / 4096 % 64 < 64 by omega),
        digitValue_digit (show n / 64 % 64 < 64 by omega), Option.bind_eq_bind, Option.bind_some,
        hn, h₁, h₂]
      rfl
    · exact hpad
  | case3 a n =>
    have ha := a.toNat_lt
    have hn : n / 262144 * 262144 + n / 4096 % 64 * 4096 = n := by omega
    have h₁ : UInt8.ofNat (n / 65536) = a := ofNat_eq_of_mod (by omega)
    rw [decode]
    simp only [digitValue_digit (show n / 262144 < 64 by omega),
      digitValue_digit (show n / 4096 % 64 < 64 by omega), Option.bind_eq_bind, Option.bind_some,
      hn, h₁]
    rfl
  | case4 => rfl

theorem encode_injective : Function.Injective encode := fun a b h => by
  have hdecode := congrArg decode h
  rwa [decode_encode, decode_encode, Option.some.injEq] at hdecode

theorem digit_ne {c : Char} (hc : c ∉ '=' :: alphabet) (n : ℕ) : digit n ≠ c := by
  rintro rfl
  rw [digit, List.getD_eq_getElem?_getD] at hc
  cases hget : alphabet[n]? with
  | none => simp [hget] at hc
  | some d =>
    rw [hget, Option.getD_some] at hc
    exact hc (List.mem_cons_of_mem _ (List.mem_of_getElem? hget))

theorem notMem_encode {c : Char} (hc : c ∉ '=' :: alphabet) (bytes : List UInt8) :
    c ∉ encode bytes := by
  have hpad : c ≠ '=' := fun h => hc (h ▸ List.mem_cons_self)
  have hdigit : ∀ n, c ≠ digit n := fun n => (digit_ne hc n).symm
  fun_induction encode bytes with
  | case1 a b c rest n ih => simp [hdigit, ih]
  | case2 a b n => simp [hdigit, hpad]
  | case3 a n => simp [hdigit, hpad]
  | case4 => simp

end Base64
