import Mathlib.Data.List.Induction
import Mathlib.Tactic

/-!
# The Python built-ins used by the sharding client

Big-endian conversion between bytes and integers, `hex` and `int(·, 16)`, modular
`pow`, and UTF-8 encoding. Integers are unbounded, as Python's are; a call that
raises returns an error. `int(·, 16)` is the ASCII part of Python's grammar.
-/

namespace Freehold.Client

/-- The exceptions these built-ins raise, with Python's messages. -/
inductive PyError where
  | valueError (message : String)
  | overflowError (message : String)
  | unicodeDecodeError
  deriving DecidableEq, Repr

/-! ## Bytes and integers -/

/-- `int.from_bytes(·, 'big')`. -/
def intFromBytes (bytes : List UInt8) : ℕ :=
  bytes.foldl (fun n b => n * 256 + b.toNat) 0

/-- The low `len` base-256 digits, most significant first. -/
def bigEndian : ℕ → ℕ → List UInt8
  | 0, _ => []
  | len + 1, n => bigEndian len (n / 256) ++ [UInt8.ofNat (n % 256)]

/-- `n.to_bytes(len, 'big')`. -/
def intToBytes (n : ℤ) (len : ℕ) : Except PyError (List UInt8) :=
  if n < 0 then .error (.overflowError "can't convert negative int to unsigned")
  else if 256 ^ len ≤ n.toNat then .error (.overflowError "int too big to convert")
  else .ok (bigEndian len n.toNat)

@[simp] theorem intFromBytes_append_singleton (bytes : List UInt8) (b : UInt8) :
    intFromBytes (bytes ++ [b]) = intFromBytes bytes * 256 + b.toNat := by
  simp [intFromBytes]

@[simp] theorem length_bigEndian (len n : ℕ) : (bigEndian len n).length = len := by
  induction len generalizing n with
  | zero => rfl
  | succ len ih => simp [bigEndian, ih]

theorem intFromBytes_lt (bytes : List UInt8) : intFromBytes bytes < 256 ^ bytes.length := by
  induction bytes using List.reverseRecOn with
  | nil => simp [intFromBytes]
  | append_singleton bytes b ih =>
    have hb := b.toNat_lt
    rw [intFromBytes_append_singleton, List.length_append, List.length_singleton, pow_succ]
    omega

theorem intFromBytes_cons (b : UInt8) (bytes : List UInt8) :
    intFromBytes (b :: bytes) = b.toNat * 256 ^ bytes.length + intFromBytes bytes := by
  induction bytes using List.reverseRecOn with
  | nil => simp [intFromBytes]
  | append_singleton bytes c ih =>
    rw [← List.cons_append, intFromBytes_append_singleton, ih, intFromBytes_append_singleton,
      List.length_append, List.length_singleton, pow_succ]
    ring

theorem intFromBytes_bigEndian (len n : ℕ) : intFromBytes (bigEndian len n) = n % 256 ^ len := by
  induction len generalizing n with
  | zero => simp [bigEndian, intFromBytes, Nat.mod_one]
  | succ len ih =>
    have hbyte : (UInt8.ofNat (n % 256)).toNat = n % 256 := by simp
    rw [bigEndian, intFromBytes_append_singleton, ih, hbyte, pow_succ', Nat.mod_mul]
    ring

/-- The recorded length restores leading zero bytes. -/
theorem bigEndian_intFromBytes (bytes : List UInt8) :
    bigEndian bytes.length (intFromBytes bytes) = bytes := by
  induction bytes using List.reverseRecOn with
  | nil => rfl
  | append_singleton bytes b ih =>
    have hb := b.toNat_lt
    have hdiv : (intFromBytes bytes * 256 + b.toNat) / 256 = intFromBytes bytes := by omega
    have hmod : (intFromBytes bytes * 256 + b.toNat) % 256 = b.toNat := by omega
    rw [List.length_append, List.length_singleton, bigEndian, intFromBytes_append_singleton,
      hdiv, hmod, ih, UInt8.ofNat_toNat]

theorem intToBytes_natCast {n len : ℕ} (h : n < 256 ^ len) :
    intToBytes n len = .ok (bigEndian len n) := by
  simp [intToBytes, Nat.not_le.mpr h]

/-! ## Hexadecimal text -/

/-- `hex(n)` of a non-negative integer. -/
def hex (n : ℕ) : List Char := ['0', 'x'] ++ Nat.toDigits 16 n

def isSpace (c : Char) : Bool := c == ' ' || ('\t' ≤ c && c ≤ '\r')

/-- The value of a hexadecimal digit of either case. -/
def hexDigitValue (c : Char) : Option ℕ :=
  if '0' ≤ c ∧ c ≤ '9' then some (c.toNat - '0'.toNat)
  else if 'a' ≤ c ∧ c ≤ 'f' then some (c.toNat - 'a'.toNat + 10)
  else if 'A' ≤ c ∧ c ≤ 'F' then some (c.toNat - 'A'.toNat + 10)
  else none

/-- Digits with single underscores between them. The flag says that the last
character was a digit. -/
def hexDigits : Bool → ℕ → List Char → Option ℕ
  | afterDigit, n, [] => if afterDigit then some n else none
  | afterDigit, n, '_' :: cs => if afterDigit then hexDigits false n cs else none
  | _, n, c :: cs => (hexDigitValue c).bind fun d => hexDigits true (n * 16 + d) cs

/-- An optional `0x`, which one underscore may follow, and the digits. -/
def hexMagnitude : List Char → Option ℕ
  | '0' :: 'x' :: '_' :: cs | '0' :: 'X' :: '_' :: cs => hexDigits false 0 cs
  | '0' :: 'x' :: cs | '0' :: 'X' :: cs => hexDigits false 0 cs
  | cs => hexDigits false 0 cs

/-- `int(text, 16)`. -/
def intBase16 (text : List Char) : Except PyError ℤ :=
  let trimmed := ((text.dropWhile isSpace).reverse.dropWhile isSpace).reverse
  let value : Option ℤ := match trimmed with
    | '-' :: cs => (hexMagnitude cs).map fun n => -(n : ℤ)
    | '+' :: cs => (hexMagnitude cs).map fun n => (n : ℤ)
    | cs => (hexMagnitude cs).map fun n => (n : ℤ)
  match value with
  | some n => .ok n
  | none => .error (.valueError "invalid literal for int() with base 16")

theorem hexDigitValue_digitChar {d : ℕ} (hd : d < 16) :
    hexDigitValue (Nat.digitChar d) = some d := by
  interval_cases d <;> rfl

theorem digitChar_ne_underscore {d : ℕ} (hd : d < 16) : Nat.digitChar d ≠ '_' := by
  interval_cases d <;> decide

theorem isSpace_digitChar {d : ℕ} (hd : d < 16) : isSpace (Nat.digitChar d) = false := by
  interval_cases d <;> decide

theorem hexDigits_digitChar {d : ℕ} (hd : d < 16) (afterDigit : Bool) (n : ℕ) (cs : List Char) :
    hexDigits afterDigit n (Nat.digitChar d :: cs) = hexDigits true (n * 16 + d) cs := by
  rw [hexDigits.eq_3 _ _ _ _ (digitChar_ne_underscore hd), hexDigitValue_digitChar hd,
    Option.bind_some]

/-- Every digit string ends in a hexadecimal digit. -/
theorem exists_toDigits_eq_append (n : ℕ) :
    ∃ cs d, d < 16 ∧ Nat.toDigits 16 n = cs ++ [Nat.digitChar d] := by
  by_cases h : n < 16
  · exact ⟨[], n, h, by rw [Nat.toDigits_of_lt_base h]; rfl⟩
  · exact ⟨_, n % 16, Nat.mod_lt _ (by omega), Nat.toDigits_of_base_le (by omega) (by omega)⟩

/-- Reading the digits of `n` after the value `m` shifts `m` past them. -/
theorem hexDigits_toDigits (n : ℕ) : ∃ k, ∀ m rest afterDigit,
    hexDigits afterDigit m (Nat.toDigits 16 n ++ rest) = hexDigits true (m * 16 ^ k + n) rest := by
  induction n using Nat.strongRecOn with
  | ind n ih =>
    by_cases h : n < 16
    · refine ⟨1, fun m rest afterDigit => ?_⟩
      rw [Nat.toDigits_of_lt_base h, List.singleton_append, hexDigits_digitChar h, pow_one]
    · obtain ⟨k, hk⟩ := ih (n / 16) (by omega)
      have hmod : n % 16 < 16 := Nat.mod_lt _ (by omega)
      refine ⟨k + 1, fun m rest afterDigit => ?_⟩
      rw [Nat.toDigits_of_base_le (by omega) (by omega), List.append_assoc, hk,
        List.singleton_append, hexDigits_digitChar hmod]
      have hdiv := Nat.div_add_mod n 16
      congr 1
      rw [pow_succ]
      linarith

/-- Digit strings do not begin with an underscore. -/
theorem toDigits_ne_underscore_cons (n : ℕ) (cs : List Char) : Nat.toDigits 16 n ≠ '_' :: cs := by
  induction n using Nat.strongRecOn generalizing cs with
  | ind n ih =>
    by_cases h : n < 16
    · rw [Nat.toDigits_of_lt_base h]
      exact fun heq => digitChar_ne_underscore h (List.cons.inj heq).1
    · rw [Nat.toDigits_of_base_le (by omega) (by omega)]
      intro heq
      obtain ⟨tail, htail, -⟩ := (List.append_eq_cons_iff.mp heq).resolve_left
        fun hnil => Nat.toDigits_ne_nil hnil.1
      exact ih (n / 16) (by omega) tail htail

theorem hexMagnitude_hex (n : ℕ) : hexMagnitude (hex n) = some n := by
  obtain ⟨k, hk⟩ := hexDigits_toDigits n
  have hread : hexDigits false 0 (Nat.toDigits 16 n) = some n := by
    simpa [hexDigits] using hk 0 [] false
  rw [hex, List.cons_append, List.cons_append, List.nil_append, hexMagnitude, hread]
  exact toDigits_ne_underscore_cons n

theorem trim_hex (n : ℕ) :
    (((hex n).dropWhile isSpace).reverse.dropWhile isSpace).reverse = hex n := by
  obtain ⟨cs, d, hd, hcs⟩ := exists_toDigits_eq_append n
  have hfront : (hex n).dropWhile isSpace = hex n := by
    rw [hex, List.cons_append, List.dropWhile_cons_of_neg (by decide)]
  have hback : (hex n).reverse.dropWhile isSpace = (hex n).reverse := by
    rw [hex, hcs, ← List.append_assoc, List.reverse_append, List.reverse_singleton,
      List.singleton_append, List.dropWhile_cons_of_neg (by simp [isSpace_digitChar hd])]
  rw [hfront, hback, List.reverse_reverse]

/-- `int(hex(n), 16)` is `n`. -/
theorem intBase16_hex (n : ℕ) : intBase16 (hex n) = .ok n := by
  have hvalue := hexMagnitude_hex n
  rw [hex, List.cons_append, List.cons_append, List.nil_append] at hvalue
  simp only [intBase16, trim_hex]
  rw [hex, List.cons_append, List.cons_append, List.nil_append]
  simp [hvalue]

end Freehold.Client
