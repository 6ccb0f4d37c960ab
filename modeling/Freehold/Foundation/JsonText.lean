import Freehold.Foundation.Decimal
import Freehold.Foundation.Json
import Mathlib.Data.List.TakeWhile

/-!
# Reading back strings and numbers

A string that stands between quotes as it is is read back exactly if it needs no escape
(`string_eq_some_iff`): an escape is longer than what it stands for, and a literal that runs
past its closing quote ends in a character that no escape ends in.
-/

namespace Json

/-- A text that needs no escape. -/
def Unescaped (text : List Char) : Prop := ∀ c ∈ text, ' ' ≤ c ∧ c ≠ '"' ∧ c ≠ '\\'

instance (text : List Char) : Decidable (Unescaped text) := List.decidableBAll _ text

/-! ## Reading a string back -/

variable {text raw decoded rest rest' : List Char}

theorem literal_eq_append (h : literal text = some (raw, rest)) : text = raw ++ '"' :: rest := by
  fun_induction literal text generalizing raw rest with
  | case1 => cases h
  | case2 rest' =>
    cases h
    rfl
  | case3 c rest' ih =>
    obtain ⟨read, hread, heq⟩ := Option.map_eq_some_iff.mp h
    cases heq
    rw [ih hread]
    rfl
  | case4 c rest' _ _ hc ih =>
    obtain ⟨read, hread, heq⟩ := Option.map_eq_some_iff.mp h
    cases heq
    rw [ih hread]
    rfl
  | case5 => cases h

theorem literal_append (htext : Unescaped text) :
    literal (text ++ '"' :: rest) = some (text, rest) := by
  induction text with
  | nil => rfl
  | cons c text ih =>
    obtain ⟨hc, hquote, hslash⟩ := htext c List.mem_cons_self
    have htail := ih fun d hd => htext d (List.mem_cons_of_mem c hd)
    rw [List.cons_append, literal]
    · rw [if_pos hc, htail]
      rfl
    · exact hquote
    · rintro d t rfl
      exact absurd rfl hslash

theorem unescape_of_unescaped (htext : Unescaped text) : unescape text = some text := by
  induction text with
  | nil => rfl
  | cons c text ih =>
    obtain ⟨-, -, hslash⟩ := htext c List.mem_cons_self
    have htail := ih fun d hd => htext d (List.mem_cons_of_mem c hd)
    rw [unescape.eq_def]
    split <;> simp_all

theorem unescaped_of_literal (h : literal text = some (raw, rest)) (hraw : '\\' ∉ raw) :
    Unescaped raw := by
  fun_induction literal text generalizing raw rest with
  | case1 => cases h
  | case2 rest' =>
    cases h
    exact List.forall_mem_nil _
  | case3 c rest' ih =>
    obtain ⟨read, hread, heq⟩ := Option.map_eq_some_iff.mp h
    cases heq
    exact absurd List.mem_cons_self hraw
  | case4 c rest' hquote hslash hc ih =>
    obtain ⟨read, hread, heq⟩ := Option.map_eq_some_iff.mp h
    cases heq
    intro d hd
    rcases List.mem_cons.mp hd with rfl | hd
    · exact ⟨hc, fun h => hquote h, fun h => hraw (by rw [h]; exact List.mem_cons_self)⟩
    · exact ih hread (fun h => hraw (List.mem_cons_of_mem _ h)) d hd
  | case5 => cases h

theorem length_utf8Encode_le (n : ℕ) : (utf8Encode n).length ≤ 4 := by
  unfold utf8Encode
  split_ifs <;> simp

theorem length_encodeUnit_le (n : ℕ) : (encodeUnit n).length ≤ 4 := by
  unfold encodeUnit
  split_ifs <;> exact length_utf8Encode_le _

/-- Every escape is longer than what it stands for. -/
theorem length_unescape (h : unescape raw = some decoded) :
    decoded.length ≤ raw.length ∧ (decoded.length = raw.length → '\\' ∉ raw) := by
  fun_induction unescape raw generalizing decoded with
  | case1 =>
    cases h
    simp
  | case2 a b c d e f g h' rest ih₁ ih₂ =>
    obtain ⟨first, -, h⟩ := Option.bind_eq_some_iff.mp h
    have hfirst := length_encodeUnit_le first
    split at h
    · rename_i n hn
      obtain ⟨tail, htail, heq⟩ := Option.bind_eq_some_iff.mp h
      cases heq
      have hn := length_utf8Encode_le n
      have hlen := (ih₁ htail).1
      simp only [List.length_append, List.length_cons]
      omega
    · obtain ⟨tail, htail, heq⟩ := Option.bind_eq_some_iff.mp h
      cases heq
      have hlen := (ih₂ htail).1
      simp only [List.length_append, List.length_cons] at hlen ⊢
      omega
  | case3 a b c d rest _ ih =>
    obtain ⟨unit, -, h⟩ := Option.bind_eq_some_iff.mp h
    obtain ⟨tail, htail, heq⟩ := Option.bind_eq_some_iff.mp h
    cases heq
    have hunit := length_encodeUnit_le unit
    have hlen := (ih htail).1
    simp only [List.length_append, List.length_cons]
    omega
  | case4 c rest _ _ ih =>
    obtain ⟨char, -, h⟩ := Option.bind_eq_some_iff.mp h
    obtain ⟨tail, htail, heq⟩ := Option.bind_eq_some_iff.mp h
    cases heq
    have hlen := (ih htail).1
    simp only [List.length_cons]
    omega
  | case5 => cases h
  | case6 c rest _ _ hslash hlast ih =>
    obtain ⟨tail, htail, heq⟩ := Option.bind_eq_some_iff.mp h
    cases heq
    obtain ⟨hle, heq⟩ := ih htail
    refine ⟨by simpa using hle, fun hlen hmem => ?_⟩
    rcases List.mem_cons.mp hmem with hc | hmem
    · cases rest with
      | nil => exact hlast hc.symm rfl
      | cons d rest => exact hslash d rest hc.symm rfl
    · exact heq (by simpa using hlen) hmem

/-- What cannot be the last character of an escape. -/
def isOpener (c : Char) : Bool := c = '{' || c = '[' || c = ',' || c = ':'

theorem hexDigit_opener {c : Char} (hc : isOpener c) : hexDigit c = none := by
  simp only [isOpener, Bool.or_eq_true, decide_eq_true_eq] at hc
  rcases hc with ((rfl | rfl) | rfl) | rfl <;> rfl

theorem simpleEscape_opener {c : Char} (hc : isOpener c) : simpleEscape c = none := by
  simp only [isOpener, Bool.or_eq_true, decide_eq_true_eq] at hc
  rcases hc with ((rfl | rfl) | rfl) | rfl <;> rfl

theorem codeUnit_opener {a b c d : Char} (hd : isOpener d) : codeUnit a b c d = none := by
  unfold codeUnit
  rw [hexDigit_opener hd]
  cases hexDigit a <;> cases hexDigit b <;> cases hexDigit c <;> rfl

/-- A character that ends no escape is kept. -/
theorem getLast?_unescape {c : Char} (hc : isOpener c) (h : unescape raw = some decoded)
    (hraw : raw.getLast? = some c) : decoded.getLast? = some c := by
  fun_induction unescape raw generalizing decoded with
  | case1 => cases hraw
  | case2 a b d e f g i j rest ih₁ ih₂ =>
    obtain ⟨first, -, h⟩ := Option.bind_eq_some_iff.mp h
    split at h
    · rename_i n hn
      obtain ⟨tail, htail, heq⟩ := Option.bind_eq_some_iff.mp h
      cases heq
      cases rest with
      | nil =>
        have hj : j = c := by simpa using hraw
        rw [hj, codeUnit_opener hc] at hn
        cases hn
      | cons k rest =>
        have hlast := ih₁ htail (by simpa using hraw)
        rw [List.getLast?_append, hlast]
        rfl
    · obtain ⟨tail, htail, heq⟩ := Option.bind_eq_some_iff.mp h
      cases heq
      have hlast := ih₂ htail (by simpa using hraw)
      rw [List.getLast?_append, hlast]
      rfl
  | case3 a b d e rest _ ih =>
    obtain ⟨unit, hunit, h⟩ := Option.bind_eq_some_iff.mp h
    obtain ⟨tail, htail, heq⟩ := Option.bind_eq_some_iff.mp h
    cases heq
    cases rest with
    | nil =>
      have he : e = c := by simpa using hraw
      rw [he, codeUnit_opener hc] at hunit
      cases hunit
    | cons k rest =>
      have hlast := ih htail (by simpa using hraw)
      rw [List.getLast?_append, hlast]
      rfl
  | case4 d rest _ _ ih =>
    obtain ⟨char, hchar, h⟩ := Option.bind_eq_some_iff.mp h
    obtain ⟨tail, htail, heq⟩ := Option.bind_eq_some_iff.mp h
    cases heq
    cases rest with
    | nil =>
      have hd : d = c := by simpa using hraw
      rw [hd, simpleEscape_opener hc] at hchar
      cases hchar
    | cons k rest =>
      have hlast := ih htail (by simpa using hraw)
      rw [List.getLast?_cons, hlast]
      rfl
  | case5 => cases h
  | case6 d rest _ _ hslash hlast ih =>
    obtain ⟨tail, htail, heq⟩ := Option.bind_eq_some_iff.mp h
    cases heq
    cases rest with
    | nil =>
      cases htail
      exact hraw
    | cons k rest =>
      have hlast := ih htail (by simpa using hraw)
      rw [List.getLast?_cons, hlast]
      rfl

/-- A quote behind a character that is no backslash ends the literal, if it has not ended yet. -/
theorem length_literal_le {a b : List Char} {c : Char} (hc : c ≠ '\\')
    (h : literal (a ++ c :: '"' :: b) = some (raw, rest)) : raw.length ≤ a.length + 1 := by
  generalize htext : a ++ c :: '"' :: b = text at h
  fun_induction literal text generalizing a raw rest with
  | case1 => cases h
  | case2 rest' =>
    cases h
    exact Nat.zero_le _
  | case3 d rest' ih =>
    obtain ⟨read, hread, heq⟩ := Option.map_eq_some_iff.mp h
    cases heq
    match a, htext with
    | [], htext => exact absurd (List.cons.inj htext).1 hc
    | [e], htext =>
      obtain ⟨-, htext⟩ := List.cons.inj htext
      obtain ⟨-, rfl⟩ := List.cons.inj htext
      cases hread
      simp
    | e :: f :: a, htext =>
      obtain ⟨-, htext⟩ := List.cons.inj htext
      obtain ⟨-, htext⟩ := List.cons.inj htext
      have := ih htext hread
      simp only [List.length_cons]
      omega
  | case4 d rest' _ hslash hd ih =>
    obtain ⟨read, hread, heq⟩ := Option.map_eq_some_iff.mp h
    cases heq
    match a, htext with
    | [], htext =>
      obtain ⟨-, rfl⟩ := List.cons.inj htext
      cases hread
      simp
    | e :: a, htext =>
      obtain ⟨-, htext⟩ := List.cons.inj htext
      have := ih htext hread
      simp only [List.length_cons]
      omega
  | case5 => cases h

/-- The first quote of `rest`, if there is one, opens a string of a rendered value. -/
def Opens (rest : List Char) : Prop :=
  ∀ a b, rest = a ++ '"' :: b → '"' ∉ a → ∃ a' c, a = a' ++ [c] ∧ isOpener c = true

/-- A literal that is read back does not run past its closing quote. -/
theorem not_overrun {m : List Char} (hrest : Opens rest)
    (hliteral : literal (text ++ '"' :: rest) = some (text ++ '"' :: m, rest'))
    (hdecoded : unescape (text ++ '"' :: m) = some text) (hm : rest = m ++ '"' :: rest') :
    False := by
  have hmem : '"' ∈ rest := by
    rw [hm]
    simp
  obtain ⟨a, b, hab, ha⟩ := List.eq_append_cons_of_mem hmem
  obtain ⟨a', o, rfl, ho⟩ := hrest a b hab ha
  have hslash : o ≠ '\\' := by
    rintro rfl
    cases ho
  -- the literal reaches up to the next quote
  have hma : m = a' ++ [o] := by
    have hsplit : text ++ '"' :: rest = (text ++ '"' :: a') ++ o :: '"' :: b := by
      rw [hab]
      simp
    rw [hsplit] at hliteral
    have hlength := length_literal_le hslash hliteral
    rw [hm] at hab
    rcases List.append_eq_append_iff.mp hab with ⟨as, ha', has⟩ | ⟨bs, hbs, -⟩
    · cases as with
      | nil => simpa using ha'.symm
      | cons d as =>
        obtain ⟨rfl, -⟩ := List.cons.inj has
        exact absurd (by rw [ha']; simp) ha
    · have hlen := congrArg List.length hbs
      simp only [List.length_append, List.length_cons, List.length_nil] at hlength hlen
      have hnil : bs = [] := List.length_eq_zero_iff.mp (by omega)
      rw [hbs, hnil, List.append_nil]
  have hlast : text.getLast? = some o := by
    refine getLast?_unescape ho hdecoded ?_
    rw [hma]
    simp [List.getLast?_append, List.getLast?_cons]
  obtain ⟨t, rfl⟩ := List.getLast?_eq_some_iff.mp hlast
  rw [List.append_assoc, List.singleton_append] at hliteral
  have hlength := length_literal_le hslash hliteral
  simp only [List.length_append, List.length_cons, List.length_nil] at hlength
  omega

/-- A string between quotes is read back exactly if it needs no escape. -/
theorem string_eq_some_iff (hrest : Opens rest) :
    string (text ++ '"' :: rest) = some (text, rest') ↔ Unescaped text ∧ rest' = rest := by
  constructor
  · intro h
    obtain ⟨⟨raw, after⟩, hliteral, h⟩ := Option.bind_eq_some_iff.mp h
    obtain ⟨decoded, hdecoded, heq⟩ := Option.bind_eq_some_iff.mp h
    cases heq
    obtain ⟨hle, heq⟩ := length_unescape hdecoded
    have hboth : raw = text ∧ rest' = rest := by
      rcases List.append_eq_append_iff.mp (literal_eq_append hliteral) with
        ⟨more, rfl, hafter⟩ | ⟨more, htext, hafter⟩
      · cases more with
        | nil => exact ⟨List.append_nil _, (List.cons.inj hafter).2.symm⟩
        | cons c m =>
          obtain ⟨rfl, hm⟩ := List.cons.inj hafter
          exact (not_overrun hrest hliteral hdecoded hm).elim
      · have hnil : more = [] := by
          have hlen := congrArg List.length htext
          rw [List.length_append] at hlen
          exact List.length_eq_zero_iff.mp (by omega)
        rw [hnil, List.append_nil] at htext
        rw [hnil] at hafter
        exact ⟨htext.symm, (List.cons.inj hafter).2⟩
    obtain ⟨rfl, rfl⟩ := hboth
    exact ⟨unescaped_of_literal hliteral (heq rfl), rfl⟩
  · rintro ⟨htext, rfl⟩
    unfold string
    rw [literal_append htext]
    simp [unescape_of_unescaped htext]

/-! ## Reading a number back -/

/-- Nothing that could belong to a number. -/
def Stops (rest : List Char) : Prop := ∀ c ∈ rest.head?, isNumberChar c = false

theorem isNumberChar_of_isDigits (h : isDigits text) : ∀ c ∈ text, isNumberChar c := by
  simp only [isDigits, Bool.and_eq_true, List.all_eq_true] at h
  intro c hc
  simp [isNumberChar, h.2 c hc]

theorem isNumberChar_of_isExponent (h : isExponent text) : ∀ c ∈ text, isNumberChar c := by
  cases text with
  | nil => simp
  | cons c text =>
    simp only [isExponent, Bool.and_eq_true, Bool.or_eq_true, decide_eq_true_eq] at h
    obtain ⟨hc, h⟩ := h
    have hfirst : isNumberChar c := by rcases hc with rfl | rfl <;> rfl
    refine List.forall_mem_cons.mpr ⟨hfirst, ?_⟩
    split at h
    · exact List.forall_mem_cons.mpr ⟨rfl, isNumberChar_of_isDigits h⟩
    · exact List.forall_mem_cons.mpr ⟨rfl, isNumberChar_of_isDigits h⟩
    · exact isNumberChar_of_isDigits h

theorem forall_mem_of_takeWhile_dropWhile {P : Char → Prop} {q : Char → Bool}
    (htake : ∀ c ∈ text.takeWhile q, P c) (hdrop : ∀ c ∈ text.dropWhile q, P c) :
    ∀ c ∈ text, P c := by
  intro c hc
  rw [← List.takeWhile_append_dropWhile (p := q) (l := text), List.mem_append] at hc
  exact hc.elim (htake c) (hdrop c)

theorem isNumberChar_of_isFraction (h : isFraction text) : ∀ c ∈ text, isNumberChar c := by
  unfold isFraction at h
  split at h
  · rename_i text
    rw [Bool.and_eq_true] at h
    refine List.forall_mem_cons.mpr
      ⟨rfl, forall_mem_of_takeWhile_dropWhile (q := Char.isDigit) ?_ ?_⟩
    · exact isNumberChar_of_isDigits h.1
    · exact isNumberChar_of_isExponent h.2
  · exact isNumberChar_of_isExponent h

theorem isNumberChar_of_isUnsigned (h : isUnsigned text) : ∀ c ∈ text, isNumberChar c := by
  simp only [isUnsigned, Bool.and_eq_true] at h
  exact forall_mem_of_takeWhile_dropWhile (isNumberChar_of_isDigits h.1.1)
    (isNumberChar_of_isFraction h.2)

theorem Number.isNumberChar (n : Number) : ∀ c ∈ n.text, isNumberChar c := by
  have h := n.valid
  unfold isNumber at h
  split at h
  · rename_i text htext
    rw [htext]
    exact List.forall_mem_cons.mpr ⟨rfl, isNumberChar_of_isUnsigned h⟩
  · exact isNumberChar_of_isUnsigned h

theorem exists_cons_of_isUnsigned (h : isUnsigned text) :
    ∃ c t, text = c :: t ∧ c.isDigit := by
  cases text with
  | nil => cases h
  | cons c t =>
    refine ⟨c, t, rfl, ?_⟩
    by_contra hc
    simp [isUnsigned, isDigits, hc] at h

/-- How a number starts. -/
theorem Number.exists_cons (n : Number) : ∃ c t, n.text = c :: t ∧ (c = '-' ∨ c.isDigit) := by
  have h := n.valid
  unfold isNumber at h
  split at h
  · rename_i text htext
    exact ⟨'-', text, htext, .inl rfl⟩
  · obtain ⟨c, t, htext, hc⟩ := exists_cons_of_isUnsigned h
    exact ⟨c, t, htext, .inr hc⟩

theorem number_append (n : Number) (hrest : Stops rest) :
    number (n.text ++ rest) = some (.number n, rest) := by
  have htake : (n.text ++ rest).takeWhile Json.isNumberChar = n.text := by
    rw [List.takeWhile_append_of_pos n.isNumberChar]
    cases rest with
    | nil => simp
    | cons c t => simp [hrest c rfl]
  have hdrop : (n.text ++ rest).dropWhile Json.isNumberChar = rest := by
    rw [List.dropWhile_append_of_pos n.isNumberChar]
    cases rest with
    | nil => rfl
    | cons c t => simp [hrest c rfl]
  unfold number
  simp only [htake, hdrop, dif_pos n.valid]

theorem isUnsigned_digits (k : ℕ) : isUnsigned (Nat.toDigits 10 k) := by
  have hdigit : ∀ c ∈ Nat.toDigits 10 k, c.isDigit := fun c hc => Decimal.isDigit_of_mem_digits hc
  have htake : (Nat.toDigits 10 k).takeWhile Char.isDigit = Nat.toDigits 10 k :=
    List.takeWhile_eq_self_iff.mpr hdigit
  have hdrop : (Nat.toDigits 10 k).dropWhile Char.isDigit = [] :=
    List.dropWhile_eq_nil_iff.mpr hdigit
  have hdigits : isDigits (Nat.toDigits 10 k) := by
    simpa [isDigits, Nat.toDigits_ne_nil] using hdigit
  have hzero : Nat.toDigits 10 k = ['0'] ∨ (Nat.toDigits 10 k).head? ≠ some '0' := by
    rcases Nat.eq_zero_or_pos k with rfl | hk
    · exact .inl rfl
    · exact .inr (Decimal.head?_digits hk)
  simp only [isUnsigned, htake, hdrop, hdigits, Bool.true_and, Bool.and_eq_true, Bool.or_eq_true,
    decide_eq_true_eq]
  exact ⟨hzero, rfl⟩

/-- An integer in decimal. -/
def Number.ofInt (n : ℤ) : Number where
  text := Decimal.ofInt n
  valid := by
    unfold Decimal.ofInt
    split
    · exact isUnsigned_digits n.natAbs
    · unfold isNumber
      split
      · rename_i h
        exact absurd h (Decimal.digits_ne_sign_cons _ _)
      · exact isUnsigned_digits n.natAbs

/-- A text that starts like a number is read as one. -/
theorem value_succ_of_number {fuel : ℕ} {c : Char} {t : List Char} (hc : c = '-' ∨ c.isDigit) :
    value (fuel + 1) (c :: t) = number (c :: t) := by
  rw [value.eq_def]
  split <;> simp_all

theorem value_number {fuel : ℕ} (n : Number) (hrest : Stops rest) :
    value (fuel + 1) (n.text ++ rest) = some (.number n, rest) := by
  obtain ⟨c, t, htext, hc⟩ := n.exists_cons
  rw [← number_append n hrest, htext, List.cons_append]
  exact value_succ_of_number hc

end Json
