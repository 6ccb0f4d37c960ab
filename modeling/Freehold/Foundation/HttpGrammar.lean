import Freehold.Foundation.Decimal
import Freehold.Foundation.Scanning

/-!
# The messages of HTTP/1.1

A request or status line, header fields with blanks around their values, an empty line, and a
body whose length a field gives. The names of fields are compared without their case.

## Main results

* `Request.after_head` — the first empty line is the one that ends the header fields.
* `Request.infix_line_iff` — where a method and a path with a space between them occur in a
  request line.
-/

namespace Http

def crlf : List Char := ['\r', '\n']

def isBlank (c : Char) : Bool := c = ' ' || c = '\t'

def isTokenChar (c : Char) : Bool :=
  c.isAlphanum ||
    c ∈ ['!', '#', '$', '%', '&', '\x27', '*', '+', '-', '.', '^', '_', '\x60', '|', '~']

def isVisible (c : Char) : Bool := '!' ≤ c && c ≤ '~'

/-- A visible character, a blank, or a byte that is not ASCII. -/
def isFieldChar (c : Char) : Bool := isBlank c || isVisible c || '\x80' ≤ c

/-- A header field, with the blanks around its value. -/
structure Field where
  name : List Char
  leading : List Char
  value : List Char
  trailing : List Char
  name_ne_nil : name ≠ []
  name_token : ∀ c ∈ name, isTokenChar c
  leading_blank : ∀ c ∈ leading, isBlank c
  value_chars : ∀ c ∈ value, isFieldChar c
  value_trimmed : ∀ c, value.head? = some c ∨ value.getLast? = some c → isBlank c = false
  trailing_blank : ∀ c ∈ trailing, isBlank c

theorem isBlank_of_mem_nil : ∀ c ∈ ([] : List Char), isBlank c := List.forall_mem_nil _

namespace Field

def text (f : Field) : List Char := f.name ++ ':' :: (f.leading ++ f.value ++ f.trailing)

/-- The name is `name`, whatever its case is. -/
def Named (f : Field) (name : List Char) : Prop := f.name.map Char.toLower = name

/-- A field with one space before its value. -/
def spaced (name value : List Char) (hname : name ≠ [] ∧ name.all isTokenChar)
    (hvalue : value.all isFieldChar ∧ (value.head?.all fun c => !isBlank c) ∧
      value.getLast?.all fun c => !isBlank c) : Field where
  name
  leading := [' ']
  value
  trailing := []
  name_ne_nil := hname.1
  name_token := List.all_eq_true.mp hname.2
  leading_blank := by simp [isBlank]
  value_chars := List.all_eq_true.mp hvalue.1
  value_trimmed := by
    rintro c (h | h)
    · have hhead := hvalue.2.1
      simpa [h] using hhead
    · have hlast := hvalue.2.2
      simpa [h] using hlast
  trailing_blank := isBlank_of_mem_nil

@[simp] theorem text_spaced (name value : List Char) (hname : name ≠ [] ∧ name.all isTokenChar)
    (hvalue : value.all isFieldChar ∧ (value.head?.all fun c => !isBlank c) ∧
      value.getLast?.all fun c => !isBlank c) :
    (spaced name value hname hvalue).text = name ++ ':' :: ' ' :: value := by
  simp [spaced, text]

end Field

/-- What decimal digits say. -/
def numeral (digits : List Char) : ℕ :=
  digits.foldl (fun n c => 10 * n + (c.toNat - '0'.toNat)) 0

structure Request where
  method : List Char
  target : List Char
  fields : List Field
  body : List Char
  method_ne_nil : method ≠ []
  method_token : ∀ c ∈ method, isTokenChar c
  target_ne_nil : target ≠ []
  target_visible : ∀ c ∈ target, isVisible c
  /-- Each length that is given is that of the body. -/
  length_eq : ∀ f ∈ fields, f.Named "content-length".toList →
    f.value ≠ [] ∧ (∀ c ∈ f.value, c.isDigit) ∧ numeral f.value = body.length
  /-- Without a length there is no body. -/
  body_eq_nil : (∀ f ∈ fields, ¬f.Named "content-length".toList) → body = []

namespace Request

def version : List Char := "HTTP/1.1".toList

def line (r : Request) : List Char := r.method ++ ' ' :: (r.target ++ ' ' :: version)

def fieldLines (fields : List Field) : List Char := fields.flatMap fun f => crlf ++ f.text

/-- Everything before the empty line. -/
def head (r : Request) : List Char := r.line ++ fieldLines r.fields

def text (r : Request) : List Char := r.head ++ crlf ++ crlf ++ r.body

/-- The target up to its query. -/
def path (r : Request) : List Char := r.target.takeWhile fun c => c ≠ '?'

end Request

/-! ## Lines -/

/-- A character that no line contains. -/
def Excluded (c : Char) : Prop :=
  isTokenChar c = false ∧ isBlank c = false ∧ isVisible c = false ∧ isFieldChar c = false

instance (c : Char) : Decidable (Excluded c) :=
  inferInstanceAs (Decidable (_ ∧ _))

variable {c : Char} {rest : List Char} {fields : List Field} (f : Field) (r : Request)

theorem Field.notMem_text (hc : Excluded c) : c ∉ f.text := by
  obtain ⟨htoken, hblank, hvisible, hfield⟩ := hc
  have hcolon : c ≠ ':' := by
    rintro rfl
    exact absurd hvisible (by decide)
  unfold Field.text
  simp only [List.mem_append, List.mem_cons, not_or]
  refine ⟨fun h => ?_, hcolon, ⟨fun h => ?_, fun h => ?_⟩, fun h => ?_⟩
  · exact absurd (f.name_token c h) (by simp [htoken])
  · exact absurd (f.leading_blank c h) (by simp [hblank])
  · exact absurd (f.value_chars c h) (by simp [hfield])
  · exact absurd (f.trailing_blank c h) (by simp [hblank])

namespace Request

theorem notMem_line (hc : Excluded c) : c ∉ r.line := by
  obtain ⟨htoken, hblank, hvisible, -⟩ := hc
  have hspace : c ≠ ' ' := by
    rintro rfl
    exact absurd hblank (by decide)
  have hversion : c ∉ version := by
    have hall : version.all isVisible = true := by decide
    intro h
    exact absurd (List.all_eq_true.mp hall c h) (by simp [hvisible])
  unfold line
  simp only [List.mem_append, List.mem_cons, not_or]
  refine ⟨fun h => ?_, hspace, fun h => ?_, hspace, hversion⟩
  · exact absurd (r.method_token c h) (by simp [htoken])
  · exact absurd (r.target_visible c h) (by simp [hvisible])

theorem notMem_head (hc : Excluded c) (hcrlf : c ∉ crlf) : c ∉ r.head := by
  unfold head fieldLines
  simp only [List.mem_append, List.mem_flatMap, not_or, not_exists, not_and]
  refine ⟨r.notMem_line hc, fun f _ => ⟨hcrlf, f.notMem_text hc⟩⟩

theorem excluded_cr : Excluded '\r' := by decide

theorem Field.exists_text_eq_cons : ∃ c tail, f.text = c :: tail ∧ c ≠ '\r' := by
  obtain ⟨c, name, hname⟩ := List.exists_cons_of_ne_nil f.name_ne_nil
  refine ⟨c, name ++ ':' :: (f.leading ++ f.value ++ f.trailing), ?_, ?_⟩
  · rw [Field.text, hname, List.cons_append]
  · rintro rfl
    exact f.notMem_text excluded_cr (by simp [Field.text, hname])

/-- No empty line begins before the end of the header fields. -/
theorem after_fieldLines (fields : List Field) (rest : List Char) :
    Scanning.after (crlf ++ crlf) (fieldLines fields ++ (crlf ++ crlf ++ rest)) = some rest := by
  induction fields with
  | nil => exact Scanning.after_of_prefix (List.prefix_append _ _)
  | cons f fields ih =>
    obtain ⟨c, tail, htext, hc⟩ := Field.exists_text_eq_cons f
    have hsplit : fieldLines (f :: fields) ++ (crlf ++ crlf ++ rest) =
        '\r' :: '\n' :: (f.text ++ (fieldLines fields ++ (crlf ++ crlf ++ rest))) := by
      simp [fieldLines, crlf]
    rw [hsplit, Scanning.after_cons, if_neg, Scanning.after_cons, if_neg,
      Scanning.after_append_left_of_head rfl (f.notMem_text excluded_cr), ih]
    · simp [crlf]
    · rw [htext]
      simp [crlf, Ne.symm hc]

theorem after_head :
    Scanning.after (crlf ++ crlf) (r.head ++ (crlf ++ crlf ++ rest)) = some rest := by
  rw [head, List.append_assoc, Scanning.after_append_left_of_head rfl (r.notMem_line excluded_cr),
    after_fieldLines]

/-- The request line ends at the first field. -/
theorem after_crlf_head (h : r.fields = f :: fields) :
    Scanning.after crlf r.head = some (f.text ++ fieldLines fields) := by
  have hsplit : fieldLines (f :: fields) = crlf ++ (f.text ++ fieldLines fields) := by
    simp [fieldLines]
  rw [head, Scanning.after_append_left_of_head rfl (r.notMem_line excluded_cr), h, hsplit,
    Scanning.after_of_prefix (List.prefix_append _ _), List.drop_left]

theorem after_crlf_head_eq_none (h : r.fields = []) : Scanning.after crlf r.head = none := by
  have hhead : r.head = r.line := by simp [head, h, fieldLines]
  rw [hhead, Scanning.after_eq_none_iff]
  intro hoccurs
  exact r.notMem_line excluded_cr (hoccurs.subset (by simp [crlf]))

/-! ## Methods and paths in a request line -/

variable {m t : List Char}

theorem infix_line_iff (hm : ' ' ∉ m) (ht : ∃ c tail, t = c :: tail ∧ c ≠ 'H') (hspace : ' ' ∉ t) :
    m ++ ' ' :: t <:+: r.line ↔ m <:+ r.method ∧ t <+: r.target := by
  have hmethod : ' ' ∉ r.method := fun h => absurd (r.method_token ' ' h) (by decide)
  have htarget : ' ' ∉ r.target := fun h => absurd (r.target_visible ' ' h) (by decide)
  have hversion : ¬t <+: version := by
    obtain ⟨c, tail, rfl, hc⟩ := ht
    intro h
    exact hc (List.cons_prefix_cons.mp h).1
  have hnone : ¬m ++ ' ' :: t <:+: version := by
    intro h
    exact absurd (h.subset (by simp) : ' ' ∈ version) (by decide)
  rw [line, Scanning.infix_append_cons_iff hm hmethod, Scanning.infix_append_cons_iff hm htarget,
    Scanning.prefix_append_cons_iff hspace]
  simp only [hversion, hnone, and_false, or_false]

end Request

/-! ## Responses -/

structure Response where
  status : ℕ
  reason : List Char
  fields : List Field
  body : List Char
  /-- Three digits. -/
  status_range : 100 ≤ status ∧ status < 1000
  reason_chars : ∀ c ∈ reason, isFieldChar c
  /-- A length is given, and each one is that of the body. -/
  length_given : ∃ f ∈ fields, f.Named "content-length".toList
  length_eq : ∀ f ∈ fields, f.Named "content-length".toList →
    f.value ≠ [] ∧ (∀ c ∈ f.value, c.isDigit) ∧ numeral f.value = body.length

namespace Response

def line (r : Response) : List Char :=
  Request.version ++ ' ' :: (Decimal.ofInt r.status ++ ' ' :: r.reason)

def text (r : Response) : List Char :=
  r.line ++ Request.fieldLines r.fields ++ (crlf ++ crlf ++ r.body)

end Response

/-! ## Numbers -/

theorem numeral_ofInt (n : ℕ) : numeral (Decimal.ofInt n) = n := by
  have hn : ¬(n : ℤ) < 0 := by omega
  rw [Decimal.ofInt, if_neg hn, Int.natAbs_natCast]
  rw [numeral, ← Nat.ofDigitChars_eq_foldl]
  exact Nat.ofDigitChars_toDigits (by decide) (by decide)

theorem isDigit_of_mem_ofInt {n : ℕ} (hc : c ∈ Decimal.ofInt n) : c.isDigit := by
  have hn : ¬(n : ℤ) < 0 := by omega
  rw [Decimal.ofInt, if_neg hn] at hc
  exact Decimal.isDigit_of_mem_digits hc

theorem isFieldChar_of_isDigit (hc : c.isDigit) : isFieldChar c ∧ isBlank c = false := by
  simp only [Char.isDigit, Bool.and_eq_true, decide_eq_true_eq] at hc
  have hlow : '!' ≤ c := UInt32.le_trans (by decide : ('!' : Char).val ≤ ('0' : Char).val) hc.1
  have hhigh : c ≤ '~' := UInt32.le_trans hc.2 (by decide : ('9' : Char).val ≤ ('~' : Char).val)
  have hspace : c ≠ ' ' := by
    rintro rfl
    exact absurd hlow (by decide)
  have htab : c ≠ '\t' := by
    rintro rfl
    exact absurd hlow (by decide)
  simp [isFieldChar, isVisible, isBlank, hlow, hhigh, hspace, htab]

theorem ofInt_ne_nil (n : ℕ) : Decimal.ofInt n ≠ [] := by
  have hn : ¬(n : ℤ) < 0 := by omega
  rw [Decimal.ofInt, if_neg hn]
  exact Nat.toDigits_ne_nil

/-- The `Content-Length` field of a message. -/
def lengthField (n : ℕ) : Field :=
  .spaced "Content-Length".toList (Decimal.ofInt n)
    ⟨by decide, by decide +kernel⟩
    ⟨List.all_eq_true.mpr fun _ hc => (isFieldChar_of_isDigit (isDigit_of_mem_ofInt hc)).1, by
      have hblank : ∀ c ∈ Decimal.ofInt n, isBlank c = false := fun c hc =>
        (isFieldChar_of_isDigit (isDigit_of_mem_ofInt hc)).2
      constructor
      · cases hhead : (Decimal.ofInt n).head? with
        | none => rfl
        | some c => simp [hblank c (List.mem_of_head? hhead)]
      · cases hlast : (Decimal.ofInt n).getLast? with
        | none => rfl
        | some c => simp [hblank c (List.mem_of_getLast? hlast)]⟩

theorem named_lengthField (n : ℕ) : (lengthField n).Named "content-length".toList := by
  have hname : "Content-Length".toList.map Char.toLower = "content-length".toList := by
    decide +kernel
  exact hname

theorem lengthField_value (n : ℕ) : (lengthField n).value ≠ [] ∧
    (∀ c ∈ (lengthField n).value, c.isDigit) ∧ numeral (lengthField n).value = n :=
  ⟨ofInt_ne_nil n, fun _ => isDigit_of_mem_ofInt, numeral_ofInt n⟩

end Http
