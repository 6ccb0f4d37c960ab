import Freehold.Discovery.Topology
import Freehold.Foundation.JsonLayout

/-!
# The announcements of the discovery server (`discovery.cpp`)

`json_get_string` looks for a key as a text between quotation marks and takes what stands behind
the next colon. What it finds in a flat object is what the object says, where the four keys and
their values are written plainly.

## Main results

* `jsonGetString_of_plain` — the scanner finds the member with the key, or nothing.
* `announcement_of_decode` — what is registered is what the body says.
-/

namespace Freehold.Discovery

open Json
open Freehold.Server (stoi)

/-! ## What a body says -/

/-- A string, or a number as it is written. -/
def valueText : Value → List Char
  | .string s => s
  | .number n => n.text
  | _ => []

/-- What the member with the key says. -/
def fieldText (ms : List (List Char × Value)) (key : List Char) : List Char :=
  ((ms.find? fun entry => entry.1 = key).map fun entry => valueText entry.2).getD []

/-- The fields that `handle_announce` reads. -/
def announceKeys : List (List Char) :=
  ["party_id".toList, "port".toList, "hostname".toList, "status".toList]

/-- The members before the first one with the key; all, if there is none. -/
def membersBefore (key : List Char) (l : List Member) : List Member :=
  l.takeWhile fun m => m.key.text ≠ key

/-- The value of the key is as plain as the scanner takes it, and no earlier member has the key
between quotation marks. -/
structure PlainField (key : List Char) (l : List Member) : Prop where
  before : ∀ m ∈ membersBefore key l, ¬Scanning.quoted '"' key <:+: m.written
  spelled : ∀ m ∈ l, m.key.text = key → m.key.raw = key
  unescaped : ∀ m ∈ l, m.key.text = key → '\\' ∉ m.item.token
  blank : ∀ m ∈ l, m.key.text = key → ∀ c ∈ m.item.before, c = ' ' ∨ c = '\t'

/-! ## What the scanner finds -/

variable {key lead trail : List Char} {l : List Member} {m : Member}

theorem afterFirst_eq_after : afterFirst = Scanning.after := rfl

theorem mem_delimiters {c : Char} (hc : isSpace c ∨ c = ',' ∨ c = '\x7d') :
    c ∈ [',', '\x7d', ' ', '\t', '\r', '\n'] := by
  simp only [isSpace, Bool.or_eq_true, decide_eq_true_eq] at hc
  simp only [List.mem_cons, List.not_mem_nil, or_false]
  tauto

theorem notMem_delimiters {c : Char} (hc : isNumberChar c) :
    c ∉ [',', '\x7d', ' ', '\t', '\r', '\n'] := by
  intro hmem
  fin_cases hmem <;> cases hc

/-- A value is taken from between quotation marks, or up to the next delimiter. -/
theorem scan_item {i : Item} {e : Char} (tail : List Char) (hscalar : IsScalar i.value)
    (hunescaped : '\\' ∉ i.token) (hblank : ∀ c ∈ i.before, c = ' ' ∨ c = '\t')
    (he : e = ',' ∨ e = '\x7d') :
    (match (i.written ++ e :: tail).dropWhile fun c => c = ' ' || c = '\t' with
    | '"' :: value => if '"' ∈ value then value.takeWhile fun c => c ≠ '"' else []
    | value => value.takeWhile fun c => c ∉ [',', '\x7d', ' ', '\t', '\r', '\n']) =
      valueText i.value := by
  have hskip : (i.written ++ e :: tail).dropWhile (fun c => c = ' ' || c = '\t') =
      (i.token ++ (i.behind ++ e :: tail)).dropWhile fun c => c = ' ' || c = '\t' := by
    rw [Item.written, List.append_assoc, List.append_assoc, List.dropWhile_append_of_pos]
    simpa using hblank
  have hspells := i.spells
  rw [hskip]
  cases hvalue : i.value with
  | string s =>
    rw [hvalue] at hspells
    obtain ⟨literal, rfl, htoken⟩ := hspells.string
    have hraw : '\\' ∉ literal.raw := fun hmem => hunescaped (by simp [htoken, hmem])
    obtain ⟨htext, hquote⟩ := literal.text_eq_raw hraw
    have hvalue : (literal.raw ++ '"' :: (i.behind ++ e :: tail)).takeWhile (fun c => c ≠ '"') =
        literal.raw := by
      rw [List.takeWhile_append_of_pos, List.takeWhile_cons_of_neg (by simp), List.append_nil]
      intro c hc
      exact decide_eq_true fun heq => hquote (heq ▸ hc)
    have hmem : '"' ∈ literal.raw ++ '"' :: (i.behind ++ e :: tail) := by simp
    rw [htoken, List.cons_append, List.append_assoc, List.singleton_append,
      List.dropWhile_cons_of_neg (by decide)]
    show (if '"' ∈ literal.raw ++ '"' :: (i.behind ++ e :: tail) then _ else _) = literal.text
    rw [if_pos hmem, hvalue, htext]
  | number n =>
    rw [hvalue] at hspells
    obtain ⟨c, t, hn, hc⟩ := n.exists_cons
    obtain ⟨d, rest, hrest, hd⟩ : ∃ d rest, i.behind ++ e :: tail = d :: rest ∧
        d ∈ [',', '\x7d', ' ', '\t', '\r', '\n'] := by
      cases hbehind : i.behind with
      | nil => exact ⟨e, tail, rfl, mem_delimiters (.inr he)⟩
      | cons d behind =>
        have hspace : isSpace d := i.blank_behind d (by simp [hbehind])
        exact ⟨d, _, rfl, mem_delimiters (.inl hspace)⟩
    have htake : (n.text ++ d :: rest).takeWhile
        (fun c => c ∉ [',', '\x7d', ' ', '\t', '\r', '\n']) = n.text := by
      rw [List.takeWhile_append_of_pos, List.takeWhile_cons_of_neg, List.append_nil]
      · simpa only [decide_eq_true_eq, not_not] using hd
      · intro c hc
        exact decide_eq_true (notMem_delimiters (n.isNumberChar c hc))
    have hfirst : c ∉ [',', '\x7d', ' ', '\t', '\r', '\n'] ∧ c ≠ '"' := by
      have hnumber : isNumberChar c := n.isNumberChar c (hn ▸ List.mem_cons_self)
      refine ⟨notMem_delimiters hnumber, ?_⟩
      rintro rfl
      cases hnumber
    have hblank : ¬(decide (c = ' ') || decide (c = '\t')) = true := by
      rw [Bool.or_eq_true, decide_eq_true_eq, decide_eq_true_eq]
      rintro (rfl | rfl)
      · exact hfirst.1 (by simp)
      · exact hfirst.1 (by simp)
    rw [hspells.number, hrest]
    rw [hn, List.cons_append] at htake ⊢
    rw [List.dropWhile_cons_of_neg (p := fun c => c = ' ' || c = '\t') hblank]
    split
    · next heq => exact absurd (List.cons.inj heq).1 hfirst.2
    · exact htake.trans hn.symm
  | _ =>
    rw [hvalue] at hscalar
    exact absurd hscalar id

theorem fieldText_entries (l : List Member) (key : List Char) : fieldText (l.map Member.entry) key =
    ((l.find? fun m => m.key.text = key).map fun m => valueText m.item.value).getD [] := by
  rw [fieldText, List.find?_map, Option.map_map]
  rfl

theorem fieldText_eq_nil (h : ∀ m ∈ l, m.key.text ≠ key) :
    fieldText (l.map Member.entry) key = [] := by
  have hfind : (l.find? fun m => m.key.text = key) = none :=
    List.find?_eq_none.mpr fun m hm => by simpa using h m hm
  rw [fieldText_entries, hfind]
  rfl

theorem fieldText_append_cons {front back : List Member} (hfront : ∀ m ∈ front, m.key.text ≠ key)
    (hkey : m.key.text = key) :
    fieldText ((front ++ m :: back).map Member.entry) key = valueText m.item.value := by
  have hfind : ((front ++ m :: back).find? fun m => m.key.text = key) = some m :=
    List.find?_eq_some_iff_append.mpr
      ⟨decide_eq_true hkey, front, back, rfl, fun m' hm' => by simpa using hfront m' hm'⟩
  rw [fieldText_entries, hfind]
  rfl

theorem membersBefore_append_cons {front back : List Member}
    (hfront : ∀ m ∈ front, m.key.text ≠ key) (hkey : m.key.text = key) :
    membersBefore key (front ++ m :: back) = front := by
  rw [membersBefore, List.takeWhile_append_of_pos, List.takeWhile_cons_of_neg, List.append_nil]
  · simpa using hkey
  · simpa using hfront

/-- The member with the key. -/
theorem jsonGetString_of_plain {body : List Char} (hkey : Word key) (hlaid : LaidOut body l)
    (hplain : PlainField key l) (hscalar : ∀ m ∈ l, IsScalar m.item.value) :
    jsonGetString body key = fieldText (l.map Member.entry) key := by
  obtain ⟨lead, trail, hlead, htrail, rfl⟩ := hlaid
  unfold jsonGetString
  rw [afterFirst_eq_after, show '"' :: (key ++ ['"']) = Scanning.quoted '"' key from rfl]
  by_cases hmember : ∃ m ∈ l, m.key.text = key
  · obtain ⟨front, m, back, rfl, hm, hfront⟩ := exists_append_cons hmember
    have hmem : m ∈ front ++ m :: back := by simp
    have hbefore := hplain.before
    rw [membersBefore_append_cons hfront hm] at hbefore
    obtain ⟨e, tail, he, hafter⟩ :=
      exists_after_key hkey hlead hbefore (hplain.spelled m hmem hm) back trail
    have hcolon : ':' ∉ m.behind := m.blank_behind.notMem rfl
    rw [fieldText_append_cons hfront hm, hafter, Option.bind_some, Scanning.after_singleton hcolon]
    exact scan_item tail (hscalar m hmem) (hplain.unescaped m hmem hm) (hplain.blank m hmem hm) he
  · have hnone : ∀ m ∈ l, m.key.text ≠ key := fun m hm heq => hmember ⟨m, hm, heq⟩
    have htake : membersBefore key l = l :=
      List.takeWhile_eq_self_iff.mpr (by simpa using hnone)
    have hbefore := hplain.before
    rw [htake] at hbefore
    rw [fieldText_eq_nil hnone, after_key_eq_none hkey hlead htrail hbefore]
    rfl

/-! ## Integers -/

theorem digitsValue_eq {digits : List Char} (h : digits.all Char.isDigit) :
    Mail.digitsValue digits = Nat.ofDigitChars 10 digits 0 := by
  have htake : digits.takeWhile Char.isDigit = digits :=
    List.takeWhile_eq_self_iff.mpr (List.all_eq_true.mp h)
  have hfold : ∀ (digits : List Char) (n : ℕ), digits.foldl (fun (value : ℤ) c =>
      10 * value + (c.toNat - '0'.toNat : ℕ)) n = Nat.ofDigitChars 10 digits n := by
    intro digits
    induction digits with
    | nil => exact fun n => rfl
    | cons c digits ih =>
      intro n
      rw [List.foldl_cons, Nat.ofDigitChars_cons, ← ih]
      push_cast
      rfl
  rw [Mail.digitsValue, htake]
  exact hfold digits 0

theorem isSpace_of_isDigit {c : Char} (hc : c.isDigit) : Mail.isSpace c = false := by
  have hblank : c ≠ ' ' := by
    rintro rfl
    cases hc
  have hreturn : ¬c ≤ '\r' := by
    simp only [Char.isDigit, Bool.and_eq_true, decide_eq_true_eq, ge_iff_le,
      UInt32.le_iff_toNat_le] at hc
    rw [Char.le_def, UInt32.le_iff_toNat_le]
    exact fun h => absurd (hc.1.trans h) (by decide)
  simp [Mail.isSpace, hreturn, hblank]

/-- `stoi` reads an integer that fits. -/
theorem stoi_integer {n : Number} {z : ℤ} (h : n.integer = some z) (hlow : -2 ^ 31 ≤ z)
    (hhigh : z < 2 ^ 31) : stoi n.text = some z := by
  have hvalid := n.valid
  obtain ⟨c, t, htext, hc⟩ := n.exists_cons
  rw [Number.integer, htext] at h
  rw [htext] at hvalid ⊢
  rcases hc with rfl | hdigit
  · have hsome : ¬(t.takeWhile Char.isDigit).isEmpty := by
      have hunsigned : isUnsigned t = true := hvalid
      simp only [isUnsigned, isDigits, Bool.and_eq_true, Bool.not_eq_true'] at hunsigned
      rw [hunsigned.1.1.1]
      exact Bool.false_ne_true
    obtain ⟨hall, hz⟩ := Option.ite_none_right_eq_some.mp h
    cases hz
    rw [stoi, List.dropWhile_cons_of_neg (by decide)]
    show (if (t.takeWhile Char.isDigit).isEmpty then none else _) = _
    rw [if_neg hsome, digitsValue_eq hall, neg_one_mul, if_pos ⟨hlow, hhigh⟩]
  · have hsign : c ≠ '-' ∧ c ≠ '+' := by
      constructor <;> rintro rfl <;> cases hdigit
    have hsome : ¬((c :: t).takeWhile Char.isDigit).isEmpty := by
      rw [List.takeWhile_cons_of_pos hdigit]
      exact Bool.false_ne_true
    have hspace : ¬Mail.isSpace c = true := by
      rw [isSpace_of_isDigit hdigit]
      exact Bool.false_ne_true
    rw [stoi, List.dropWhile_cons_of_neg hspace]
    split at h
    · next heq => exact absurd (List.cons.inj heq).1 hsign.1
    · obtain ⟨hall, hz⟩ := Option.ite_none_right_eq_some.mp h
      cases hz
      split
      · next heq => exact absurd (List.cons.inj heq).1 hsign.1
      · next heq => exact absurd (List.cons.inj heq).1 hsign.2
      · show (if ((c :: t).takeWhile Char.isDigit).isEmpty then none else _) = _
        rw [if_neg hsome, digitsValue_eq hall, one_mul, if_pos ⟨hlow, hhigh⟩]

/-! ## What is registered -/

theorem fieldText_of_mem {ms : List (List Char × Value)} {v : Value}
    (hkeys : (ms.map Prod.fst).Nodup) (h : (key, v) ∈ ms) : fieldText ms key = valueText v := by
  have hfind : (ms.find? fun entry => entry.1 = key) = some (key, v) := by
    obtain ⟨front, back, rfl⟩ := List.append_of_mem h
    refine List.find?_eq_some_iff_append.mpr ⟨decide_eq_true rfl, front, back, rfl, ?_⟩
    intro entry hentry
    rw [List.map_append, List.map_cons, List.nodup_append] at hkeys
    have hne := hkeys.2.2 entry.1 (List.mem_map_of_mem hentry) key List.mem_cons_self
    simpa using hne
  rw [fieldText, hfind]
  rfl

/-- The member with the key is an integer that fits an `int`. -/
structure HasInteger (ms : List (List Char × Value)) (key : List Char) (z : ℤ) : Prop where
  member : ∃ n : Number, (key, .number n) ∈ ms ∧ n.integer = some z
  low : -2 ^ 31 ≤ z
  high : z < 2 ^ 31

theorem HasInteger.stoi {ms : List (List Char × Value)} {z : ℤ} (h : HasInteger ms key z)
    (hkeys : (ms.map Prod.fst).Nodup) : stoi (fieldText ms key) = some z := by
  obtain ⟨n, hmem, hn⟩ := h.member
  rw [fieldText_of_mem hkeys hmem]
  exact stoi_integer hn h.low h.high

def orDefault (text default : List Char) : List Char := if text.isEmpty then default else text

/-- What a flat object says is registered, where the four fields are written plainly. Every body
that is such an object is laid out somehow. -/
theorem announcement_of_decode {body : List Char} {ms : List (List Char × Value)} {partyId port : ℤ}
    (hdecode : decode body = some (.object ms)) (hscalar : ∀ entry ∈ ms, IsScalar entry.2)
    (hkeys : (ms.map Prod.fst).Nodup)
    (hpartyId : HasInteger ms "party_id".toList partyId) (hpartyId_ne : partyId ≠ 0)
    (hport : HasInteger ms "port".toList port) (hport_ne : port ≠ 0) :
    (∃ l, LaidOut body l ∧ l.map Member.entry = ms) ∧
    ∀ l, LaidOut body l → l.map Member.entry = ms → (∀ key ∈ announceKeys, PlainField key l) →
      announcement body = some
        { partyId, port
          hostname := orDefault (fieldText ms "hostname".toList) "127.0.0.1".toList
          status := orDefault (fieldText ms "status".toList) "online".toList } := by
  have hms : ms ≠ [] := by
    rintro rfl
    obtain ⟨n, hmem, -⟩ := hpartyId.member
    cases hmem
  refine ⟨exists_layout_of_decode hdecode hms, ?_⟩
  rintro l hlaid rfl hplain
  have hitems : ∀ m ∈ l, IsScalar m.item.value := fun m hm =>
    hscalar m.entry (List.mem_map_of_mem hm)
  have hscan : ∀ key ∈ announceKeys, jsonGetString body key =
      fieldText (l.map Member.entry) key := by
    intro key hkey
    have hword : ∀ key ∈ announceKeys, Word key := by decide +kernel
    exact jsonGetString_of_plain (hword key hkey) hlaid (hplain key hkey) hitems
  have hne : ¬(partyId = 0 ∨ port = 0) := not_or.mpr ⟨hpartyId_ne, hport_ne⟩
  unfold announcement jsonGetInt
  rw [hscan _ (by decide), hscan _ (by decide), hscan _ (by decide), hscan _ (by decide),
    hpartyId.stoi hkeys, hport.stoi hkeys]
  simp only [Option.getD_some, if_neg hne]
  rfl

/-! ## Bodies -/

instance (key : List Char) (l : List Member) : Decidable (PlainField key l) :=
  letI _blanks (m : Member) : Decidable (∀ c ∈ m.item.before, c = ' ' ∨ c = '\t') :=
    List.decidableBAll _ _
  decidable_of_iff
    ((∀ m ∈ membersBefore key l, ¬Scanning.quoted '"' key <:+: m.written) ∧
      (∀ m ∈ l, m.key.text = key → m.key.raw = key) ∧
      (∀ m ∈ l, m.key.text = key → '\\' ∉ m.item.token) ∧
      ∀ m ∈ l, m.key.text = key → ∀ c ∈ m.item.before, c = ' ' ∨ c = '\t')
    ⟨fun h => ⟨h.1, h.2.1, h.2.2.1, h.2.2.2⟩, fun h => ⟨h.1, h.2, h.3, h.4⟩⟩

def noteKey : Literal := .ofUnescaped "note".toList (by decide)
def partyIdKey : Literal := .ofUnescaped "party_id".toList (by decide)
def portKey : Literal := .ofUnescaped "port".toList (by decide)
def hostnameKey : Literal := .ofUnescaped "hostname".toList (by decide)

/-- `a"b`. -/
def escaped : Literal :=
  ⟨['a', '\\', '"', 'b'], ['a', '"', 'b'], ⟨[], by decide⟩, by decide⟩

/-- `port`, with the `o` as an escape. -/
def escapedPort : Literal :=
  ⟨'p' :: '\\' :: "u006frt".toList, "port".toList, ⟨[], by decide +kernel⟩, by decide +kernel⟩

def demoMembers : List Member :=
  [.bare noteKey (.ofLiteral escaped),
    ⟨['\n', ' '], portKey, [' '], { Item.ofNumber (.ofInt 8080) with
      before := ['\t'], behind := ['\r', '\n']
      blank_before := by decide, blank_behind := blank_crlf }, by decide, blank_space⟩,
    .bare partyIdKey (.ofNumber (.ofInt (-7)))]

theorem announcement_of_decode_demo :
    announcement ('\x7b' :: (writtenMembers demoMembers ++ ['\x7d'])) =
      some ⟨-7, 8080, "127.0.0.1".toList, "online".toList⟩ := by
  have hread : ∀ m ∈ demoMembers, m.item.ReadBack 1 := fun m hm =>
    .of_isScalar ((by decide : ∀ m ∈ demoMembers, IsScalar m.item.value) m hm)
  have hdecode := (laidOut_writtenMembers demoMembers).decode (by decide +kernel) (by decide) hread
    (by decide)
  have hpartyId : HasInteger (demoMembers.map Member.entry) "party_id".toList (-7) :=
    ⟨⟨.ofInt (-7), .tail _ (.tail _ (.head _)), by decide +kernel⟩, by decide, by decide⟩
  have hport : HasInteger (demoMembers.map Member.entry) "port".toList 8080 :=
    ⟨⟨.ofInt 8080, .tail _ (.head _), by decide +kernel⟩, by decide, by decide⟩
  exact (announcement_of_decode hdecode (by decide) (by decide +kernel) hpartyId (by decide) hport
    (by decide)).2 demoMembers (laidOut_writtenMembers _) rfl (by decide +kernel)

/-- Whatever is decoded from the body is registered. -/
def RegistersDecoded (body : List Char) : Prop :=
  ∀ (ms : List (List Char × Value)) (partyId port : ℤ), decode body = some (.object ms) →
    (∀ entry ∈ ms, IsScalar entry.2) → (ms.map Prod.fst).Nodup →
    HasInteger ms "party_id".toList partyId → partyId ≠ 0 →
    HasInteger ms "port".toList port → port ≠ 0 →
    announcement body = some
      { partyId, port
        hostname := orDefault (fieldText ms "hostname".toList) "127.0.0.1".toList
        status := orDefault (fieldText ms "status".toList) "online".toList }

theorem not_registersDecoded_of_ne {body : List Char} {l : List Member}
    (hbody : body = '\x7b' :: (writtenMembers l ++ ['\x7d'])) (hvalid : Utf8.valid body)
    (hscalar : ∀ m ∈ l, IsScalar m.item.value) (hkeys : ((l.map Member.entry).map Prod.fst).Nodup)
    (hpartyId : ("party_id".toList, .number (.ofInt 7)) ∈ l.map Member.entry)
    (hport : ("port".toList, .number (.ofInt 8)) ∈ l.map Member.entry)
    (hne : announcement body ≠ some
      ⟨7, 8, orDefault (fieldText (l.map Member.entry) "hostname".toList) "127.0.0.1".toList,
        orDefault (fieldText (l.map Member.entry) "status".toList) "online".toList⟩) :
    ¬RegistersDecoded body := by
  intro h
  have hl : l ≠ [] := by
    rintro rfl
    cases hport
  have hread : ∀ m ∈ l, m.item.ReadBack 1 := fun m hm => .of_isScalar (hscalar m hm)
  have hlength : 1 ≤ body.length := by simp [hbody]
  have hdecode := LaidOut.decode (hbody ▸ laidOut_writtenMembers l) hvalid hl hread hlength
  exact hne (h _ 7 8 hdecode (List.forall_mem_map.mpr hscalar) hkeys
    ⟨⟨_, hpartyId, by decide +kernel⟩, by decide, by decide⟩ (by decide)
    ⟨⟨_, hport, by decide +kernel⟩, by decide, by decide⟩ (by decide))

/-- A host that is named like a field, a host with a quotation mark, and a key with an escape. -/
theorem not_registersDecoded :
    ¬RegistersDecoded "\x7b\"hostname\":\"port\",\"party_id\":7,\"port\":8\x7d".toList ∧
    ¬RegistersDecoded "\x7b\"hostname\":\"a\\\"b\",\"party_id\":7,\"port\":8\x7d".toList ∧
    ¬RegistersDecoded "\x7b\"p\\u006frt\":8,\"party_id\":7\x7d".toList := by
  let id : Member := .bare partyIdKey (.ofNumber (.ofInt 7))
  let port : Member := .bare portKey (.ofNumber (.ofInt 8))
  refine ⟨?_, ?_, ?_⟩
  · exact not_registersDecoded_of_ne (l := [.bare hostnameKey (.ofLiteral portKey), id, port])
      (by decide +kernel) (by decide +kernel) (by decide) (by decide +kernel)
      (.tail _ (.head _)) (.tail _ (.tail _ (.head _))) (by decide +kernel)
  · exact not_registersDecoded_of_ne (l := [.bare hostnameKey (.ofLiteral escaped), id, port])
      (by decide +kernel) (by decide +kernel) (by decide) (by decide +kernel)
      (.tail _ (.head _)) (.tail _ (.tail _ (.head _))) (by decide +kernel)
  · exact not_registersDecoded_of_ne (l := [.bare escapedPort (.ofNumber (.ofInt 8)), id])
      (by decide +kernel) (by decide +kernel) (by decide) (by decide +kernel)
      (.tail _ (.head _)) (.head _) (by decide +kernel)

end Freehold.Discovery
