import Freehold.Forwarder.Connection
import Freehold.Foundation.JsonLayout

/-!
# The JSON of a proof header (`forwarder.cpp`)

`json_get_string` and `json_get_string_array` look for a key as a text between quotation marks, and
for the next marks behind it. A header that is written without escapes is read as a JSON decoder
reads it.

## Main results

* `quoted_writtenItems` — the loop over an array takes its strings in order.
* `proofHeader_of_decode` — the three fields are what the header says.
-/

namespace Freehold.Forwarder

open Freehold.Server
open Json (Literal Item Member LaidOut Word Blank writtenItems writtenMembers)

/-! ## Searching -/

variable {text json key arr : List UInt8} {R front rest : List Char} {b : UInt8}

theorem after_eq_find (text json : List UInt8) :
    Scanning.after text json = (find text json).map fun found => found.drop text.length := by
  induction json with
  | nil =>
    cases text with
    | nil => rfl
    | cons b text => rfl
  | cons b json ih =>
    rw [Scanning.after_cons, find]
    by_cases h : text <+: b :: json
    · rw [if_pos h, if_pos (List.isPrefixOf_iff_prefix.mpr h)]
      rfl
    · rw [if_neg h, if_neg fun hbegins => h (List.isPrefixOf_iff_prefix.mp hbegins), ih]

theorem prefix_of_find {found : List UInt8} (h : find text json = some found) : text <+: found := by
  induction json with
  | nil =>
    obtain ⟨rfl, -⟩ := Option.ite_none_right_eq_some.mp h
    exact List.nil_prefix
  | cons b json ih =>
    rw [find] at h
    split_ifs at h with hbegins
    · cases h
      exact List.isPrefixOf_iff_prefix.mp hbegins
    · exact ih h

theorem jsonGetString_eq (json key : List UInt8) : jsonGetString json key =
    ((((Scanning.after (search key) json).bind (Scanning.after (ascii [':']))).bind
      (Scanning.after [quote])).bind (upTo quote)).getD [] := by
  simp only [after_eq_find, Option.bind_assoc, Option.bind_map, Function.comp_def]
  rfl

theorem exists_after (h : Scanning.after (chars key) (chars json) = some R) :
    ∃ r, Scanning.after key json = some r ∧ chars r = R := by
  rw [chars, chars, Scanning.after_map ofNat_byte_injective] at h
  exact Option.map_eq_some_iff.mp h

/-- The text before a byte, and what is behind it. -/
theorem exists_upTo (h : chars text = front ++ Char.ofNat b.toNat :: rest)
    (hfront : Char.ofNat b.toNat ∉ front) :
    ∃ v r, upTo b text = some v ∧ text = v ++ b :: r ∧ chars v = front ∧ chars r = rest := by
  obtain ⟨v, r', rfl, hv, hr'⟩ := List.map_eq_append_iff.mp h
  obtain ⟨c, r, rfl, hc, hr⟩ := List.map_eq_cons_iff.mp hr'
  obtain rfl := ofNat_byte_injective hc
  have hbefore : ∀ d ∈ v, d ≠ c := by
    rintro d hd rfl
    exact hfront (hv ▸ List.mem_map_of_mem hd)
  refine ⟨v, r, ?_, rfl, hv, hr⟩
  rw [upTo, if_pos (by simp), List.takeWhile_append_of_pos, List.takeWhile_cons_of_neg (by simp),
    List.append_nil]
  simpa using hbefore

/-! ## Hexadecimal strings -/

/-- Hexadecimal digits. -/
def IsHex (s : List Char) : Prop := ∀ c ∈ s, (Json.hexDigit c).isSome

instance (s : List Char) : Decidable (IsHex s) := List.decidableBAll _ s

theorem IsHex.notMem {s : List Char} (h : IsHex s) {c : Char} (hc : Json.hexDigit c = none) :
    c ∉ s := fun hmem => by
  have hsome := h c hmem
  rw [hc] at hsome
  cases hsome

/-- A string of such digits that is written as it is. -/
def HexString (i : Item) : Prop :=
  ∃ s, i.value = .string s ∧ i.token = '"' :: (s ++ ['"']) ∧ IsHex s

theorem HexString.close_notMem {l : List Item} (hl : ∀ i ∈ l, HexString i) :
    ']' ∉ writtenItems l := by
  intro hmem
  rcases Json.mem_writtenItems hmem with hcomma | ⟨i, hi, hmem⟩
  · cases hcomma
  · obtain ⟨s, -, htoken, hs⟩ := hl i hi
    have hbefore := i.blank_before.notMem (c := ']') rfl
    have hbehind := i.blank_behind.notMem (c := ']') rfl
    have hdigits := hs.notMem (c := ']') rfl
    simp [Item.written, htoken, hbefore, hbehind, hdigits] at hmem

/-! ## The loop over an array -/

theorem quoted_eq (arr : List UInt8) : quoted arr =
    match Scanning.after [quote] arr with
    | none => []
    | some behind =>
      match upTo quote behind with
      | none => []
      | some text => text :: quoted (behind.drop (text.length + 1)) := by
  rw [quoted, after_eq_find]
  cases find [quote] arr with
  | none => rfl
  | some opening =>
    simp only [Option.map_some, List.length_singleton, List.drop_drop]
    cases upTo quote (opening.drop 1) with
    | none => rfl
    | some text =>
      dsimp only
      rw [Nat.add_assoc]

theorem quoted_eq_nil (h : '"' ∉ chars arr) : quoted arr = [] := by
  have hafter : Scanning.after [quote] arr = none := by
    rw [Scanning.after_singleton_eq_none_iff]
    exact fun hmem => h (List.mem_map_of_mem (f := fun b => Char.ofNat b.toNat) hmem)
  rw [quoted_eq, hafter]

/-- One string, and what is behind it. -/
theorem exists_quoted {lead raw : List Char} (h : chars arr = lead ++ '"' :: (raw ++ '"' :: rest))
    (hlead : '"' ∉ lead) (hraw : '"' ∉ raw) :
    ∃ v r, quoted arr = v :: quoted r ∧ chars v = raw ∧ chars r = rest := by
  have hfirst : Scanning.after (chars [quote]) (chars arr) = some (raw ++ '"' :: rest) := by
    rw [h]
    exact Scanning.after_singleton hlead
  obtain ⟨behind, hbehind, hchars⟩ := exists_after hfirst
  obtain ⟨v, r, hv, rfl, hvchars, hrchars⟩ := exists_upTo (b := quote) hchars hraw
  refine ⟨v, r, ?_, hvchars, hrchars⟩
  rw [quoted_eq, hbehind]
  simp only [hv]
  have hdrop : (v ++ quote :: r).drop (v.length + 1) = r := by
    simp
  rw [hdrop]

/-- The strings of an array. -/
theorem quoted_writtenItems {l : List Item} (hl : ∀ i ∈ l, HexString i) {lead : List Char}
    (hlead : '"' ∉ lead) (h : chars arr = lead ++ writtenItems l) :
    (quoted arr).map (fun v => .string (chars v)) = l.map Item.value := by
  induction l generalizing arr lead with
  | nil =>
    have hnone : '"' ∉ chars arr := by
      rw [h]
      simpa [writtenItems] using hlead
    rw [quoted_eq_nil hnone]
    rfl
  | cons i l ih =>
    obtain ⟨s, hvalue, htoken, hhex⟩ := hl i List.mem_cons_self
    have hs := hhex.notMem (c := '"') rfl
    have hmore : ∀ i' ∈ l, HexString i' := fun i' hi' => hl i' (List.mem_cons_of_mem i hi')
    have hbefore : '"' ∉ lead ++ i.before := by
      rw [List.mem_append, not_or]
      exact ⟨hlead, i.blank_before.notMem rfl⟩
    by_cases hnil : l = []
    · subst hnil
      have hsplit : chars arr = lead ++ i.before ++ '"' :: (s ++ '"' :: i.behind) := by
        rw [h, Json.writtenItems_singleton, Item.written, htoken]
        simp
      obtain ⟨v, r, hquoted, rfl, hr⟩ := exists_quoted hsplit hbefore hs
      have hnone : '"' ∉ chars r := hr ▸ i.blank_behind.notMem rfl
      rw [hquoted, quoted_eq_nil hnone, List.map_singleton, List.map_singleton, hvalue]
    · have hsplit : chars arr =
          lead ++ i.before ++ '"' :: (s ++ '"' :: (i.behind ++ ',' :: writtenItems l)) := by
        rw [h, Json.writtenItems_cons i hnil, Item.written, htoken]
        simp
      obtain ⟨v, r, hquoted, rfl, hr⟩ := exists_quoted hsplit hbefore hs
      have hlead' : '"' ∉ i.behind ++ [','] := by
        rw [List.mem_append, not_or]
        exact ⟨i.blank_behind.notMem rfl, by decide⟩
      have hr' : chars r = i.behind ++ [','] ++ writtenItems l := by rw [hr, List.append_cons]
      have hrest := ih hmore hlead' hr'
      rw [hquoted, List.map_cons, List.map_cons, hvalue, hrest]

/-! ## The fields -/

/-- A value of a proof header. -/
inductive HexValue : Json.Value → Prop where
  | string {s} (hs : IsHex s) : HexValue (.string s)
  | array {vs} (hvs : ∀ v ∈ vs, ∃ s, v = .string s ∧ IsHex s) : HexValue (.array vs)

/-- A string without a backslash. -/
theorem token_of_string {i : Item} {s : List Char} (hvalue : i.value = .string s)
    (hslash : '\\' ∉ i.token) : i.token = '"' :: (s ++ ['"']) ∧ '"' ∉ s := by
  have hspells := i.spells
  rw [hvalue] at hspells
  obtain ⟨l, rfl, htoken⟩ := hspells.string
  have hraw : '\\' ∉ l.raw := fun hmem => hslash (by simp [htoken, hmem])
  obtain ⟨htext, hquote⟩ := l.text_eq_raw hraw
  rw [htext]
  exact ⟨htoken, hquote⟩

/-- What is between the brackets of an array. -/
theorem exists_strings {i : Item} {vs : List Json.Value} (hvalue : i.value = .array vs)
    (hvs : ∀ v ∈ vs, ∃ s, v = .string s ∧ IsHex s) (hslash : '\\' ∉ i.token) :
    ∃ inner, i.token = '[' :: (inner ++ [']']) ∧ (vs = [] ∧ Blank inner ∨
      ∃ l, (∀ j ∈ l, HexString j) ∧ l.map Item.value = vs ∧ inner = writtenItems l) := by
  have hspells := i.spells
  rw [hvalue] at hspells
  obtain ⟨inner, htoken, ⟨hnil, hblank⟩ | ⟨l, -, rfl, rfl⟩⟩ := hspells.array
  · exact ⟨inner, htoken, .inl ⟨hnil, hblank⟩⟩
  · refine ⟨_, htoken, .inr ⟨l, ?_, rfl, rfl⟩⟩
    intro j hj
    obtain ⟨s, hs, hhex⟩ := hvs j.value (List.mem_map_of_mem hj)
    have hslash' : '\\' ∉ j.token := by
      intro hmem
      have hwritten : '\\' ∈ j.written := by simp [Item.written, hmem]
      have hinner := (Item.written_infix hj).subset hwritten
      exact hslash (by simp [htoken, hinner])
    exact ⟨s, hs, (token_of_string hs hslash').1, hhex⟩

theorem HexString.not_occurs {name : List Char} {i : Item} (h : HexString i)
    (hname : Word name) (hhex : ¬IsHex name) : ¬Scanning.quoted '"' name <:+: i.written := by
  obtain ⟨s, -, htoken, hs⟩ := h
  rw [Item.written, htoken]
  intro hoccurs
  obtain rfl := Scanning.quoted_infix_quoted (hname.notMem rfl) (hs.notMem rfl)
    (i.blank_before.notMem rfl) (i.blank_behind.notMem rfl) hoccurs
  exact hhex hs

/-- A name that is not hexadecimal is not between the quotation marks of a value. -/
theorem not_quoted_infix_item {name : List Char} {i : Item} (hname : Word name)
    (hhex : ¬IsHex name) (hvalue : HexValue i.value) (hslash : '\\' ∉ i.token) :
    ¬Scanning.quoted '"' name <:+: i.written := by
  generalize hv : i.value = v at hvalue
  cases hvalue with
  | string hs =>
    have hstring : HexString i := ⟨_, hv, (token_of_string hv hslash).1, hs⟩
    exact hstring.not_occurs hname hhex
  | array hvs =>
    obtain ⟨inner, htoken, hinner⟩ := exists_strings hv hvs hslash
    have hopen := hname.notMem_quoted (c := '[') rfl (by decide)
    have hclose := hname.notMem_quoted (c := ']') rfl (by decide)
    have hwritten : i.written = i.before ++ '[' :: (inner ++ ']' :: i.behind) := by
      rw [Item.written, htoken]
      simp
    rw [hwritten, Scanning.infix_around_iff hopen, Scanning.infix_around_iff hclose]
    rintro (hoccurs | hoccurs | hoccurs)
    · exact Json.not_quoted_infix_blank i.blank_before hoccurs
    · rcases hinner with ⟨-, hblank⟩ | ⟨l, hl, -, rfl⟩
      · exact Json.not_quoted_infix_blank hblank hoccurs
      · obtain ⟨j, hj, hoccurs⟩ := (Json.quoted_infix_writtenItems hname).mp hoccurs
        exact (hl j hj).not_occurs hname hhex hoccurs
    · exact Json.not_quoted_infix_blank i.blank_behind hoccurs

theorem not_quoted_infix_member {name : List Char} {m : Member} (hname : Word name)
    (hhex : ¬IsHex name) (hvalue : HexValue m.item.value) (hslash : '\\' ∉ m.written)
    (hkey : m.key.text ≠ name) : ¬Scanning.quoted '"' name <:+: m.written := by
  have hcolon := hname.notMem_quoted (c := ':') rfl (by decide)
  have hraw : '\\' ∉ m.key.raw := fun hmem => hslash (by simp [Member.written, hmem])
  have htoken : '\\' ∉ m.item.token := fun hmem =>
    hslash (by simp [Member.written, Item.written, hmem])
  obtain ⟨htext, hquote⟩ := m.key.text_eq_raw hraw
  have hwritten : m.written =
      [] ++ (Scanning.quoted '"' m.key.raw ++ m.behind) ++ ':' :: m.item.written := by
    simp [Member.written, Scanning.quoted]
  rw [hwritten, Scanning.infix_around_iff hcolon]
  rintro (hoccurs | hoccurs)
  · exact hkey (htext.trans (Scanning.quoted_infix_quoted (hname.notMem rfl) hquote
      List.not_mem_nil (m.blank_behind.notMem rfl) hoccurs))
  · exact not_quoted_infix_item hname hhex hvalue htoken hoccurs

/-! ## A header -/

/-- A header without escapes is laid out as members with hexadecimal values. -/
structure PlainHeader (text : List UInt8) (l : List Member) : Prop where
  laidOut : LaidOut (chars text) l
  plain : ∀ m ∈ l, '\\' ∉ m.written
  hex : ∀ m ∈ l, HexValue m.item.value

/-- What is found behind a key. -/
theorem PlainHeader.exists_after {l : List Member} (h : PlainHeader text l) {name : List UInt8}
    (hname : Word (chars name)) (hhex : ¬IsHex (chars name)) {v : Json.Value}
    (hfield : ∀ v', (chars name, v') ∈ l.map Member.entry ↔ v' = v) :
    ∃ (m : Member) (r : List UInt8) (e : Char) (tail : List Char), m ∈ l ∧ m.item.value = v ∧
      Scanning.after (search name) text = some r ∧
      chars r = m.behind ++ ':' :: (m.item.written ++ e :: tail) := by
  obtain ⟨m₀, hm₀, hentry⟩ := List.mem_map.mp ((hfield v).mpr rfl)
  obtain ⟨front, m, back, rfl, hkey, hfront⟩ :=
    Json.exists_append_cons ⟨m₀, hm₀, congrArg Prod.fst hentry⟩
  have hm : m ∈ front ++ m :: back := by simp
  have hvalue : m.item.value = v := by
    refine (hfield _).mp (List.mem_map.mpr ⟨m, hm, ?_⟩)
    rw [Member.entry, hkey]
  have hbefore : ∀ m' ∈ front, ¬Scanning.quoted '"' (chars name) <:+: m'.written := by
    intro m' hm'
    have hmem : m' ∈ front ++ m :: back := List.mem_append_left _ hm'
    exact not_quoted_infix_member hname hhex (h.hex m' hmem) (h.plain m' hmem) (hfront m' hm')
  have hraw : m.key.raw = chars name := by
    have hslash : '\\' ∉ m.key.raw := fun hmem => h.plain m hm (by simp [Member.written, hmem])
    rw [← (m.key.text_eq_raw hslash).1, hkey]
  obtain ⟨lead, trail, hlead, -, htext⟩ := h.laidOut
  obtain ⟨e, tail, -, hafter⟩ := Json.exists_after_key hname hlead hbefore hraw back trail
  have hsearch : chars (search name) = Scanning.quoted '"' (chars name) := by
    simp [chars, search, quote, Scanning.quoted]
  rw [← htext, ← hsearch] at hafter
  obtain ⟨r, hr, hchars⟩ := Forwarder.exists_after hafter
  exact ⟨m, r, e, tail, hm, hvalue, hr, hchars⟩

theorem PlainHeader.jsonGetString {l : List Member} (h : PlainHeader text l) {name s : List UInt8}
    (hname : Word (chars name)) (hhex : ¬IsHex (chars name))
    (hfield : ∀ v, (chars name, v) ∈ l.map Member.entry ↔ v = .string (chars s)) :
    jsonGetString text name = s := by
  obtain ⟨m, r, e, tail, hm, hvalue, hr, hchars⟩ := h.exists_after hname hhex hfield
  have hslash : '\\' ∉ m.item.token := fun hmem =>
    h.plain m hm (by simp [Member.written, Item.written, hmem])
  obtain ⟨htoken, hs⟩ := token_of_string hvalue hslash
  have hcolon : Scanning.after (chars (ascii [':'])) (chars r) =
      some (m.item.written ++ e :: tail) := by
    rw [hchars]
    exact Scanning.after_singleton (m.blank_behind.notMem rfl)
  obtain ⟨r₂, hr₂, hchars₂⟩ := Forwarder.exists_after hcolon
  have hquote : Scanning.after (chars [quote]) (chars r₂) =
      some (chars s ++ '"' :: (m.item.behind ++ e :: tail)) := by
    have hwritten : m.item.written ++ e :: tail =
        m.item.before ++ '"' :: (chars s ++ '"' :: (m.item.behind ++ e :: tail)) := by
      simp [Item.written, htoken]
    rw [hchars₂, hwritten]
    exact Scanning.after_singleton (m.item.blank_before.notMem rfl)
  obtain ⟨r₃, hr₃, hchars₃⟩ := Forwarder.exists_after hquote
  obtain ⟨v, -, hv, -, hvs, -⟩ := exists_upTo (b := quote) hchars₃ hs
  rw [jsonGetString_eq, hr, Option.bind_some, hr₂, Option.bind_some, hr₃, Option.bind_some, hv]
  exact chars_injective hvs

/-- The array behind a key. -/
theorem jsonGetStringArray_eq {name r : List UInt8} (h : Scanning.after (search name) text = some r)
    (hname : '[' ∉ chars name) : jsonGetStringArray text name =
      (((Scanning.after (ascii ['[']) r).bind (upTo 93)).map quoted).getD [] := by
  obtain ⟨found, hfound, rfl⟩ := Option.map_eq_some_iff.mp (after_eq_find _ _ ▸ h)
  obtain ⟨rest, rfl⟩ := prefix_of_find hfound
  have hopen : (91 : UInt8) ∉ search name := by
    intro hmem
    rcases List.mem_append.mp hmem with hmem | hmem
    · rcases List.mem_cons.mp hmem with hquote | hmem
      · cases hquote
      · exact hname (List.mem_map_of_mem (f := fun b => Char.ofNat b.toNat) hmem)
    · cases List.mem_singleton.mp hmem
  have hskip : Scanning.after (ascii ['[']) (search name ++ rest) =
      Scanning.after (ascii ['[']) rest :=
    Scanning.after_append_left_of_head rfl hopen
  rw [List.drop_left, ← hskip, jsonGetStringArray, after_eq_find, hfound, Option.bind_eq_bind,
    Option.bind_some]
  cases find (ascii ['[']) (search name ++ rest) with
  | none => rfl
  | some bracket =>
    rw [Option.map_some, Option.bind_some, Option.map_eq_bind]
    rfl

theorem PlainHeader.jsonGetStringArray {l : List Member} (h : PlainHeader text l)
    {name : List UInt8} {items : List (List UInt8)}
    (hname : Word (chars name)) (hhex : ¬IsHex (chars name))
    (hfield : ∀ v, (chars name, v) ∈ l.map Member.entry ↔
      v = .array (items.map fun s => .string (chars s))) :
    jsonGetStringArray text name = items := by
  obtain ⟨m, r, e, tail, hm, hvalue, hr, hchars⟩ := h.exists_after hname hhex hfield
  have hslash : '\\' ∉ m.item.token := fun hmem =>
    h.plain m hm (by simp [Member.written, Item.written, hmem])
  have hvs : ∀ v ∈ items.map fun s => Json.Value.string (chars s),
      ∃ s, v = .string s ∧ IsHex s := by
    have hhexValue := h.hex m hm
    rw [hvalue] at hhexValue
    cases hhexValue with
    | array hvs => exact hvs
  obtain ⟨inner, htoken, hinner⟩ := exists_strings hvalue hvs hslash
  have hclose : ']' ∉ inner := by
    rcases hinner with ⟨-, hblank⟩ | ⟨l, hl, -, rfl⟩
    · exact hblank.notMem rfl
    · exact HexString.close_notMem hl
  have hopen : Scanning.after (chars (ascii ['['])) (chars r) =
      some (inner ++ ']' :: (m.item.behind ++ e :: tail)) := by
    have hbefore : '[' ∉ m.behind ++ ':' :: m.item.before := by
      rw [List.mem_append, List.mem_cons, not_or, not_or]
      exact ⟨m.blank_behind.notMem rfl, by decide, m.item.blank_before.notMem rfl⟩
    have hsplit : chars r =
        m.behind ++ ':' :: m.item.before ++ '[' :: (inner ++ ']' ::
          (m.item.behind ++ e :: tail)) := by
      rw [hchars, Item.written, htoken]
      simp
    rw [hsplit]
    exact Scanning.after_singleton hbefore
  obtain ⟨r₂, hr₂, hchars₂⟩ := Forwarder.exists_after hopen
  obtain ⟨arr, -, harr, -, hinnerChars, -⟩ := exists_upTo (b := 93) hchars₂ hclose
  rw [jsonGetStringArray_eq hr (hname.notMem rfl), hr₂, Option.bind_some, harr]
  show quoted arr = items
  have hitems : (quoted arr).map (fun v => Json.Value.string (chars v)) =
      items.map fun s => .string (chars s) := by
    rcases hinner with ⟨hnil, hblank⟩ | ⟨l, hl, hvalues, rfl⟩
    · have hnone : '"' ∉ chars arr := by
        rw [hinnerChars]
        exact hblank.notMem rfl
      rw [hnil, quoted_eq_nil hnone]
      rfl
    · rw [← hvalues]
      exact quoted_writtenItems hl List.not_mem_nil hinnerChars
  exact List.map_injective_iff.mpr
    (fun _ _ heq => chars_injective (Json.Value.string.inj heq)) hitems

/-! ## What the forwarder reads -/

/-- The fields of a proof header, as JSON. -/
def headerFields (circuitHash signature : List UInt8) (commitments : List (List UInt8)) :
    List (List Char × Json.Value) :=
  [("circuit_hash".toList, .string (chars circuitHash)),
    ("signature".toList, .string (chars signature)),
    ("commitments".toList, .array (commitments.map fun c => .string (chars c)))]

theorem mem_headerFields_iff {circuitHash signature : List UInt8} {commitments : List (List UInt8)}
    {v : Json.Value} :
    (("circuit_hash".toList, v) ∈ headerFields circuitHash signature commitments ↔
      v = .string (chars circuitHash)) ∧
    (("signature".toList, v) ∈ headerFields circuitHash signature commitments ↔
      v = .string (chars signature)) ∧
    (("commitments".toList, v) ∈ headerFields circuitHash signature commitments ↔
      v = .array (commitments.map fun c => .string (chars c))) := by
  have hne : "circuit_hash".toList ≠ "signature".toList ∧
      "circuit_hash".toList ≠ "commitments".toList ∧
      "signature".toList ≠ "commitments".toList := by decide +kernel
  simp only [headerFields, List.mem_cons, Prod.mk.injEq, List.not_mem_nil, or_false]
  grind

/-- A header that is decoded as the three fields and has no escapes is read as it is decoded. -/
theorem proofHeader_of_decode {ms : List (List Char × Json.Value)}
    {circuitHash signature : List UInt8} {commitments : List (List UInt8)}
    (hdecode : Json.decode (chars text) = some (.object ms))
    (hfields : ms.Perm (headerFields circuitHash signature commitments))
    (hcircuitHash : IsHex (chars circuitHash)) (hsignature : IsHex (chars signature))
    (hcommitments : ∀ c ∈ commitments, IsHex (chars c)) (hplain : '\\' ∉ chars text) :
    ProofHeader.parse text = { circuitHash, signatureHex := signature, commitments } := by
  have hne : ms ≠ [] := by
    rintro rfl
    exact List.cons_ne_nil _ _ hfields.nil_eq.symm
  obtain ⟨l, hlaid, rfl⟩ := Json.exists_layout_of_decode hdecode hne
  have hheader : PlainHeader text l := by
    refine ⟨hlaid, fun m hm hmem => hplain ((hlaid.written_infix hm).subset hmem), ?_⟩
    intro m hm
    have hmem := hfields.mem_iff.mp (List.mem_map_of_mem (f := Member.entry) hm)
    generalize hentry : m.entry = entry at hmem
    have hvalue : m.item.value = entry.2 := congrArg Prod.snd hentry
    rw [hvalue]
    rcases hmem with _ | ⟨_, _ | ⟨_, _ | ⟨_, ⟨⟩⟩⟩⟩
    · exact .string hcircuitHash
    · exact .string hsignature
    · apply HexValue.array
      intro v hv
      obtain ⟨c, hc, rfl⟩ := List.mem_map.mp hv
      exact ⟨_, rfl, hcommitments c hc⟩
  have hnames : chars (ascii "circuit_hash".toList) = "circuit_hash".toList ∧
      chars (ascii "signature".toList) = "signature".toList ∧
      chars (ascii "commitments".toList) = "commitments".toList := by decide +kernel
  have hfirst : jsonGetString text (ascii "circuit_hash".toList) = circuitHash := by
    refine hheader.jsonGetString (by decide +kernel) (by decide +kernel) fun v => ?_
    rw [hnames.1, hfields.mem_iff]
    exact mem_headerFields_iff.1
  have hsecond : jsonGetString text (ascii "signature".toList) = signature := by
    refine hheader.jsonGetString (by decide +kernel) (by decide +kernel) fun v => ?_
    rw [hnames.2.1, hfields.mem_iff]
    exact mem_headerFields_iff.2.1
  have hthird : jsonGetStringArray text (ascii "commitments".toList) = commitments := by
    refine hheader.jsonGetStringArray (by decide +kernel) (by decide +kernel) fun v => ?_
    rw [hnames.2.2, hfields.mem_iff]
    exact mem_headerFields_iff.2.2
  rw [ProofHeader.parse, hfirst, hsecond, hthird]

def circuitHashKey : Literal := .ofUnescaped "circuit_hash".toList (by decide +kernel)
def signatureKey : Literal := .ofUnescaped "signature".toList (by decide +kernel)
def commitmentsKey : Literal := .ofUnescaped "commitments".toList (by decide +kernel)

/-- `0b`. -/
def demoDigits : Item := .ofLiteral (.ofUnescaped ['0', 'b'] (by decide))

/-- `a`, as an escape. -/
def escapedDigit : Item :=
  .ofLiteral ⟨'\\' :: "u0061".toList, ['a'], ⟨[], by decide +kernel⟩, by decide +kernel⟩

def demoCommitments : List Item :=
  [demoDigits, { Item.ofLiteral (.ofUnescaped [] nofun) with
    before := ['\n', '\t'], behind := [' ']
    blank_before := by decide, blank_behind := Json.blank_space }]

theorem readBack_demoCommitments : ∀ i ∈ demoCommitments, i.ReadBack 1 := by
  intro i hi
  have hscalar : ∀ i ∈ demoCommitments, Json.IsScalar i.value := by decide
  exact .of_isScalar (hscalar i hi)

def demoArray : Item := .ofItems demoCommitments (by decide) readBack_demoCommitments

theorem readBack_demoArray : demoArray.ReadBack 4 :=
  .ofItems (by decide) readBack_demoCommitments

/-- The members from the last to the first. -/
def reversedMembers : List Member :=
  [⟨['\n'], commitmentsKey, [' '], { demoArray with
      before := ['\r', '\n'], behind := ['\n']
      blank_before := Json.blank_crlf, blank_behind := by decide }, by decide, Json.blank_space⟩,
    .bare signatureKey demoDigits, .bare circuitHashKey (.ofLiteral (.ofUnescaped [] nofun))]

def reversedHeader : List UInt8 :=
  ascii ("\x7b\n\"commitments\" :\r\n[\"0b\",\n\t\"\" ]\n," ++
    "\"signature\":\"0b\",\"circuit_hash\":\"\"\x7d").toList

theorem proofHeader_of_decode_demo :
    ProofHeader.parse reversedHeader = ⟨[], [48, 98], [[48, 98], []]⟩ := by
  have hlaid : LaidOut (chars reversedHeader) reversedMembers :=
    ⟨[], [], nofun, nofun, by decide +kernel⟩
  have hread : ∀ m ∈ reversedMembers, m.item.ReadBack 4 := by
    rintro m (_ | ⟨_, _ | ⟨_, _ | ⟨_, ⟨⟩⟩⟩⟩)
    · exact ⟨readBack_demoArray.head, readBack_demoArray.reads⟩
    · exact .mono (.of_isScalar trivial) (by decide)
    · exact .mono (.of_isScalar trivial) (by decide)
  have hdecode := hlaid.decode (by decide +kernel) (by decide) hread (by decide +kernel)
  have hentries : reversedMembers.map Member.entry =
      (headerFields [] [48, 98] [[48, 98], []]).reverse := rfl
  exact proofHeader_of_decode hdecode (hentries ▸ List.reverse_perm _)
    (by decide) (by decide) (by decide) (by decide +kernel)

/-- What is decoded from the header is what the forwarder reads. -/
def ParsesDecoded (text : List UInt8) : Prop :=
  ∀ (ms : List (List Char × Json.Value)) (circuitHash signature : List UInt8)
    (commitments : List (List UInt8)), Json.decode (chars text) = some (.object ms) →
    ms.Perm (headerFields circuitHash signature commitments) →
    IsHex (chars circuitHash) → IsHex (chars signature) → (∀ c ∈ commitments, IsHex (chars c)) →
    ProofHeader.parse text = { circuitHash, signatureHex := signature, commitments }

def escapedMembers : List Member :=
  [.bare circuitHashKey escapedDigit, .bare signatureKey demoDigits,
    .bare commitmentsKey demoArray]

def escapedHeader : List UInt8 :=
  ascii ("\x7b\"circuit_hash\":\"\\u0061\",\"signature\":\"0b\"," ++
    "\"commitments\":[\"0b\",\n\t\"\" ]\x7d").toList

/-- A digit that is written as an escape. -/
theorem not_parsesDecoded : ¬ParsesDecoded escapedHeader := by
  intro h
  have hread : ∀ m ∈ escapedMembers, m.item.ReadBack 4 := by
    rintro m (_ | ⟨_, _ | ⟨_, _ | ⟨_, ⟨⟩⟩⟩⟩)
    · exact .mono (.of_isScalar trivial) (by decide)
    · exact .mono (.of_isScalar trivial) (by decide)
    · exact readBack_demoArray
  have hlaid : LaidOut (chars escapedHeader) escapedMembers :=
    ⟨[], [], nofun, nofun, by decide +kernel⟩
  have hdecode := hlaid.decode (by decide +kernel) (by decide) hread (by decide +kernel)
  have hentries : escapedMembers.map Member.entry =
      headerFields [97] [48, 98] [[48, 98], []] := rfl
  have hparse := h _ [97] [48, 98] [[48, 98], []] hdecode (hentries ▸ .refl _)
    (by decide) (by decide) (by decide)
  exact absurd (congrArg ProofHeader.circuitHash hparse) (by decide +kernel)

end Freehold.Forwarder
