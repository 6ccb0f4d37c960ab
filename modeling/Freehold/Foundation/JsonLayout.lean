import Freehold.Foundation.JsonSplice
import Freehold.Foundation.Scanning

/-!
# How a JSON text is laid out

What the decoder has read, taken apart: the white space, the strings as they are written, and
the tokens.

## Main results

* `exists_layout_of_decode` — a text that is read as an object is a list of members between braces.
* `LaidOut.decode` — and is read so, if its values are: strings, numbers, and arrays of them.
* `Spells.string`, `Spells.number`, `Spells.array` — how a value of each kind is written.
* `exists_after_key` — where a key is found as a text between quotation marks.
-/

namespace Json

/-- White space. -/
def Blank (text : List Char) : Prop := ∀ c ∈ text, isSpace c

instance (text : List Char) : Decidable (Blank text) := List.decidableBAll _ text

theorem blank_space : Blank [' '] := by decide

theorem blank_newline : Blank ['\n'] := by decide

theorem blank_crlf : Blank ['\r', '\n'] := by decide

/-- A string as it is written between its quotes, and what it stands for. -/
structure Literal where
  raw : List Char
  text : List Char
  closes : ∃ rest, literal (raw ++ '"' :: rest) = some (raw, rest)
  means : unescape raw = some text

/-- A value is written so. -/
def Spells (token : List Char) (v : Value) : Prop :=
  ∃ fuel rest, value fuel (token ++ rest) = some (v, rest)

/-- A value with the white space around it. -/
structure Item where
  before : List Char
  token : List Char
  value : Value
  behind : List Char
  blank_before : Blank before
  blank_behind : Blank behind
  spells : Spells token value

def Item.written (i : Item) : List Char := i.before ++ (i.token ++ i.behind)

structure Member where
  before : List Char
  key : Literal
  behind : List Char
  item : Item
  blank_before : Blank before
  blank_behind : Blank behind

/-- From the opening quote of the key to the comma or the brace. -/
def Member.written (m : Member) : List Char :=
  '"' :: (m.key.raw ++ '"' :: (m.behind ++ ':' :: m.item.written))

def Member.entry (m : Member) : List Char × Value := (m.key.text, m.item.value)

def writtenItems (l : List Item) : List Char := [','].intercalate (l.map Item.written)

def writtenMembers (l : List Member) : List Char :=
  [','].intercalate (l.map fun m => m.before ++ m.written)

/-- A text is laid out as an object with these members. -/
def LaidOut (text : List Char) (l : List Member) : Prop :=
  ∃ lead trail, Blank lead ∧ Blank trail ∧
    text = lead ++ '\x7b' :: (writtenMembers l ++ '\x7d' :: trail)

/-- The integer that a numeral without fraction and exponent stands for. -/
def Number.integer (n : Number) : Option ℤ :=
  match n.text with
  | '-' :: digits =>
    if digits.all Char.isDigit then some (-(Nat.ofDigitChars 10 digits 0)) else none
  | digits => if digits.all Char.isDigit then some (Nat.ofDigitChars 10 digits 0) else none

variable {fuel : ℕ} {text rest token s : List Char} {v : Value} {vs : List Value}
  {ms : List (List Char × Value)}

theorem exists_blank (text : List Char) : ∃ blank, Blank blank ∧ text = blank ++ skipSpaces text :=
  ⟨text.takeWhile isSpace, fun _ hc => List.mem_takeWhile_imp hc,
    List.takeWhile_append_dropWhile.symm⟩

theorem exists_literal (h : string text = some (s, rest)) :
    ∃ l : Literal, l.text = s ∧ text = l.raw ++ '"' :: rest := by
  rw [string, Option.bind_eq_bind, Option.bind_eq_some_iff] at h
  obtain ⟨⟨raw, r⟩, hraw, h⟩ := h
  obtain ⟨decoded, hdecoded, heq⟩ := Option.bind_eq_some_iff.mp h
  cases heq
  obtain rfl := literal_eq_append hraw
  exact ⟨⟨raw, s, ⟨rest, hraw⟩, hdecoded⟩, rfl, rfl⟩

theorem number_inv (h : number text = some (v, rest)) :
    ∃ n : Number, v = .number n ∧ text = n.text ++ rest := by
  rw [number] at h
  split_ifs at h with hn
  cases h
  exact ⟨⟨_, hn⟩, rfl, List.takeWhile_append_dropWhile.symm⟩

theorem exists_quote_of_members (h : members (fuel + 1) text = some (ms, rest)) :
    ∃ t, text = '"' :: t := by
  rw [members.eq_def] at h
  split at h
  · cases h
  · exact ⟨_, rfl⟩
  · cases h

/-- The ways in which a value is read. -/
inductive Reads (fuel : ℕ) : List Char → Value → List Char → Prop where
  | null (rest : List Char) : Reads fuel ('n' :: 'u' :: 'l' :: 'l' :: rest) .null rest
  | true (rest : List Char) : Reads fuel ('t' :: 'r' :: 'u' :: 'e' :: rest) (.bool true) rest
  | false (rest : List Char) :
      Reads fuel ('f' :: 'a' :: 'l' :: 's' :: 'e' :: rest) (.bool false) rest
  | string {t s rest} (h : string t = some (s, rest)) : Reads fuel ('"' :: t) (.string s) rest
  | emptyArray {t rest} (h : skipSpaces t = ']' :: rest) : Reads fuel ('[' :: t) (.array []) rest
  | array {t vs rest} (h : items fuel (skipSpaces t) = some (vs, rest)) :
      Reads fuel ('[' :: t) (.array vs) rest
  | emptyObject {t rest} (h : skipSpaces t = '}' :: rest) : Reads fuel ('{' :: t) (.object []) rest
  | object {t ms rest} (h : members fuel (skipSpaces t) = some (ms, rest)) :
      Reads fuel ('{' :: t) (.object ms) rest
  | number (n : Number) (rest : List Char) : Reads fuel (n.text ++ rest) (.number n) rest

theorem reads_of_value (h : value (fuel + 1) text = some (v, rest)) : Reads fuel text v rest := by
  rw [value.eq_def] at h
  split at h
  case h_1 => cases h
  case h_2 =>
    cases h
    exact .null rest
  case h_3 =>
    cases h
    exact .true rest
  case h_4 =>
    cases h
    exact .false rest
  case h_5 =>
    obtain ⟨⟨s, r⟩, hs, heq⟩ := Option.map_eq_some_iff.mp h
    cases heq
    exact .string hs
  case h_6 fuel' t hfuel =>
    cases hfuel
    split at h
    · next hclose =>
      cases h
      exact .emptyArray hclose
    · obtain ⟨⟨vs, r⟩, hvs, heq⟩ := Option.map_eq_some_iff.mp h
      cases heq
      exact .array hvs
  case h_7 fuel' t hfuel =>
    cases hfuel
    split at h
    · next hclose =>
      cases h
      exact .emptyObject hclose
    · obtain ⟨⟨ms, r⟩, hms, heq⟩ := Option.map_eq_some_iff.mp h
      cases heq
      exact .object hms
  case h_8 =>
    obtain ⟨n, rfl, rfl⟩ := number_inv h
    exact .number n rest

/-! ## What has been read -/

theorem writtenItems_singleton (i : Item) : writtenItems [i] = i.written :=
  List.intercalate_singleton

theorem writtenItems_cons (i : Item) {l : List Item} (hl : l ≠ []) :
    writtenItems (i :: l) = i.written ++ ',' :: writtenItems l := by
  have hne : l.map Item.written ≠ [] := fun h => hl (List.map_eq_nil_iff.mp h)
  rw [writtenItems, List.map_cons, List.intercalate_cons_of_ne_nil hne, List.append_assoc]
  rfl

theorem writtenMembers_singleton (m : Member) : writtenMembers [m] = m.before ++ m.written :=
  List.intercalate_singleton

theorem writtenMembers_cons (m : Member) {l : List Member} (hl : l ≠ []) :
    writtenMembers (m :: l) = m.before ++ m.written ++ ',' :: writtenMembers l := by
  have hne : (l.map fun m => m.before ++ m.written) ≠ [] := fun h => hl (List.map_eq_nil_iff.mp h)
  rw [writtenMembers, List.map_cons, List.intercalate_cons_of_ne_nil hne, List.append_assoc]
  rfl

theorem writtenMembers_append {l l' : List Member} (hl : l ≠ []) (hl' : l' ≠ []) :
    writtenMembers (l ++ l') = writtenMembers l ++ ',' :: writtenMembers l' := by
  induction l with
  | nil => exact absurd rfl hl
  | cons m l ih =>
    by_cases hnil : l = []
    · subst hnil
      rw [List.singleton_append, writtenMembers_cons m hl', writtenMembers_singleton]
    · have hmore : l ++ l' ≠ [] := fun h => hl' (List.append_eq_nil_iff.mp h).2
      rw [List.cons_append, writtenMembers_cons m hmore, writtenMembers_cons m hnil, ih hnil,
        List.append_assoc _ (',' :: _), List.cons_append]

theorem suffix_of_string (h : string text = some (s, rest)) : rest <:+ text := by
  obtain ⟨l, -, rfl⟩ := exists_literal h
  exact ⟨l.raw ++ ['"'], by simp⟩

theorem suffix_of_skipSpaces {c : Char} (h : skipSpaces text = c :: rest) : rest <:+ text := by
  have hsuffix : skipSpaces text <:+ text := List.dropWhile_suffix isSpace
  rw [h] at hsuffix
  exact (List.suffix_cons c rest).trans hsuffix

theorem suffix_skipSpaces (h : rest <:+ skipSpaces text) : rest <:+ text :=
  h.trans (List.dropWhile_suffix isSpace)

/-- What is left is the end of the text. -/
theorem suffix_of_read (fuel : ℕ) :
    (∀ text v rest, value fuel text = some (v, rest) → rest <:+ text) ∧
    (∀ text vs rest, items fuel text = some (vs, rest) → rest <:+ text) ∧
    ∀ text ms rest, members fuel text = some (ms, rest) → rest <:+ text := by
  induction fuel with
  | zero => exact ⟨nofun, nofun, nofun⟩
  | succ fuel ih =>
    obtain ⟨hvalue, hitems, hmembers⟩ := ih
    refine ⟨?_, ?_, ?_⟩
    · intro text v rest h
      cases reads_of_value h with
      | null rest => exact ⟨"null".toList, rfl⟩
      | true rest => exact ⟨"true".toList, rfl⟩
      | false rest => exact ⟨"false".toList, rfl⟩
      | string h => exact (suffix_of_string h).trans (List.suffix_cons _ _)
      | emptyArray h => exact (suffix_of_skipSpaces h).trans (List.suffix_cons _ _)
      | array h => exact (suffix_skipSpaces (hitems _ _ _ h)).trans (List.suffix_cons _ _)
      | emptyObject h => exact (suffix_of_skipSpaces h).trans (List.suffix_cons _ _)
      | object h => exact (suffix_skipSpaces (hmembers _ _ _ h)).trans (List.suffix_cons _ _)
      | number n rest => exact ⟨n.text, rfl⟩
    · intro text vs rest h
      obtain ⟨item, others, rfl⟩ := exists_of_items h
      obtain ⟨r, hr, ⟨r', hcomma, hothers⟩ | ⟨rfl, hclose⟩⟩ := items_succ_iff.mp h
      · have hmore := suffix_skipSpaces (hitems _ _ _ hothers)
        exact (hmore.trans (suffix_of_skipSpaces hcomma)).trans (hvalue _ _ _ hr)
      · exact (suffix_of_skipSpaces hclose).trans (hvalue _ _ _ hr)
    · intro text ms rest h
      obtain ⟨t, rfl⟩ := exists_quote_of_members h
      obtain ⟨key, member, others, rfl⟩ := exists_of_members h
      obtain ⟨r, r', r'', hkey, hcolon, hr, hend⟩ := members_succ_iff.mp h
      have hbehind : r'' <:+ '"' :: t :=
        (((suffix_skipSpaces (hvalue _ _ _ hr)).trans (suffix_of_skipSpaces hcolon)).trans
          (suffix_of_string hkey)).trans (List.suffix_cons _ _)
      rcases hend with ⟨r', hcomma, hothers⟩ | ⟨rfl, hclose⟩
      · have hmore := suffix_skipSpaces (hmembers _ _ _ hothers)
        exact (hmore.trans (suffix_of_skipSpaces hcomma)).trans hbehind
      · exact (suffix_of_skipSpaces hclose).trans hbehind

theorem exists_token (h : value fuel text = some (v, rest)) :
    ∃ token, text = token ++ rest ∧ Spells token v := by
  obtain ⟨token, rfl⟩ := (suffix_of_read fuel).1 _ _ _ h
  exact ⟨token, rfl, fuel, rest, h⟩

theorem exists_item (h : value fuel (skipSpaces text) = some (v, rest)) :
    ∃ i : Item, i.value = v ∧ text = i.written ++ skipSpaces rest := by
  obtain ⟨before, hbefore, htext⟩ := exists_blank text
  obtain ⟨behind, hbehind, hrest⟩ := exists_blank rest
  obtain ⟨token, htoken, hspells⟩ := exists_token h
  refine ⟨⟨before, token, v, behind, hbefore, hbehind, hspells⟩, rfl, ?_⟩
  rw [Item.written, List.append_assoc, List.append_assoc, ← hrest, ← htoken]
  exact htext

/-- The items of an array. -/
theorem exists_items (h : items fuel (skipSpaces text) = some (vs, rest)) :
    ∃ l : List Item, l ≠ [] ∧ l.map Item.value = vs ∧ text = writtenItems l ++ ']' :: rest := by
  induction fuel generalizing text vs with
  | zero => cases h
  | succ fuel ih =>
    obtain ⟨item, others, rfl⟩ := exists_of_items h
    obtain ⟨r, hr, hend⟩ := items_succ_iff.mp h
    obtain ⟨i, rfl, htext⟩ := exists_item hr
    rcases hend with ⟨r', hcomma, hothers⟩ | ⟨rfl, hclose⟩
    · obtain ⟨l, hl, rfl, hr'⟩ := ih hothers
      refine ⟨i :: l, List.cons_ne_nil i l, rfl, ?_⟩
      rw [writtenItems_cons i hl, htext, hcomma, hr', List.append_assoc, List.cons_append]
    · refine ⟨[i], List.cons_ne_nil i [], rfl, ?_⟩
      rw [writtenItems_singleton, htext, hclose]

/-- The members of an object. -/
theorem exists_members (h : members fuel (skipSpaces text) = some (ms, rest)) :
    ∃ l : List Member, l ≠ [] ∧ l.map Member.entry = ms ∧
      text = writtenMembers l ++ '\x7d' :: rest := by
  induction fuel generalizing text ms with
  | zero => cases h
  | succ fuel ih =>
    obtain ⟨t, hquote⟩ := exists_quote_of_members h
    obtain ⟨before, hbefore, htext⟩ := exists_blank text
    rw [hquote] at h htext
    obtain ⟨key, member, others, rfl⟩ := exists_of_members h
    obtain ⟨r, r', r'', hkey, hcolon, hr, hend⟩ := members_succ_iff.mp h
    obtain ⟨k, rfl, rfl⟩ := exists_literal hkey
    obtain ⟨behind, hbehind, hr'⟩ := exists_blank r
    obtain ⟨i, rfl, hr''⟩ := exists_item hr
    have hwritten : text = before ++ Member.written ⟨before, k, behind, i, hbefore, hbehind⟩ ++
        skipSpaces r'' := by
      rw [htext, hr', hcolon, hr'']
      simp [Member.written]
    rcases hend with ⟨t, hcomma, hothers⟩ | ⟨rfl, hclose⟩
    · obtain ⟨l, hl, rfl, ht⟩ := ih hothers
      refine ⟨⟨before, k, behind, i, hbefore, hbehind⟩ :: l, List.cons_ne_nil _ l, rfl, ?_⟩
      rw [writtenMembers_cons _ hl, hwritten, hcomma, ht, List.append_assoc _ (',' :: _),
        List.cons_append]
    · refine ⟨[⟨before, k, behind, i, hbefore, hbehind⟩], List.cons_ne_nil _ [], rfl, ?_⟩
      rw [writtenMembers_singleton, hwritten, hclose]

/-- A text that is read as an object with members. -/
theorem exists_layout_of_decode (h : decode text = some (.object ms)) (hms : ms ≠ []) :
    ∃ l, LaidOut text l ∧ l.map Member.entry = ms := by
  unfold decode at h
  split_ifs at h with hutf
  split at h
  · next v rest hvalue =>
    split_ifs at h with hrest
    cases h
    obtain ⟨lead, hlead, htext⟩ := exists_blank text
    generalize skipSpaces text = t at hvalue htext
    cases reads_of_value hvalue with
    | emptyObject => exact absurd rfl hms
    | object hmembers =>
      obtain ⟨l, -, hl, rfl⟩ := exists_members hmembers
      obtain ⟨trail, htrail, hend⟩ := exists_blank rest
      rw [hrest, List.append_nil] at hend
      exact ⟨l, ⟨lead, trail, hlead, htrail, by rw [htext, hend]⟩, hl⟩
  · cases h

/-! ## How values are written -/

theorem Spells.string (h : Spells token (.string s)) :
    ∃ l : Literal, l.text = s ∧ token = '"' :: (l.raw ++ ['"']) := by
  obtain ⟨_ | fuel, rest, h⟩ := h
  · cases h
  · generalize ht : token ++ rest = t at h
    cases reads_of_value h with
    | string hs =>
      obtain ⟨l, rfl, rfl⟩ := exists_literal hs
      have hsplit : token ++ rest = '"' :: (l.raw ++ ['"']) ++ rest := by simp [ht]
      exact ⟨l, rfl, List.append_cancel_right hsplit⟩

theorem Spells.number {n : Number} (h : Spells token (.number n)) : token = n.text := by
  obtain ⟨_ | fuel, rest, h⟩ := h
  · cases h
  · generalize ht : token ++ rest = t at h
    cases reads_of_value h with
    | number n rest => exact List.append_cancel_right ht

theorem Spells.array (h : Spells token (.array vs)) : ∃ inner, token = '[' :: (inner ++ [']']) ∧
    (vs = [] ∧ Blank inner ∨ ∃ l : List Item, l ≠ [] ∧ l.map Item.value = vs ∧
      inner = writtenItems l) := by
  obtain ⟨_ | fuel, rest, h⟩ := h
  · cases h
  · generalize ht : token ++ rest = t at h
    cases reads_of_value h with
    | @emptyArray t rest hclose =>
      obtain ⟨inner, hinner, htext⟩ := exists_blank t
      have hsplit : token ++ rest = '[' :: (inner ++ [']']) ++ rest := by
        rw [ht, htext, hclose]
        simp
      exact ⟨inner, List.append_cancel_right hsplit, .inl ⟨rfl, hinner⟩⟩
    | array hitems =>
      obtain ⟨l, hl, hvs, rfl⟩ := exists_items hitems
      have hsplit : token ++ rest = '[' :: (writtenItems l ++ [']']) ++ rest := by simp [ht]
      exact ⟨_, List.append_cancel_right hsplit, .inr ⟨l, hl, hvs, rfl⟩⟩

/-- What is written without a backslash stands for itself. -/
theorem Literal.text_eq_raw (l : Literal) (h : '\\' ∉ l.raw) : l.text = l.raw ∧ '"' ∉ l.raw := by
  obtain ⟨rest, hcloses⟩ := l.closes
  have hunescaped := unescaped_of_literal hcloses h
  have hmeans := l.means.symm.trans (unescape_of_unescaped hunescaped)
  exact ⟨Option.some.inj hmeans, fun hquote => (hunescaped _ hquote).2.1 rfl⟩

/-- The first member with a key. -/
theorem exists_append_cons {key : List Char} {l : List Member} (h : ∃ m ∈ l, m.key.text = key) :
    ∃ front m back, l = front ++ m :: back ∧ m.key.text = key ∧
      ∀ m' ∈ front, m'.key.text ≠ key := by
  obtain ⟨m, hfind⟩ := Option.isSome_iff_exists.mp
    (List.find?_isSome.mpr (h.imp fun m hm => ⟨hm.1, decide_eq_true hm.2⟩))
  obtain ⟨hm, front, back, rfl, hfront⟩ := List.find?_eq_some_iff_append.mp hfind
  exact ⟨front, m, back, rfl, of_decide_eq_true hm, fun m' hm' => by simpa using hfront m' hm'⟩

theorem Member.written_infix {l : List Member} {m : Member} (hm : m ∈ l) :
    m.written <:+: writtenMembers l := by
  induction l with
  | nil => cases hm
  | cons m' l ih =>
    by_cases hl : l = []
    · subst hl
      obtain rfl := List.mem_singleton.mp hm
      rw [writtenMembers_singleton]
      exact (List.suffix_append _ _).isInfix
    · rw [writtenMembers_cons m' hl]
      rcases List.mem_cons.mp hm with rfl | hm
      · exact (List.suffix_append _ _).isInfix.trans (List.prefix_append _ _).isInfix
      · exact (ih hm).trans ⟨m'.before ++ m'.written ++ [','], [], by simp⟩

theorem Item.written_infix {l : List Item} {i : Item} (hi : i ∈ l) :
    i.written <:+: writtenItems l := by
  induction l with
  | nil => cases hi
  | cons i' l ih =>
    by_cases hl : l = []
    · subst hl
      obtain rfl := List.mem_singleton.mp hi
      rw [writtenItems_singleton]
    · rw [writtenItems_cons i' hl]
      rcases List.mem_cons.mp hi with rfl | hi
      · exact (List.prefix_append _ _).isInfix
      · exact (ih hi).trans ⟨i'.written ++ [','], [], by simp⟩

theorem mem_writtenItems {l : List Item} {c : Char} (h : c ∈ writtenItems l) :
    c = ',' ∨ ∃ i ∈ l, c ∈ i.written := by
  induction l with
  | nil => cases h
  | cons i l ih =>
    by_cases hl : l = []
    · subst hl
      exact .inr ⟨i, List.mem_cons_self, writtenItems_singleton i ▸ h⟩
    · rw [writtenItems_cons i hl, List.mem_append, List.mem_cons] at h
      rw [List.exists_mem_cons_iff]
      grind

theorem LaidOut.written_infix {l : List Member} (h : LaidOut text l) {m : Member} (hm : m ∈ l) :
    m.written <:+: text := by
  obtain ⟨lead, trail, -, -, rfl⟩ := h
  exact (Member.written_infix hm).trans ⟨lead ++ ['\x7b'], '\x7d' :: trail, by simp⟩

/-! ## Reading it back -/

def IsScalar : Value → Prop
  | .string _ | .number _ => True
  | _ => False

instance (v : Value) : Decidable (IsScalar v) :=
  match v with
  | .string _ | .number _ => isTrue trivial
  | .null | .bool _ | .array _ | .object _ => isFalse id

/-- What is behind a closing quote makes no difference. -/
theorem literal_of_literal {raw : List Char} (h : literal text = some (raw, rest))
    (more : List Char) : literal (raw ++ '"' :: more) = some (raw, more) := by
  fun_induction literal text generalizing raw rest with
  | case1 => cases h
  | case2 rest' =>
    cases h
    rfl
  | case3 c rest' ih =>
    obtain ⟨read, hread, heq⟩ := Option.map_eq_some_iff.mp h
    cases heq
    rw [List.cons_append, List.cons_append, literal, ih hread]
    rfl
  | case4 c rest' hquote hslash hc ih =>
    obtain ⟨read, hread, heq⟩ := Option.map_eq_some_iff.mp h
    cases heq
    rw [List.cons_append, literal, if_pos hc, ih hread]
    · rfl
    · exact hquote
    · rintro d t rfl -
      cases rest' with
      | nil => cases hread
      | cons e rest' => exact hslash e rest' rfl rfl
  | case5 => cases h

theorem Literal.string_append (l : Literal) (rest : List Char) :
    string (l.raw ++ '"' :: rest) = some (l.text, rest) := by
  obtain ⟨rest', hcloses⟩ := l.closes
  rw [string, literal_of_literal hcloses rest, Option.bind_eq_bind, Option.bind_some]
  simp [l.means]

theorem skipSpaces_blank_append (h : Blank text) {c : Char} (hc : isSpace c = false) :
    skipSpaces (text ++ c :: rest) = c :: rest := by
  rw [skipSpaces, List.dropWhile_append_of_pos h, List.dropWhile_cons_of_neg (by simp [hc])]

theorem spells_literal (l : Literal) : Spells ('"' :: (l.raw ++ ['"'])) (.string l.text) := by
  refine ⟨1, [], ?_⟩
  rw [List.append_nil, value, l.string_append]
  rfl

theorem spells_number (n : Number) : Spells n.text (.number n) :=
  ⟨1, [], value_number n nofun⟩

/-- A string that is written as it is. -/
def Literal.ofUnescaped (text : List Char) (h : Unescaped text) : Literal :=
  ⟨text, text, ⟨[], literal_append h⟩, unescape_of_unescaped h⟩

def Item.ofLiteral (l : Literal) : Item :=
  ⟨[], '"' :: (l.raw ++ ['"']), .string l.text, [], nofun, nofun, spells_literal l⟩

def Item.ofNumber (n : Number) : Item := ⟨[], n.text, .number n, [], nofun, nofun, spells_number n⟩

/-- A string or a number is read back in front of what cannot belong to a number. -/
theorem value_scalar {i : Item} (hscalar : IsScalar i.value) (fuel : ℕ) (hrest : Stops rest) :
    value (fuel + 1) (i.token ++ rest) = some (i.value, rest) := by
  have hspells := i.spells
  match hvalue : i.value, hscalar with
  | .string s, _ =>
    rw [hvalue] at hspells
    obtain ⟨l, rfl, htoken⟩ := hspells.string
    rw [htoken, List.cons_append, List.append_assoc, List.singleton_append, value,
      l.string_append]
    rfl
  | .number n, _ =>
    rw [hvalue] at hspells
    rw [hspells.number]
    exact value_number n hrest

theorem isNumberChar_of_isSpace {c : Char} (hc : isSpace c) : isNumberChar c = false := by
  simp only [isSpace, Bool.or_eq_true, decide_eq_true_eq] at hc
  rcases hc with ((rfl | rfl) | rfl) | rfl <;> rfl

theorem stops_blank_append (h : Blank text) {c : Char} (hc : isNumberChar c = false) :
    Stops (text ++ c :: rest) := by
  cases text with
  | nil => exact stops_cons hc
  | cons d text => exact stops_cons (isNumberChar_of_isSpace (h d List.mem_cons_self))

theorem Item.exists_cons {i : Item} (hscalar : IsScalar i.value) :
    ∃ c t, i.token = c :: t ∧ isSpace c = false ∧ c ≠ ']' := by
  have hspells := i.spells
  match hvalue : i.value, hscalar with
  | .string s, _ =>
    rw [hvalue] at hspells
    obtain ⟨l, -, htoken⟩ := hspells.string
    exact ⟨_, _, htoken, rfl, by decide⟩
  | .number n, _ =>
    rw [hvalue] at hspells
    obtain ⟨c, t, htext, -⟩ := n.exists_cons
    have hnumber := n.isNumberChar c (htext ▸ List.mem_cons_self)
    refine ⟨c, t, hspells.number.trans htext, ?_, ?_⟩
    · by_contra hspace
      rw [isNumberChar_of_isSpace (Bool.eq_true_of_not_eq_false hspace)] at hnumber
      cases hnumber
    · rintro rfl
      cases hnumber

/-- An item that is read back, whatever follows it, with `k` levels of recursion or more. -/
structure Item.ReadBack (k : ℕ) (i : Item) : Prop where
  head : ∃ c t, i.token = c :: t ∧ isSpace c = false ∧ c ≠ ']'
  reads : ∀ {fuel}, k ≤ fuel → ∀ {rest}, Stops rest →
    Json.value fuel (i.token ++ rest) = some (i.value, rest)

theorem Item.ReadBack.of_isScalar {i : Item} (hscalar : IsScalar i.value) : i.ReadBack 1 where
  head := Item.exists_cons hscalar
  reads := by
    intro fuel hfuel rest hrest
    obtain ⟨fuel, rfl⟩ := Nat.exists_eq_add_of_le' hfuel
    exact value_scalar hscalar fuel hrest

theorem Item.ReadBack.mono {k k' : ℕ} {i : Item} (h : i.ReadBack k) (hk : k ≤ k') :
    i.ReadBack k' := ⟨h.head, fun hfuel _ hrest => h.reads (hk.trans hfuel) hrest⟩

variable {k : ℕ}

/-- A value in its white space, and what follows it. -/
theorem value_item {i : Item} (hread : i.ReadBack k) (hfuel : k ≤ fuel) {c : Char}
    (hc : isNumberChar c = false) (hspace : isSpace c = false) (rest : List Char) :
    ∃ r, value fuel (skipSpaces (i.written ++ c :: rest)) = some (i.value, r) ∧
      skipSpaces r = c :: rest := by
  obtain ⟨d, t, htoken, hd, -⟩ := hread.head
  refine ⟨i.behind ++ c :: rest, ?_, skipSpaces_blank_append i.blank_behind hspace⟩
  rw [Item.written, List.append_assoc, List.append_assoc, htoken, List.cons_append,
    skipSpaces_blank_append i.blank_before hd, ← List.cons_append, ← htoken]
  exact hread.reads hfuel (stops_blank_append i.blank_behind hc)

theorem items_written {l : List Item} (hread : ∀ i ∈ l, i.ReadBack k) (hl : l ≠ [])
    (hfuel : k + l.length ≤ fuel) (rest : List Char) :
    items fuel (skipSpaces (writtenItems l ++ ']' :: rest)) = some (l.map Item.value, rest) := by
  induction l generalizing fuel with
  | nil => exact absurd rfl hl
  | cons i l ih =>
    have hmore : ∀ i' ∈ l, i'.ReadBack k := fun i' hi' => hread i' (List.mem_cons_of_mem i hi')
    have hitem := hread i List.mem_cons_self
    rw [List.length_cons] at hfuel
    obtain ⟨fuel, rfl⟩ : ∃ n, fuel = n + 1 := ⟨fuel - 1, by omega⟩
    by_cases hnil : l = []
    · subst hnil
      obtain ⟨r, hvalue, hr⟩ := value_item hitem (by omega : k ≤ fuel) (c := ']') rfl rfl rest
      rw [writtenItems_singleton]
      exact items_succ_iff.mpr ⟨r, hvalue, .inr ⟨rfl, hr⟩⟩
    · obtain ⟨r, hvalue, hr⟩ := value_item hitem (by omega : k ≤ fuel) (c := ',') rfl rfl
        (writtenItems l ++ ']' :: rest)
      rw [writtenItems_cons i hnil, List.append_assoc, List.cons_append]
      exact items_succ_iff.mpr ⟨r, hvalue, .inl ⟨_, hr, ih hmore hnil (by omega)⟩⟩

/-- The text behind an opening bracket does not close it at once. -/
theorem skipSpaces_writtenItems {l : List Item} (hread : ∀ i ∈ l, i.ReadBack k) (hl : l ≠ [])
    (rest : List Char) : ∃ c t, skipSpaces (writtenItems l ++ rest) = c :: t ∧ c ≠ ']' := by
  obtain ⟨i, l, rfl⟩ := List.exists_cons_of_ne_nil hl
  obtain ⟨c, t, htoken, hspace, hclose⟩ := (hread i List.mem_cons_self).head
  obtain ⟨more, hmore⟩ : ∃ more, writtenItems (i :: l) = i.before ++ c :: more := by
    by_cases hnil : l = []
    · subst hnil
      exact ⟨_, by rw [writtenItems_singleton, Item.written, htoken]; rfl⟩
    · exact ⟨_, by
        rw [writtenItems_cons i hnil, Item.written, htoken, List.append_assoc, List.append_assoc]
        rfl⟩
  refine ⟨c, more ++ rest, ?_, hclose⟩
  rw [hmore, List.append_assoc]
  exact skipSpaces_blank_append i.blank_before hspace

theorem value_items {l : List Item} (hread : ∀ i ∈ l, i.ReadBack k) (hl : l ≠ [])
    (hfuel : k + l.length < fuel) (rest : List Char) :
    value fuel ('[' :: (writtenItems l ++ ']' :: rest)) =
      some (.array (l.map Item.value), rest) := by
  obtain ⟨fuel, rfl⟩ : ∃ n, fuel = n + 1 := ⟨fuel - 1, by omega⟩
  obtain ⟨c, t, hskip, hc⟩ := skipSpaces_writtenItems hread hl (']' :: rest)
  rw [value]
  split
  · next hclose =>
    rw [hskip] at hclose
    exact absurd (List.cons.inj hclose).1 hc
  · rw [items_written hread hl (by omega)]
    rfl

/-- An array of items that are read back. -/
def Item.ofItems (l : List Item) (hl : l ≠ []) (hread : ∀ i ∈ l, i.ReadBack k) : Item :=
  ⟨[], '[' :: (writtenItems l ++ [']']), .array (l.map Item.value), [], nofun, nofun,
    k + l.length + 1, [], by simpa using value_items hread hl (Nat.lt_succ_self _) []⟩

theorem Item.ReadBack.ofItems {l : List Item} (hl : l ≠ []) (hread : ∀ i ∈ l, i.ReadBack k) :
    (Item.ofItems l hl hread).ReadBack (k + l.length + 1) where
  head := ⟨_, _, rfl, rfl, by decide⟩
  reads := by
    intro fuel hfuel rest _
    have htoken : (Item.ofItems l hl hread).token ++ rest =
        '[' :: (writtenItems l ++ ']' :: rest) := by simp [Item.ofItems]
    rw [htoken]
    exact value_items hread hl hfuel rest

theorem members_written {l : List Member} (hread : ∀ m ∈ l, m.item.ReadBack k)
    (hl : l ≠ []) (hfuel : k + l.length ≤ fuel) (rest : List Char) :
    members fuel (skipSpaces (writtenMembers l ++ '\x7d' :: rest)) =
      some (l.map Member.entry, rest) := by
  induction l generalizing fuel with
  | nil => exact absurd rfl hl
  | cons m l ih =>
    have hmore : ∀ m' ∈ l, m'.item.ReadBack k := fun m' hm' =>
      hread m' (List.mem_cons_of_mem m hm')
    rw [List.length_cons] at hfuel
    obtain ⟨fuel, rfl⟩ : ∃ n, fuel = n + 1 := ⟨fuel - 1, by omega⟩
    have hkey (text : List Char) :
        skipSpaces (m.before ++ (m.written ++ text)) = '"' :: (m.key.raw ++ '"' ::
          (m.behind ++ ':' :: (m.item.written ++ text))) := by
      have hread : m.written ++ text = '"' :: (m.key.raw ++ '"' ::
          (m.behind ++ ':' :: (m.item.written ++ text))) := by simp [Member.written]
      rw [hread, skipSpaces_blank_append m.blank_before rfl]
    have hcolon (text : List Char) : skipSpaces (m.behind ++ ':' :: text) = ':' :: text :=
      skipSpaces_blank_append m.blank_behind rfl
    have hitem := hread m List.mem_cons_self
    by_cases hnil : l = []
    · subst hnil
      obtain ⟨r, hvalue, hr⟩ := value_item hitem (by omega : k ≤ fuel) (c := '\x7d') rfl rfl rest
      rw [writtenMembers_singleton, List.append_assoc, hkey]
      exact members_succ_iff.mpr
        ⟨_, _, r, m.key.string_append _, hcolon _, hvalue, .inr ⟨rfl, hr⟩⟩
    · obtain ⟨r, hvalue, hr⟩ := value_item hitem (by omega : k ≤ fuel) (c := ',') rfl rfl
        (writtenMembers l ++ '\x7d' :: rest)
      rw [writtenMembers_cons m hnil, List.append_assoc, List.append_assoc, List.cons_append, hkey]
      exact members_succ_iff.mpr
        ⟨_, _, r, m.key.string_append _, hcolon _, hvalue, .inl ⟨_, hr, ih hmore hnil (by omega)⟩⟩

theorem length_writtenMembers (l : List Member) : l.length ≤ (writtenMembers l).length := by
  induction l with
  | nil => exact le_rfl
  | cons m l ih =>
    by_cases hnil : l = []
    · subst hnil
      simp [writtenMembers_singleton, Member.written]
      omega
    · rw [writtenMembers_cons m hnil, List.length_append, List.length_cons, List.length_cons]
      omega

/-- An object whose values are read back is read back. -/
theorem LaidOut.decode {l : List Member} (h : LaidOut text l) (hvalid : Utf8.valid text)
    (hl : l ≠ []) (hread : ∀ m ∈ l, m.item.ReadBack k) (hk : k ≤ text.length) :
    decode text = some (.object (l.map Member.entry)) := by
  obtain ⟨lead, trail, hlead, htrail, rfl⟩ := h
  obtain ⟨fuel, hfuel⟩ : ∃ k,
      2 * (lead ++ '\x7b' :: (writtenMembers l ++ '\x7d' :: trail)).length = k + 1 :=
    Nat.exists_eq_add_one.mpr (by simp)
  have hmembers : members (fuel + 1) (skipSpaces (writtenMembers l ++ '\x7d' :: trail)) =
      some (l.map Member.entry, trail) := by
    refine members_written hread hl ?_ trail
    have hlength := length_writtenMembers l
    simp only [List.length_append, List.length_cons] at hfuel hk
    omega
  have hvalue : value (fuel + 1 + 1) ('\x7b' :: (writtenMembers l ++ '\x7d' :: trail)) =
      some (.object (l.map Member.entry), trail) := by
    rw [value]
    split
    · next hclose =>
      rw [hclose] at hmembers
      obtain ⟨t, hquote⟩ := exists_quote_of_members hmembers
      cases hquote
    · rw [hmembers]
      rfl
  have htrail' : skipSpaces trail = [] := List.dropWhile_eq_nil_iff.mpr htrail
  rw [Json.decode, if_pos hvalid, skipSpaces_blank_append hlead rfl, hfuel, hvalue]
  simp only [htrail', if_true]

/-- A member without white space. -/
def Member.bare (key : Literal) (item : Item) : Member := ⟨[], key, [], item, nofun, nofun⟩

theorem laidOut_writtenMembers (l : List Member) :
    LaidOut ('\x7b' :: (writtenMembers l ++ ['\x7d'])) l := ⟨[], [], nofun, nofun, rfl⟩

/-! ## Finding a key -/

/-- What stands between the strings of an object besides white space. -/
def isPunctuation (c : Char) : Bool := c ∈ ['"', ',', ':', '[', ']', '\x7b', '\x7d']

/-- A name without punctuation. -/
def Word (name : List Char) : Prop := ∀ c ∈ name, isPunctuation c = false

instance (name : List Char) : Decidable (Word name) := List.decidableBAll _ name

open Scanning (quoted after)

variable {name lead trail : List Char} {l front back : List Member} {m : Member} {c : Char}

theorem Word.notMem (h : Word name) (hc : isPunctuation c) : c ∉ name := fun hmem => by
  rw [h c hmem] at hc
  cases hc

theorem Word.notMem_quoted (h : Word name) (hc : isPunctuation c) (hquote : c ≠ '"') :
    c ∉ quoted '"' name := Scanning.notMem_quoted hquote (h.notMem hc)

theorem Blank.notMem (h : Blank text) (hc : isPunctuation c) : c ∉ text := by
  intro hmem
  have hspace := h c hmem
  unfold isPunctuation at hc
  unfold isSpace at hspace
  grind

theorem quoted_infix_blank_append (h : Blank lead) :
    quoted '"' name <:+: lead ++ text ↔ quoted '"' name <:+: text :=
  Scanning.infix_append_left_iff rfl (h.notMem rfl)

theorem not_quoted_infix_blank (h : Blank lead) : ¬quoted '"' name <:+: lead := fun hoccurs =>
  h.notMem rfl (hoccurs.subset List.mem_cons_self)

theorem quoted_infix_writtenMembers (hname : Word name) :
    quoted '"' name <:+: writtenMembers l ↔ ∃ m ∈ l, quoted '"' name <:+: m.written := by
  have hcomma := hname.notMem_quoted (c := ',') rfl (by decide)
  induction l with
  | nil => simp [writtenMembers, quoted]
  | cons m l ih =>
    by_cases hl : l = []
    · subst hl
      rw [writtenMembers_singleton, quoted_infix_blank_append m.blank_before]
      simp
    · rw [writtenMembers_cons m hl, Scanning.infix_around_iff hcomma,
        quoted_infix_blank_append m.blank_before, List.exists_mem_cons_iff]
      exact or_congr_right ih

theorem quoted_infix_writtenItems {l : List Item} (hname : Word name) :
    quoted '"' name <:+: writtenItems l ↔ ∃ i ∈ l, quoted '"' name <:+: i.written := by
  have hcomma := hname.notMem_quoted (c := ',') rfl (by decide)
  induction l with
  | nil => simp [writtenItems, quoted]
  | cons i l ih =>
    by_cases hl : l = []
    · subst hl
      rw [writtenItems_singleton]
      simp
    · rw [writtenItems_cons i hl, Scanning.infix_around_iff hcomma, List.exists_mem_cons_iff]
      exact or_congr_right ih

/-- The first text between quotes that is the name is the key of the first member that has it. -/
theorem exists_after_key (hname : Word name) (hlead : Blank lead)
    (hfront : ∀ m' ∈ front, ¬quoted '"' name <:+: m'.written) (hkey : m.key.raw = name)
    (back : List Member) (trail : List Char) : ∃ e tail, (e = ',' ∨ e = '\x7d') ∧
      after (quoted '"' name)
        (lead ++ '\x7b' :: (writtenMembers (front ++ m :: back) ++ '\x7d' :: trail)) =
        some (m.behind ++ ':' :: (m.item.written ++ e :: tail)) := by
  obtain ⟨e, tail, he, hback⟩ : ∃ e tail, (e = ',' ∨ e = '\x7d') ∧
      writtenMembers (m :: back) ++ '\x7d' :: trail = m.before ++ (m.written ++ e :: tail) := by
    by_cases hback : back = []
    · subst hback
      exact ⟨'\x7d', trail, .inr rfl, by simp [writtenMembers_singleton]⟩
    · refine ⟨',', writtenMembers back ++ '\x7d' :: trail, .inl rfl, ?_⟩
      rw [writtenMembers_cons m hback]
      simp
  have hopen := hname.notMem_quoted (c := '\x7b') rfl (by decide)
  have hcomma := hname.notMem_quoted (c := ',') rfl (by decide)
  -- the last punctuation before the key
  obtain ⟨X, c, hc, hX, hsplit⟩ : ∃ X c, c ∉ quoted '"' name ∧ ¬quoted '"' name <:+: X ∧
      lead ++ '\x7b' :: (writtenMembers (front ++ m :: back) ++ '\x7d' :: trail) =
        X ++ c :: (m.before ++ (m.written ++ e :: tail)) := by
    by_cases hnil : front = []
    · subst hnil
      exact ⟨lead, '\x7b', hopen, not_quoted_infix_blank hlead, by rw [List.nil_append, hback]⟩
    · refine ⟨lead ++ '\x7b' :: writtenMembers front, ',', hcomma, ?_, ?_⟩
      · rw [Scanning.infix_around_iff hopen, quoted_infix_writtenMembers hname]
        rintro (hoccurs | ⟨m', hm', hoccurs⟩)
        · exact not_quoted_infix_blank hlead hoccurs
        · exact hfront m' hm' hoccurs
      · rw [writtenMembers_append hnil (List.cons_ne_nil m back), List.append_assoc,
          List.cons_append, hback]
        simp
  have hoccurs : ¬quoted '"' name <:+: X ++ c :: m.before := by
    rw [Scanning.infix_around_iff hc]
    rintro (h | h)
    · exact hX h
    · exact not_quoted_infix_blank m.blank_before h
  have hwritten : m.written = quoted '"' name ++ (m.behind ++ ':' :: m.item.written) := by
    rw [Member.written, hkey, quoted]
    simp
  refine ⟨e, tail, he, ?_⟩
  rw [hsplit, hwritten]
  have hafter : after (quoted '"' name) (X ++ c :: m.before ++
      (quoted '"' name ++ (m.behind ++ ':' :: (m.item.written ++ e :: tail)))) = some _ :=
    Scanning.after_quoted hc (m.blank_before.notMem rfl) hoccurs
  simpa using hafter

/-- No member has the name between quotes. -/
theorem after_key_eq_none (hname : Word name) (hlead : Blank lead) (htrail : Blank trail)
    (h : ∀ m ∈ l, ¬quoted '"' name <:+: m.written) :
    after (quoted '"' name) (lead ++ '\x7b' :: (writtenMembers l ++ '\x7d' :: trail)) = none := by
  have hopen := hname.notMem_quoted (c := '\x7b') rfl (by decide)
  have hclose := hname.notMem_quoted (c := '\x7d') rfl (by decide)
  rw [Scanning.after_eq_none_iff, Scanning.infix_around_iff hopen,
    Scanning.infix_around_iff hclose, quoted_infix_writtenMembers hname]
  rintro (hoccurs | ⟨m, hm, hoccurs⟩ | hoccurs)
  · exact not_quoted_infix_blank hlead hoccurs
  · exact h m hm hoccurs
  · exact not_quoted_infix_blank htrail hoccurs

end Json
