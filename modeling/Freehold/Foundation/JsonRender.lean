import Freehold.Foundation.JsonText

/-!
# Printing JSON without escapes

`Value.render` puts strings between quotes as they are. Reading back what it has written gives
the value again exactly if no string of it needs an escape (`decode_render_iff`).
-/

namespace Json

mutual

def Value.render : Value → List Char
  | .null => "null".toList
  | .bool true => "true".toList
  | .bool false => "false".toList
  | .number n => n.text
  | .string text => '"' :: (text ++ ['"'])
  | .array items => '[' :: (renderItems items ++ [']'])
  | .object members => '{' :: (renderMembers members ++ ['}'])

def renderItems : List Value → List Char
  | [] => []
  | [item] => item.render
  | item :: other :: others => item.render ++ ',' :: renderItems (other :: others)

def renderMembers : List (List Char × Value) → List Char
  | [] => []
  | [(key, member)] => '"' :: (key ++ '"' :: ':' :: member.render)
  | (key, member) :: other :: others =>
    '"' :: (key ++ '"' :: ':' :: (member.render ++ ',' :: renderMembers (other :: others)))

end

mutual

/-- The strings of a value, the keys of its objects included. -/
def Value.strings : Value → List (List Char)
  | .string text => [text]
  | .array items => itemStrings items
  | .object members => memberStrings members
  | _ => []

def itemStrings : List Value → List (List Char)
  | [] => []
  | item :: others => item.strings ++ itemStrings others

def memberStrings : List (List Char × Value) → List (List Char)
  | [] => []
  | (key, member) :: others => key :: (member.strings ++ memberStrings others)

end

variable {rest rest' : List Char}

theorem render_number (n : Number) : (Value.number n).render = n.text := by rw [Value.render]

theorem render_string (text : List Char) : (Value.string text).render = '"' :: (text ++ ['"']) := by
  rw [Value.render]

theorem render_array (items : List Value) :
    (Value.array items).render = '[' :: (renderItems items ++ [']']) := by rw [Value.render]

theorem render_object (members : List (List Char × Value)) :
    (Value.object members).render = '\x7b' :: (renderMembers members ++ ['\x7d']) := by
  rw [Value.render]

theorem renderItems_eq_intercalate (items : List Value) :
    renderItems items = [','].intercalate (items.map Value.render) := by
  induction items with
  | nil => rfl
  | cons item others ih =>
    cases others with
    | nil => simp [renderItems]
    | cons other others =>
      rw [renderItems, ih]
      simp

theorem mem_itemStrings {items : List Value} {s : List Char} :
    s ∈ itemStrings items ↔ ∃ item ∈ items, s ∈ item.strings := by
  induction items with
  | nil => simp [itemStrings]
  | cons item others ih => simp [itemStrings, ih]

/-! ## Where strings open -/

theorem opens_cons {c : Char} (hc : c ≠ '"') (h : Opens rest) : Opens (c :: rest) := by
  intro a b hab ha
  cases a with
  | nil => exact absurd (List.cons.inj hab).1 hc
  | cons d a =>
    obtain ⟨rfl, htail⟩ := List.cons.inj hab
    obtain ⟨a', o, rfl, ho⟩ := h a b htail fun hmem => ha (List.mem_cons_of_mem c hmem)
    exact ⟨c :: a', o, rfl, ho⟩

theorem ne_quote_of_isOpener {c : Char} (hc : isOpener c) : c ≠ '"' := by
  rintro rfl
  cases hc

theorem opens_quote {c : Char} (hc : isOpener c) : Opens (c :: '"' :: rest) := by
  intro a b hab ha
  match a, hab with
  | [], hab => exact absurd (List.cons.inj hab).1 (ne_quote_of_isOpener hc)
  | [d], hab =>
    obtain ⟨rfl, -⟩ := List.cons.inj hab
    exact ⟨[], c, rfl, hc⟩
  | d :: e :: a, hab =>
    obtain ⟨-, hab⟩ := List.cons.inj hab
    obtain ⟨rfl, -⟩ := List.cons.inj hab
    exact absurd (by simp) ha

theorem opens_append (htext : '"' ∉ text) (h : Opens rest) : Opens (text ++ rest) := by
  induction text with
  | nil => exact h
  | cons c text ih =>
    refine opens_cons ?_ (ih fun hmem => htext (List.mem_cons_of_mem c hmem))
    rintro rfl
    exact htext List.mem_cons_self

theorem Number.quote_notMem (n : Number) : '"' ∉ n.text := fun h =>
  absurd (n.isNumberChar _ h) (by decide)

mutual

theorem opens_render (v : Value) {c : Char} {rest : List Char} (hc : isOpener c)
    (hrest : Opens rest) :
    Opens (c :: (v.render ++ rest)) := by
  have hquote := ne_quote_of_isOpener hc
  cases v with
  | null => exact opens_cons hquote (opens_append (by simp [Value.render]) hrest)
  | bool b => cases b <;> exact opens_cons hquote (opens_append (by simp [Value.render]) hrest)
  | number n => exact opens_cons hquote (opens_append n.quote_notMem hrest)
  | string text => exact opens_quote hc
  | array items =>
    have hclose : Opens ([']'] ++ rest) := opens_cons (by decide) hrest
    have hopen : Opens ('[' :: (renderItems items ++ ([']'] ++ rest))) :=
      opens_renderItems items rfl hclose
    rw [Value.render, List.cons_append, List.append_assoc]
    exact opens_cons hquote hopen
  | object members =>
    have hclose : Opens (['}'] ++ rest) := opens_cons (by decide) hrest
    have hopen : Opens ('{' :: (renderMembers members ++ (['}'] ++ rest))) :=
      opens_renderMembers members rfl hclose
    rw [Value.render, List.cons_append, List.append_assoc]
    exact opens_cons hquote hopen

theorem opens_renderItems (items : List Value) {c : Char} {rest : List Char} (hc : isOpener c)
    (hrest : Opens rest) : Opens (c :: (renderItems items ++ rest)) := by
  match items with
  | [] => exact opens_cons (ne_quote_of_isOpener hc) hrest
  | [item] => exact opens_render item hc hrest
  | item :: other :: others =>
    have hmore : Opens (',' :: (renderItems (other :: others) ++ rest)) :=
      opens_renderItems (other :: others) rfl hrest
    rw [renderItems, List.append_assoc]
    exact opens_render item hc hmore

theorem opens_renderMembers (members : List (List Char × Value)) {c : Char} {rest : List Char}
    (hc : isOpener c)
    (hrest : Opens rest) : Opens (c :: (renderMembers members ++ rest)) := by
  match members with
  | [] => exact opens_cons (ne_quote_of_isOpener hc) hrest
  | [(key, member)] => exact opens_quote hc
  | (key, member) :: other :: others => exact opens_quote hc

end

/-! ## Reading a value back -/

theorem skipSpaces_cons {c : Char} (hc : isSpace c = false) (t : List Char) :
    skipSpaces (c :: t) = c :: t := by
  simp [skipSpaces, hc]

theorem map_eq_some_iff_of_injective {α β : Type} {f : α → β} (hf : Function.Injective f)
    {read : Option (α × List Char)} {a : α} :
    (read.map fun r => (f r.1, r.2)) = some (f a, rest) ↔ read = some (a, rest) := by
  rw [Option.map_eq_some_iff]
  constructor
  · rintro ⟨⟨b, r⟩, hread, heq⟩
    obtain ⟨hfab, rfl⟩ := Prod.mk.inj heq
    have hab : b = a := hf hfab
    rw [hread, hab]
  · intro h
    exact ⟨(a, rest), h, rfl⟩

/-- How a value starts. -/
theorem exists_render_eq_cons (v : Value) :
    ∃ c t, v.render = c :: t ∧ isSpace c = false ∧ c ≠ ']' := by
  cases v with
  | null => exact ⟨'n', _, rfl, rfl, by decide⟩
  | bool b =>
    cases b
    · exact ⟨'f', _, rfl, rfl, by decide⟩
    · exact ⟨'t', _, rfl, rfl, by decide⟩
  | number n =>
    obtain ⟨c, t, htext, hc⟩ := n.exists_cons
    refine ⟨c, t, htext, ?_, ?_⟩
    · rcases hc with rfl | hc
      · rfl
      · by_contra hspace
        simp only [isSpace, Bool.or_eq_false_iff, decide_eq_false_iff_not] at hspace
        have h : c = ' ' ∨ c = '\t' ∨ c = '\n' ∨ c = '\r' := by tauto
        rcases h with rfl | rfl | rfl | rfl <;> cases hc
    · rintro rfl
      rcases hc with hc | hc <;> cases hc
  | string text => exact ⟨'"', _, rfl, rfl, by decide⟩
  | array items => exact ⟨'[', _, rfl, rfl, by decide⟩
  | object members => exact ⟨'{', _, rfl, rfl, by decide⟩

theorem items_succ_iff {fuel : ℕ} {item : Value} {others : List Value} :
    items (fuel + 1) text = some (item :: others, rest') ↔
      ∃ r, value fuel text = some (item, r) ∧
        ((∃ r', skipSpaces r = ',' :: r' ∧ items fuel (skipSpaces r') = some (others, rest')) ∨
          (others = [] ∧ skipSpaces r = ']' :: rest')) := by
  rw [items, Option.bind_eq_bind, Option.bind_eq_some_iff]
  constructor
  · rintro ⟨⟨v, r⟩, hv, h⟩
    dsimp only at h
    split at h
    · rename_i r' hr
      obtain ⟨⟨vs, r''⟩, hvs, heq⟩ := Option.bind_eq_some_iff.mp h
      cases heq
      exact ⟨r, hv, .inl ⟨r', hr, hvs⟩⟩
    · rename_i r' hr
      cases h
      exact ⟨r, hv, .inr ⟨rfl, hr⟩⟩
    · cases h
  · rintro ⟨r, hv, ⟨r', hr, hvs⟩ | ⟨rfl, hr⟩⟩
    · refine ⟨(item, r), hv, ?_⟩
      simp only [hr, hvs]
      rfl
    · refine ⟨(item, r), hv, ?_⟩
      simp only [hr]
      rfl

theorem members_succ_iff {fuel : ℕ} {key : List Char} {member : Value}
    {others : List (List Char × Value)} :
    members (fuel + 1) ('"' :: text) = some ((key, member) :: others, rest') ↔
      ∃ r r' r'', string text = some (key, r) ∧ skipSpaces r = ':' :: r' ∧
        value fuel (skipSpaces r') = some (member, r'') ∧
        ((∃ t, skipSpaces r'' = ',' :: t ∧ members fuel (skipSpaces t) = some (others, rest')) ∨
          (others = [] ∧ skipSpaces r'' = '}' :: rest')) := by
  rw [members, Option.bind_eq_bind, Option.bind_eq_some_iff]
  constructor
  · rintro ⟨⟨k, r⟩, hk, h⟩
    dsimp only at h
    split at h
    · rename_i r' hr
      obtain ⟨⟨v, r''⟩, hv, h⟩ := Option.bind_eq_some_iff.mp h
      dsimp only at h
      split at h
      · rename_i t ht
        obtain ⟨⟨vs, u⟩, hvs, heq⟩ := Option.bind_eq_some_iff.mp h
        cases heq
        exact ⟨r, r', r'', hk, hr, hv, .inl ⟨t, ht, hvs⟩⟩
      · rename_i t ht
        cases h
        exact ⟨r, r', r'', hk, hr, hv, .inr ⟨rfl, ht⟩⟩
      · cases h
    · cases h
  · rintro ⟨r, r', r'', hk, hr, hv, ⟨t, ht, hvs⟩ | ⟨rfl, ht⟩⟩
    · refine ⟨(key, r), hk, ?_⟩
      simp only [hr, hv, ht, hvs, Option.bind_eq_bind, Option.bind_some]
      rfl
    · refine ⟨(key, r), hk, ?_⟩
      simp only [hr, hv, ht, Option.bind_eq_bind, Option.bind_some]
      rfl

theorem stops_cons {c : Char} (hc : isNumberChar c = false) : Stops (c :: rest) := by
  intro d hd
  cases hd
  exact hc

/-- What is between the brackets of an array, or the braces of an object. -/
theorem value_array {fuel : ℕ} {item : Value} {others : List Value} :
    value (fuel + 1) ('[' :: (renderItems (item :: others) ++ rest)) =
      (items fuel (renderItems (item :: others) ++ rest)).map
        fun read => (.array read.1, read.2) := by
  obtain ⟨c, t, hc, hspace, hclose⟩ := exists_render_eq_cons item
  obtain ⟨t', ht'⟩ : ∃ t', renderItems (item :: others) ++ rest = c :: t' := by
    cases others with
    | nil => exact ⟨t ++ rest, by rw [renderItems, hc, List.cons_append]⟩
    | cons other others =>
      exact ⟨_, by rw [renderItems, hc, List.cons_append, List.cons_append]⟩
  rw [ht', value]
  simp only [skipSpaces_cons hspace]
  split
  · rename_i h
    exact absurd (List.cons.inj h).1 hclose
  · rfl

theorem value_object {fuel : ℕ} {entry : List Char × Value} {others : List (List Char × Value)} :
    value (fuel + 1) ('{' :: (renderMembers (entry :: others) ++ rest)) =
      (members fuel (renderMembers (entry :: others) ++ rest)).map
        fun read => (.object read.1, read.2) := by
  obtain ⟨t', ht'⟩ : ∃ t', renderMembers (entry :: others) ++ rest = '"' :: t' := by
    cases others with
    | nil => exact ⟨_, rfl⟩
    | cons other others => exact ⟨_, rfl⟩
  rw [ht', value]
  simp only [skipSpaces_cons (show isSpace '"' = false from rfl)]
  split
  · rename_i h
    cases h
  · rfl

theorem skipSpaces_renderItems {item : Value} {others : List Value} :
    skipSpaces (renderItems (item :: others) ++ rest) = renderItems (item :: others) ++ rest := by
  obtain ⟨c, t, hc, hspace, -⟩ := exists_render_eq_cons item
  cases others with
  | nil => rw [renderItems, hc, List.cons_append, skipSpaces_cons hspace]
  | cons other others =>
    rw [renderItems, hc, List.cons_append, List.cons_append, skipSpaces_cons hspace]

theorem skipSpaces_renderMembers {entry : List Char × Value}
    {others : List (List Char × Value)} :
    skipSpaces (renderMembers (entry :: others) ++ rest) =
      renderMembers (entry :: others) ++ rest := by
  cases others with
  | nil => exact skipSpaces_cons rfl _
  | cons other others => exact skipSpaces_cons rfl _

theorem skipSpaces_render (v : Value) : skipSpaces (v.render ++ rest) = v.render ++ rest := by
  obtain ⟨c, t, hc, hspace, -⟩ := exists_render_eq_cons v
  rw [hc, List.cons_append, skipSpaces_cons hspace]

/-- With this fuel a rendered value is read back exactly if no string of it needs an escape. -/
def ReadsValue (fuel : ℕ) : Prop :=
  ∀ (v : Value) (rest rest' : List Char), 2 * v.render.length + 1 ≤ fuel → Stops rest →
    Opens rest → (value fuel (v.render ++ rest) = some (v, rest') ↔
      (∀ s ∈ v.strings, Unescaped s) ∧ rest' = rest)

def ReadsItems (fuel : ℕ) : Prop :=
  ∀ (item : Value) (others : List Value) (rest rest' : List Char),
    2 * (renderItems (item :: others)).length + 2 ≤ fuel → Opens rest →
    (items fuel (renderItems (item :: others) ++ ']' :: rest) = some (item :: others, rest') ↔
      (∀ s ∈ itemStrings (item :: others), Unescaped s) ∧ rest' = rest)

def ReadsMembers (fuel : ℕ) : Prop :=
  ∀ (key : List Char) (member : Value) (others : List (List Char × Value))
    (rest rest' : List Char),
    2 * (renderMembers ((key, member) :: others)).length + 2 ≤ fuel → Opens rest →
    (members fuel (renderMembers ((key, member) :: others) ++ '}' :: rest) =
        some ((key, member) :: others, rest') ↔
      (∀ s ∈ memberStrings ((key, member) :: others), Unescaped s) ∧ rest' = rest)

theorem readsValue_succ {fuel : ℕ} (hitems : ReadsItems fuel) (hmembers : ReadsMembers fuel) :
    ReadsValue (fuel + 1) := by
  intro v rest rest' hfuel hstops hopens
  cases v with
  | null => simp [Value.render, Value.strings, value, eq_comm]
  | bool b => cases b <;> simp [Value.render, Value.strings, value, eq_comm]
  | number n =>
    have hvalue : value (fuel + 1) (n.text ++ rest) = some (.number n, rest) :=
      value_number n hstops
    simp [Value.render, Value.strings, hvalue, eq_comm]
  | string text =>
    have hvalue : value (fuel + 1) ((Value.string text).render ++ rest) =
        (string (text ++ '"' :: rest)).map fun read => (.string read.1, read.2) := by
      rw [Value.render, List.cons_append, List.append_assoc]
      rfl
    rw [hvalue, map_eq_some_iff_of_injective (fun _ _ => Value.string.inj),
      string_eq_some_iff hopens]
    simp [Value.strings]
  | array l =>
    cases l with
    | nil =>
      have hvalue : value (fuel + 1) ((Value.array []).render ++ rest) = some (.array [], rest) :=
        rfl
      simp [hvalue, Value.strings, itemStrings, eq_comm]
    | cons item others =>
      have hvalue : (Value.array (item :: others)).render ++ rest =
          '[' :: (renderItems (item :: others) ++ ']' :: rest) := by
        rw [Value.render, List.cons_append, List.append_assoc]
        rfl
      have hlength : 2 * (renderItems (item :: others)).length + 2 ≤ fuel := by
        simp only [Value.render, List.length_cons, List.length_append] at hfuel
        omega
      rw [hvalue, value_array, map_eq_some_iff_of_injective (fun _ _ => Value.array.inj),
        hitems item others rest rest' hlength hopens]
      rfl
  | object l =>
    cases l with
    | nil =>
      have hvalue : value (fuel + 1) ((Value.object []).render ++ rest) = some (.object [], rest) :=
        rfl
      simp [hvalue, Value.strings, memberStrings, eq_comm]
    | cons entry others =>
      obtain ⟨key, member⟩ := entry
      have hvalue : (Value.object ((key, member) :: others)).render ++ rest =
          '{' :: (renderMembers ((key, member) :: others) ++ '}' :: rest) := by
        rw [Value.render, List.cons_append, List.append_assoc]
        rfl
      have hlength : 2 * (renderMembers ((key, member) :: others)).length + 2 ≤ fuel := by
        simp only [Value.render, List.length_cons, List.length_append] at hfuel
        omega
      rw [hvalue, value_object, map_eq_some_iff_of_injective (fun _ _ => Value.object.inj),
        hmembers key member others rest rest' hlength hopens]
      rfl

theorem readsItems_succ {fuel : ℕ} (hvalue : ReadsValue fuel) (hitems : ReadsItems fuel) :
    ReadsItems (fuel + 1) := by
  intro item others rest rest' hfuel hopens
  cases others with
  | nil =>
    rw [renderItems] at hfuel
    have hread : ∀ r, value fuel (item.render ++ ']' :: rest) = some (item, r) ↔
        (∀ s ∈ item.strings, Unescaped s) ∧ r = ']' :: rest := fun r =>
      hvalue item _ r (by omega) (stops_cons rfl) (opens_cons (by decide) hopens)
    rw [renderItems, items_succ_iff]
    simp only [hread, itemStrings, List.append_nil]
    constructor
    · rintro ⟨r, ⟨hstrings, rfl⟩, ⟨r', hr, -⟩ | ⟨-, hr⟩⟩
      · rw [skipSpaces_cons rfl] at hr
        cases hr
      · rw [skipSpaces_cons rfl] at hr
        exact ⟨hstrings, (List.cons.inj hr).2.symm⟩
    · rintro ⟨hstrings, rfl⟩
      exact ⟨_, ⟨hstrings, rfl⟩, .inr ⟨trivial, skipSpaces_cons rfl _⟩⟩
  | cons other others =>
    have hmore : Opens (',' :: (renderItems (other :: others) ++ ']' :: rest)) :=
      opens_renderItems (other :: others) rfl (opens_cons (by decide) hopens)
    have hlength : 2 * item.render.length + 1 ≤ fuel ∧
        2 * (renderItems (other :: others)).length + 2 ≤ fuel := by
      rw [renderItems, List.length_append, List.length_cons] at hfuel
      omega
    have htail : items fuel (skipSpaces (renderItems (other :: others) ++ ']' :: rest)) =
        some (other :: others, rest') ↔
          (∀ s ∈ itemStrings (other :: others), Unescaped s) ∧ rest' = rest := by
      rw [skipSpaces_renderItems]
      exact hitems other others rest rest' hlength.2 hopens
    rw [renderItems, List.append_assoc, List.cons_append, items_succ_iff, itemStrings,
      List.forall_mem_append]
    generalize renderItems (other :: others) ++ ']' :: rest = tail at hmore htail
    have hread : ∀ r, value fuel (item.render ++ ',' :: tail) = some (item, r) ↔
        (∀ s ∈ item.strings, Unescaped s) ∧ r = ',' :: tail := fun r =>
      hvalue item _ r hlength.1 (stops_cons rfl) hmore
    constructor
    · rintro ⟨r, hr, hrest⟩
      obtain ⟨hstrings, rfl⟩ := (hread r).mp hr
      rw [skipSpaces_cons rfl] at hrest
      obtain ⟨r', hr', hothers⟩ | ⟨hnil, -⟩ := hrest
      · obtain ⟨-, rfl⟩ := List.cons.inj hr'
        exact ⟨⟨hstrings, (htail.mp hothers).1⟩, (htail.mp hothers).2⟩
      · cases hnil
    · rintro ⟨⟨hstrings, hothers⟩, hrest⟩
      exact ⟨',' :: tail, (hread _).mpr ⟨hstrings, rfl⟩,
        .inl ⟨tail, skipSpaces_cons rfl _, htail.mpr ⟨hothers, hrest⟩⟩⟩

theorem readsMembers_succ {fuel : ℕ} (hvalue : ReadsValue fuel) (hmembers : ReadsMembers fuel) :
    ReadsMembers (fuel + 1) := by
  intro key member others rest rest' hfuel hopens
  cases others with
  | nil =>
    have hlength : 2 * member.render.length + 1 ≤ fuel := by
      simp only [renderMembers, List.length_cons, List.length_append] at hfuel
      omega
    have hkey : ∀ r, string (key ++ '"' :: ':' :: (member.render ++ '}' :: rest)) = some (key, r) ↔
        Unescaped key ∧ r = ':' :: (member.render ++ '}' :: rest) := fun r =>
      string_eq_some_iff (opens_render member rfl (opens_cons (by decide) hopens))
    have hread : ∀ r, value fuel (member.render ++ '}' :: rest) = some (member, r) ↔
        (∀ s ∈ member.strings, Unescaped s) ∧ r = '}' :: rest := fun r =>
      hvalue member _ r hlength (stops_cons rfl) (opens_cons (by decide) hopens)
    have htext : renderMembers [(key, member)] ++ '}' :: rest =
        '"' :: (key ++ '"' :: ':' :: (member.render ++ '}' :: rest)) := by
      simp [renderMembers]
    rw [htext, members_succ_iff, memberStrings, memberStrings, List.append_nil,
      List.forall_mem_cons]
    constructor
    · rintro ⟨r, r', r'', hr, hr', hr'', hrest⟩
      obtain ⟨hstring, rfl⟩ := (hkey r).mp hr
      rw [skipSpaces_cons rfl] at hr'
      obtain ⟨-, rfl⟩ := List.cons.inj hr'
      rw [skipSpaces_render, hread] at hr''
      obtain ⟨hstrings, rfl⟩ := hr''
      rw [skipSpaces_cons rfl] at hrest
      obtain ⟨t, ht, -⟩ | ⟨-, ht⟩ := hrest
      · cases ht
      · exact ⟨⟨hstring, hstrings⟩, (List.cons.inj ht).2.symm⟩
    · rintro ⟨⟨hstring, hstrings⟩, rfl⟩
      refine ⟨_, _, '}' :: rest', (hkey _).mpr ⟨hstring, rfl⟩, skipSpaces_cons rfl _, ?_,
        .inr ⟨rfl, skipSpaces_cons rfl _⟩⟩
      rw [skipSpaces_render, hread]
      exact ⟨hstrings, rfl⟩
  | cons entry others =>
    obtain ⟨key', member'⟩ := entry
    have hlength : 2 * member.render.length + 1 ≤ fuel ∧
        2 * (renderMembers ((key', member') :: others)).length + 2 ≤ fuel := by
      simp only [renderMembers, List.length_cons, List.length_append] at hfuel ⊢
      omega
    have hmore : Opens (',' :: (renderMembers ((key', member') :: others) ++ '}' :: rest)) :=
      opens_renderMembers _ rfl (opens_cons (by decide) hopens)
    have htail :
        members fuel (skipSpaces (renderMembers ((key', member') :: others) ++ '}' :: rest)) =
        some ((key', member') :: others, rest') ↔
          (∀ s ∈ memberStrings ((key', member') :: others), Unescaped s) ∧ rest' = rest := by
      rw [skipSpaces_renderMembers]
      exact hmembers key' member' others rest rest' hlength.2 hopens
    rw [renderMembers, memberStrings, List.forall_mem_cons, List.forall_mem_append]
    simp only [List.cons_append, List.append_assoc, members_succ_iff]
    generalize renderMembers ((key', member') :: others) ++ '}' :: rest = tail at hmore htail
    have hkey : ∀ r, string (key ++ '"' :: ':' :: (member.render ++ ',' :: tail)) = some (key, r) ↔
        Unescaped key ∧ r = ':' :: (member.render ++ ',' :: tail) := fun r =>
      string_eq_some_iff (opens_render member rfl hmore)
    have hread : ∀ r, value fuel (member.render ++ ',' :: tail) = some (member, r) ↔
        (∀ s ∈ member.strings, Unescaped s) ∧ r = ',' :: tail := fun r =>
      hvalue member _ r hlength.1 (stops_cons rfl) hmore
    constructor
    · rintro ⟨r, r', r'', hr, hr', hr'', hrest⟩
      obtain ⟨hstring, rfl⟩ := (hkey r).mp hr
      rw [skipSpaces_cons rfl] at hr'
      obtain ⟨-, rfl⟩ := List.cons.inj hr'
      rw [skipSpaces_render, hread] at hr''
      obtain ⟨hstrings, rfl⟩ := hr''
      rw [skipSpaces_cons rfl] at hrest
      obtain ⟨t, ht, hothers⟩ | ⟨hnil, -⟩ := hrest
      · obtain ⟨-, rfl⟩ := List.cons.inj ht
        exact ⟨⟨hstring, hstrings, (htail.mp hothers).1⟩, (htail.mp hothers).2⟩
      · cases hnil
    · rintro ⟨⟨hstring, hstrings, hothers⟩, hrest⟩
      refine ⟨_, _, ',' :: tail, (hkey _).mpr ⟨hstring, rfl⟩, skipSpaces_cons rfl _, ?_,
        .inl ⟨tail, skipSpaces_cons rfl _, htail.mpr ⟨hothers, hrest⟩⟩⟩
      rw [skipSpaces_render, hread]
      exact ⟨hstrings, rfl⟩

theorem reads (fuel : ℕ) : ReadsValue fuel ∧ ReadsItems fuel ∧ ReadsMembers fuel := by
  induction fuel with
  | zero =>
    refine ⟨fun v rest rest' h => ?_, fun item others rest rest' h => ?_,
      fun key member others rest rest' h => ?_⟩ <;> omega
  | succ fuel ih =>
    obtain ⟨hvalue, hitems, hmembers⟩ := ih
    exact ⟨readsValue_succ hitems hmembers, readsItems_succ hvalue hitems,
      readsMembers_succ hvalue hmembers⟩

/-! ## The bytes of a rendered value -/

theorem isAscii_of_isNumberChar {c : Char} (hc : isNumberChar c) : Utf8.isAscii c := by
  simp only [isNumberChar, Bool.or_eq_true, decide_eq_true_eq] at hc
  rcases hc with ((((hc | rfl) | rfl) | rfl) | rfl) | rfl
  · have h := (Char.isDigit_iff_toNat.mp hc).2
    simp only [Utf8.isAscii, decide_eq_true_eq]
    exact h.trans (by decide)
  all_goals rfl

mutual

theorem valid_render (v : Value) {rest : List Char} :
    Utf8.valid (v.render ++ rest) = (v.strings.all Utf8.valid && Utf8.valid rest) := by
  cases v with
  | null => exact Utf8.valid_ascii_append (List.all_eq_true.mp (by decide))
  | bool b => cases b <;> exact Utf8.valid_ascii_append (List.all_eq_true.mp (by decide))
  | number n =>
    exact Utf8.valid_ascii_append fun c hc => isAscii_of_isNumberChar (n.isNumberChar c hc)
  | string text =>
    rw [Value.render, List.cons_append, Utf8.valid_ascii_cons rfl, List.append_assoc,
      List.singleton_append, Utf8.valid_append_ascii_cons rfl]
    simp [Value.strings]
  | array l =>
    rw [Value.render, List.cons_append, Utf8.valid_ascii_cons rfl, List.append_assoc,
      List.singleton_append, valid_renderItems l, Utf8.valid_ascii_cons rfl]
    rfl
  | object l =>
    rw [Value.render, List.cons_append, Utf8.valid_ascii_cons rfl, List.append_assoc,
      List.singleton_append, valid_renderMembers l, Utf8.valid_ascii_cons rfl]
    rfl

theorem valid_renderItems (l : List Value) {rest : List Char} :
    Utf8.valid (renderItems l ++ rest) = ((itemStrings l).all Utf8.valid && Utf8.valid rest) := by
  match l with
  | [] => rfl
  | [item] =>
    rw [renderItems, valid_render item, itemStrings, itemStrings, List.append_nil]
  | item :: other :: others =>
    rw [renderItems, List.append_assoc, valid_render item, List.cons_append,
      Utf8.valid_ascii_cons rfl, valid_renderItems (other :: others)]
    simp only [itemStrings, List.all_append, Bool.and_assoc]

theorem valid_renderMembers (l : List (List Char × Value)) {rest : List Char} :
    Utf8.valid (renderMembers l ++ rest) =
      ((memberStrings l).all Utf8.valid && Utf8.valid rest) := by
  match l with
  | [] => rfl
  | [(key, member)] =>
    rw [renderMembers, List.cons_append, Utf8.valid_ascii_cons rfl, List.append_assoc,
      List.cons_append, Utf8.valid_append_ascii_cons rfl, List.cons_append,
      Utf8.valid_ascii_cons rfl, valid_render member, memberStrings, memberStrings,
      List.append_nil, List.all_cons, Bool.and_assoc]
  | (key, member) :: other :: others =>
    rw [renderMembers, List.cons_append, Utf8.valid_ascii_cons rfl, List.append_assoc,
      List.cons_append, Utf8.valid_append_ascii_cons rfl, List.cons_append,
      Utf8.valid_ascii_cons rfl, List.append_assoc, valid_render member, List.cons_append,
      Utf8.valid_ascii_cons rfl, valid_renderMembers (other :: others)]
    simp only [memberStrings, List.all_cons, List.all_append, Bool.and_assoc]

end

theorem opens_nil : Opens [] := by
  intro a b hab
  cases a <;> cases hab

/-- A value that is printed without escapes is decoded to itself if and only if each of its
strings is UTF-8 text that needs none. -/
theorem decode_render_iff (v : Value) :
    decode v.render = some v ↔ ∀ s ∈ v.strings, Unescaped s ∧ Utf8.valid s = true := by
  have hspaces : skipSpaces v.render = v.render := by
    have h : skipSpaces (v.render ++ []) = v.render ++ [] := skipSpaces_render v
    simpa using h
  have hread : ∀ r, value (2 * v.render.length + 1) v.render = some (v, r) ↔
      (∀ s ∈ v.strings, Unescaped s) ∧ r = [] := fun r => by
    simpa using (reads _).1 v [] r le_rfl (by simp [Stops]) opens_nil
  have hvalid : Utf8.valid v.render = true ↔ ∀ s ∈ v.strings, Utf8.valid s = true := by
    have h : Utf8.valid (v.render ++ []) = _ := valid_render v
    rw [List.append_nil, Utf8.valid_nil, Bool.and_true] at h
    rw [h, List.all_eq_true]
  unfold decode
  rw [hspaces, forall₂_and, ← hvalid]
  constructor
  · intro h
    split at h
    · rename_i hutf8
      split at h
      · rename_i w r hw
        split at h
        · cases h
          exact ⟨((hread r).mp hw).1, hutf8⟩
        · cases h
      · cases h
    · cases h
  · rintro ⟨hstrings, hutf8⟩
    rw [if_pos hutf8, (hread []).mpr ⟨hstrings, rfl⟩]
    rfl

end Json
