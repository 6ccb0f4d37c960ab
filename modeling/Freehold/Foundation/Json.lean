import Freehold.Foundation.Utf8

/-!
# JSON texts

A decoder for the JSON grammar on UTF-8 bytes; a character stands for a byte.
-/

namespace Json

/-! ## Numbers -/

def isNumberChar (c : Char) : Bool :=
  c.isDigit || c = '-' || c = '+' || c = '.' || c = 'e' || c = 'E'

/-- Digits and nothing else. -/
def isDigits (text : List Char) : Bool := !text.isEmpty && text.all Char.isDigit

/-- Nothing, or an exponent. -/
def isExponent : List Char → Bool
  | [] => true
  | c :: text =>
    (c = 'e' || c = 'E') &&
      match text with
      | '+' :: digits | '-' :: digits => isDigits digits
      | digits => isDigits digits

/-- A fraction and an exponent, either of which may be missing. -/
def isFraction : List Char → Bool
  | '.' :: text =>
    isDigits (text.takeWhile Char.isDigit) && isExponent (text.dropWhile Char.isDigit)
  | text => isExponent text

/-- The integer part has no leading zero. -/
def isUnsigned (text : List Char) : Bool :=
  let digits := text.takeWhile Char.isDigit
  isDigits digits && (digits = ['0'] || digits.head? ≠ some '0') &&
    isFraction (text.dropWhile Char.isDigit)

def isNumber : List Char → Bool
  | '-' :: text => isUnsigned text
  | text => isUnsigned text

/-- A number as it is written. -/
structure Number where
  text : List Char
  valid : isNumber text = true

/-- The members of an object stand in their order, repetitions included. -/
inductive Value where
  | null
  | bool (b : Bool)
  | number (n : Number)
  | string (text : List Char)
  | array (items : List Value)
  | object (members : List (List Char × Value))

/-! ## Strings -/

/-- The text of a literal up to the closing quote, escapes as they are written, and what is
behind it. -/
def literal : List Char → Option (List Char × List Char)
  | [] => none
  | '"' :: rest => some ([], rest)
  | '\\' :: c :: rest => (literal rest).map fun read => ('\\' :: c :: read.1, read.2)
  | c :: rest => if ' ' ≤ c then (literal rest).map fun read => (c :: read.1, read.2) else none

def hexDigit (c : Char) : Option ℕ :=
  if c.isDigit then some (c.toNat - '0'.toNat)
  else if 'a' ≤ c ∧ c ≤ 'f' then some (c.toNat - 'a'.toNat + 10)
  else if 'A' ≤ c ∧ c ≤ 'F' then some (c.toNat - 'A'.toNat + 10)
  else none

/-- Four hexadecimal digits. -/
def codeUnit (a b c d : Char) : Option ℕ := do
  let a ← hexDigit a
  let b ← hexDigit b
  let c ← hexDigit c
  let d ← hexDigit d
  return ((a * 16 + b) * 16 + c) * 16 + d

/-- The UTF-8 bytes of a code point. -/
def utf8Encode (n : ℕ) : List Char :=
  if n < 0x80 then [Char.ofNat n]
  else if n < 0x800 then [Char.ofNat (0xC0 + n / 0x40), Char.ofNat (0x80 + n % 0x40)]
  else if n < 0x10000 then
    [Char.ofNat (0xE0 + n / 0x1000), Char.ofNat (0x80 + n / 0x40 % 0x40),
      Char.ofNat (0x80 + n % 0x40)]
  else
    [Char.ofNat (0xF0 + n / 0x40000), Char.ofNat (0x80 + n / 0x1000 % 0x40),
      Char.ofNat (0x80 + n / 0x40 % 0x40), Char.ofNat (0x80 + n % 0x40)]

/-- A code unit on its own: half of a surrogate pair stands for nothing. -/
def encodeUnit (n : ℕ) : List Char :=
  if 0xD800 ≤ n ∧ n ≤ 0xDFFF then utf8Encode 0xFFFD else utf8Encode n

/-- The code point of a surrogate pair. -/
def surrogatePair (high low : ℕ) : Option ℕ :=
  if 0xD800 ≤ high ∧ high ≤ 0xDBFF ∧ 0xDC00 ≤ low ∧ low ≤ 0xDFFF then
    some (0x10000 + (high - 0xD800) * 0x400 + (low - 0xDC00))
  else none

/-- `\"`, `\\`, `\/`, `\b`, `\f`, `\n`, `\r` and `\t`. -/
def simpleEscape (c : Char) : Option Char :=
  if c = '"' ∨ c = '\\' ∨ c = '/' then some c
  else if c = 'b' then some (Char.ofNat 8)
  else if c = 'f' then some (Char.ofNat 12)
  else if c = 'n' then some '\n'
  else if c = 'r' then some '\r'
  else if c = 't' then some '\t'
  else none

/-- What the text of a literal stands for. -/
def unescape : List Char → Option (List Char)
  | [] => some []
  | '\\' :: 'u' :: a :: b :: c :: d :: '\\' :: 'u' :: e :: f :: g :: h :: rest => do
    let first ← codeUnit a b c d
    match (codeUnit e f g h).bind (surrogatePair first) with
    | some n => return utf8Encode n ++ (← unescape rest)
    | none => return encodeUnit first ++ (← unescape ('\\' :: 'u' :: e :: f :: g :: h :: rest))
  | '\\' :: 'u' :: a :: b :: c :: d :: rest => do
    let unit ← codeUnit a b c d
    return encodeUnit unit ++ (← unescape rest)
  | '\\' :: c :: rest => do
    let char ← simpleEscape c
    return char :: (← unescape rest)
  | '\\' :: [] => none
  | c :: rest => do return c :: (← unescape rest)

/-- A string behind its opening quote. -/
def string (text : List Char) : Option (List Char × List Char) := do
  let (raw, rest) ← literal text
  let decoded ← unescape raw
  return (decoded, rest)

example : string ['a', '\\', 'n', '"', ','] = some (['a', '\n'], [',']) := by decide

/-! ## Values -/

def isSpace (c : Char) : Bool := c = ' ' || c = '\t' || c = '\n' || c = '\r'

def skipSpaces (text : List Char) : List Char := text.dropWhile isSpace

def number (text : List Char) : Option (Value × List Char) :=
  let token := text.takeWhile isNumberChar
  if h : isNumber token = true then some (.number ⟨token, h⟩, text.dropWhile isNumberChar) else none

mutual

/-- Read a value; `fuel` bounds the depth of the recursion. -/
def value : ℕ → List Char → Option (Value × List Char)
  | 0, _ => none
  | _ + 1, 'n' :: 'u' :: 'l' :: 'l' :: rest => some (.null, rest)
  | _ + 1, 't' :: 'r' :: 'u' :: 'e' :: rest => some (.bool true, rest)
  | _ + 1, 'f' :: 'a' :: 'l' :: 's' :: 'e' :: rest => some (.bool false, rest)
  | _ + 1, '"' :: rest => (string rest).map fun read => (.string read.1, read.2)
  | fuel + 1, '[' :: rest =>
    match skipSpaces rest with
    | ']' :: rest => some (.array [], rest)
    | rest => (items fuel rest).map fun read => (.array read.1, read.2)
  | fuel + 1, '{' :: rest =>
    match skipSpaces rest with
    | '}' :: rest => some (.object [], rest)
    | rest => (members fuel rest).map fun read => (.object read.1, read.2)
  | _ + 1, text => number text

/-- The items of an array, at least one, and the closing bracket. -/
def items : ℕ → List Char → Option (List Value × List Char)
  | 0, _ => none
  | fuel + 1, text => do
    let (item, rest) ← value fuel text
    match skipSpaces rest with
    | ',' :: rest => do
      let (others, rest) ← items fuel (skipSpaces rest)
      return (item :: others, rest)
    | ']' :: rest => return ([item], rest)
    | _ => none

/-- The members of an object, at least one, and the closing brace. -/
def members : ℕ → List Char → Option (List (List Char × Value) × List Char)
  | 0, _ => none
  | fuel + 1, '"' :: text => do
    let (key, rest) ← string text
    match skipSpaces rest with
    | ':' :: rest => do
      let (member, rest) ← value fuel (skipSpaces rest)
      match skipSpaces rest with
      | ',' :: rest => do
        let (others, rest) ← members fuel (skipSpaces rest)
        return ((key, member) :: others, rest)
      | '}' :: rest => return ([(key, member)], rest)
      | _ => none
    | _ => none
  | _ + 1, _ => none

end

/-- The value that a text stands for, if it is JSON. Two steps of the recursion read at least
one byte. -/
def decode (text : List Char) : Option Value :=
  if Utf8.valid text then
    match value (2 * text.length + 1) (skipSpaces text) with
    | some (v, rest) => if skipSpaces rest = [] then some v else none
    | none => none
  else none

end Json
