import ImageCircuit.Json.Basic

/-!
# Reading JSON

* `Json.parse?`: the value that a text describes

The grammar is strict: no comments, no trailing commas, no leading zeros and no control characters
in strings. Of escapes only the form is checked, and a string with one that stands for no character
has no text.
-/

namespace ImageCircuit.Json

/-- The blanks between the words of a value. -/
def isBlank (c : Char) : Bool :=
  c = ' ' || c = '\n' || c = '\r' || c = '\t'

/-- A text without the blanks it starts with. -/
def skipBlanks (s : List Char) : List Char :=
  s.dropWhile isBlank

/-! ## Strings -/

/-- One item of a string: a character, or a 16-bit unit that was escaped. -/
inductive Piece where
  | char (c : Char)
  | unit (n : Nat)
  deriving DecidableEq, Repr

/-- The value of a hexadecimal digit of either case. -/
def hexValue? (c : Char) : Option Nat :=
  let n := c.toNat
  if '0'.toNat ≤ n ∧ n ≤ '9'.toNat then some (n - '0'.toNat)
  else if 'a'.toNat ≤ n ∧ n ≤ 'f'.toNat then some (n - 'a'.toNat + 10)
  else if 'A'.toNat ≤ n ∧ n ≤ 'F'.toNat then some (n - 'A'.toNat + 10)
  else none

/-- The value of four hexadecimal digits. -/
def hexUnit? (a b c d : Char) : Option Nat := do
  let a ← hexValue? a
  let b ← hexValue? b
  let c ← hexValue? c
  let d ← hexValue? d
  some (((a * 16 + b) * 16 + c) * 16 + d)

/-- The character that a letter after a backslash stands for. -/
def unescape? (c : Char) : Option Char :=
  if c = '"' ∨ c = '\\' ∨ c = '/' then some c
  else if c = 'n' then some '\n'
  else if c = 'r' then some '\r'
  else if c = 't' then some '\t'
  else if c = 'b' then some (.ofNat 0x08)
  else if c = 'f' then some (.ofNat 0x0C)
  else none

/-- The items up to the closing quote, and what follows it. -/
def takePieces : List Char → Option (List Piece × List Char)
  | [] => none
  | '"' :: rest => some ([], rest)
  | '\\' :: 'u' :: a :: b :: c :: d :: rest => do
    let unit ← hexUnit? a b c d
    let (pieces, rest) ← takePieces rest
    some (.unit unit :: pieces, rest)
  | '\\' :: c :: rest => do
    let c ← unescape? c
    let (pieces, rest) ← takePieces rest
    some (.char c :: pieces, rest)
  | c :: rest =>
    if c.toNat < 0x20 then none
    else do
      let (pieces, rest) ← takePieces rest
      some (.char c :: pieces, rest)

/-- The characters of a string. A leading surrogate stands for a character together with the
trailing one after it; alone neither does. -/
def joinPieces : List Piece → Option (List Char)
  | [] => some []
  | .char c :: rest => (joinPieces rest).map (c :: ·)
  | .unit high :: rest =>
    if high < 0xD800 ∨ 0xE000 ≤ high then (joinPieces rest).map (Char.ofNat high :: ·)
    else
      match rest with
      | .unit low :: rest =>
        if high < 0xDC00 ∧ 0xDC00 ≤ low ∧ low < 0xE000 then
          let c := 0x10000 + (high - 0xD800) * 0x400 + (low - 0xDC00)
          (joinPieces rest).map (Char.ofNat c :: ·)
        else none
      | _ => none

/-- The text of a string after its opening quote, and what follows the closing one. -/
def takeString (s : List Char) : Option (Option String × List Char) :=
  (takePieces s).map fun (pieces, rest) => ((joinPieces pieces).map .ofList, rest)

/-! ## Numbers -/

/-- At least one digit, and what follows. -/
def takeDigits (s : List Char) : Option (List Char × List Char) :=
  let (digits, rest) := Decimal.spanDigits s
  if digits.isEmpty then none else some (digits, rest)

/-- The digits before the point, where a zero stands alone. -/
def takeWholeDigits : List Char → Option (List Char × List Char)
  | '0' :: rest => if (Decimal.spanDigits rest).1.isEmpty then some (['0'], rest) else none
  | s => takeDigits s

/-- The digits after a point; without a point there are none. -/
def takeFractionDigits : List Char → Option (List Char × List Char)
  | '.' :: rest => takeDigits rest
  | s => some ([], s)

/-- The sign and the digits of an exponent, if there is one. -/
def takeExponent : List Char → Option (Option (Bool × List Char) × List Char)
  | [] => some (none, [])
  | mark :: rest =>
    if mark = 'e' ∨ mark = 'E' then do
      let (negative, rest) := Decimal.splitSign rest
      let (digits, rest) ← takeDigits rest
      some (some (negative, digits), rest)
    else some (none, mark :: rest)

/-- A number and what follows it. -/
def takeNumber (s : List Char) : Option (Number × List Char) := do
  let (negative, rest) := match s with
    | '-' :: rest => (true, rest)
    | _ => (false, s)
  let (whole, rest) ← takeWholeDigits rest
  let (fraction, rest) ← takeFractionDigits rest
  let (exponent, rest) ← takeExponent rest
  some ({ negative, whole, fraction, exponent }, rest)

/-! ## Values -/

/-- A key with its colon, and what follows. -/
def takeKey (s : List Char) : Option (Option String × List Char) :=
  match skipBlanks s with
  | '"' :: rest => do
    let (key, rest) ← takeString rest
    match skipBlanks rest with
    | ':' :: rest => some (key, rest)
    | _ => none
  | _ => none

mutual

/-- A value and what follows it. The fuel bounds the depth of the calls. -/
def takeValue : (fuel : Nat) → List Char → Option (Json × List Char)
  | 0, _ => none
  | fuel + 1, s =>
    match skipBlanks s with
    | 'n' :: 'u' :: 'l' :: 'l' :: rest => some (.null, rest)
    | 't' :: 'r' :: 'u' :: 'e' :: rest => some (.bool true, rest)
    | 'f' :: 'a' :: 'l' :: 's' :: 'e' :: rest => some (.bool false, rest)
    | '"' :: rest => (takeString rest).map fun (s, rest) => (.string s, rest)
    | '[' :: rest =>
      match skipBlanks rest with
      | ']' :: rest => some (.array [], rest)
      | rest => (takeItems fuel rest).map fun (items, rest) => (.array items, rest)
    | '\x7b' :: rest =>
      match skipBlanks rest with
      | '\x7d' :: rest => some (.object [], rest)
      | rest => (takeMembers fuel rest).map fun (members, rest) => (.object members, rest)
    | rest => (takeNumber rest).map fun (n, rest) => (.number n, rest)

/-- The items up to the closing bracket, at least one. -/
def takeItems : (fuel : Nat) → List Char → Option (List Json × List Char)
  | 0, _ => none
  | fuel + 1, s => do
    let (item, rest) ← takeValue fuel s
    match skipBlanks rest with
    | ']' :: rest => some ([item], rest)
    | ',' :: rest => do
      let (items, rest) ← takeItems fuel rest
      some (item :: items, rest)
    | _ => none

/-- The members up to the closing brace, at least one. -/
def takeMembers : (fuel : Nat) → List Char → Option (List (Option String × Json) × List Char)
  | 0, _ => none
  | fuel + 1, s => do
    let (key, rest) ← takeKey s
    let (value, rest) ← takeValue fuel rest
    match skipBlanks rest with
    | '\x7d' :: rest => some ([(key, value)], rest)
    | ',' :: rest => do
      let (members, rest) ← takeMembers fuel rest
      some ((key, value) :: members, rest)
    | _ => none

end

/-- The value that a text describes, with nothing but blanks around it. A value opens at most one
array or object and starts at most one item with each character, so the fuel suffices. -/
def parse? (text : String) : Option Json := do
  let s := text.toList
  let (value, rest) ← takeValue (2 * s.length + 2) s
  if (skipBlanks rest).isEmpty then some value else none

end ImageCircuit.Json
