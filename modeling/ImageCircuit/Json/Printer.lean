import ImageCircuit.Json.Basic

/-!
# Writing JSON

* `Json.compact`: without blanks
* `Json.pretty`: one item a line, indented by two spaces a level
-/

namespace ImageCircuit.Json

/-- The characters of a number literal. -/
def Number.chars (n : Number) : List Char :=
  let fraction := if n.fraction.isEmpty then [] else '.' :: n.fraction
  let exponent := match n.exponent with
    | none => []
    | some (negative, digits) => 'e' :: Decimal.signText negative ++ digits
  Decimal.signText n.negative ++ n.whole ++ fraction ++ exponent

/-- A lower-case hexadecimal digit. -/
def hexDigit (n : Nat) : Char :=
  (['0', '1', '2', '3', '4', '5', '6', '7', '8', '9', 'a', 'b', 'c', 'd', 'e', 'f']).getD n '0'

/-- A character of a string: quotes, backslashes and control characters are escaped. -/
def escape (c : Char) : List Char :=
  if c = '"' then ['\\', '"']
  else if c = '\\' then ['\\', '\\']
  else if c = '\n' then ['\\', 'n']
  else if c = '\r' then ['\\', 'r']
  else if c = '\t' then ['\\', 't']
  else if c.toNat = 0x08 then ['\\', 'b']
  else if c.toNat = 0x0C then ['\\', 'f']
  else if c.toNat < 0x20 then
    ['\\', 'u', '0', '0', hexDigit (c.toNat / 16), hexDigit (c.toNat % 16)]
  else [c]

/-- A string in quotes. -/
def quoted (s : String) : List Char :=
  '"' :: s.toList.flatMap escape ++ ['"']

/-- A string or key in quotes; one that stands for no text is written empty. -/
def quotedOrEmpty (s : Option String) : List Char :=
  quoted (s.getD "")

/-- The words of the truth values. -/
def boolChars (b : Bool) : List Char :=
  if b then ['t', 'r', 'u', 'e'] else ['f', 'a', 'l', 's', 'e']

/-! ## Compact text -/

mutual

/-- The characters of a value without blanks. -/
def compactChars : Json → List Char
  | .null => ['n', 'u', 'l', 'l']
  | .bool b => boolChars b
  | .number n => n.chars
  | .string s => quotedOrEmpty s
  | .array items => '[' :: compactItems items ++ [']']
  | .object members => '\x7b' :: compactMembers members ++ ['\x7d']

/-- The items of an array, joined by commas. -/
def compactItems : List Json → List Char
  | [] => []
  | [item] => compactChars item
  | item :: rest => compactChars item ++ ',' :: compactItems rest

/-- The members of an object, joined by commas. -/
def compactMembers : List (Option String × Json) → List Char
  | [] => []
  | [(key, value)] => quotedOrEmpty key ++ ':' :: compactChars value
  | (key, value) :: rest =>
    quotedOrEmpty key ++ ':' :: compactChars value ++ ',' :: compactMembers rest

end

/-- A value without blanks. -/
def compact (j : Json) : String :=
  .ofList j.compactChars

/-! ## Indented text -/

/-- A line break and the blanks of an indentation level. -/
def newLine (level : Nat) : List Char :=
  '\n' :: List.replicate (2 * level) ' '

mutual

/-- The characters of a value whose lines are indented from `level` on. -/
def prettyChars (level : Nat) : Json → List Char
  | .null => ['n', 'u', 'l', 'l']
  | .bool b => boolChars b
  | .number n => n.chars
  | .string s => quotedOrEmpty s
  | .array [] => ['[', ']']
  | .array (item :: rest) =>
    '[' :: newLine (level + 1) ++ prettyChars (level + 1) item ++ prettyItems (level + 1) rest ++
      newLine level ++ [']']
  | .object [] => ['\x7b', '\x7d']
  | .object ((key, value) :: rest) =>
    '\x7b' :: newLine (level + 1) ++ quotedOrEmpty key ++ ':' :: ' ' ::
      prettyChars (level + 1) value ++ prettyMembers (level + 1) rest ++
      newLine level ++ ['\x7d']

/-- The items of an array behind the first one. -/
def prettyItems (level : Nat) : List Json → List Char
  | [] => []
  | item :: rest => ',' :: newLine level ++ prettyChars level item ++ prettyItems level rest

/-- The members of an object behind the first one. -/
def prettyMembers (level : Nat) : List (Option String × Json) → List Char
  | [] => []
  | (key, value) :: rest =>
    ',' :: newLine level ++ quotedOrEmpty key ++ ':' :: ' ' :: prettyChars level value ++
      prettyMembers level rest

end

/-- A value with one item a line. -/
def pretty (j : Json) : String :=
  .ofList (j.prettyChars 0)

end ImageCircuit.Json
