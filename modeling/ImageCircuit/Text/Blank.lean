/-!
# Blank characters

* `isBlank`: the characters with the Unicode property White_Space
* `trim`: a text without the blanks at its ends
-/

namespace ImageCircuit.Text

/-- First and last code points of the runs of blank characters. -/
def blankRanges : List (Nat × Nat) :=
  [(0x09, 0x0D), (0x20, 0x20), (0x85, 0x85), (0xA0, 0xA0), (0x1680, 0x1680), (0x2000, 0x200A),
    (0x2028, 0x2029), (0x202F, 0x202F), (0x205F, 0x205F), (0x3000, 0x3000)]

/-- Whether a character separates words. -/
def isBlank (c : Char) : Bool :=
  blankRanges.any fun (first, last) => first ≤ c.toNat && c.toNat ≤ last

/-- The text without the blanks it starts with. -/
def trimStart (s : List Char) : List Char :=
  s.dropWhile isBlank

/-- The text without the blanks it starts or ends with. -/
def trim (s : List Char) : List Char :=
  (trimStart (trimStart s).reverse).reverse

end ImageCircuit.Text
