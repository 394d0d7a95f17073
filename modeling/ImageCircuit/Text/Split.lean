import ImageCircuit.Text.Blank

/-!
# Cutting text into pieces

* `splitAll`, `splitOnce`: cuts at a separator
* `words`: the runs of characters that are not blank
-/

namespace ImageCircuit.Text

/-- The pieces between the characters that satisfy `p`; there is always at least one piece. -/
def splitWhere (p : Char → Bool) : List Char → List (List Char)
  | [] => [[]]
  | c :: rest =>
    if p c then [] :: splitWhere p rest
    else
      match splitWhere p rest with
      | [] => [[c]]
      | piece :: pieces => (c :: piece) :: pieces

/-- The pieces between the separators; a text without the separator is one piece. -/
def splitAll (separator : Char) (s : List Char) : List (List Char) :=
  splitWhere (· == separator) s

/-- The text before the first separator and the text after it. -/
def splitOnce (separator : Char) : List Char → Option (List Char × List Char)
  | [] => none
  | c :: rest =>
    if c = separator then some ([], rest)
    else (splitOnce separator rest).map fun (before, after) => (c :: before, after)

/-- The runs of characters that are not blank, in order. -/
def words (s : List Char) : List (List Char) :=
  (splitWhere isBlank s).filter (!·.isEmpty)

theorem splitWhere_ne_nil (p : Char → Bool) (s : List Char) : splitWhere p s ≠ [] := by
  cases s with
  | nil => simp [splitWhere]
  | cons c rest =>
    rw [splitWhere]
    split
    · simp
    · split <;> simp

theorem ne_nil_of_mem_words {w s : List Char} (h : w ∈ words s) : w ≠ [] := by
  simp [words] at h
  exact h.2

example : words "  + 1\t2 ".toList = ["+".toList, "1".toList, "2".toList] := by decide
example : splitAll '|' "a||b".toList = ["a".toList, [], "b".toList] := by decide
example : splitOnce ')' "rgb)f()".toList = some ("rgb".toList, "f()".toList) := by decide

end ImageCircuit.Text
