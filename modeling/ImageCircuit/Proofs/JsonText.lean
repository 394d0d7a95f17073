import ImageCircuit.Json.Parser
import ImageCircuit.Json.Printer
import ImageCircuit.Proofs.Literals

/-!
# JSON reads back

The text of a value is read as the value, character by character: what follows a value in a text
cannot be taken for a part of it, because a number ends at a bracket, a brace or a comma, and all
else ends by itself.

* `Json.takeString_escape`: strings, whatever characters they have
* `Json.takeNumber_chars`: numbers
* `Json.parse?_compact`: values
* `Json.Number.isLiteral_of_ofFloat?`: what is written for a double is a literal
-/

namespace ImageCircuit.Json

variable {c : Char} {s rest tail : List Char} {fuel : Nat}

/-! ## Strings -/

/-- One piece is read from a text, and it stands for a character. -/
def WritesPiece (c : Char) (text : List Char) : Prop :=
  ∃ piece, (∀ rest, takePieces (text ++ rest) =
    (takePieces rest).map fun (pieces, rest) => (piece :: pieces, rest)) ∧
      ∀ pieces, joinPieces (piece :: pieces) = (joinPieces pieces).map (c :: ·)

theorem writesPiece_letter {letter : Char} (hu : letter ≠ 'u') (h : unescape? letter = some c) :
    WritesPiece c ['\\', letter] := by
  refine ⟨.char c, fun rest => ?_, fun pieces => by rw [joinPieces]⟩
  show takePieces ('\\' :: letter :: rest) = _
  rw [takePieces, h]
  · cases takePieces rest <;> rfl
  · intro a b c d rest' e
    exact absurd e hu

theorem writesPiece_plain (hquote : c ≠ '"') (hslash : c ≠ '\\') (hcontrol : ¬ c.toNat < 0x20) :
    WritesPiece c [c] := by
  refine ⟨.char c, fun rest => ?_, fun pieces => by rw [joinPieces]⟩
  show takePieces (c :: rest) = _
  rw [takePieces, if_neg hcontrol]
  · cases takePieces rest <;> rfl
  · exact hquote
  · intros
    contradiction
  · intros
    contradiction

theorem hexUnit?_hexDigit {n : Nat} (h : n < 0x20) :
    hexUnit? '0' '0' (hexDigit (n / 16)) (hexDigit (n % 16)) = some n := by
  have hall : ∀ n < 0x20, hexUnit? '0' '0' (hexDigit (n / 16)) (hexDigit (n % 16)) = some n := by
    decide
  exact hall n h

theorem writesPiece_unit (h : c.toNat < 0x20) :
    WritesPiece c ['\\', 'u', '0', '0', hexDigit (c.toNat / 16), hexDigit (c.toNat % 16)] := by
  refine ⟨.unit c.toNat, fun rest => ?_, fun pieces => ?_⟩
  · show takePieces ('\\' :: 'u' :: '0' :: '0' :: hexDigit (c.toNat / 16) ::
      hexDigit (c.toNat % 16) :: rest) = _
    rw [takePieces, hexUnit?_hexDigit h]
    cases takePieces rest <;> rfl
  · rw [joinPieces.eq_def]
    simp only [if_pos (show c.toNat < 0xD800 ∨ 0xE000 ≤ c.toNat by omega), Char.ofNat_toNat]

theorem writesPiece_escape (c : Char) : WritesPiece c (escape c) := by
  unfold escape
  split
  · next h => exact writesPiece_letter (by decide) (by rw [h]; rfl)
  split
  · next h => exact writesPiece_letter (by decide) (by rw [h]; rfl)
  split
  · next h => exact writesPiece_letter (by decide) (by rw [h]; rfl)
  split
  · next h => exact writesPiece_letter (by decide) (by rw [h]; rfl)
  split
  · next h => exact writesPiece_letter (by decide) (by rw [h]; rfl)
  split
  · next h => exact writesPiece_letter (by decide) (by rw [← Char.ofNat_toNat c, h]; rfl)
  split
  · next h => exact writesPiece_letter (by decide) (by rw [← Char.ofNat_toNat c, h]; rfl)
  split
  · next h => exact writesPiece_unit h
  · next hquote hslash _ _ _ _ _ hcontrol => exact writesPiece_plain hquote hslash hcontrol

/-- What is written in quotes is read again, up to the closing quote. -/
theorem takeString_escape (s rest : List Char) :
    takeString (s.flatMap escape ++ '"' :: rest) = some (some (.ofList s), rest) := by
  have hpieces : ∃ pieces, takePieces (s.flatMap escape ++ '"' :: rest) = some (pieces, rest) ∧
      joinPieces pieces = some s := by
    induction s with
    | nil => exact ⟨[], by rw [List.flatMap_nil, List.nil_append, takePieces], by rw [joinPieces]⟩
    | cons c s ih =>
      obtain ⟨pieces, htake, hjoin⟩ := ih
      obtain ⟨piece, hpiece, hstands⟩ := writesPiece_escape c
      refine ⟨piece :: pieces, ?_, by rw [hstands, hjoin]; rfl⟩
      rw [List.flatMap_cons, List.append_assoc, hpiece, htake]
      rfl
  obtain ⟨pieces, htake, hjoin⟩ := hpieces
  simp [takeString, htake, hjoin]

/-! ## Numbers -/

/-- The rules of number literals: digits before the point, of which the first is a zero only if it
stands alone; digits behind it, and digits behind the exponent's mark. -/
structure Number.IsLiteral (n : Number) : Prop where
  whole : ∀ c ∈ n.whole, c.isDigit = true
  whole_ne_nil : n.whole ≠ []
  leading : ∀ rest, n.whole = '0' :: rest → rest = []
  fraction : ∀ c ∈ n.fraction, c.isDigit = true
  exponent : ∀ negative digits, n.exponent = some (negative, digits) →
    digits ≠ [] ∧ ∀ c ∈ digits, c.isDigit = true

/-- A text that does not go on with what could belong to a number. -/
def EndsNumber (rest : List Char) : Prop :=
  ∀ c ∈ rest.head?, c.isDigit = false ∧ c ≠ '.' ∧ c ≠ 'e' ∧ c ≠ 'E'

/-- The characters of the digits after the point, with the point. -/
def fractionChars (fraction : List Char) : List Char :=
  if fraction.isEmpty then [] else '.' :: fraction

/-- The characters of an exponent, with its mark. -/
def exponentChars : Option (Bool × List Char) → List Char
  | none => []
  | some (negative, digits) => 'e' :: Decimal.signText negative ++ digits

theorem Number.chars_eq (n : Number) :
    n.chars = Decimal.signText n.negative ++ n.whole ++ fractionChars n.fraction ++
      exponentChars n.exponent := by
  rw [chars, fractionChars]
  cases n.exponent <;> rfl

theorem takeDigits_append {digits : List Char} (hdigits : ∀ c ∈ digits, c.isDigit = true)
    (hne : digits ≠ []) (hrest : ∀ c ∈ rest.head?, c.isDigit = false) :
    takeDigits (digits ++ rest) = some (digits, rest) := by
  rw [takeDigits, Decimal.spanDigits_append hdigits hrest]
  simp [hne]

theorem takeExponent_exponentChars {n : Number} (h : n.IsLiteral) (hrest : EndsNumber rest) :
    takeExponent (exponentChars n.exponent ++ rest) = some (n.exponent, rest) := by
  cases hexp : n.exponent with
  | none =>
    cases rest with
    | nil => rfl
    | cons c rest =>
      obtain ⟨-, -, he, hE⟩ := hrest c rfl
      exact if_neg (not_or.mpr ⟨he, hE⟩)
  | some exponent =>
    obtain ⟨negative, digits⟩ := exponent
    obtain ⟨hne, hdigits⟩ := h.exponent negative digits hexp
    obtain ⟨d, ds, rfl⟩ := List.exists_cons_of_ne_nil hne
    have hsplit : Decimal.splitSign (Decimal.signText negative ++ d :: (ds ++ rest)) =
        (negative, d :: (ds ++ rest)) :=
      Decimal.splitSign_signText (hdigits d List.mem_cons_self) negative
    have htake := takeDigits_append hdigits hne fun c hc => (hrest c hc).1
    rw [exponentChars, List.cons_append, List.cons_append, List.append_assoc, List.cons_append,
      takeExponent, if_pos (.inl rfl), hsplit]
    dsimp only
    rw [← List.cons_append, htake]
    rfl

theorem takeFractionDigits_fractionChars {n : Number} (h : n.IsLiteral)
    (htail : ∀ c ∈ tail.head?, c.isDigit = false ∧ c ≠ '.') :
    takeFractionDigits (fractionChars n.fraction ++ tail) = some (n.fraction, tail) := by
  rw [fractionChars]
  split
  · next hempty =>
    rw [List.isEmpty_iff] at hempty
    rw [hempty, List.nil_append, takeFractionDigits.eq_def]
    split
    · exact absurd rfl (htail '.' rfl).2
    · rfl
  · next hne =>
    rw [List.isEmpty_iff] at hne
    exact takeDigits_append h.fraction hne fun c hc => (htail c hc).1

theorem takeWholeDigits_append {n : Number} (h : n.IsLiteral)
    (htail : ∀ c ∈ tail.head?, c.isDigit = false) :
    takeWholeDigits (n.whole ++ tail) = some (n.whole, tail) := by
  have hdigits := takeDigits_append h.whole h.whole_ne_nil htail
  rw [takeWholeDigits.eq_def]
  split
  · next rest hzero =>
    obtain ⟨d, ds, hwhole⟩ := List.exists_cons_of_ne_nil h.whole_ne_nil
    rw [hwhole, List.cons_append] at hzero
    obtain ⟨rfl, rfl⟩ := List.cons.inj hzero
    obtain rfl := h.leading ds hwhole
    have hspan : Decimal.spanDigits ([] ++ tail) = ([], tail) :=
      Decimal.spanDigits_append (List.forall_mem_nil _) htail
    rw [List.nil_append] at hspan
    simp [hspan, hwhole]
  · exact hdigits

/-- The parts of a number are read one behind the other. -/
theorem takeNumber_eq {n : Number} {body s₁ s₂ s₃ : List Char} (hminus : ∀ c ∈ body.head?, c ≠ '-')
    (hwhole : takeWholeDigits body = some (n.whole, s₁))
    (hfraction : takeFractionDigits s₁ = some (n.fraction, s₂))
    (hexponent : takeExponent s₂ = some (n.exponent, s₃)) :
    takeNumber (Decimal.signText n.negative ++ body) = some (n, s₃) := by
  obtain ⟨negative, whole, fraction, exponent⟩ := n
  cases negative with
  | true => simp [takeNumber, Decimal.signText, hwhole, hfraction, hexponent]
  | false =>
    show takeNumber body = _
    unfold takeNumber
    split
    next hsign =>
      split at hsign
      · exact absurd rfl (hminus '-' rfl)
      · obtain ⟨rfl, rfl⟩ := Prod.mk.inj hsign
        simp [hwhole, hfraction, hexponent]

/-- A number is read from its text, up to what cannot belong to it. -/
theorem takeNumber_chars {n : Number} (h : n.IsLiteral) (hrest : EndsNumber rest) :
    takeNumber (n.chars ++ rest) = some (n, rest) := by
  have hexponent := takeExponent_exponentChars h hrest
  have hmark : ∀ c ∈ (exponentChars n.exponent ++ rest).head?, c.isDigit = false ∧ c ≠ '.' := by
    cases n.exponent with
    | none => exact fun c hc => ⟨(hrest c hc).1, (hrest c hc).2.1⟩
    | some exponent =>
      intro c hc
      obtain rfl := Option.some.inj hc
      decide
  have hfraction := takeFractionDigits_fractionChars h hmark
  have hpoint : ∀ c ∈ (fractionChars n.fraction ++ (exponentChars n.exponent ++ rest)).head?,
      c.isDigit = false := by
    rw [fractionChars]
    split
    · exact fun c hc => (hmark c hc).1
    · intro c hc
      obtain rfl := Option.some.inj hc
      decide
  have hwhole := takeWholeDigits_append h hpoint
  have hminus : ∀ c ∈ (n.whole ++ (fractionChars n.fraction ++
      (exponentChars n.exponent ++ rest))).head?, c ≠ '-' := by
    obtain ⟨d, ds, hcons⟩ := List.exists_cons_of_ne_nil h.whole_ne_nil
    rw [hcons]
    rintro c hc rfl
    obtain rfl := Option.some.inj hc
    exact absurd (h.whole '-' (hcons ▸ List.mem_cons_self)) (by decide)
  rw [Number.chars_eq]
  simp only [List.append_assoc]
  exact takeNumber_eq hminus hwhole hfraction hexponent

/-! ## Values -/

/-- A value whose text says all about it: its numbers keep the rules of literals, and its strings
stand for characters. -/
inductive Writable : Json → Prop where
  | null : Writable .null
  | bool (b : Bool) : Writable (.bool b)
  | number {n : Number} (h : n.IsLiteral) : Writable (.number n)
  | text (s : String) : Writable (text s)
  | array {items : List Json} (h : ∀ item ∈ items, Writable item) : Writable (.array items)
  | object {members : List (Option String × Json)} (hkeys : ∀ member ∈ members, member.1.isSome)
      (h : ∀ member ∈ members, Writable member.2) : Writable (.object members)

/-- A value is read from its text, up to what cannot belong to a number. -/
def Rereads (j : Json) : Prop :=
  ∀ fuel rest, 2 * j.compactChars.length ≤ fuel → EndsNumber rest →
    takeValue fuel (j.compactChars ++ rest) = some (j, rest)

theorem endsNumber_cons (h : c.isDigit = false ∧ c ≠ '.' ∧ c ≠ 'e' ∧ c ≠ 'E') :
    EndsNumber (c :: rest) := by
  intro d hd
  obtain rfl := Option.some.inj hd
  exact h

theorem skipBlanks_cons (h : isBlank c = false) : skipBlanks (c :: s) = c :: s :=
  List.dropWhile_cons_of_neg (by simp [h])

theorem takeKey_quoted (key : String) (rest : List Char) :
    takeKey (quotedOrEmpty (some key) ++ ':' :: rest) = some (some key, rest) := by
  have hstring := takeString_escape key.toList (':' :: rest)
  rw [String.ofList_toList] at hstring
  rw [quotedOrEmpty, Option.getD_some, quoted, List.cons_append, List.cons_append,
    List.append_assoc, List.singleton_append, takeKey, skipBlanks_cons rfl]
  simp only [hstring, Option.bind_eq_bind, Option.bind_some,
    skipBlanks_cons (show isBlank ':' = false from rfl)]

theorem compactItems_cons_cons (item next : Json) (items : List Json) :
    compactItems (item :: next :: items) =
      item.compactChars ++ ',' :: compactItems (next :: items) := by
  rw [compactItems]
  exact List.cons_ne_nil _ _

theorem compactMembers_cons_cons (key : Option String) (value : Json)
    (next : Option String × Json) (members : List (Option String × Json)) :
    compactMembers ((key, value) :: next :: members) =
      quotedOrEmpty key ++
        ':' :: (value.compactChars ++ ',' :: compactMembers (next :: members)) := by
  rw [compactMembers, List.append_assoc, List.cons_append]
  exact List.cons_ne_nil _ _

/-- The items of an array are read one after the other. -/
theorem takeItems_compactItems {items : List Json} (hne : items ≠ [])
    (h : ∀ item ∈ items, item.Rereads) (hfuel : 2 * (compactItems items).length + 1 ≤ fuel) :
    takeItems fuel (compactItems items ++ ']' :: rest) = some (items, rest) := by
  induction items generalizing fuel with
  | nil => exact absurd rfl hne
  | cons item items ih =>
    obtain ⟨hitem, hitems⟩ := List.forall_mem_cons.mp h
    obtain ⟨fuel, rfl⟩ := Nat.exists_eq_add_one_of_ne_zero (show fuel ≠ 0 by omega)
    cases items with
    | nil =>
      rw [compactItems] at hfuel ⊢
      rw [takeItems, hitem fuel _ (by omega) (endsNumber_cons (by decide))]
      rfl
    | cons next items =>
      rw [compactItems_cons_cons, List.length_append, List.length_cons] at hfuel
      rw [compactItems_cons_cons, List.append_assoc, List.cons_append, takeItems,
        hitem fuel _ (by omega) (endsNumber_cons (by decide))]
      have hrest := ih (List.cons_ne_nil _ _) hitems (show _ ≤ fuel by omega)
      show (takeItems fuel (compactItems (next :: items) ++ ']' :: rest)).bind
        (fun read => some (item :: read.1, read.2)) = _
      rw [hrest]
      rfl

/-- The members of an object are read one after the other. -/
theorem takeMembers_compactMembers {members : List (Option String × Json)} (hne : members ≠ [])
    (hkeys : ∀ member ∈ members, member.1.isSome = true) (h : ∀ member ∈ members, member.2.Rereads)
    (hfuel : 2 * (compactMembers members).length + 1 ≤ fuel) :
    takeMembers fuel (compactMembers members ++ '\x7d' :: rest) = some (members, rest) := by
  induction members generalizing fuel with
  | nil => exact absurd rfl hne
  | cons member members ih =>
    obtain ⟨_ | key, value⟩ := member
    · cases hkeys _ List.mem_cons_self
    obtain ⟨hvalue, hvalues⟩ := List.forall_mem_cons.mp h
    obtain ⟨fuel, rfl⟩ := Nat.exists_eq_add_one_of_ne_zero (show fuel ≠ 0 by omega)
    cases members with
    | nil =>
      rw [compactMembers, List.length_append, List.length_cons] at hfuel
      have hlast := hvalue fuel ('\x7d' :: rest) (by dsimp only; omega)
        (endsNumber_cons (by decide))
      rw [compactMembers, List.append_assoc, List.cons_append, takeMembers, takeKey_quoted]
      simp only [Option.bind_eq_bind, Option.bind_some, hlast]
      rfl
    | cons next members =>
      rw [compactMembers_cons_cons, List.length_append, List.length_cons, List.length_append,
        List.length_cons] at hfuel
      have hfirst := hvalue fuel (',' :: (compactMembers (next :: members) ++ '\x7d' :: rest))
        (by dsimp only; omega) (endsNumber_cons (by decide))
      have hrest := ih (List.cons_ne_nil _ _) (List.forall_mem_cons.mp hkeys).2 hvalues
        (show _ ≤ fuel by omega)
      rw [compactMembers_cons_cons, List.append_assoc, List.cons_append, List.append_assoc,
        List.cons_append, takeMembers, takeKey_quoted]
      simp only [Option.bind_eq_bind, Option.bind_some, hfirst, skipBlanks_cons (s := compactMembers
        (next :: members) ++ '\x7d' :: rest) (show isBlank ',' = false by decide), hrest]

/-- A number starts with a digit or a minus. -/
theorem Number.IsLiteral.chars_eq_cons {n : Number} (h : n.IsLiteral) :
    ∃ c s, n.chars = c :: s ∧ (c = '-' ∨ c.isDigit = true) := by
  obtain ⟨d, ds, hcons⟩ := List.exists_cons_of_ne_nil h.whole_ne_nil
  rw [Number.chars_eq, hcons]
  cases n.negative with
  | true => exact ⟨'-', _, rfl, .inl rfl⟩
  | false => exact ⟨d, _, rfl, .inr (h.whole d (hcons ▸ List.mem_cons_self))⟩

theorem isBlank_of_isDigit (h : c.isDigit = true) : isBlank c = false := by
  rw [isBlank]
  simp only [Bool.or_eq_false_iff, decide_eq_false_iff_not]
  refine ⟨⟨⟨?_, ?_⟩, ?_⟩, ?_⟩ <;>
  · rintro rfl
    cases h

/-- The text of a value starts with what is neither blank nor the end of an array. -/
theorem Writable.compactChars_eq_cons {j : Json} (h : j.Writable) :
    ∃ c s, j.compactChars = c :: s ∧ isBlank c = false ∧ c ≠ ']' := by
  cases h with
  | null => exact ⟨'n', _, by rw [compactChars], by decide, by decide⟩
  | bool b => cases b <;> exact ⟨_, _, by rw [compactChars, boolChars]; rfl, by decide, by decide⟩
  | number h =>
    obtain ⟨c, s, hcons, rfl | hc⟩ := h.chars_eq_cons
    · exact ⟨'-', s, by rw [compactChars, hcons], by decide, by decide⟩
    · refine ⟨c, s, by rw [compactChars, hcons], isBlank_of_isDigit hc, ?_⟩
      rintro rfl
      cases hc
  | text s => exact ⟨'"', _, by rw [Json.text, compactChars]; rfl, by decide, by decide⟩
  | array h => exact ⟨'[', _, by rw [compactChars]; rfl, by decide, by decide⟩
  | object hkeys h => exact ⟨'\x7b', _, by rw [compactChars]; rfl, by decide, by decide⟩

/-- What starts with a digit or a minus is read as a number. -/
theorem takeValue_number (h : c = '-' ∨ c.isDigit = true) (fuel : Nat) (s : List Char) :
    takeValue (fuel + 1) (c :: s) =
      (takeNumber (c :: s)).map fun (n, rest) => (.number n, rest) := by
  have hblank : isBlank c = false := by
    rcases h with rfl | h
    · decide
    · exact isBlank_of_isDigit h
  have hother : ∀ first ∈ ['n', 't', 'f', '"', '[', '\x7b'], ∀ rest, c :: s ≠ first :: rest := by
    intro first hfirst rest heq
    obtain rfl := (List.cons.inj heq).1
    rcases h with rfl | h
    · exact absurd hfirst (by decide)
    · have hdigit : ['n', 't', 'f', '"', '[', '\x7b'].all (!·.isDigit) = true := by decide
      have := List.all_eq_true.mp hdigit c hfirst
      rw [h] at this
      cases this
  rw [takeValue, skipBlanks_cons hblank]
  split
  · next heq => exact absurd heq (hother 'n' (by decide) _)
  · next heq => exact absurd heq (hother 't' (by decide) _)
  · next heq => exact absurd heq (hother 'f' (by decide) _)
  · next heq => exact absurd heq (hother '"' (by decide) _)
  · next heq => exact absurd heq (hother '[' (by decide) _)
  · next heq => exact absurd heq (hother '\x7b' (by decide) _)
  · rfl

/-- What follows the bracket, if it is not the other one, is read as items. -/
theorem takeValue_array (hblank : isBlank c = false) (hc : c ≠ ']') (fuel : Nat) (s : List Char) :
    takeValue (fuel + 1) ('[' :: c :: s) =
      (takeItems fuel (c :: s)).map fun (items, rest) => (.array items, rest) := by
  rw [takeValue, skipBlanks_cons rfl]
  split
  case h_5 rest heq =>
    obtain rfl := (List.cons.inj heq).2
    rw [skipBlanks_cons hblank]
    split
    · next heq => exact absurd (List.cons.inj heq).1 hc
    · rfl
  case h_7 hbracket _ => exact absurd rfl (hbracket _)
  all_goals next heq => exact absurd (List.cons.inj heq).1 (by decide)

theorem rereads_of_succ {j : Json} (h : j.Writable)
    (hsucc : ∀ fuel rest, 2 * j.compactChars.length ≤ fuel + 1 → EndsNumber rest →
      takeValue (fuel + 1) (j.compactChars ++ rest) = some (j, rest)) : j.Rereads := by
  intro fuel rest hfuel hrest
  obtain ⟨c, s, hcons, -, -⟩ := h.compactChars_eq_cons
  have hpos : 0 < j.compactChars.length := by rw [hcons]; exact Nat.succ_pos _
  obtain ⟨fuel, rfl⟩ := Nat.exists_eq_add_one_of_ne_zero (show fuel ≠ 0 by omega)
  exact hsucc fuel rest hfuel hrest

theorem rereads_number {n : Number} (h : n.IsLiteral) : (Json.number n).Rereads := by
  refine rereads_of_succ (.number h) fun fuel rest _ hrest => ?_
  obtain ⟨c, s, hcons, hc⟩ := h.chars_eq_cons
  rw [compactChars, hcons, List.cons_append, takeValue_number hc, ← List.cons_append, ← hcons,
    takeNumber_chars h hrest]
  rfl

theorem rereads_text (s : String) : (text s).Rereads := by
  refine rereads_of_succ (.text s) fun fuel rest _ _ => ?_
  have hstring := takeString_escape s.toList rest
  rw [String.ofList_toList] at hstring
  rw [text, compactChars, quotedOrEmpty, Option.getD_some, quoted, List.cons_append,
    List.cons_append, List.append_assoc, List.singleton_append]
  show (takeString (s.toList.flatMap escape ++ '"' :: rest)).map
    (fun read => (Json.string read.1, read.2)) = _
  rw [hstring]
  rfl

theorem rereads_array {items : List Json} (h : ∀ item ∈ items, item.Writable)
    (hitems : ∀ item ∈ items, item.Rereads) : (Json.array items).Rereads := by
  refine rereads_of_succ (.array h) fun fuel rest hfuel _ => ?_
  rw [compactChars, List.length_append, List.length_cons] at hfuel
  rw [compactChars, List.cons_append, List.cons_append, List.append_assoc, List.singleton_append]
  cases items with
  | nil => rfl
  | cons item items =>
    have htake : takeItems fuel (compactItems (item :: items) ++ ']' :: rest) =
        some (item :: items, rest) :=
      takeItems_compactItems (List.cons_ne_nil _ _) hitems (by omega)
    obtain ⟨c, s, hcons, hblank, hc⟩ := (h item List.mem_cons_self).compactChars_eq_cons
    have hstart : ∃ s, compactItems (item :: items) ++ ']' :: rest = c :: s := by
      cases items with
      | nil => exact ⟨_, by rw [compactItems, hcons]; rfl⟩
      | cons => exact ⟨_, by rw [compactItems_cons_cons, hcons]; rfl⟩
    obtain ⟨s, hs⟩ := hstart
    rw [hs] at htake ⊢
    rw [takeValue_array hblank hc, htake]
    rfl

theorem rereads_object {members : List (Option String × Json)}
    (hkeys : ∀ member ∈ members, member.1.isSome) (h : ∀ member ∈ members, member.2.Writable)
    (hmembers : ∀ member ∈ members, member.2.Rereads) : (Json.object members).Rereads := by
  refine rereads_of_succ (.object hkeys h) fun fuel rest hfuel _ => ?_
  rw [compactChars, List.length_append, List.length_cons] at hfuel
  rw [compactChars, List.cons_append, List.cons_append, List.append_assoc, List.singleton_append]
  cases members with
  | nil => rfl
  | cons member members =>
    have htake : takeMembers fuel (compactMembers (member :: members) ++ '\x7d' :: rest) =
        some (member :: members, rest) :=
      takeMembers_compactMembers (List.cons_ne_nil _ _) hkeys hmembers (by omega)
    have hstart : ∃ s, compactMembers (member :: members) ++ '\x7d' :: rest = '"' :: s := by
      cases members with
      | nil => exact ⟨_, by rw [compactMembers]; rfl⟩
      | cons => exact ⟨_, by rw [compactMembers_cons_cons]; rfl⟩
    obtain ⟨s, hs⟩ := hstart
    rw [hs] at htake ⊢
    show (takeMembers fuel ('"' :: s)).map (fun read => (Json.object read.1, read.2)) = _
    rw [htake]
    rfl

/-- What can be written is read again. -/
theorem Writable.rereads {j : Json} (h : j.Writable) : j.Rereads := by
  induction h with
  | null => exact rereads_of_succ .null fun _ _ _ _ => rfl
  | bool b => exact rereads_of_succ (.bool b) fun _ _ _ _ => by cases b <;> rfl
  | number h => exact rereads_number h
  | text s => exact rereads_text s
  | array h ih => exact rereads_array h ih
  | object hkeys h ih => exact rereads_object hkeys h ih

/-- The compact text of a value that can be written is read as the value. -/
theorem parse?_compact {j : Json} (h : j.Writable) : parse? j.compact = some j := by
  have htake := h.rereads (2 * j.compactChars.length + 2) [] (by omega) (by simp [EndsNumber])
  rw [List.append_nil] at htake
  rw [parse?, compact, String.toList_ofList, htake]
  rfl

/-! ## Literals of numbers -/

open Decimal (digitsOf isDigit_of_mem_digitsOf digitsOf_ne_nil)

theorem Number.isLiteral_ofNat (n : Nat) : (Number.ofNat n).IsLiteral where
  whole _ := isDigit_of_mem_digitsOf
  whole_ne_nil := digitsOf_ne_nil n
  leading _ := Decimal.eq_nil_of_digitsOf_eq
  fraction _ hc := absurd hc List.not_mem_nil
  exponent _ _ h := nomatch h

theorem Number.isLiteral_zero (negative : Bool) {fraction : List Char}
    (h : ∀ c ∈ fraction, c.isDigit = true) :
    IsLiteral { negative, whole := ['0'], fraction, exponent := none } where
  whole _ := Decimal.isDigit_zero_of_mem (k := 1)
  whole_ne_nil := List.cons_ne_nil _ _
  leading _ hrest := (List.cons.inj hrest).2.symm
  fraction := h
  exponent := nofun

/-- Digits that do not start with a zero may have the point behind any of them. -/
theorem Number.isLiteral_point (negative : Bool) {digits : List Char}
    {exponent : Option (Bool × List Char)} {k : Nat} (hk : 0 < k)
    (hdigits : ∀ c ∈ digits, c.isDigit = true) (hne : digits ≠ []) (hhead : digits.head? ≠ some '0')
    (hexponent : ∀ negative digits, exponent = some (negative, digits) →
      digits ≠ [] ∧ ∀ c ∈ digits, c.isDigit = true) :
    IsLiteral { negative, whole := digits.take k, fraction := digits.drop k, exponent } where
  whole c hc := hdigits c (List.mem_of_mem_take hc)
  whole_ne_nil := by simp [hne, hk.ne']
  leading rest hrest := by
    have htake := congrArg List.head? hrest
    rw [List.head?_take, if_neg hk.ne'] at htake
    exact absurd htake hhead
  fraction c hc := hdigits c (List.mem_of_mem_drop hc)
  exponent := hexponent

/-- Wherever the point stands, the digits of a positive number are a literal. -/
theorem Number.isLiteral_ofScientific (negative : Bool) {s : Decimal.Scientific}
    (h : 0 < s.digits) : (Number.ofScientific negative s).IsLiteral := by
  have hne := digitsOf_ne_nil s.digits
  have hhead := Decimal.head?_digitsOf_ne h
  have hdigits : ∀ c ∈ digitsOf s.digits, c.isDigit = true := fun _ => isDigit_of_mem_digitsOf
  have hzeros : ∀ k, ∀ c ∈ List.replicate k '0', c.isDigit = true :=
    fun _ _ => Decimal.isDigit_zero_of_mem
  unfold ofScientific
  extract_lets digits point
  split_ifs with hwhole hinside hbehind
  · refine ⟨List.forall_mem_append.mpr ⟨hdigits, hzeros _⟩, List.append_ne_nil_of_left_ne_nil hne _,
      fun rest hrest => ?_, hzeros 1, nofun⟩
    have hfirst := congrArg List.head? hrest
    rw [List.head?_append_of_ne_nil _ hne] at hfirst
    exact absurd hfirst hhead
  · exact isLiteral_point negative (by omega) hdigits hne hhead nofun
  · exact isLiteral_zero negative (List.forall_mem_append.mpr ⟨hzeros _, hdigits⟩)
  · refine isLiteral_point negative Nat.one_pos hdigits hne hhead ?_
    rintro _ _ ⟨⟩
    exact ⟨digitsOf_ne_nil _, fun _ => isDigit_of_mem_digitsOf⟩

theorem Number.isLiteral_of_ofFloat? {x : Float} {n : Number} (h : Number.ofFloat? x = some n) :
    n.IsLiteral := by
  unfold Number.ofFloat? at h
  split at h
  · next negative m e hparts =>
    split at h
    · obtain rfl := Option.some.inj h
      exact isLiteral_zero negative fun _ => Decimal.isDigit_zero_of_mem (k := 1)
    · next hm =>
      obtain rfl := Option.some.inj h
      have hpos := Decimal.shortest_digits_pos .even (Decimal.ofFloat_finite hparts).1
        (Nat.pos_of_ne_zero hm)
      exact isLiteral_ofScientific negative hpos
  · cases h

end ImageCircuit.Json
