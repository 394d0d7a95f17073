import ImageCircuit.Decimal.Layout
import ImageCircuit.Decimal.Read
import ImageCircuit.Proofs.Shortest
import ImageCircuit.Text.Blank
import Mathlib.Data.Bool.AllAny
import Mathlib.Data.List.TakeWhile

/-!
# Literals read back

* `Decimal.readCount_digitsOf`: the digits of a natural number of one word
* `Decimal.readFloat_textChars`: the text of a double
-/

namespace ImageCircuit.Decimal

variable {c : Char} {digits whole fraction : List Char} {negative : Bool} {m n : Nat} {e : ℤ}

/-! ## Digits -/

theorem ofDigits_eq (digits : List Char) : ofDigits digits = Nat.ofDigitChars 10 digits 0 :=
  rfl

theorem ofDigits_digitsOf (n : Nat) : ofDigits (digitsOf n) = n :=
  Nat.ofDigitChars_ten_toDigits

theorem digitsOf_ne_nil (n : Nat) : digitsOf n ≠ [] :=
  Nat.toDigits_ne_nil

theorem isDigit_of_mem_digitsOf (h : c ∈ digitsOf n) : c.isDigit = true :=
  Nat.isDigit_of_mem_toDigits (by decide) (by decide) h

theorem readCount_digitsOf (h : n < wordLimit) : readCount (digitsOf n) = some n := by
  have hall : (digitsOf n).all Char.isDigit = true :=
    List.all_eq_true.mpr fun _ => isDigit_of_mem_digitsOf
  have hempty : (digitsOf n).isEmpty = false := by simp [digitsOf_ne_nil]
  unfold readCount
  split
  · next rest heq =>
    have hplus := isDigit_of_mem_digitsOf (heq ▸ List.mem_cons_self : '+' ∈ digitsOf n)
    cases hplus
  · simp [hall, hempty, ofDigits_digitsOf, h]

theorem lt_of_readCount {s : List Char} (h : readCount s = some n) : n < wordLimit := by
  unfold readCount at h
  extract_lets digits at h
  split at h
  · cases h
  · split at h
    · next hlt => exact Option.some.inj h ▸ hlt
    · cases h

theorem toNat_of_isDigit (h : c.isDigit = true) : c.toNat - '0'.toNat < 10 := by
  have := Char.isDigit_iff_toNat.mp h
  simp only [show '0'.toNat = 48 from rfl, show '9'.toNat = 57 from rfl] at *
  omega

theorem ofDigits_cons (c : Char) (digits : List Char) :
    ofDigits (c :: digits) = 10 ^ digits.length * (c.toNat - '0'.toNat) + ofDigits digits := by
  rw [ofDigits_eq, ofDigits_eq, Nat.ofDigitChars_cons, Nat.ofDigitChars_eq_ofDigitChars_zero]
  simp

theorem ofDigits_append (whole fraction : List Char) :
    ofDigits (whole ++ fraction) = 10 ^ fraction.length * ofDigits whole + ofDigits fraction := by
  rw [ofDigits_eq, ofDigits_eq, ofDigits_eq, Nat.ofDigitChars_append,
    Nat.ofDigitChars_eq_ofDigitChars_zero]

theorem ofDigits_lt (hdigits : ∀ c ∈ digits, c.isDigit = true) :
    ofDigits digits < 10 ^ digits.length := by
  induction digits with
  | nil => exact Nat.one_pos
  | cons c rest ih =>
    obtain ⟨hc, hrest⟩ := List.forall_mem_cons.mp hdigits
    have hstep : 10 ^ rest.length * (c.toNat - '0'.toNat) ≤ 10 ^ rest.length * 9 :=
      Nat.mul_le_mul_left _ (Nat.le_of_lt_succ (toNat_of_isDigit hc))
    have := ih hrest
    rw [ofDigits_cons, List.length_cons, Nat.pow_succ]
    omega

/-- The digits behind the zeros that a number starts with tell its size. -/
theorem ofDigits_bounds (hdigits : ∀ c ∈ digits, c.isDigit = true) (hne : ofDigits digits ≠ 0) :
    10 ^ (digits.dropWhile (· == '0')).length ≤ 10 * ofDigits digits ∧
      ofDigits digits < 10 ^ (digits.dropWhile (· == '0')).length := by
  induction digits with
  | nil => exact absurd rfl hne
  | cons c rest ih =>
    obtain ⟨hc, hrest⟩ := List.forall_mem_cons.mp hdigits
    by_cases hzero : c = '0'
    · subst hzero
      have hdrop : ofDigits ('0' :: rest) = ofDigits rest := by
        rw [ofDigits_cons, Nat.sub_self, Nat.mul_zero, Nat.zero_add]
      rw [hdrop] at hne ⊢
      exact ih hrest hne
    · rw [List.dropWhile_cons_of_neg (by simpa using hzero)]
      refine ⟨?_, ofDigits_lt hdigits⟩
      have hpos : 0 < c.toNat - '0'.toNat := by
        have hge := (Char.isDigit_iff_toNat.mp hc).1
        have hneq : c.toNat ≠ '0'.toNat := fun heq => hzero (Char.toNat_inj.mp heq)
        omega
      rw [ofDigits_cons, List.length_cons, Nat.pow_succ]
      have := Nat.le_mul_of_pos_right (10 ^ rest.length) hpos
      omega

/-- The digits of a number start with a zero only if they are a zero. -/
theorem eq_nil_of_digitsOf_eq (h : digitsOf n = '0' :: rest) : rest = [] := by
  by_contra hne
  have hdigits : ∀ c ∈ '0' :: rest, c.isDigit = true := h ▸ fun _ => isDigit_of_mem_digitsOf
  have hlt : n < 10 ^ rest.length := by
    rw [← ofDigits_digitsOf n, h, ofDigits_cons, Nat.sub_self, Nat.mul_zero, Nat.zero_add]
    exact ofDigits_lt (List.forall_mem_cons.mp hdigits).2
  have hlength := (Nat.length_toDigits_le_iff (by decide) (List.length_pos_iff.mpr hne)).mpr hlt
  rw [← digitsOf, h, List.length_cons] at hlength
  exact Nat.not_succ_le_self _ hlength

theorem head?_digitsOf_ne (h : 0 < n) : (digitsOf n).head? ≠ some '0' := by
  intro hhead
  obtain ⟨rest, hcons⟩ := List.head?_eq_some_iff.mp hhead
  obtain rfl := eq_nil_of_digitsOf_eq hcons
  have hzero := ofDigits_digitsOf n
  rw [hcons] at hzero
  exact h.ne hzero

/-! ## Decimals -/

/-- What is rounded to a double other than zero is neither too small nor too large. -/
theorem RoundsTo.bounds {v : ℚ} (hv : RoundsTo m e v) (h : IsDouble m e) (hm : 0 < m) :
    (2 : ℚ) ^ (-1075 : ℤ) ≤ v ∧ v < 2 ^ (1024 : ℤ) := by
  have hmin : (2 : ℚ) ^ (-1074 : ℤ) ≤ 2 ^ e := two_zpow_le h.minExponent_le
  have hmax : (2 : ℚ) ^ e ≤ 2 ^ (971 : ℤ) := two_zpow_le h.le_maxExponent
  have hone : (1 : ℚ) ≤ m := by exact_mod_cast hm
  have hlt : (m : ℚ) + 1 ≤ 2 ^ (53 : ℤ) := by exact_mod_cast h.lt
  constructor
  · calc (2 : ℚ) ^ (-1075 : ℤ) = 1 / 2 * 2 ^ (-1074 : ℤ) := by
          rw [show (-1074 : ℤ) = -1075 + 1 by rfl, two_zpow_succ]
          ring
      _ ≤ (m - gapBelow m) * 2 ^ e := by
          refine mul_le_mul ?_ hmin (two_zpow_pos _).le ?_ <;> linarith [gapBelow_le m]
      _ ≤ v := hv.low_le
  · calc v ≤ (m + 1 / 2) * 2 ^ e := hv.le_high
      _ < 2 ^ (53 : ℤ) * 2 ^ e := by
          refine mul_lt_mul_of_pos_right ?_ (two_zpow_pos e)
          linarith
      _ ≤ 2 ^ (53 : ℤ) * 2 ^ (971 : ℤ) := mul_le_mul_of_nonneg_left hmax (two_zpow_pos _).le
      _ = 2 ^ (1024 : ℤ) := by rw [← zpow_add₀ (by norm_num)]; rfl

theorem shortest_digits_pos (tie : Tie) (h : IsDouble m e) (hm : 0 < m) :
    0 < (shortest tie m e).digits := by
  obtain ⟨hlow, -⟩ := (roundsTo_shortest tie hm h.lt).bounds h hm
  rw [Nat.pos_iff_ne_zero]
  intro hzero
  rw [hzero, Nat.cast_zero, zero_mul] at hlow
  exact absurd hlow (not_le.mpr (two_zpow_pos _))

theorem ten_zpow_le_two_zpow : (10 : ℚ) ^ (-330 : ℤ) ≤ 2 ^ (-1075 : ℤ) := by
  have h : (2 : ℚ) ^ (1075 : ℤ) ≤ 10 ^ (330 : ℤ) := by
    exact_mod_cast (by decide +kernel : 2 ^ 1075 ≤ 10 ^ 330)
  rw [zpow_neg, zpow_neg]
  exact inv_anti₀ (two_zpow_pos _) h

theorem two_zpow_le_ten_zpow : (2 : ℚ) ^ (1024 : ℤ) ≤ 10 ^ (310 : ℤ) := by
  exact_mod_cast (by decide +kernel : 2 ^ 1024 ≤ 10 ^ 310)

/-- Digits are read as the double that their number is rounded to. -/
theorem ofDecimal_eq {exponent : ℤ} (h : IsDouble m e) (hm : 0 < m)
    (hdigits : ∀ c ∈ digits, c.isDigit = true)
    (hv : RoundsTo m e (ofDigits digits * 10 ^ exponent)) :
    ofDecimal negative digits exponent = signed negative (magnitudeBits m e) := by
  obtain ⟨hsmall, hlarge⟩ := hv.bounds h hm
  have hten := ten_zpow_pos exponent
  have hne : ofDigits digits ≠ 0 := by
    intro hzero
    rw [hzero, Nat.cast_zero, zero_mul] at hsmall
    exact absurd hsmall (not_le.mpr (two_zpow_pos _))
  obtain ⟨hlow, hhigh⟩ := ofDigits_bounds hdigits hne
  unfold ofDecimal
  dsimp only
  generalize (digits.dropWhile (· == '0')).length = count at *
  generalize ofDigits digits = n at *
  have hlowQ : (10 : ℚ) ^ (count + exponent : ℤ) ≤ 10 * (n * 10 ^ exponent) := by
    rw [zpow_add₀ (by norm_num), zpow_natCast, ← mul_assoc]
    exact mul_le_mul_of_nonneg_right (by exact_mod_cast hlow) hten.le
  have hhighQ : (n * 10 ^ exponent : ℚ) < 10 ^ (count + exponent : ℤ) := by
    rw [zpow_add₀ (by norm_num), zpow_natCast]
    exact mul_lt_mul_of_pos_right (by exact_mod_cast hhigh) hten
  have hleading : ¬ (count + exponent : ℤ) < -330 := by
    intro hlt
    refine absurd ?_ (not_le.mpr hhighQ)
    calc (10 : ℚ) ^ (count + exponent : ℤ) ≤ 10 ^ (-330 : ℤ) :=
          zpow_le_zpow_right₀ (by norm_num) hlt.le
      _ ≤ 2 ^ (-1075 : ℤ) := ten_zpow_le_two_zpow
      _ ≤ n * 10 ^ exponent := hsmall
  have hleading' : ¬ 310 < (count + exponent : ℤ) := by
    intro hlt
    refine lt_irrefl (10 * (10 : ℚ) ^ (310 : ℤ)) ?_
    calc 10 * (10 : ℚ) ^ (310 : ℤ) = 10 ^ (1 + 310 : ℤ) := by
          rw [zpow_add₀ (by norm_num), zpow_one]
      _ ≤ 10 ^ (count + exponent : ℤ) := zpow_le_zpow_right₀ (by norm_num) hlt
      _ ≤ 10 * (n * 10 ^ exponent) := hlowQ
      _ < 10 * 2 ^ (1024 : ℤ) := mul_lt_mul_of_pos_left hlarge (by norm_num)
      _ ≤ 10 * 10 ^ (310 : ℤ) := mul_le_mul_of_nonneg_left two_zpow_le_ten_zpow (by norm_num)
  have hvalue : ((n * tenPow exponent.toNat : Nat) : ℚ) / (tenPow (-exponent).toNat : Nat) =
      n * 10 ^ exponent := by
    rw [Nat.cast_mul, mul_div_assoc, tenPow_div_tenPow]
  rw [if_neg (by simp [hne, hleading]), if_neg hleading', nearest,
    nearestBits_eq h (Nat.mul_pos (Nat.pos_of_ne_zero hne) (tenPow_pos _)) (tenPow_pos _)
      (hvalue ▸ hv)]

/-! ## Layouts -/

/-- A text is cut behind its digits. -/
theorem spanDigits_append {rest : List Char} (hdigits : ∀ c ∈ digits, c.isDigit = true)
    (hrest : ∀ c ∈ rest.head?, c.isDigit = false) :
    spanDigits (digits ++ rest) = (digits, rest) := by
  rw [spanDigits, List.takeWhile_append_of_pos hdigits, List.dropWhile_append_of_pos hdigits]
  cases rest with
  | nil => simp
  | cons c rest =>
    have hc := hrest c rfl
    rw [List.takeWhile_cons_of_neg (by simp [hc]), List.dropWhile_cons_of_neg (by simp [hc]),
      List.append_nil]

theorem spanDigits_of_forall (hdigits : ∀ c ∈ digits, c.isDigit = true) :
    spanDigits digits = (digits, []) := by
  have hspan : spanDigits (digits ++ []) = (digits, []) := spanDigits_append hdigits nofun
  rwa [List.append_nil] at hspan

theorem spanDigits_append_point (hdigits : ∀ c ∈ digits, c.isDigit = true) (rest : List Char) :
    spanDigits (digits ++ '.' :: rest) = (digits, '.' :: rest) := by
  refine spanDigits_append hdigits fun c hc => ?_
  obtain rfl := Option.some.inj hc
  rfl

theorem readUnsigned_of_forall (hdigits : ∀ c ∈ digits, c.isDigit = true) (hne : digits ≠ []) :
    readUnsigned negative digits = some (ofDecimal negative digits 0) := by
  unfold readUnsigned
  rw [spanDigits_of_forall hdigits]
  simp [hne, readExponent]

theorem readUnsigned_point (hwhole : ∀ c ∈ whole, c.isDigit = true) (hne : whole ≠ [])
    (hfraction : ∀ c ∈ fraction, c.isDigit = true) :
    readUnsigned negative (whole ++ '.' :: fraction) =
      some (ofDecimal negative (whole ++ fraction) (-fraction.length)) := by
  unfold readUnsigned
  rw [spanDigits_append_point hwhole]
  show (if (whole ++ (spanDigits fraction).1).isEmpty then none
    else (readExponent (spanDigits fraction).2).map fun exponent =>
      ofDecimal negative (whole ++ (spanDigits fraction).1)
        (exponent - (spanDigits fraction).1.length)) = _
  rw [spanDigits_of_forall hfraction]
  simp [hne, readExponent]

theorem isDigit_zero_of_mem {k : Nat} (h : c ∈ List.replicate k '0') : c.isDigit = true := by
  rw [List.eq_of_mem_replicate h]
  rfl

theorem ofDigits_replicate_zero (k : Nat) : ofDigits (List.replicate k '0') = 0 := by
  rw [ofDigits_eq, Nat.ofDigitChars_replicate_zero, Nat.mul_zero]

/-- The layout of a decimal has its number. -/
theorem readUnsigned_positional (negative : Bool) (s : Scientific) :
    ∃ digits exponent, readUnsigned negative s.positional =
      some (ofDecimal negative digits exponent) ∧ (∀ c ∈ digits, c.isDigit = true) ∧
        (ofDigits digits * 10 ^ exponent : ℚ) = s.digits * 10 ^ s.exponent := by
  have hall : ∀ c ∈ digitsOf s.digits, c.isDigit = true := fun c => isDigit_of_mem_digitsOf
  unfold Scientific.positional
  dsimp only
  split
  · next hplaces =>
    have hdigits : ∀ c ∈ digitsOf s.digits ++ List.replicate s.exponent.toNat '0',
        c.isDigit = true :=
      List.forall_mem_append.mpr ⟨hall, fun c => isDigit_zero_of_mem⟩
    refine ⟨_, _, readUnsigned_of_forall hdigits (by simp [digitsOf_ne_nil]), hdigits, ?_⟩
    rw [ofDigits_append, ofDigits_digitsOf, ofDigits_replicate_zero, List.length_replicate,
      Nat.add_zero, zpow_zero, mul_one, Nat.cast_mul, mul_comm]
    push_cast
    rw [← zpow_natCast, Int.toNat_of_nonneg (by omega)]
  · split
    · next hplaces hlt =>
      have hwhole : (digitsOf s.digits).take ((digitsOf s.digits).length - (-s.exponent).toNat) ≠
          [] := by
        rw [Ne, List.take_eq_nil_iff, not_or]
        exact ⟨by omega, digitsOf_ne_nil _⟩
      refine ⟨_, _, readUnsigned_point (fun c hc => hall c (List.mem_of_mem_take hc)) hwhole
        fun c hc => hall c (List.mem_of_mem_drop hc), ?_, ?_⟩
      · rwa [List.take_append_drop]
      · rw [List.take_append_drop, ofDigits_digitsOf, List.length_drop]
        rw [Nat.sub_sub_self hlt.le, Int.toNat_of_nonneg (by omega), neg_neg]
    · next hplaces hge =>
      show ∃ digits exponent, readUnsigned negative (['0'] ++ '.' :: (List.replicate _ '0' ++ _)) =
        some (ofDecimal negative digits exponent) ∧ _
      have hfraction : ∀ c ∈
          List.replicate ((-s.exponent).toNat - (digitsOf s.digits).length) '0' ++
            digitsOf s.digits, c.isDigit = true :=
        List.forall_mem_append.mpr ⟨fun c => isDigit_zero_of_mem, hall⟩
      have hzero : ∀ c ∈ ['0'], c.isDigit = true := fun c hc => List.mem_singleton.mp hc ▸ rfl
      refine ⟨_, _, readUnsigned_point hzero (List.cons_ne_nil _ _) hfraction,
        List.forall_mem_append.mpr ⟨hzero, hfraction⟩, ?_⟩
      rw [ofDigits_append, ofDigits_append, ofDigits_digitsOf, ofDigits_replicate_zero,
        List.length_append, List.length_replicate, Nat.sub_add_cancel (not_lt.mp hge),
        Int.toNat_of_nonneg (by omega), neg_neg]
      simp [ofDigits]

/-! ## Characters -/

/-- The characters of the texts of doubles. -/
def IsLiteralChar (c : Char) : Prop :=
  c.isDigit = true ∨ c ∈ ['-', '.', 'N', 'a', 'i', 'n', 'f']

/-- A decimal starts with a digit. -/
theorem positional_eq_cons (s : Scientific) :
    ∃ c rest, s.positional = c :: rest ∧ c.isDigit = true := by
  have hall : ∀ c ∈ digitsOf s.digits, c.isDigit = true := fun c => isDigit_of_mem_digitsOf
  obtain ⟨c, rest, hdigits⟩ := List.exists_cons_of_ne_nil (digitsOf_ne_nil s.digits)
  rw [hdigits] at hall
  unfold Scientific.positional
  dsimp only
  rw [hdigits]
  split
  · exact ⟨c, _, rfl, hall c List.mem_cons_self⟩
  · split
    · next hlt =>
      obtain ⟨k, hk⟩ := Nat.exists_eq_add_of_lt hlt
      rw [hk]
      have hwhole : (-s.exponent).toNat + k + 1 - (-s.exponent).toNat = k + 1 := by omega
      rw [hwhole]
      exact ⟨c, _, rfl, hall c List.mem_cons_self⟩
    · exact ⟨'0', _, rfl, rfl⟩

theorem isLiteralChar_of_mem_positional {s : Scientific} (h : c ∈ s.positional) :
    IsLiteralChar c := by
  have hall : ∀ c ∈ digitsOf s.digits, c.isDigit = true := fun c => isDigit_of_mem_digitsOf
  unfold Scientific.positional at h
  dsimp only at h
  split at h
  · exact .inl (List.forall_mem_append.mpr ⟨hall, fun c => isDigit_zero_of_mem⟩ c h)
  · split at h
    · rcases List.mem_append.mp h with h | h
      · exact .inl (hall c (List.mem_of_mem_take h))
      · rcases List.mem_cons.mp h with rfl | h
        · exact .inr (by decide)
        · exact .inl (hall c (List.mem_of_mem_drop h))
    · rcases List.mem_append.mp h with h | h
      · simp only [List.mem_cons] at h
        rcases h with rfl | rfl | h
        · exact .inl rfl
        · exact .inr (by decide)
        · exact .inl (isDigit_zero_of_mem h)
      · exact .inl (hall c h)

/-! ## Doubles -/

theorem splitSign_signText {rest : List Char} (hc : c.isDigit = true) (negative : Bool) :
    splitSign (signText negative ++ c :: rest) = (negative, c :: rest) := by
  cases negative with
  | true => rfl
  | false =>
    show splitSign (c :: rest) = _
    unfold splitSign
    split
    · next heq =>
      cases heq
      cases hc
    · next heq =>
      cases heq
      cases hc
    · rfl

theorem toLower_of_isDigit (h : c.isDigit = true) : c.toLower = c := by
  refine dif_neg fun hupper => ?_
  have hle : c.toNat ≤ 57 := (Char.isDigit_iff_toNat.mp h).2
  have hge : 65 ≤ c.toNat := UInt32.le_iff_toNat_le.mp hupper.1
  omega

/-- A text that starts with a digit is no name. -/
theorem readFloat_signText {rest : List Char} (hc : c.isDigit = true) (negative : Bool) :
    readFloat (signText negative ++ c :: rest) = readUnsigned negative (c :: rest) := by
  have hname : ∀ first name, first.isDigit = false →
      String.ofList ((c :: rest).map Char.toLower) ≠ .ofList (first :: name) := by
    intro first name hfirst heq
    have hhead := (List.cons.inj (String.ofList_injective heq)).1
    rw [toLower_of_isDigit hc] at hhead
    rw [← hhead, hc] at hfirst
    cases hfirst
  unfold readFloat
  rw [splitSign_signText hc]
  dsimp only
  split
  · next heq => exact absurd heq (hname 'i' ['n', 'f'] rfl)
  · next heq => exact absurd heq (hname 'i' ['n', 'f', 'i', 'n', 'i', 't', 'y'] rfl)
  · next heq => exact absurd heq (hname 'n' ['a', 'n'] rfl)
  · rfl

theorem readUnsigned_zero (negative : Bool) :
    readUnsigned negative ['0'] = some (signed negative 0) := by
  rw [readUnsigned_of_forall (fun c hc => List.mem_singleton.mp hc ▸ rfl) (List.cons_ne_nil _ _)]
  rfl

/-- The text of a double is read as the double. -/
theorem readFloat_textChars (x : Float) : readFloat (textChars x) = some x := by
  unfold textChars
  cases h : Parts.ofFloat x with
  | nan =>
    rw [ofFloat_nan h]
    rfl
  | infinite negative =>
    rw [ofFloat_infinite h]
    cases negative <;> rfl
  | finite negative m e =>
    obtain ⟨hdouble, hx⟩ := ofFloat_finite h
    rw [Parts.layout]
    split
    · next hzero =>
      have hmin : e = minExponent := hdouble.leadingBit_le.resolve_left (by rw [hzero]; decide)
      rw [readFloat_signText rfl, readUnsigned_zero, hx, hzero, hmin]
      rfl
    · next hne =>
      obtain ⟨c, rest, hcons, hc⟩ := positional_eq_cons (shortest .up m e)
      obtain ⟨digits, exponent, hread, hdigits, hvalue⟩ :=
        readUnsigned_positional negative (shortest .up m e)
      have hpos : 0 < m := Nat.pos_of_ne_zero hne
      have hround := roundsTo_shortest (e := e) .up hpos hdouble.lt
      rw [hcons, readFloat_signText hc, ← hcons, hread,
        ofDecimal_eq hdouble hpos hdigits (hvalue ▸ hround), ← hx]

theorem isLiteralChar_of_mem_textChars {x : Float} (h : c ∈ textChars x) : IsLiteralChar c := by
  have hsign : ∀ negative, ∀ c ∈ signText negative, IsLiteralChar c := by
    have : ∀ negative, signText negative ⊆ ['-', '.', 'N', 'a', 'i', 'n', 'f'] := by decide
    exact fun negative c hc => .inr (this negative hc)
  have hname : ['i', 'n', 'f', 'N', 'a', 'N'] ⊆ ['-', '.', 'N', 'a', 'i', 'n', 'f'] := by decide
  unfold textChars at h
  cases hparts : Parts.ofFloat x with
  | nan =>
    rw [hparts] at h
    exact .inr (hname (List.mem_append_right ['i', 'n', 'f'] h))
  | infinite negative =>
    rw [hparts] at h
    rcases List.mem_append.mp h with h | h
    · exact hsign negative c h
    · exact .inr (hname (List.mem_append_left ['N', 'a', 'N'] h))
  | finite negative m e =>
    rw [hparts, Parts.layout] at h
    rcases List.mem_append.mp h with h | h
    · exact hsign negative c h
    · split at h
      · exact .inl (List.mem_singleton.mp h ▸ rfl)
      · exact isLiteralChar_of_mem_positional h

theorem textChars_ne_nil (x : Float) : textChars x ≠ [] := by
  intro hnil
  have := readFloat_textChars x
  rw [hnil] at this
  cases this

/-- No character of a literal is blank or a mark of program text. -/
theorem IsLiteralChar.plain (h : IsLiteralChar c) :
    Text.isBlank c = false ∧ c ≠ '|' ∧ c ≠ ':' ∧ c ≠ ';' ∧ c ≠ ')' := by
  rcases h with hdigit | hmem
  · obtain ⟨hge, hle⟩ := Char.isDigit_iff_toNat.mp hdigit
    simp only [show '0'.toNat = 48 from rfl, show '9'.toNat = 57 from rfl] at hge hle
    refine ⟨?_, ?_, ?_, ?_, ?_⟩
    · simp only [Text.isBlank, Text.blankRanges, List.any_cons, List.any_nil, Bool.or_false,
        Bool.or_eq_false_iff, Bool.and_eq_false_iff, decide_eq_false_iff_not]
      omega
    all_goals
      rintro rfl
      cases hdigit
  · have hall : ∀ c ∈ ['-', '.', 'N', 'a', 'i', 'n', 'f'],
        Text.isBlank c = false ∧ c ≠ '|' ∧ c ≠ ':' ∧ c ≠ ';' ∧ c ≠ ')' :=
      List.all_iff_forall_prop.mp (by decide)
    exact hall c hmem

end ImageCircuit.Decimal
