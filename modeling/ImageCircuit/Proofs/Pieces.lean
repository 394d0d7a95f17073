import ImageCircuit.Text.Split
import Mathlib.Data.List.DropRight
import Mathlib.Data.List.TakeWhile

/-!
# Pieces of text

What cutting a text gives back, and which texts are cut into given pieces.

* `Text.splitAll_intercalate`: pieces that have been joined at a separator are cut there
* `Text.splitOnce_eq_some_iff`: the cut at the first separator
* `Text.cut_unique`, `Text.cut_last_unique`: there is one cut at the first, and one at the last
* `Text.words_spaced`: words with spaces between them are read back
* `Text.trim_eq_self`, `Text.trim_trim`: what trimming leaves as it is
-/

namespace ImageCircuit.Text

variable {p : Char → Bool} {c sep : Char} {s t w : List Char} {pieces : List (List Char)}

/-! ## All separators -/

theorem splitWhere_eq_splitOnP (p : Char → Bool) (s : List Char) :
    splitWhere p s = s.splitOnP p := by
  induction s with
  | nil => rfl
  | cons c rest ih =>
    rw [splitWhere, List.splitOnP_cons_eq_if_modifyHead, ← ih]
    by_cases hc : p c = true
    · rw [if_pos hc, if_pos hc]
    · rw [if_neg hc, if_neg hc]
      cases hrest : splitWhere p rest with
      | nil => exact absurd hrest (splitWhere_ne_nil p rest)
      | cons piece pieces => rfl

theorem splitAll_eq_splitOn (sep : Char) (s : List Char) : splitAll sep s = s.splitOn sep :=
  splitWhere_eq_splitOnP _ s

@[simp] theorem splitAll_ne_nil (sep : Char) (s : List Char) : splitAll sep s ≠ [] :=
  splitWhere_ne_nil _ s

theorem splitAll_of_not_mem (h : sep ∉ s) : splitAll sep s = [s] :=
  (splitAll_eq_splitOn sep s).trans <|
    List.splitOnP_eq_singleton fun _ hc => beq_eq_false_iff_ne.mpr fun heq => h (heq ▸ hc)

theorem splitAll_append (sep : Char) (s t : List Char) :
    splitAll sep (s ++ sep :: t) = splitAll sep s ++ splitAll sep t := by
  simp only [splitAll_eq_splitOn]
  exact List.splitOnP_append_cons s t (beq_self_eq_true sep)

/-- Joined pieces without the separator are cut at the joints. -/
theorem splitAll_intercalate (h : ∀ piece ∈ pieces, sep ∉ piece) (hne : pieces ≠ []) :
    splitAll sep ([sep].intercalate pieces) = pieces := by
  rw [splitAll_eq_splitOn, List.splitOn_intercalate sep h hne]

theorem mem_of_mem_intercalate (h : c ∈ [sep].intercalate pieces) :
    c = sep ∨ ∃ piece ∈ pieces, c ∈ piece := by
  induction pieces with
  | nil => cases h
  | cons piece rest ih =>
    by_cases hrest : rest = []
    · subst hrest
      rw [List.intercalate_singleton] at h
      exact .inr ⟨piece, List.mem_cons_self, h⟩
    · rw [List.intercalate_cons_of_ne_nil hrest, List.append_assoc, List.mem_append,
        List.mem_append, List.mem_singleton] at h
      rcases h with h | h | h
      · exact .inr ⟨piece, List.mem_cons_self, h⟩
      · exact .inl h
      · exact (ih h).imp id fun ⟨p, hp, hc⟩ => ⟨p, List.mem_cons_of_mem _ hp, hc⟩

/-- The pieces hold the characters of the text that do not separate. -/
theorem mem_of_mem_splitWhere (hw : w ∈ splitWhere p s) (hc : c ∈ w) : c ∈ s ∧ p c = false := by
  induction s generalizing w with
  | nil =>
    obtain rfl := List.mem_singleton.mp hw
    cases hc
  | cons d rest ih =>
    have hrest : ∀ v ∈ splitWhere p rest, c ∈ v → c ∈ d :: rest ∧ p c = false :=
      fun v hv hcv => ⟨List.mem_cons_of_mem _ (ih hv hcv).1, (ih hv hcv).2⟩
    rw [splitWhere] at hw
    split at hw
    · rcases List.mem_cons.mp hw with rfl | hw
      · cases hc
      · exact hrest w hw hc
    · next hd =>
      cases hpieces : splitWhere p rest with
      | nil => exact absurd hpieces (splitWhere_ne_nil p rest)
      | cons piece pieces =>
        rw [hpieces] at hw hrest
        rcases List.mem_cons.mp hw with rfl | hw
        · rcases List.mem_cons.mp hc with rfl | hc
          · exact ⟨List.mem_cons_self, Bool.eq_false_iff.mpr hd⟩
          · exact hrest piece List.mem_cons_self hc
        · exact hrest w (List.mem_cons_of_mem _ hw) hc

theorem mem_of_mem_splitAll (hw : w ∈ splitAll sep s) (hc : c ∈ w) : c ∈ s :=
  (mem_of_mem_splitWhere hw hc).1

theorem not_mem_of_mem_splitAll (hw : w ∈ splitAll sep s) : sep ∉ w := by
  intro hmem
  simpa using (mem_of_mem_splitWhere hw hmem).2

/-! ## The first separator -/

theorem splitOnce_eq_some_iff {before after : List Char} :
    splitOnce sep s = some (before, after) ↔ s = before ++ sep :: after ∧ sep ∉ before := by
  induction s generalizing before with
  | nil => simp [splitOnce]
  | cons c rest ih =>
    rw [splitOnce]
    by_cases hc : c = sep
    · subst hc
      rw [if_pos rfl]
      constructor
      · intro h
        obtain ⟨rfl, rfl⟩ := Prod.mk.inj (Option.some.inj h)
        exact ⟨rfl, List.not_mem_nil⟩
      · rintro ⟨heq, hnot⟩
        cases before with
        | nil => rw [(List.cons.inj heq).2]
        | cons d before => exact absurd ((List.cons.inj heq).1 ▸ List.mem_cons_self) hnot
    · rw [if_neg hc, Option.map_eq_some_iff]
      constructor
      · rintro ⟨⟨before', after'⟩, h, heq⟩
        obtain ⟨rfl, rfl⟩ := Prod.mk.inj heq
        obtain ⟨rfl, hnot⟩ := ih.mp h
        exact ⟨rfl, by simp [Ne.symm hc, hnot]⟩
      · rintro ⟨heq, hnot⟩
        cases before with
        | nil => exact absurd (List.cons.inj heq).1 hc
        | cons d before =>
          obtain ⟨rfl, hrest⟩ := List.cons.inj heq
          exact ⟨(before, after), ih.mpr ⟨hrest, fun h => hnot (List.mem_cons_of_mem _ h)⟩, rfl⟩

/-- Two cuts of a text at its first separator are one. -/
theorem cut_unique {before before' after after' : List Char}
    (h : before ++ sep :: after = before' ++ sep :: after') (hbefore : sep ∉ before)
    (hbefore' : sep ∉ before') : before = before' ∧ after = after' := by
  have hcut := splitOnce_eq_some_iff.mpr ⟨h, hbefore'⟩
  exact Prod.mk.inj (Option.some.inj ((splitOnce_eq_some_iff.mpr ⟨rfl, hbefore⟩).symm.trans hcut))

/-- Two cuts of a text at its last separator are one. -/
theorem cut_last_unique {before before' after after' : List Char}
    (h : before ++ sep :: after = before' ++ sep :: after') (hafter : sep ∉ after)
    (hafter' : sep ∉ after') : before = before' ∧ after = after' := by
  have hreverse : after.reverse ++ sep :: before.reverse =
      after'.reverse ++ sep :: before'.reverse := by
    simpa using congrArg List.reverse h
  obtain ⟨hback, hfront⟩ := cut_unique hreverse (mt List.mem_reverse.mp hafter)
    (mt List.mem_reverse.mp hafter')
  exact ⟨List.reverse_inj.mp hfront, List.reverse_inj.mp hback⟩

theorem splitOnce_eq_none_iff : splitOnce sep s = none ↔ sep ∉ s := by
  constructor
  · intro h hmem
    obtain ⟨before, after, hs, hnot⟩ := List.eq_append_cons_of_mem hmem
    rw [splitOnce_eq_some_iff.mpr ⟨hs, hnot⟩] at h
    cases h
  · intro h
    rw [Option.eq_none_iff_forall_ne_some]
    rintro ⟨before, after⟩ hsome
    exact h ((splitOnce_eq_some_iff.mp hsome).1 ▸ by simp)

/-! ## Words -/

theorem not_isBlank_of_mem_words (hw : w ∈ words s) (hc : c ∈ w) : isBlank c = false :=
  (mem_of_mem_splitWhere (List.mem_filter.mp hw).1 hc).2

theorem mem_of_mem_words (hw : w ∈ words s) (hc : c ∈ w) : c ∈ s :=
  (mem_of_mem_splitWhere (List.mem_filter.mp hw).1 hc).1

/-- Words are read back from a text in which each but the first follows a space. -/
theorem words_spaced (hw : w ≠ [] ∧ ∀ c ∈ w, isBlank c = false)
    (h : ∀ v ∈ pieces, v ≠ [] ∧ ∀ c ∈ v, isBlank c = false) :
    words (w ++ pieces.flatMap (' ' :: ·)) = w :: pieces := by
  have hsplit : splitWhere isBlank (w ++ pieces.flatMap (' ' :: ·)) = w :: pieces := by
    rw [splitWhere_eq_splitOnP]
    induction pieces generalizing w with
    | nil => rw [List.flatMap_nil, List.append_nil, List.splitOnP_eq_singleton hw.2]
    | cons v rest ih =>
      obtain ⟨hv, hrest⟩ := List.forall_mem_cons.mp h
      rw [List.flatMap_cons, List.cons_append,
        List.splitOnP_append_cons_of_forall_mem hw.2 ' ' (by decide), ih hv hrest]
  rw [words, hsplit, List.filter_eq_self]
  intro v hv
  rcases List.mem_cons.mp hv with rfl | hv
  · simpa using hw.1
  · simpa using (h v hv).1

/-! ## Trimming -/

theorem trim_eq_rdropWhile (s : List Char) : trim s = (s.dropWhile isBlank).rdropWhile isBlank :=
  rfl

theorem trim_isPrefix (s : List Char) : trim s <+: s.dropWhile isBlank :=
  List.rdropWhile_prefix isBlank _

theorem mem_of_mem_trim (h : c ∈ trim s) : c ∈ s :=
  List.dropWhile_subset _ ((trim_isPrefix s).subset h)

/-- A text that neither starts nor ends with a blank is trimmed. -/
theorem trim_eq_self (hhead : ∀ c ∈ s.head?, isBlank c = false)
    (hlast : ∀ c ∈ s.getLast?, isBlank c = false) : trim s = s := by
  have hdrop : s.dropWhile isBlank = s := by
    cases s with
    | nil => rfl
    | cons c rest =>
      refine List.dropWhile_cons_of_neg ?_
      rw [hhead c rfl]
      exact Bool.false_ne_true
  rw [trim_eq_rdropWhile, hdrop, List.rdropWhile_eq_self_iff]
  intro hne
  rw [hlast _ (List.getLast?_eq_some_getLast hne)]
  exact Bool.false_ne_true

theorem trim_eq_self_of_forall (h : ∀ c ∈ s, isBlank c = false) : trim s = s :=
  trim_eq_self (fun _ hc => h _ (List.mem_of_head? hc)) fun _ hc => h _ (List.mem_of_getLast? hc)

theorem trim_trim (s : List Char) : trim (trim s) = trim s := by
  refine trim_eq_self (fun c hc => ?_) fun c hc => ?_
  · have hhead : (s.dropWhile isBlank).head? = some c := by
      obtain ⟨rest, hrest⟩ := trim_isPrefix s
      rw [← hrest, List.head?_append, Option.mem_def.mp hc]
      rfl
    have := List.head?_dropWhile_not isBlank s
    rw [hhead] at this
    simpa using this
  · have hne : trim s ≠ [] := by
      rintro hnil
      rw [hnil] at hc
      cases hc
    rw [List.getLast?_eq_some_getLast hne] at hc
    obtain rfl := Option.some.inj hc
    exact Bool.eq_false_iff.mpr (List.rdropWhile_last_not isBlank (s.dropWhile isBlank) hne)

end ImageCircuit.Text
