import ImageCircuit.Module.Parser
import Mathlib.Data.List.Nodup
import Mathlib.Logic.Function.Basic

/-!
# Pins that are bound by name

The reader of a module binds the first pin of a name, so the state of its pins is a list of names
and a place for each name: the first pin of a name is bound to its place, any later one is free.

* `Module.bindPin_firstPins`: binding a pin gives its name a place
* `Module.firstPins_bound_iff`: when all pins are bound
-/

namespace ImageCircuit.Module

variable {names : List Char} {place : Char → Option Nat} {c : Char} {i k : Nat}

/-! ## Places of names -/

/-- Distinct names stand at one place each. -/
theorem eq_of_getElem? {α : Type} {xs : List α} {x : α} (hnodup : xs.Nodup)
    (hi : xs[i]? = some x) (hk : xs[k]? = some x) : i = k :=
  (List.getElem?_inj (List.getElem?_eq_some_iff.mp hi).1 hnodup).mp (hi.trans hk.symm)

section

variable {α : Type} [BEq α] [LawfulBEq α] {xs : List α} {x : α}

theorem getElem?_of_idxOf? (h : xs.idxOf? x = some k) : xs[k]? = some x := by
  obtain ⟨hlt, heq, -⟩ := List.findIdx?_eq_some_iff_getElem.mp h
  rw [List.getElem?_eq_getElem hlt, eq_of_beq heq]

theorem idxOf?_eq_none_iff : xs.idxOf? x = none ↔ x ∉ xs := by
  rw [List.idxOf?, List.findIdx?_eq_none_iff]
  constructor
  · intro h hx
    simpa using h x hx
  · intro h y hy
    exact beq_eq_false_iff_ne.mpr fun hyx => h (hyx ▸ hy)

theorem exists_idxOf?_iff : (∃ k, xs.idxOf? x = some k) ↔ x ∈ xs := by
  rw [← Option.isSome_iff_exists, Option.isSome_iff_ne_none, Ne, idxOf?_eq_none_iff, not_not]

/-- Distinct names are where they are found. -/
theorem idxOf?_of_nodup (hnodup : xs.Nodup) (h : xs[k]? = some x) : xs.idxOf? x = some k := by
  obtain ⟨j, hj⟩ := exists_idxOf?_iff.mpr (List.mem_of_getElem? h)
  rw [hj, eq_of_getElem? hnodup (getElem?_of_idxOf? hj) h]

end

/-! ## Pins -/

/-- The pins of these names, the first of each name bound to the place of the name. -/
def firstPins (names : List Char) (place : Char → Option Nat) : List Pin :=
  names.mapIdx fun k c => ⟨c, if names.idxOf? c = some k then place c else none⟩

theorem getElem?_firstPins :
    (firstPins names place)[k]? =
      names[k]?.map fun c => ⟨c, if names.idxOf? c = some k then place c else none⟩ :=
  List.getElem?_mapIdx

@[simp] theorem map_name_firstPins : (firstPins names place).map (·.name) = names := by
  apply List.ext_getElem?
  intro k
  rw [List.getElem?_map, getElem?_firstPins, Option.map_map]
  exact congrFun Option.map_id _

theorem firstPins_eq_map (hnodup : names.Nodup) :
    firstPins names place = names.map fun c => ⟨c, place c⟩ := by
  apply List.ext_getElem?
  intro k
  rw [getElem?_firstPins, List.getElem?_map]
  refine Option.map_congr fun c hc => ?_
  rw [if_pos (idxOf?_of_nodup hnodup hc)]

/-- Pins of distinct names that are bound to their places are the first pins of their names. -/
theorem eq_firstPins {pins : List Pin} (hnodup : (pins.map (·.name)).Nodup)
    (hplace : ∀ pin ∈ pins, place pin.name = pin.index) :
    pins = firstPins (pins.map (·.name)) place := by
  rw [firstPins_eq_map hnodup, List.map_map]
  refine (List.map_id _).symm.trans (List.map_congr_left fun pin hpin => ?_)
  rw [Function.comp_apply, hplace pin hpin]
  rfl

/-! ## Looking up and binding -/

theorem pinPosition?_eq (pins : List Pin) (c : Char) :
    pinPosition? pins c = (pins.map (·.name)).idxOf? c := by
  rw [pinPosition?, List.idxOf?, List.findIdx?_map]
  rfl

theorem pinPosition?_firstPins : pinPosition? (firstPins names place) c = names.idxOf? c := by
  rw [pinPosition?_eq, map_name_firstPins]

theorem isBound_firstPins (h : names.idxOf? c = some k) :
    isBound (firstPins names place) k = (place c).isSome := by
  rw [isBound, getElem?_firstPins, getElem?_of_idxOf? h, Option.map_some, if_pos h]
  rfl

theorem bindPin_firstPins (h : names.idxOf? c = some k) :
    bindPin (firstPins names place) k i = firstPins names (Function.update place c (some i)) := by
  apply List.ext_getElem?
  intro j
  rw [bindPin, List.getElem?_modify, getElem?_firstPins, getElem?_firstPins,
    Option.map_eq_map, Option.map_map]
  refine Option.map_congr fun d hd => ?_
  rw [Function.comp_apply]
  by_cases hjk : k = j
  · subst hjk
    rw [getElem?_of_idxOf? h] at hd
    obtain rfl := Option.some.inj hd
    rw [if_pos rfl, if_pos h, Function.update_self, if_pos h]
  · rw [if_neg hjk]
    congr 1
    by_cases hdj : names.idxOf? d = some j
    · have hdc : d ≠ c := fun hdc => hjk (Option.some.inj (h.symm.trans (hdc ▸ hdj)))
      rw [if_pos hdj, if_pos hdj, Function.update_of_ne hdc]
    · rw [if_neg hdj, if_neg hdj]

/-- All pins are bound exactly if their names are distinct and all have a place. -/
theorem firstPins_bound_iff :
    (∀ pin ∈ firstPins names place, pin.index ≠ none) ↔
      names.Nodup ∧ ∀ c ∈ names, place c ≠ none := by
  constructor
  · intro h
    have hfirst : ∀ k c, names[k]? = some c → names.idxOf? c = some k ∧ place c ≠ none := by
      intro k c hk
      have hpin := h _ (List.mem_of_getElem? (getElem?_firstPins.trans (congrArg _ hk)))
      dsimp only at hpin
      by_cases hidx : names.idxOf? c = some k
      · rw [if_pos hidx] at hpin
        exact ⟨hidx, hpin⟩
      · rw [if_neg hidx] at hpin
        exact absurd rfl hpin
    constructor
    · rw [List.nodup_iff_injective_get]
      intro a b hab
      have ha := (hfirst a _ (List.getElem?_eq_getElem a.2)).1
      have hb := (hfirst b _ (List.getElem?_eq_getElem b.2)).1
      rw [← List.get_eq_getElem, hab] at ha
      exact Fin.ext (Option.some.inj (ha.symm.trans hb))
    · intro c hc
      obtain ⟨k, hk⟩ := List.mem_iff_getElem?.mp hc
      exact (hfirst k c hk).2
  · rintro ⟨hnodup, hplace⟩ pin hpin
    rw [firstPins_eq_map hnodup] at hpin
    obtain ⟨c, hc, rfl⟩ := List.mem_map.mp hpin
    exact hplace c hc

end ImageCircuit.Module
