/-!
# Repeated members of a list

* `repeated?`: the first member that occurs before
* `repeated?_eq_none_iff`: there is none exactly if the members are distinct
-/

namespace ImageCircuit

/-- The first member of a list that is among the earlier members or occurs before in the list. -/
def repeatedAfter? {α : Type} [DecidableEq α] : (earlier : List α) → List α → Option α
  | _, [] => none
  | earlier, x :: rest => if x ∈ earlier then some x else repeatedAfter? (x :: earlier) rest

/-- The first member of a list that occurs before. -/
def repeated? {α : Type} [DecidableEq α] (xs : List α) : Option α :=
  repeatedAfter? [] xs

theorem repeatedAfter?_eq_none_iff {α : Type} [DecidableEq α] {earlier xs : List α} :
    repeatedAfter? earlier xs = none ↔ xs.Nodup ∧ ∀ x ∈ xs, x ∉ earlier := by
  induction xs generalizing earlier with
  | nil => simp [repeatedAfter?]
  | cons x rest ih =>
    rw [repeatedAfter?]
    split
    · next h => simp [h]
    · next h =>
      rw [ih]
      simp only [List.nodup_cons, List.mem_cons, not_or, forall_eq_or_imp]
      constructor
      · rintro ⟨hn, hr⟩
        exact ⟨⟨fun hx => (hr x hx).1 rfl, hn⟩, h, fun y hy => (hr y hy).2⟩
      · rintro ⟨⟨hx, hn⟩, -, hr⟩
        exact ⟨hn, fun y hy => ⟨fun e => hx (e ▸ hy), hr y hy⟩⟩

theorem repeated?_eq_none_iff {α : Type} [DecidableEq α] {xs : List α} :
    repeated? xs = none ↔ xs.Nodup := by
  simp [repeated?, repeatedAfter?_eq_none_iff]

example : repeated? ['x', 'y', 'x', 'y'] = some 'x' := by decide

end ImageCircuit
