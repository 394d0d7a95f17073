import ImageCircuit.Proofs.Path

/-!
# Longest paths and cycles

* `HasRank.isLongest`: a rank is the number of steps of the longest path
* `HasRank.congr`: ranks depend on nothing but what can be reached
* `reachesCycle_iff`: the positions without a rank are those from which a cycle can be reached
-/

namespace ImageCircuit

open Relation

variable {next next' : Nat → List Nat} {a r s n : Nat}

/-! ## Lengths -/

/-- A path of so many steps starts at a position. -/
inductive StartsPath (next : Nat → List Nat) : Nat → Nat → Prop
  | stay (a : Nat) : StartsPath next a 0
  | step {a b n : Nat} (hb : b ∈ next a) (h : StartsPath next b n) : StartsPath next a (n + 1)

/-- The longest path from a position has so many steps. -/
structure IsLongest (next : Nat → List Nat) (a r : Nat) : Prop where
  starts : StartsPath next a r
  le : ∀ n, StartsPath next a n → n ≤ r

theorem IsLongest.unique (h : IsLongest next a r) (h' : IsLongest next a s) : r = s :=
  Nat.le_antisymm (h'.le r h.starts) (h.le s h'.starts)

/-- No path leads on from a position without successors. -/
theorem isLongest_zero (h : next a = []) : IsLongest next a 0 := by
  refine ⟨.stay a, fun n hn => ?_⟩
  cases hn with
  | stay => exact Nat.le_refl 0
  | step hb _ => simp [h] at hb

theorem IsLongest.pos (hr : IsLongest next a r) (h : next a ≠ []) : 0 < r := by
  obtain ⟨b, hb⟩ := List.exists_mem_of_ne_nil _ h
  exact hr.le 1 (.step hb (.stay b))

/-- A rank is the length of the longest path. -/
theorem HasRank.isLongest (h : HasRank next a r) : IsLongest next a r := by
  induction h with
  | @above a rank below ih =>
    constructor
    · obtain h0 | ⟨s, hs, heq⟩ := rankAbove_attained ((next a).map rank)
      · exact h0 ▸ .stay a
      · obtain ⟨b, hb, rfl⟩ := List.mem_map.mp hs
        exact heq ▸ .step hb (ih b hb).starts
    · intro n hn
      cases hn with
      | stay => exact Nat.zero_le _
      | @step _ b n hb h =>
        calc n + 1 ≤ rank b + 1 := Nat.succ_le_succ ((ih b hb).le n h)
          _ ≤ rankAbove ((next a).map rank) := lt_rankAbove (List.mem_map_of_mem hb)

/-- Only what can be reached from a position decides its rank. -/
theorem HasRank.congr (h : HasRank next a r) (heq : ∀ b, Reaches next a b → next' b = next b) :
    HasRank next' a r := by
  induction h with
  | @above a rank below ih =>
    have ha := heq a .refl
    rw [← ha]
    refine .above rank fun b hb => ?_
    rw [ha] at hb
    exact ih b hb fun c hc => heq c (.head hb hc)

/-! ## Cycles -/

/-- A cycle can be reached from a position. -/
def ReachesCycle (next : Nat → List Nat) (a : Nat) : Prop :=
  ∃ b, Reaches next a b ∧ Precedes next b b

theorem HasRank.not_reachesCycle (h : HasRank next a r) : ¬ ReachesCycle next a := by
  rintro ⟨b, hab, hb⟩
  rcases reflTransGen_iff_eq_or_transGen.mp hab with rfl | hab
  · exact h.not_precedes_self hb
  · obtain ⟨s, hs, -⟩ := h.lt_of_precedes hab
    exact hs.not_precedes_self hb

/-- A position from which no cycle can be reached has a rank, whatever cycles there are
elsewhere. -/
theorem exists_hasRank_of_not_reachesCycle (hn : Within next n) (h : ¬ ReachesCycle next a) :
    ∃ r, HasRank next a r := by
  classical
  let near b := if Reaches next a b then next b else []
  have hnear : ∀ b, Reaches next a b → near b = next b := fun b hb => if_pos hb
  have hstep : ∀ b, ∀ c ∈ near b, Reaches next a b ∧ c ∈ next b := by
    intro b c hc
    by_cases hb : Reaches next a b
    · exact ⟨hb, hnear b hb ▸ hc⟩
    · rw [show near b = [] from if_neg hb] at hc
      cases hc
  have hac : Acyclic near := by
    intro b hb
    obtain ⟨c, hbc, -⟩ := TransGen.head'_iff.mp hb
    exact h ⟨b, (hstep b c hbc).1, TransGen.mono (fun x y hy => (hstep x y hy).2) _ _ hb⟩
  obtain ⟨r, hr⟩ := hac.exists_hasRank (fun b c hc => hn b c (hstep b c hc).2) a
  refine ⟨r, hr.congr fun b hb => (hnear b ?_).symm⟩
  exact ReflTransGen.mono (fun x y hy => (hstep x y hy).2) _ _ hb

theorem reachesCycle_iff (hn : Within next n) :
    ReachesCycle next a ↔ ∀ r, ¬ HasRank next a r := by
  constructor
  · exact fun h r hr => hr.not_reachesCycle h
  · intro h
    by_contra hno
    obtain ⟨r, hr⟩ := exists_hasRank_of_not_reachesCycle hn hno
    exact h r hr

end ImageCircuit
