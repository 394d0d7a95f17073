import ImageCircuit.Proofs.Sorting

/-!
# Swaps that fail leave no trace

A connection swap exchanges two targets in place before it is known whether the module can still be
sorted. Where it cannot, the failed sort has written nothing, and a second exchange puts the targets
back. In a module with cycles a swap may keep one or close another, so this happens.

* `Module.Swappable.swapSorted_of_not_acyclic`: what an exchange answers and leaves at a cycle
* `Module.mutateConnection_untouched`: a swap that fails or finds no pair leaves the module as it
  was
-/

namespace ImageCircuit.Module

variable {m : Module} {a b : Link} {σ : Type} [Source σ]

/-- An exchange closes no cycle, so it leaves one only where there was one. -/
theorem Swappable.not_acyclic (h : m.Swappable a b) (hac : ¬ Acyclic (m.swapTargets a b).argsOf) :
    ¬ Acyclic m.argsOf :=
  fun hm => hac (h.crossed.acyclic hm h.not_below h.not_above)

/-- An exchange that leaves a cycle is undone. It reports the links and from how many nodes a cycle
could be reached between the two exchanges. -/
theorem Swappable.swapSorted_of_not_acyclic (h : m.Swappable a b) (hn : Within m.argsOf m.size)
    (hac : ¬ Acyclic (m.swapTargets a b).argsOf) :
    m.swapSorted a b = (.error (.swapCycle a b m.name
      {i | i < m.size ∧ ReachesCycle (m.swapTargets a b).argsOf i}.ncard), m) := by
  have hsort := topologicalSort_error (h.within hn) hac
  rw [h.swapSorted_of_error hsort, size_swapTargets]
  rfl

/-- If all arguments and pins of a module name nodes, whether or not it is sorted or has cycles, a
connection swap that fails or finds no pair leaves it exactly as it was. A swap fails only in a
module with a cycle, at two links that it could exchange but not sort after. -/
theorem mutateConnection_untouched (hargs : m.argsInRange = true) (hpins : m.pinsInRange = true)
    (attempts : Nat) (s : σ) :
    ∃ result m', (m.mutateConnection attempts s).1 = (result, m') ∧
      ((∃ e, result = .error e) ∨ (∃ obstacle, result = .ok (.notApplicable obstacle)) →
        m' = m) ∧
      ∀ e, result = .error e → ¬ Acyclic m.argsOf ∧
        ∃ first second, m.Swappable first second ∧ e = .swapCycle first second m.name
          {i | i < m.size ∧ ReachesCycle (m.swapTargets first second).argsOf i}.ncard := by
  have hn := argsInRange_iff.mp hargs
  rcases always_mutateConnection hn attempts s with ⟨obstacle, h⟩ | ⟨first, second, hswap, h⟩
  · refine ⟨_, _, h, fun _ => rfl, fun e he => ?_⟩
    cases he
  · by_cases hac : Acyclic (m.swapTargets first second).argsOf
    · obtain ⟨order, hsort, -⟩ :=
        topologicalSort_eq (hswap.within hn) (pinsInRange_swapTargets hpins) hac
      refine ⟨_, _, h.trans (swapSorted_of_topologicalSort hsort), ?_, fun e he => ?_⟩
      · rintro (⟨e, he⟩ | ⟨obstacle, he⟩) <;> cases he
      · cases he
    · refine ⟨_, _, h.trans (hswap.swapSorted_of_not_acyclic hn hac), fun _ => rfl, ?_⟩
      rintro e ⟨rfl⟩
      exact ⟨hswap.not_acyclic hac, first, second, hswap, rfl⟩

/-- Two nodes that read themselves. -/
def twoLoops : Module where
  name := "m"
  nodes := [.ofOp (.prim .inv) [0], .ofOp (.prim .cos) [1]]
  inputs := []
  outputs := [⟨'a', some 0⟩]

theorem eq_of_reaches_twoLoops {i k : Nat} (h : Reaches twoLoops.argsOf i k) : k = i := by
  have hloop : ∀ j < twoLoops.size, ∀ k ∈ twoLoops.argsOf j, k = j := by decide
  refine h.mem_of_closed (S := (· = i)) ?_ rfl
  rintro _ rfl k hk
  exact hloop _ (lt_of_mem_argsOf hk) k hk

theorem exists_swappable_twoLoops :
    ∀ l ∈ twoLoops.links fun _ => true, ∃ other, twoLoops.Swappable l other := by
  have hother : ∀ l ∈ twoLoops.links fun _ => true,
      ∃ other ∈ twoLoops.links fun _ => true, other.node ≠ l.node := by
    decide
  intro l hl
  obtain ⟨other, hmem, hne⟩ := hother l hl
  exact ⟨other, hl, hmem, fun h => hne (eq_of_reaches_twoLoops h),
    fun h => hne (eq_of_reaches_twoLoops h).symm⟩

/-- Whatever pair is drawn, the two nodes then read each other. -/
theorem not_acyclic_swapTargets_twoLoops (h : twoLoops.Swappable a b) :
    ¬ Acyclic (twoLoops.swapTargets a b).argsOf := by
  have hargs : ∀ a ∈ twoLoops.links fun _ => true, ∀ b ∈ twoLoops.links fun _ => true,
      a.node ≠ b.node → 1 ∈ (twoLoops.swapTargets a b).argsOf 0 ∧
        0 ∈ (twoLoops.swapTargets a b).argsOf 1 := by
    decide
  obtain ⟨h01, h10⟩ := hargs a h.first_mem b h.second_mem h.ne
  exact fun hac => hac 0 (.tail (.single h01) h10)

/-- Every pair of links that can be exchanged leaves a cycle, so the swap fails. -/
theorem mutateConnection_untouched_twoLoops :
    twoLoops.argsInRange = true ∧ twoLoops.pinsInRange = true ∧
      ∃ e, (twoLoops.mutateConnection 3 (ChaCha.ofSeed 0)).1 = (.error e, twoLoops) ∧
        ¬ Acyclic twoLoops.argsOf ∧ ∃ first second, twoLoops.Swappable first second ∧
          e = .swapCycle first second "m" {i | i < twoLoops.size ∧
            ReachesCycle (twoLoops.swapTargets first second).argsOf i}.ncard := by
  have hn : Within twoLoops.argsOf twoLoops.size := argsInRange_iff.mp rfl
  obtain ⟨first, second, hswap, hfails⟩ := always_mutateConnection_swaps hn (by decide)
    exists_swappable_twoLoops 2 (ChaCha.ofSeed 0)
  rw [hswap.swapSorted_of_not_acyclic hn (not_acyclic_swapTargets_twoLoops hswap)] at hfails
  obtain ⟨result, m', hrun, hsame, hcause⟩ :=
    mutateConnection_untouched (m := twoLoops) rfl rfl 3 (ChaCha.ofSeed 0)
  obtain ⟨rfl, -⟩ := Prod.mk.inj (hrun.symm.trans hfails)
  rw [hsame (.inl ⟨_, rfl⟩)] at hrun
  exact ⟨rfl, rfl, _, hrun, hcause _ rfl⟩

end ImageCircuit.Module
