import ImageCircuit.Proofs.Normalize
import ImageCircuit.Proofs.Sorting

/-!
# Sorting and shaking commute

Both orders of the two passes keep the same nodes. What is dropped does not change the ranks of what
is kept, and nodes of equal rank stay as they stand in each pass, so the kept nodes end up in the
same order.

* `Module.normalize_order`, `Module.shake_sort_order`: the layout that each order of passes makes
* `Module.normalize_comm`: the layouts are one, and another round changes nothing
-/

namespace ImageCircuit.Module

variable {m : Module} {order : List Nat} {i j k l : Nat}

/-- Sorting puts nodes that have been kept in their old order as it would have put them before. -/
theorem goesBefore_of_relayout (h : m.IsLayout order) (hasc : order.Pairwise (· < ·))
    (hrank : ∀ i ∈ order, ∃ r, HasRank m.argsOf i r) (hk : order[k]? = some i)
    (hl : order[l]? = some j) (hkl : (m.relayout order).GoesBefore k l) : m.GoesBefore i j := by
  have hold : ∀ {k i r}, order[k]? = some i → HasRank (m.relayout order).argsOf k r →
      HasRank m.argsOf i r := by
    intro k i r hk hr
    have hi := List.mem_of_getElem? hk
    obtain ⟨r', hr'⟩ := hrank i hi
    have hnew := hasRank_relayout h hi hr'
    rw [newPosition_eq h.nodup hk] at hnew
    exact hr.unique hnew ▸ hr'
  obtain ⟨r, s, hr, hs, hlt⟩ := hkl
  refine ⟨r, s, hold hk hr, hold hl hs, hlt.imp id fun ⟨heq, hkl⟩ => ⟨heq, ?_⟩⟩
  obtain ⟨hklt, rfl⟩ := List.getElem?_eq_some_iff.mp hk
  obtain ⟨hllt, rfl⟩ := List.getElem?_eq_some_iff.mp hl
  exact List.pairwise_iff_getElem.mp hasc k l hklt hllt hkl

section

variable (hn : Within m.argsOf m.size) (hp : m.pinsInRange = true) (hac : Acyclic m.argsOf)

include hn hp hac

/-- What is sorted and then shaken keeps the order of sorting. -/
theorem normalize_order :
    ∃ order, m.normalize = .ok (m.relayout order) ∧
      (∀ j, j ∈ order ↔ ∃ o ∈ m.outputIndices, Reaches m.argsOf o j) ∧
      order.Pairwise m.GoesBefore := by
  obtain ⟨o₁, hsort, h₁, hall, hpair⟩ := topologicalSort_order hn hp hac
  obtain ⟨o₂, hshake, h₂, hmem, hasc⟩ := treeShakeFrom_eq (within_relayout h₁)
    (pinsInRange_relayout h₁) (m.relayout o₁).outputIndices
  have hout : ∀ o ∈ m.outputIndices, o ∈ o₁ := fun o ho =>
    (hall o).mpr (lt_of_mem_outputIndices hp ho)
  refine ⟨o₂.filterMap (o₁[·]?), ?_, mem_comp_iff_reaches h₁ hout hmem, ?_⟩
  · rw [← relayout_relayout h₁ h₂]
    simp [normalize, hsort, treeShake, hshake, bind, Except.bind]
  · rw [List.pairwise_filterMap]
    refine hasc.imp fun {k l} hkl i hi j hj => ?_
    obtain ⟨hklt, rfl⟩ := List.getElem?_eq_some_iff.mp hi
    obtain ⟨hllt, rfl⟩ := List.getElem?_eq_some_iff.mp hj
    exact List.pairwise_iff_getElem.mp hpair k l hklt hllt hkl

/-- What is shaken and then sorted is in the order in which it would have been sorted before. -/
theorem shake_sort_order :
    ∃ order, (m.treeShake >>= topologicalSort) = .ok (m.relayout order) ∧
      (∀ j, j ∈ order ↔ ∃ o ∈ m.outputIndices, Reaches m.argsOf o j) ∧
      order.Pairwise m.GoesBefore := by
  obtain ⟨o₁, hshake, h₁, hmem, hasc⟩ := treeShakeFrom_eq hn hp m.outputIndices
  obtain ⟨o₂, hsort, h₂, hall, hpair⟩ := topologicalSort_order (within_relayout h₁)
    (pinsInRange_relayout h₁) (acyclic_relayout h₁ hac)
  refine ⟨o₂.filterMap (o₁[·]?), ?_, fun j => ?_, ?_⟩
  · rw [← relayout_relayout h₁ h₂]
    simp [treeShake, hshake, hsort, bind, Except.bind]
  · rw [h₁.mem_comp_iff, hall, size_relayout h₁.lt, and_iff_left_of_imp newPosition_lt, hmem]
    refine exists_congr fun o => and_congr_right fun ho => ?_
    exact and_iff_right (lt_of_mem_outputIndices hp ho)
  · rw [List.pairwise_filterMap]
    refine hpair.imp fun hkl i hi j hj => ?_
    exact goesBefore_of_relayout h₁ hasc (fun i _ => hac.exists_hasRank hn i) hi hj hkl

end

/-- A normal form is left as it is. -/
theorem normalize_of_normalize {m' : Module} (hn : Within m.argsOf m.size)
    (hp : m.pinsInRange = true) (hac : Acyclic m.argsOf) (h : m.normalize = .ok m') :
    m'.normalize = .ok m' := by
  obtain ⟨order, hnorm, hlayout, hmem, hsorted, hranked⟩ := normalize_eq hn hp hac
  obtain rfl := Except.ok.inj (h.symm.trans hnorm)
  exact hranked.normalize_eq (within_relayout hlayout) (pinsInRange_relayout hlayout)
    (acyclic_relayout hlayout hac) fun k => exists_reaches_of_lt_size_relayout hlayout hmem

/-- In a module without cycles whose arguments and pins name nodes, it makes no difference whether
nodes are sorted before the useless ones are dropped or after it, and what has been sorted and
shaken is left as it is by another round. -/
theorem normalize_comm (hargs : m.argsInRange = true) (hpins : m.pinsInRange = true)
    (hac : Acyclic m.argsOf) :
    ∃ m', (m.topologicalSort >>= treeShake) = .ok m' ∧ (m.treeShake >>= topologicalSort) = .ok m' ∧
      m.normalize = .ok m' ∧ m'.normalize = .ok m' := by
  have hn := argsInRange_iff.mp hargs
  obtain ⟨order, hnorm, hmem, hpair⟩ := normalize_order hn hpins hac
  obtain ⟨order', hcomm, hmem', hpair'⟩ := shake_sort_order hn hpins hac
  obtain rfl := eq_of_pairwise_goesBefore hpair hpair' fun j => (hmem j).trans (hmem' j).symm
  exact ⟨_, hnorm, hcomm, hnorm, normalize_of_normalize hn hpins hac hnorm⟩

/-- The module `mixedCall` has a node that no output needs and that reads one that an output
needs. -/
theorem normalize_comm_mixedCall :
    mixedCall.argsInRange = true ∧ mixedCall.pinsInRange = true ∧ Acyclic mixedCall.argsOf ∧
      ∃ m', (mixedCall.topologicalSort >>= treeShake) = .ok m' ∧
        (mixedCall.treeShake >>= topologicalSort) = .ok m' ∧
        mixedCall.normalize = .ok m' ∧ m'.normalize = .ok m' :=
  ⟨rfl, rfl, acyclic_mixedCall, normalize_comm rfl rfl acyclic_mixedCall⟩

end ImageCircuit.Module
