import ImageCircuit.Proofs.Sorting

/-!
# What shaking does

Shaking keeps the nodes that some root reaches, as they stand, and drops the others, in any graph of
arguments. What a kept node reads is kept with it, so no argument is left without its node.

* `Pin.Follows`: a pin after some nodes have been dropped
* `Module.ShakesTo`: what is left of a module, in terms of its nodes and pins
* `Module.treeShakeFrom_shakesTo`: shaking makes it of every module
-/

namespace ImageCircuit

/-- The pin `pin'` is `pin` after some nodes have been dropped: it is bound to the new position of
the node, and it is unbound if there is none. -/
def Pin.Follows (kept : List Nat) (pin pin' : Pin) : Prop :=
  pin'.name = pin.name ∧ ∀ k, pin'.index = some k ↔ ∃ i, pin.index = some i ∧ kept[k]? = some i

namespace Module

variable {m : Module} {order roots kept : List Nat}

/-- The module `m'` is what is left of `m` at the positions `kept`, those that some root
reaches. -/
structure ShakesTo (m m' : Module) (roots kept : List Nat) : Prop where
  ascending : kept.Pairwise (· < ·)
  /-- Roots past the end reach nothing. -/
  reached : ∀ i : Nat, i ∈ kept ↔ ∃ r ∈ roots, r < m.size ∧ Reaches m.argsOf r i
  name : m'.name = m.name
  size : m'.size = kept.length
  /-- Each node is one that was kept, and its arguments name the nodes that they named. -/
  nodes : ∀ k i : Nat, kept[k]? = some i → ∃ (node : Node) (args : List Nat),
    m.nodes[i]? = some node ∧ m'.nodes[k]? = some { node with args } ∧
    List.Forall₂ (fun new old => new < m'.size ∧ kept[new]? = some old) args node.args
  inputs : List.Forall₂ (Pin.Follows kept) m.inputs m'.inputs
  outputs : List.Forall₂ (Pin.Follows kept) m.outputs m'.outputs
  sorted : m.isSorted = true → m'.isSorted = true
  /-- From the same roots there is nothing left to drop. -/
  again : m'.treeShakeFrom (roots.filterMap kept.idxOf?) = .ok m'

theorem forall₂_follows (h : kept.Nodup) (pins : List Pin) :
    List.Forall₂ (Pin.Follows kept) pins (pins.map (movePin kept)) :=
  List.forall₂_map_right_iff.mpr <|
    List.forall₂_same.mpr fun pin _ => ⟨rfl, index_movePin h pin⟩

/-- The kept nodes are still what the roots reach, at their new positions. -/
theorem exists_root_relayout (h : m.IsLayout kept)
    (hmem : ∀ i, i ∈ kept ↔ ∃ r ∈ roots, r < m.size ∧ Reaches m.argsOf r i) {k : Nat}
    (hk : k < (m.relayout kept).size) :
    ∃ r ∈ roots.filterMap kept.idxOf?, r < (m.relayout kept).size ∧
      Reaches (m.relayout kept).argsOf r k := by
  obtain ⟨i, hi, rfl⟩ := exists_of_lt_size_relayout h hk
  obtain ⟨r, hr, hlt, hri⟩ := (hmem i).mp hi
  have hrkept : r ∈ kept := (hmem r).mpr ⟨r, hr, hlt, .refl⟩
  refine ⟨newPosition kept r, ?_, ?_, reaches_relayout h hrkept hri⟩
  · exact List.mem_filterMap.mpr ⟨r, hr, idxOf?_eq_newPosition hrkept⟩
  · rw [size_relayout h.lt]
    exact newPosition_lt hrkept

/-- If all arguments and pins of a module name nodes, shaking it from any roots succeeds. The nodes
that some root reaches are left, and nothing else. -/
theorem treeShakeFrom_shakesTo (hargs : m.argsInRange = true) (hpins : m.pinsInRange = true)
    (roots : List Nat) :
    ∃ m' kept, m.treeShakeFrom roots = .ok m' ∧ m.ShakesTo m' roots kept := by
  obtain ⟨kept, hshake, h, hmem, hasc⟩ :=
    treeShakeFrom_eq (argsInRange_iff.mp hargs) hpins roots
  have hsize := size_relayout h.lt
  refine ⟨_, kept, hshake, hasc, hmem, rfl, hsize, fun k i hk => ?_, forall₂_follows h.nodup _,
    forall₂_follows h.nodup _, isSorted_relayout h hasc, ?_⟩
  · have hi := List.mem_of_getElem? hk
    obtain ⟨node, hnode⟩ : ∃ node, m.nodes[i]? = some node :=
      ⟨_, List.getElem?_eq_getElem (h.lt i hi)⟩
    refine ⟨node, node.args.map (newPosition kept), hnode, ?_, ?_⟩
    · rw [getElem?_relayout h hk, hnode]
      rfl
    · refine List.forall₂_map_left_iff.mpr (List.forall₂_same.mpr fun j hj => ?_)
      have hj := h.args i hi j (mem_argsOf_iff.mpr ⟨_, hnode, hj⟩)
      exact ⟨hsize ▸ newPosition_lt hj, getElem?_newPosition hj⟩
  · exact treeShakeFrom_eq_self (within_relayout h) (pinsInRange_relayout h)
      fun k => exists_root_relayout h hmem

/-- A cycle and a node past the end are among the roots, and one input is dropped. -/
theorem treeShakeFrom_shakesTo_looped :
    looped.argsInRange = true ∧ looped.pinsInRange = true ∧
      ∃ m' kept, looped.treeShakeFrom [2, 7] = .ok m' ∧ looped.ShakesTo m' [2, 7] kept :=
  ⟨rfl, rfl, treeShakeFrom_shakesTo rfl rfl [2, 7]⟩

end Module

end ImageCircuit
