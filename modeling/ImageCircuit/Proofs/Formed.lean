import ImageCircuit.Proofs.Order
import Mathlib.Data.List.Nodup

/-!
# Formed modules

What a text describes and what the generator wires, before and after normalization: arguments name
nodes and are as many as the operator reads, each input node is bound by one pin of its name, and
all outputs are bound.

* `Module.Formed.relayout`: a layout that keeps the outputs keeps a module formed
* `Module.Formed.normalize`: so does normalization, which succeeds unless there is a cycle
* `Module.Normal.normalize_eq`: a normal form has itself as its normal form
-/

namespace ImageCircuit.Module

/-- The operation of node `i`. -/
def opAt (m : Module) (i : Nat) : Option Op :=
  m.nodes[i]?.map (·.op)

structure Formed (m : Module) : Prop where
  within : Within m.argsOf m.size
  arity : ∀ i op, m.opAt i = some (.prim op) → (m.argsOf i).length = op.arity
  input_args : ∀ i name, m.opAt i = some (.input name) → m.argsOf i = []
  /-- A bound input pin names an input node of its own name. -/
  input_pin : ∀ pin ∈ m.inputs, ∀ i, pin.index = some i → m.opAt i = some (.input pin.name)
  /-- Exactly one input pin is bound to an input node. -/
  input_node : ∀ i name, m.opAt i = some (.input name) →
    m.inputs.countP (fun pin => pin.index = some i) = 1
  output : ∀ pin ∈ m.outputs, ∃ i < m.size, pin.index = some i

variable {m : Module} {order : List Nat} {i k : Nat}

theorem lt_of_opAt {op : Op} (h : m.opAt i = some op) : i < m.size := by
  obtain ⟨node, hnode, -⟩ := Option.map_eq_some_iff.mp h
  exact (List.getElem?_eq_some_iff.mp hnode).1

theorem opAt_eq_some_iff {op : Op} :
    m.opAt i = some op ↔ ∃ node, m.nodes[i]? = some node ∧ node.op = op :=
  Option.map_eq_some_iff

theorem Formed.pinsInRange (h : m.Formed) : m.pinsInRange = true := by
  rw [pinsInRange_iff]
  intro pin hpin i hi
  rcases List.mem_append.mp hpin with hpin | hpin
  · exact lt_of_opAt (h.input_pin pin hpin i hi)
  · obtain ⟨j, hj, hidx⟩ := h.output pin hpin
    exact Option.some.inj (hi.symm.trans hidx) ▸ hj

theorem Formed.lt_of_mem_args (h : m.Formed) {node : Node} (hnode : node ∈ m.nodes) {j : Nat}
    (hj : j ∈ node.args) : j < m.size := by
  obtain ⟨i, hi⟩ := List.mem_iff_getElem?.mp hnode
  exact (h.within i j (mem_argsOf_iff.mpr ⟨node, hi, hj⟩)).2

theorem Formed.outputIndices_lt (h : m.Formed) : ∀ o ∈ m.outputIndices, o < m.size :=
  fun _ ho => lt_of_mem_outputIndices h.pinsInRange ho

/-- No input pin is bound to a constant. -/
theorem Formed.isInput_eq_false (hm : m.Formed) (hop : m.opAt i = some (.prim .const)) :
    m.isInput i = false := by
  rw [← Bool.not_eq_true, isInput, List.any_eq_true]
  rintro ⟨pin, hpin, hidx⟩
  have := hm.input_pin pin hpin i (of_decide_eq_true hidx)
  rw [hop] at this
  cases this

theorem eq_of_name_eq {pins : List Pin} {pin pin' : Pin} (hnodup : (pins.map (·.name)).Nodup)
    (hpin : pin ∈ pins) (hpin' : pin' ∈ pins) (h : pin.name = pin'.name) : pin = pin' :=
  List.inj_on_of_nodup_map hnodup hpin hpin' h

/-- An input node is bound by a pin of its name. -/
theorem Formed.exists_input (hm : m.Formed) {name : Char} (hop : m.opAt i = some (.input name)) :
    ∃ pin ∈ m.inputs, pin.name = name ∧ pin.index = some i := by
  have hpos : 0 < m.inputs.countP (fun pin => pin.index = some i) :=
    hm.input_node i _ hop ▸ Nat.one_pos
  obtain ⟨pin, hpin, hidx⟩ := List.countP_pos_iff.mp hpos
  have hsame := hm.input_pin pin hpin i (of_decide_eq_true hidx)
  rw [hop] at hsame
  exact ⟨pin, hpin, (Op.input.inj (Option.some.inj hsame)).symm, of_decide_eq_true hidx⟩

/-- The pin of the name of an input node is bound to it. -/
theorem Formed.index_of_opAt {pin : Pin} (hm : m.Formed) (hnodup : (m.inputs.map (·.name)).Nodup)
    (hpin : pin ∈ m.inputs) (hop : m.opAt i = some (.input pin.name)) : pin.index = some i := by
  obtain ⟨bound, hbound, hname, hidx⟩ := hm.exists_input hop
  exact eq_of_name_eq hnodup hbound hpin hname ▸ hidx

/-! ## Under a layout -/

theorem opAt_relayout (h : m.IsLayout order) (hi : i ∈ order) :
    (m.relayout order).opAt (newPosition order i) = m.opAt i := by
  rw [opAt, getElem?_relayout_newPosition h hi, opAt, Option.map_map]
  rfl

theorem index_movePin_newPosition (h : m.IsLayout order) (hi : i ∈ order) (pin : Pin) :
    (movePin order pin).index = some (newPosition order i) ↔ pin.index = some i := by
  rw [index_movePin h.nodup, getElem?_newPosition hi]
  constructor
  · rintro ⟨j, hj, heq⟩
    exact Option.some.inj heq ▸ hj
  · exact fun hidx => ⟨i, hidx, rfl⟩

/-- A pin is bound where it was, at the new position. -/
theorem bound_movePin (h : m.IsLayout order) (hi : i ∈ order) :
    (fun pin : Pin => decide (pin.index = some (newPosition order i))) ∘ movePin order =
      fun pin => decide (pin.index = some i) := by
  funext pin
  exact decide_eq_decide.mpr (index_movePin_newPosition h hi pin)

theorem Formed.relayout (hm : m.Formed) (h : m.IsLayout order)
    (hout : ∀ o ∈ m.outputIndices, o ∈ order) : (m.relayout order).Formed where
  within := within_relayout h
  arity k op hk := by
    obtain ⟨i, hi, rfl⟩ := exists_of_lt_size_relayout h (lt_of_opAt hk)
    rw [opAt_relayout h hi] at hk
    rw [argsOf_relayout h hi, List.length_map, hm.arity i op hk]
  input_args k name hk := by
    obtain ⟨i, hi, rfl⟩ := exists_of_lt_size_relayout h (lt_of_opAt hk)
    rw [opAt_relayout h hi] at hk
    rw [argsOf_relayout h hi, hm.input_args i name hk, List.map_nil]
  input_pin pin hpin k hk := by
    obtain ⟨old, hold, rfl⟩ := List.mem_map.mp hpin
    obtain ⟨i, hidx, hget⟩ := (index_movePin h.nodup old k).mp hk
    rw [← newPosition_eq h.nodup hget, opAt_relayout h (List.mem_of_getElem? hget)]
    exact hm.input_pin old hold i hidx
  input_node k name hk := by
    obtain ⟨i, hi, rfl⟩ := exists_of_lt_size_relayout h (lt_of_opAt hk)
    rw [opAt_relayout h hi] at hk
    rw [inputs_relayout, List.countP_map, bound_movePin h hi, hm.input_node i name hk]
  output pin hpin := by
    obtain ⟨old, hold, rfl⟩ := List.mem_map.mp hpin
    obtain ⟨i, -, hidx⟩ := hm.output old hold
    have hi : i ∈ order := hout i (mem_outputIndices_iff.mpr ⟨old, hold, hidx⟩)
    refine ⟨newPosition order i, ?_, (index_movePin_newPosition h hi old).mpr hidx⟩
    rw [size_relayout h.lt]
    exact newPosition_lt hi

/-- Every node is what some output names or depends on. -/
def Connected (m : Module) : Prop :=
  ∀ i < m.size, ∃ o ∈ m.outputIndices, Reaches m.argsOf o i

/-- What normalization makes of a formed module and evaluation relies on. -/
structure Normal (m : Module) : Prop extends Formed m where
  sorted : m.isSorted = true
  ranked : m.RankSorted
  connected : m.Connected

/-- A formed module with the arguments and outputs of a normal form is one, too. -/
theorem Normal.of_sameArgs {m' : Module} (hm : m.Normal) (hm' : m'.Formed)
    (hargs : m'.argsOf = m.argsOf) (hsize : m'.size = m.size)
    (hout : m'.outputIndices = m.outputIndices) : m'.Normal where
  toFormed := hm'
  sorted := by
    rw [isSorted_iff, hargs]
    exact isSorted_iff.mp hm.sorted
  ranked := by
    rw [RankSorted, hargs, hsize]
    exact hm.ranked
  connected := by
    rw [Connected, hargs, hsize, hout]
    exact hm.connected

/-- Without a cycle a formed module has a normal form, with no other operations. -/
theorem Formed.normalize (hm : m.Formed) (hac : Acyclic m.argsOf) :
    ∃ m', m.normalize = .ok m' ∧ m'.Normal ∧
      ∀ k op, m'.opAt k = some op → ∃ i, m.opAt i = some op := by
  obtain ⟨order, hnorm, h, hmem, hsorted, hranked⟩ := normalize_eq hm.within hm.pinsInRange hac
  have hout : ∀ o ∈ m.outputIndices, o ∈ order := fun o ho => (hmem o).mpr ⟨o, ho, .refl⟩
  refine ⟨_, hnorm, ⟨hm.relayout h hout, hsorted, hranked,
    fun k => exists_reaches_of_lt_size_relayout h hmem⟩, fun k op hop => ?_⟩
  obtain ⟨i, hi, rfl⟩ := exists_of_lt_size_relayout h (lt_of_opAt hop)
  exact ⟨i, by rwa [opAt_relayout h hi] at hop⟩

theorem Normal.acyclic (hm : m.Normal) : Acyclic m.argsOf :=
  acyclic_of_isSorted hm.within hm.sorted

/-- Normalization leaves a normal form as it is. -/
theorem Normal.normalize_eq (hm : m.Normal) : m.normalize = .ok m :=
  hm.ranked.normalize_eq hm.within hm.pinsInRange hm.acyclic hm.connected

end ImageCircuit.Module
