import ImageCircuit.Module.Order
import ImageCircuit.Proofs.Reach
import Mathlib.Data.Set.Function

/-!
# Relayouts

A layout of a module is a list of positions, each at most once, that holds with a node all its
arguments. What the module becomes under it is the part at these positions, renumbered.

* `Module.getElem?_relayout`: each kept node stands at its new position
* `Module.argsOf_relayout`, `Module.index_movePin`: arguments and pins follow their nodes
* `Module.reaches_relayout_iff`: kept nodes depend on each other as before
* `Module.relayout_relayout`: two relayouts are one
* `Module.renumbered_relayout`: a layout of all nodes renumbers them
-/

namespace ImageCircuit

open Relation

/-! ## New positions -/

/-- The place of a position in a layout, where arguments that name it are moved to. -/
def newPosition (order : List Nat) (i : Nat) : Nat :=
  (order.idxOf? i).getD i

section

variable {order : List Nat} {i j k : Nat}

theorem idxOf?_eq_newPosition (h : i ∈ order) : order.idxOf? i = some (newPosition order i) := by
  obtain ⟨k, hk⟩ := Option.isSome_iff_exists.mp (List.isSome_idxOf?.mpr h)
  simp [newPosition, hk]

theorem getElem?_newPosition (h : i ∈ order) : order[newPosition order i]? = some i := by
  obtain ⟨hlt, heq, -⟩ := List.idxOf?_eq_some_iff.mp (idxOf?_eq_newPosition h)
  rw [List.getElem?_eq_getElem hlt, heq]

theorem newPosition_lt (h : i ∈ order) : newPosition order i < order.length :=
  (List.getElem?_eq_some_iff.mp (getElem?_newPosition h)).1

theorem newPosition_eq (hn : order.Nodup) (hk : order[k]? = some i) : newPosition order i = k := by
  have hi : i ∈ order := List.mem_of_getElem? hk
  exact (List.getElem?_inj (newPosition_lt hi) hn).mp ((getElem?_newPosition hi).trans hk.symm)

theorem newPosition_inj (hi : i ∈ order) (hj : j ∈ order)
    (h : newPosition order i = newPosition order j) : i = j := by
  have := getElem?_newPosition hi
  rw [h, getElem?_newPosition hj] at this
  exact (Option.some.inj this).symm

theorem idxOf?_eq_some_iff (hn : order.Nodup) : order.idxOf? i = some k ↔ order[k]? = some i := by
  constructor
  · intro h
    obtain ⟨hlt, heq, -⟩ := List.idxOf?_eq_some_iff.mp h
    rw [List.getElem?_eq_getElem hlt, heq]
  · intro h
    rw [idxOf?_eq_newPosition (List.mem_of_getElem? h), newPosition_eq hn h]

/-- Of two members of an ordered layout, one that may not go second goes first. -/
theorem newPosition_lt_of_pairwise {R : Nat → Nat → Prop} (h : order.Pairwise R) (hi : i ∈ order)
    (hj : j ∈ order) (hne : i ≠ j) (hji : ¬ R j i) :
    newPosition order i < newPosition order j := by
  obtain ⟨hilt, hieq⟩ := List.getElem?_eq_some_iff.mp (getElem?_newPosition hi)
  obtain ⟨hjlt, hjeq⟩ := List.getElem?_eq_some_iff.mp (getElem?_newPosition hj)
  rcases Nat.lt_trichotomy (newPosition order i) (newPosition order j) with hlt | heq | hgt
  · exact hlt
  · exact absurd (newPosition_inj hi hj heq) hne
  · have := List.pairwise_iff_getElem.mp h _ _ hjlt hilt hgt
    rw [hieq, hjeq] at this
    exact absurd this hji

end

/-- Where all members have an image, an image stands where its member stood. -/
theorem getElem?_filterMap_of_isSome {α β : Type} {f : α → Option β} {xs : List α}
    (h : ∀ x ∈ xs, (f x).isSome) (k : Nat) : (xs.filterMap f)[k]? = xs[k]?.bind f := by
  induction xs generalizing k with
  | nil => simp
  | cons x rest ih =>
    obtain ⟨y, hy⟩ := Option.isSome_iff_exists.mp (h x List.mem_cons_self)
    rw [List.filterMap_cons, hy]
    cases k with
    | zero => simp [hy]
    | succ k => simpa using ih (fun x hx => h x (List.mem_cons_of_mem _ hx)) k

namespace Module

/-- Positions of a module, each at most once, and with a node all its arguments. -/
structure IsLayout (m : Module) (order : List Nat) : Prop where
  nodup : order.Nodup
  lt : ∀ i ∈ order, i < m.size
  args : ∀ i ∈ order, ∀ j ∈ m.argsOf i, j ∈ order

variable {m : Module} {order : List Nat} {i j k : Nat}

theorem moveArgs_eq (order : List Nat) (node : Node) :
    moveArgs order node = { node with args := node.args.map (newPosition order) } := rfl

/-! ## Nodes and pins -/

@[simp] theorem inputs_relayout : (m.relayout order).inputs = m.inputs.map (movePin order) := rfl

@[simp] theorem outputs_relayout :
    (m.relayout order).outputs = m.outputs.map (movePin order) := rfl

theorem getElem?_nodes_relayout (hlt : ∀ i ∈ order, i < m.size) (k : Nat) :
    (m.relayout order).nodes[k]? = order[k]?.bind fun i => m.nodes[i]?.map (moveArgs order) := by
  refine getElem?_filterMap_of_isSome (fun i hi => ?_) k
  have hi' : i < m.nodes.length := hlt i hi
  simp [hi']

theorem size_relayout (hlt : ∀ i ∈ order, i < m.size) :
    (m.relayout order).size = order.length := by
  refine List.filterMap_length_eq_length.mpr fun i hi => ?_
  have hi' : i < m.nodes.length := hlt i hi
  simp [hi']

theorem size_relayout_le (h : m.IsLayout order) : (m.relayout order).size ≤ m.size := by
  rw [size_relayout h.lt, ← List.length_range (n := m.size)]
  exact (List.subperm_of_subset h.nodup fun i hi => List.mem_range.mpr (h.lt i hi)).length_le

/-- A node of the new module is a kept node with its arguments moved. -/
theorem getElem?_relayout (h : m.IsLayout order) (hk : order[k]? = some i) :
    (m.relayout order).nodes[k]? = m.nodes[i]?.map (moveArgs order) := by
  rw [getElem?_nodes_relayout h.lt, hk, Option.bind_some]

theorem getElem?_relayout_newPosition (h : m.IsLayout order) (hi : i ∈ order) :
    (m.relayout order).nodes[newPosition order i]? = m.nodes[i]?.map (moveArgs order) :=
  getElem?_relayout h (getElem?_newPosition hi)

/-- Every position of the new module is the new one of a kept node. -/
theorem exists_of_lt_size_relayout (h : m.IsLayout order) (hk : k < (m.relayout order).size) :
    ∃ i ∈ order, newPosition order i = k := by
  rw [size_relayout h.lt] at hk
  exact ⟨order[k], List.getElem_mem hk, newPosition_eq h.nodup (by simp [hk])⟩

theorem argsOf_relayout (h : m.IsLayout order) (hi : i ∈ order) :
    (m.relayout order).argsOf (newPosition order i) = (m.argsOf i).map (newPosition order) := by
  unfold argsOf
  rw [getElem?_relayout_newPosition h hi]
  cases m.nodes[i]? <;> simp [moveArgs_eq]

theorem within_relayout (h : m.IsLayout order) :
    Within (m.relayout order).argsOf (m.relayout order).size := by
  intro k l hl
  have hk := lt_of_mem_argsOf hl
  obtain ⟨i, hi, rfl⟩ := exists_of_lt_size_relayout h hk
  rw [argsOf_relayout h hi] at hl
  obtain ⟨j, hj, rfl⟩ := List.mem_map.mp hl
  refine ⟨hk, ?_⟩
  rw [size_relayout h.lt]
  exact newPosition_lt (h.args i hi j hj)

theorem pinsInRange_iff :
    m.pinsInRange = true ↔ ∀ pin ∈ m.inputs ++ m.outputs, ∀ i, pin.index = some i → i < m.size := by
  simp only [pinsInRange, List.all_eq_true, Option.all_eq_true, decide_eq_true_eq]

/-- A pin is bound to a new position iff it was bound to the node that is now there. -/
theorem index_movePin (hn : order.Nodup) (pin : Pin) (k : Nat) :
    (movePin order pin).index = some k ↔ ∃ i, pin.index = some i ∧ order[k]? = some i := by
  simp only [movePin, Option.bind_eq_some_iff, idxOf?_eq_some_iff hn]

theorem pinsInRange_relayout (h : m.IsLayout order) : (m.relayout order).pinsInRange = true := by
  rw [pinsInRange_iff]
  intro pin hpin k hk
  obtain ⟨old, -, rfl⟩ : ∃ old ∈ m.inputs ++ m.outputs, movePin order old = pin := by
    simpa [← List.map_append] using hpin
  obtain ⟨i, -, hi⟩ := (index_movePin h.nodup old k).mp hk
  rw [size_relayout h.lt]
  exact (List.getElem?_eq_some_iff.mp hi).1

/-! ## Paths -/

theorem mem_argsOf_relayout_iff (h : m.IsLayout order) (hi : i ∈ order) :
    k ∈ (m.relayout order).argsOf (newPosition order i) ↔
      ∃ j ∈ m.argsOf i, newPosition order j = k := by
  rw [argsOf_relayout h hi, List.mem_map]

theorem IsLayout.reaches_mem (h : m.IsLayout order) (hi : i ∈ order)
    (hij : Reaches m.argsOf i j) : j ∈ order :=
  hij.mem_of_closed h.args hi

theorem reaches_relayout (h : m.IsLayout order) (hi : i ∈ order)
    (hij : Reaches m.argsOf i j) :
    Reaches (m.relayout order).argsOf (newPosition order i) (newPosition order j) := by
  induction hij with
  | refl => exact .refl
  | tail hij hjk ih =>
    exact ih.tail ((mem_argsOf_relayout_iff h (h.reaches_mem hi hij)).mpr ⟨_, hjk, rfl⟩)

/-- What a kept node reaches in the new module are the kept nodes that it reached before. -/
theorem exists_of_reaches_relayout (h : m.IsLayout order) (hi : i ∈ order)
    (hik : Reaches (m.relayout order).argsOf (newPosition order i) k) :
    ∃ j ∈ order, newPosition order j = k ∧ Reaches m.argsOf i j := by
  induction hik with
  | refl => exact ⟨i, hi, rfl, .refl⟩
  | tail _ hl ih =>
    obtain ⟨j, hj, rfl, hij⟩ := ih
    obtain ⟨j', hj', rfl⟩ := (mem_argsOf_relayout_iff h hj).mp hl
    exact ⟨j', h.args j hj j' hj', rfl, hij.tail hj'⟩

theorem reaches_relayout_iff (h : m.IsLayout order) (hi : i ∈ order) (hj : j ∈ order) :
    Reaches (m.relayout order).argsOf (newPosition order i) (newPosition order j) ↔
      Reaches m.argsOf i j := by
  refine ⟨fun hij => ?_, reaches_relayout h hi⟩
  obtain ⟨j', hj', heq, hij'⟩ := exists_of_reaches_relayout h hi hij
  exact newPosition_inj hj' hj heq ▸ hij'

/-- A relayout closes no cycle. -/
theorem acyclic_relayout (h : m.IsLayout order) (hac : Acyclic m.argsOf) :
    Acyclic (m.relayout order).argsOf := by
  intro k hk
  obtain ⟨l, hl, hlk⟩ := Relation.TransGen.head'_iff.mp hk
  obtain ⟨i, hi, rfl⟩ := exists_of_lt_size_relayout h (lt_of_mem_argsOf hl)
  obtain ⟨j, hj, rfl⟩ := (mem_argsOf_relayout_iff h hi).mp hl
  exact hac i (.head' hj ((reaches_relayout_iff h (h.args i hi j hj) hi).mp hlk))

/-! ## One relayout after another -/

section

variable {o₁ o₂ : List Nat}

theorem getElem?_comp (h₁ : m.IsLayout o₁) (h₂ : (m.relayout o₁).IsLayout o₂) (k : Nat) :
    (o₂.filterMap (o₁[·]?))[k]? = o₂[k]?.bind (o₁[·]?) := by
  refine getElem?_filterMap_of_isSome (fun l hl => ?_) k
  have := h₂.lt l hl
  rw [size_relayout h₁.lt] at this
  simp [this]

theorem IsLayout.mem_comp_iff (h₁ : m.IsLayout o₁) :
    i ∈ o₂.filterMap (o₁[·]?) ↔ i ∈ o₁ ∧ newPosition o₁ i ∈ o₂ := by
  rw [List.mem_filterMap]
  constructor
  · rintro ⟨k, hk, hget⟩
    exact ⟨List.mem_of_getElem? hget, newPosition_eq h₁.nodup hget ▸ hk⟩
  · rintro ⟨hi, hk⟩
    exact ⟨_, hk, getElem?_newPosition hi⟩

theorem IsLayout.comp (h₁ : m.IsLayout o₁) (h₂ : (m.relayout o₁).IsLayout o₂) :
    m.IsLayout (o₂.filterMap (o₁[·]?)) where
  nodup := by
    refine h₂.nodup.filterMap fun k l i hk hl => ?_
    exact (newPosition_eq h₁.nodup hk).symm.trans (newPosition_eq h₁.nodup hl)
  lt i hi := h₁.lt i (h₁.mem_comp_iff.mp hi).1
  args i hi j hj := by
    obtain ⟨hi, hk⟩ := h₁.mem_comp_iff.mp hi
    have hl := (mem_argsOf_relayout_iff h₁ hi).mpr ⟨j, hj, rfl⟩
    exact h₁.mem_comp_iff.mpr ⟨h₁.args i hi j hj, h₂.args _ hk _ hl⟩

theorem idxOf?_comp (h₁ : m.IsLayout o₁) (h₂ : (m.relayout o₁).IsLayout o₂) (i : Nat) :
    (o₂.filterMap (o₁[·]?)).idxOf? i = (o₁.idxOf? i).bind o₂.idxOf? := by
  ext k
  rw [idxOf?_eq_some_iff (h₁.comp h₂).nodup, getElem?_comp h₁ h₂]
  simp only [Option.bind_eq_some_iff, idxOf?_eq_some_iff h₁.nodup, idxOf?_eq_some_iff h₂.nodup]
  exact exists_congr fun l => and_comm

theorem newPosition_comp (h₁ : m.IsLayout o₁) (h₂ : (m.relayout o₁).IsLayout o₂)
    (hi : i ∈ o₂.filterMap (o₁[·]?)) :
    newPosition (o₂.filterMap (o₁[·]?)) i = newPosition o₂ (newPosition o₁ i) := by
  obtain ⟨hi₁, hi₂⟩ := h₁.mem_comp_iff.mp hi
  have := idxOf?_comp h₁ h₂ i
  rw [idxOf?_eq_newPosition hi, idxOf?_eq_newPosition hi₁, Option.bind_some,
    idxOf?_eq_newPosition hi₂] at this
  exact Option.some.inj this

theorem movePin_comp (h₁ : m.IsLayout o₁) (h₂ : (m.relayout o₁).IsLayout o₂) (pin : Pin) :
    movePin o₂ (movePin o₁ pin) = movePin (o₂.filterMap (o₁[·]?)) pin := by
  cases hi : pin.index with
  | none => simp [movePin, hi]
  | some i => simp [movePin, hi, idxOf?_comp h₁ h₂]

/-- Two relayouts are one. -/
theorem relayout_relayout (h₁ : m.IsLayout o₁) (h₂ : (m.relayout o₁).IsLayout o₂) :
    (m.relayout o₁).relayout o₂ = m.relayout (o₂.filterMap (o₁[·]?)) := by
  have hnodes : ((m.relayout o₁).relayout o₂).nodes =
      (m.relayout (o₂.filterMap (o₁[·]?))).nodes := by
    apply List.ext_getElem?
    intro k
    rw [getElem?_nodes_relayout h₂.lt, getElem?_nodes_relayout (h₁.comp h₂).lt,
      getElem?_comp h₁ h₂]
    cases hk : o₂[k]? with
    | none => rfl
    | some l =>
      rw [Option.bind_some, Option.bind_some, getElem?_nodes_relayout h₁.lt]
      cases hl : o₁[l]? with
      | none => rfl
      | some i =>
        rw [Option.bind_some, Option.bind_some]
        cases hi : m.nodes[i]? with
        | none => rfl
        | some node =>
          have hmem : i ∈ o₂.filterMap (o₁[·]?) :=
            List.mem_filterMap.mpr ⟨l, List.mem_of_getElem? hk, hl⟩
          have hargs : (node.args.map (newPosition o₁)).map (newPosition o₂) =
              node.args.map (newPosition (o₂.filterMap (o₁[·]?))) := by
            rw [List.map_map]
            refine List.map_congr_left fun j hj => ?_
            have := (h₁.comp h₂).args i hmem j (mem_argsOf_iff.mpr ⟨node, hi, hj⟩)
            exact (newPosition_comp h₁ h₂ this).symm
          simp only [Option.map_some, moveArgs_eq, hargs]
  have hpins : ∀ pins : List Pin, (pins.map (movePin o₁)).map (movePin o₂) =
      pins.map (movePin (o₂.filterMap (o₁[·]?))) := by
    intro pins
    rw [List.map_map]
    exact List.map_congr_left fun pin _ => movePin_comp h₁ h₂ pin
  calc (m.relayout o₁).relayout o₂
      = ⟨m.name, ((m.relayout o₁).relayout o₂).nodes, (m.inputs.map (movePin o₁)).map (movePin o₂),
          (m.outputs.map (movePin o₁)).map (movePin o₂)⟩ := rfl
    _ = m.relayout (o₂.filterMap (o₁[·]?)) := by
      rw [hnodes, hpins, hpins]
      rfl

end

/-! ## Layouts of all nodes -/

section

variable {m m' : Module} {order : List Nat}

theorem bijOn_newPosition (h : m.IsLayout order)
    (hall : ∀ i, i ∈ order ↔ i < m.size) :
    Set.BijOn (newPosition order) (Set.Iio m.size) (Set.Iio (m.relayout order).size) := by
  refine ⟨fun i hi => ?_, fun i hi j hj heq => ?_, fun k hk => ?_⟩
  · rw [Set.mem_Iio, size_relayout h.lt]
    exact newPosition_lt ((hall i).mpr hi)
  · exact newPosition_inj ((hall i).mpr hi) ((hall j).mpr hj) heq
  · obtain ⟨i, hi, rfl⟩ := exists_of_lt_size_relayout h hk
    exact ⟨i, (hall i).mp hi, rfl⟩

theorem map_movePin {pins : List Pin}
    (h : ∀ pin ∈ pins, ∀ i, pin.index = some i → i ∈ order) :
    pins.map (movePin order) =
      pins.map fun pin => { pin with index := pin.index.map (newPosition order) } := by
  refine List.map_congr_left fun pin hpin => ?_
  cases hi : pin.index with
  | none => simp [movePin, hi]
  | some i => simp [movePin, hi, idxOf?_eq_newPosition (h pin hpin i hi)]

/-- The module `m'` is `m` with its nodes renumbered, and arguments and pins along with them. -/
structure Renumbered (m m' : Module) (f : Nat → Nat) : Prop where
  name : m'.name = m.name
  size : m'.size = m.size
  bijOn : Set.BijOn f (Set.Iio m.size) (Set.Iio m'.size)
  nodes : ∀ i node, m.nodes[i]? = some node →
    m'.nodes[f i]? = some { node with args := node.args.map f }
  inputs : m'.inputs = m.inputs.map fun pin => { pin with index := pin.index.map f }
  outputs : m'.outputs = m.outputs.map fun pin => { pin with index := pin.index.map f }

/-- A layout of all nodes renumbers them. -/
theorem renumbered_relayout (hp : m.pinsInRange = true) (h : m.IsLayout order)
    (hall : ∀ i, i ∈ order ↔ i < m.size) :
    m.Renumbered (m.relayout order) (newPosition order) where
  name := rfl
  size := by
    have hperm : order.Perm (List.range m.size) :=
      (List.perm_ext_iff_of_nodup h.nodup List.nodup_range).mpr fun i => by
        rw [hall, List.mem_range]
    rw [size_relayout h.lt, hperm.length_eq, List.length_range]
  bijOn := bijOn_newPosition h hall
  nodes i node hi := by
    have hmem : i ∈ order := (hall i).mpr (List.getElem?_eq_some_iff.mp hi).1
    rw [getElem?_relayout_newPosition h hmem, hi]
    rfl
  inputs := map_movePin fun pin hpin i hi =>
    (hall i).mpr (pinsInRange_iff.mp hp pin (List.mem_append_left _ hpin) i hi)
  outputs := map_movePin fun pin hpin i hi =>
    (hall i).mpr (pinsInRange_iff.mp hp pin (List.mem_append_right _ hpin) i hi)

end

end Module

end ImageCircuit
