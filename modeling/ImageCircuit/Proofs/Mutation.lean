import ImageCircuit.Proofs.Swap
import ImageCircuit.Proofs.WellFormed

/-!
# Mutation keeps modules in normal form

* `Module.OperatorStep`, `Module.ConnectionStep`: what the two kinds of mutation apply
* `Module.connected_swapTargets`: a swap cuts no node off from the outputs
* `Module.always_mutate_steps`: whatever is drawn, mutation succeeds and applies such steps
* `Module.always_mutate`: the mutant fits in the place of the module
-/

namespace ImageCircuit.Module

variable {m : Module} {a b : Link} {i : Nat}

/-! ## Operators -/

@[simp] theorem outputs_setOp (op : Op) : (m.setOp i op).outputs = m.outputs := rfl

@[simp] theorem outputIndices_setOp (op : Op) :
    (m.setOp i op).outputIndices = m.outputIndices := rfl

theorem getElem?_setOp (op : Op) (j : Nat) :
    (m.setOp i op).nodes[j]? =
      m.nodes[j]?.map fun node => if i = j then { node with op } else node := by
  simp only [setOp, List.getElem?_modify]
  by_cases h : i = j <;> simp [h]

theorem opAt_setOp (op : Op) (j : Nat) :
    (m.setOp i op).opAt j = (m.opAt j).map fun old => if i = j then op else old := by
  rw [opAt, getElem?_setOp, opAt, Option.map_map, Option.map_map]
  congr 1
  funext node
  by_cases h : i = j <;> simp [h]

theorem opAt_setOp_eq_some_iff {old new op : Op} (hold : m.opAt i = some old) {j : Nat} :
    (m.setOp i new).opAt j = some op ↔ i = j ∧ new = op ∨ i ≠ j ∧ m.opAt j = some op := by
  rw [opAt_setOp]
  by_cases hij : i = j
  · subst hij
    simp [hold]
  · simp [hij]

/-- Another primitive in the place of a primitive takes no input node away and makes none. -/
theorem opAt_setOp_eq_input_iff {before after : Operator} (hop : m.opAt i = some (.prim before))
    {j : Nat} {name : Char} :
    (m.setOp i (.prim after)).opAt j = some (.input name) ↔ m.opAt j = some (.input name) := by
  rw [opAt_setOp_eq_some_iff hop]
  by_cases hij : i = j
  · subst hij
    simp [hop]
  · simp [hij]

@[simp] theorem argsOf_setOp (op : Op) : (m.setOp i op).argsOf = m.argsOf := by
  funext j
  rw [argsOf, getElem?_setOp, argsOf, Option.map_map]
  congr 2
  funext node
  by_cases h : i = j <;> simp [h]

@[simp] theorem size_setOp (op : Op) : (m.setOp i op).size = m.size :=
  List.length_modify ..

theorem opAt_of_mem_mutableNodes {op : Operator} (h : (i, op) ∈ m.mutableNodes) :
    m.opAt i = some (.prim op) ∧ (op.arity = 1 ∨ op.arity = 2) := by
  obtain ⟨⟨node, j⟩, hnode, h⟩ := List.mem_filterMap.mp h
  dsimp only at h
  split at h
  · next op' hop =>
    split at h
    · next harity =>
      cases h
      refine ⟨opAt_eq_some_iff.mpr ⟨node, List.mem_zipIdx_iff_getElem?.mp hnode, ?_⟩, harity⟩
      cases hkind : node.op <;> rw [hkind] at hop <;> cases hop
      rfl
    · cases h
  · cases h

theorem arity_of_mem_alternatives {before after : Operator} (h : after ∈ alternatives before) :
    after.arity = before.arity ∧ after ≠ before := by
  obtain ⟨hmem, hne⟩ := List.mem_filter.mp h
  exact ⟨by simpa using (List.mem_filter.mp hmem).2, by simpa using hne⟩

/-- A primitive may be replaced by another of the same arity. -/
theorem Normal.setOp (hm : m.Normal) {before after : Operator}
    (hop : m.opAt i = some (.prim before)) (harity : after.arity = before.arity) :
    (m.setOp i (.prim after)).Normal where
  within := by simpa using hm.within
  arity j op hj := by
    rw [argsOf_setOp]
    rcases (opAt_setOp_eq_some_iff hop).mp hj with ⟨rfl, heq⟩ | ⟨-, hj⟩
    · cases heq
      rw [harity]
      exact hm.arity i before hop
    · exact hm.arity j op hj
  input_args j name hj := by
    rw [argsOf_setOp]
    exact hm.input_args j name ((opAt_setOp_eq_input_iff hop).mp hj)
  input_pin pin hpin j hj := (opAt_setOp_eq_input_iff hop).mpr (hm.input_pin pin hpin j hj)
  input_node j name hj := hm.input_node j name ((opAt_setOp_eq_input_iff hop).mp hj)
  output := by simpa using hm.output
  sorted := by simpa [isSorted_iff] using isSorted_iff.mp hm.sorted
  ranked := by simpa [RankSorted] using hm.ranked
  connected := by simpa [Connected] using hm.connected

theorem fits_setOp {old : Op} (hold : m.opAt i = some old) (after : Operator) :
    m.Fits (m.setOp i (.prim after)) where
  name := rfl
  inputs := rfl
  outputs := rfl
  size := Nat.le_of_eq (size_setOp _)
  op j op hj := by
    rcases (opAt_setOp_eq_some_iff hold).mp hj with ⟨-, heq⟩ | ⟨-, hj⟩
    · exact .inl ⟨after, heq.symm⟩
    · exact .inr ⟨j, hj, by simp⟩

variable {σ : Type} [Source σ]

/-- What an operator change applies to a module: nothing, or another operator with as many
arguments in the place of one that has one or two. -/
inductive OperatorStep (m : Module) : List Outcome → Module → Prop
  | skip : OperatorStep m [] m
  | change {i : Nat} {before after : Operator} (hop : m.opAt i = some (.prim before))
      (hbefore : before.arity = 1 ∨ before.arity = 2) (harity : after.arity = before.arity)
      (hne : after ≠ before) :
      OperatorStep m [.operatorChanged i before after] (m.setOp i (.prim after))

namespace OperatorStep

variable {m' : Module} {applied : List Outcome}

theorem normal (h : m.OperatorStep applied m') (hm : m.Normal) : m'.Normal := by
  cases h with
  | skip => exact hm
  | change hop _ harity _ => exact hm.setOp hop harity

theorem fits (h : m.OperatorStep applied m') : m.Fits m' := by
  cases h with
  | skip => exact .refl m
  | change hop _ _ _ => exact fits_setOp hop _

end OperatorStep

theorem always_mutateOperator_step :
    Draw.Always (m.mutateOperator : Draw σ _) fun r =>
      m.OperatorStep ([r.1].filter (·.isApplied)) r.2 := by
  refine .bind (Draw.always_choose _) fun r hr => ?_
  split
  · exact .pure .skip
  · next i before =>
    refine .bind (Draw.always_choose _) fun r' hr' => ?_
    split
    · exact .pure .skip
    · next after =>
      obtain ⟨hop, hbefore⟩ := opAt_of_mem_mutableNodes (hr (i, before) rfl)
      obtain ⟨harity, hne⟩ := arity_of_mem_alternatives (hr' after rfl)
      exact .pure (.change hop hbefore harity hne)

theorem always_mutateOperator (hm : m.Normal) :
    Draw.Always (m.mutateOperator : Draw σ _) fun r => r.2.Normal ∧ m.Fits r.2 :=
  always_mutateOperator_step.mono fun _ h => ⟨h.normal hm, h.fits⟩

/-! ## Connections -/

theorem opAt_swapTargets (hne : a.node ≠ b.node) (i : Nat) :
    (m.swapTargets a b).opAt i = m.opAt i := by
  rw [opAt, getElem?_swapTargets hne, Option.map_map]
  rfl

theorem length_argsOf_swapTargets (hne : a.node ≠ b.node) (i : Nat) :
    ((m.swapTargets a b).argsOf i).length = (m.argsOf i).length := by
  rw [argsOf_swapTargets hne, exchangedArgs, List.length_mapIdx]

theorem Formed.swapTargets (hm : m.Formed) (h : m.Swappable a b) :
    (m.swapTargets a b).Formed where
  within := h.within hm.within
  arity i op hop := by
    rw [opAt_swapTargets h.ne] at hop
    rw [length_argsOf_swapTargets h.ne, hm.arity i op hop]
  input_args i name hop := by
    rw [opAt_swapTargets h.ne] at hop
    rw [← List.length_eq_zero_iff, length_argsOf_swapTargets h.ne, hm.input_args i name hop]
    rfl
  input_pin pin hpin i hi := by
    rw [opAt_swapTargets h.ne]
    exact hm.input_pin pin hpin i hi
  input_node i name hop := by
    rw [opAt_swapTargets h.ne] at hop
    exact hm.input_node i name hop
  output := by simpa using hm.output

/-- Both nodes of a swap are what the outputs depend on, so nothing is cut off. -/
theorem connected_swapTargets (hac : Acyclic m.argsOf) (hm : m.Connected) (h : m.Swappable a b) :
    (m.swapTargets a b).Connected := by
  intro i hi
  simp only [size_swapTargets] at hi
  exact h.crossed.exists_reaches hac h.not_below h.not_above
    (hm _ (node_lt_of_mem_links h.first_mem))
    (hm _ (node_lt_of_mem_links h.second_mem)) (hm i hi)

/-- A layout of all nodes keeps a module connected. -/
theorem Connected.relayout {order : List Nat} (hm : m.Connected) (h : m.IsLayout order)
    (hall : ∀ i, i ∈ order ↔ i < m.size) (hout : ∀ o ∈ m.outputIndices, o < m.size) :
    (m.relayout order).Connected := by
  intro k hk
  obtain ⟨i, hi, rfl⟩ := exists_of_lt_size_relayout h hk
  obtain ⟨o, ho, hoi⟩ := hm i ((hall i).mp hi)
  have ho' := (hall o).mpr (hout o ho)
  exact ⟨_, (mem_outputIndices_relayout_iff h ho').mpr ho, reaches_relayout h ho' hoi⟩

theorem fits_relayout {order : List Nat} (h : m.IsLayout order) : m.Fits (m.relayout order) where
  name := rfl
  inputs := by
    rw [inputs_relayout, List.map_map]
    rfl
  outputs := by
    rw [outputs_relayout, List.map_map]
    rfl
  size := size_relayout_le h
  op k op hop := by
    obtain ⟨i, hi, rfl⟩ := exists_of_lt_size_relayout h (lt_of_opAt hop)
    rw [opAt_relayout h hi] at hop
    exact .inr ⟨i, hop, by rw [argsOf_relayout h hi, List.length_map]⟩

theorem fits_swapTargets (hne : a.node ≠ b.node) : m.Fits (m.swapTargets a b) where
  name := rfl
  inputs := rfl
  outputs := rfl
  size := Nat.le_of_eq size_swapTargets
  op i _ hop := .inr ⟨i, opAt_swapTargets hne i ▸ hop, (length_argsOf_swapTargets hne i).symm⟩

/-- What a connection swap applies to a module: nothing, or an exchange and sorting. -/
inductive ConnectionStep (m : Module) : List Outcome → Module → Prop
  | skip : ConnectionStep m [] m
  | swap {first second : Link} {m' : Module} (h : m.Swappable first second)
      (hsort : (m.swapTargets first second).topologicalSort = .ok m') :
      ConnectionStep m [.connectionSwapped first second] m'

namespace ConnectionStep

variable {m' : Module} {applied : List Outcome}

theorem normal_and_fits (h : m.ConnectionStep applied m') (hm : m.Normal) :
    m'.Normal ∧ m.Fits m' := by
  cases h with
  | skip => exact ⟨hm, .refl m⟩
  | swap h hsort =>
    obtain ⟨order, hsort', hlayout, hall, hsorted, hranked⟩ :=
      h.topologicalSort_eq hm.within hm.pinsInRange hm.acyclic
    obtain rfl := Except.ok.inj (hsort.symm.trans hsort')
    have hformed := hm.toFormed.swapTargets h
    rw [← size_swapTargets] at hall
    have hout := hformed.outputIndices_lt
    refine ⟨⟨hformed.relayout hlayout fun o ho => (hall o).mpr (hout o ho), hsorted, hranked, ?_⟩,
      ?_⟩
    · exact (connected_swapTargets hm.acyclic hm.connected h).relayout hlayout hall hout
    · exact (fits_swapTargets h.ne).trans (fits_relayout hlayout)

end ConnectionStep

theorem always_mutateConnection_step (hm : m.Normal) (attempts : Nat) :
    Draw.Always (m.mutateConnection attempts : Draw σ _) fun r =>
      ∃ outcome, r.1 = .ok outcome ∧ m.ConnectionStep ([outcome].filter (·.isApplied)) r.2 := by
  refine (always_mutateConnection hm.within attempts).mono ?_
  rintro _ (⟨obstacle, rfl⟩ | ⟨first, second, hswap, rfl⟩)
  · exact ⟨_, rfl, .skip⟩
  · obtain ⟨order, hsort, -⟩ := hswap.topologicalSort_eq hm.within hm.pinsInRange hm.acyclic
    rw [swapSorted_of_topologicalSort hsort]
    exact ⟨_, rfl, .swap hswap hsort⟩

theorem always_mutateConnection_normal (hm : m.Normal) (attempts : Nat) :
    Draw.Always (m.mutateConnection attempts : Draw σ _) fun r =>
      (∃ outcome, r.1 = .ok outcome) ∧ r.2.Normal ∧ m.Fits r.2 :=
  (always_mutateConnection_step hm attempts).mono fun _ ⟨outcome, hok, hstep⟩ =>
    ⟨⟨outcome, hok⟩, hstep.normal_and_fits hm⟩

/-! ## Both -/

/-- Mutation of a module in normal form succeeds. What it applies is an operator change and then a
connection swap, or one of them, or nothing. -/
theorem always_mutate_steps (hm : m.Normal) (s : MutationSettings) :
    Draw.Always (m.mutate s : Draw σ _) fun r =>
      ∃ outcomes changes swaps between, r.1 = .ok outcomes ∧
        outcomes.filter (·.isApplied) = changes ++ swaps ∧
        m.OperatorStep changes between ∧ between.ConnectionStep swaps r.2 := by
  have hoperator : Draw.Always (m.mutateOperatorSometimes s : Draw σ _) fun r =>
      m.OperatorStep (r.1.filter (·.isApplied)) r.2 := by
    refine .bind_any fun x => ?_
    split
    · exact .bind always_mutateOperator_step fun r hr => .pure hr
    · exact .pure .skip
  have hconnection : ∀ n : Module, n.Normal →
      Draw.Always (n.mutateConnectionSometimes s : Draw σ _) fun r =>
        ∃ outcomes, r.1 = .ok outcomes ∧
          n.ConnectionStep (outcomes.filter (·.isApplied)) r.2 := by
    intro n hn
    refine .bind_any fun x => ?_
    split
    · refine .bind (always_mutateConnection_step hn _) ?_
      rintro ⟨result, n'⟩ ⟨outcome, rfl, hstep⟩
      exact .pure ⟨_, rfl, hstep⟩
    · exact .pure ⟨_, rfl, .skip⟩
  refine .bind hoperator ?_
  rintro ⟨changes, between⟩ hchange
  refine .bind (hconnection between (hchange.normal hm)) ?_
  rintro ⟨swaps, m'⟩ ⟨outcomes, rfl, hswap⟩
  exact .pure ⟨_, _, _, between, rfl, List.filter_append .., hchange, hswap⟩

/-- Mutation of a module in normal form succeeds and gives another one that fits in its place. -/
theorem always_mutate (hm : m.Normal) (s : MutationSettings) :
    Draw.Always (m.mutate s : Draw σ _) fun r =>
      (∃ outcomes, r.1 = .ok outcomes) ∧ r.2.Normal ∧ m.Fits r.2 := by
  refine (always_mutate_steps hm s).mono ?_
  rintro ⟨_, m'⟩ ⟨outcomes, _, _, between, hok, -, hchange, hswap⟩
  obtain ⟨hm', hfits⟩ := hswap.normal_and_fits (hchange.normal hm)
  exact ⟨⟨outcomes, hok⟩, hm', hchange.fits.trans hfits⟩

end ImageCircuit.Module
