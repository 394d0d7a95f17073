import ImageCircuit.Circuit.Eval
import ImageCircuit.Proofs.Formed

/-!
# What evaluation leaves alone

Evaluation stores values in the nodes and marks them as computed. Names, pins, operations and
arguments stay, and so do the literals of constants that no input pin is bound to.

* `Module.sameFrame_eval`: evaluating a module, also where it fails
* `sameFrames_evalAt`: evaluating a module of a circuit, with all calls in it
-/

namespace ImageCircuit

namespace Module

/-- The module `m'` is `m` with other values stored in its nodes. -/
structure SameFrame (m m' : Module) : Prop where
  name : m'.name = m.name
  inputs : m'.inputs = m.inputs
  outputs : m'.outputs = m.outputs
  op : ∀ i, m'.opAt i = m.opAt i
  args : ∀ i, m'.argsOf i = m.argsOf i
  literal : ∀ i, m.opAt i = some (.prim .const) → m.isInput i = false →
    valueAt m'.nodes i = valueAt m.nodes i

namespace SameFrame

variable {m m' m'' : Module}

theorem refl (m : Module) : m.SameFrame m :=
  ⟨rfl, rfl, rfl, fun _ => rfl, fun _ => rfl, fun _ _ _ => rfl⟩

theorem isInput (h : m.SameFrame m') (i : Nat) : m'.isInput i = m.isInput i := by
  rw [Module.isInput, Module.isInput, h.inputs]

theorem trans (h : m.SameFrame m') (h' : m'.SameFrame m'') : m.SameFrame m'' where
  name := h'.name.trans h.name
  inputs := h'.inputs.trans h.inputs
  outputs := h'.outputs.trans h.outputs
  op i := (h'.op i).trans (h.op i)
  args i := (h'.args i).trans (h.args i)
  literal i hop hin :=
    (h'.literal i (h.op i ▸ hop) (h.isInput i ▸ hin)).trans (h.literal i hop hin)

theorem symm (h : m.SameFrame m') : m'.SameFrame m where
  name := h.name.symm
  inputs := h.inputs.symm
  outputs := h.outputs.symm
  op i := (h.op i).symm
  args i := (h.args i).symm
  literal i hop hin := (h.literal i (h.op i ▸ hop) (h.isInput i ▸ hin)).symm

theorem argsOf_eq (h : m.SameFrame m') : m'.argsOf = m.argsOf :=
  funext h.args

theorem size (h : m.SameFrame m') : m'.size = m.size := by
  have hnone : ∀ i : Nat, m'.nodes[i]? = none ↔ m.nodes[i]? = none := by
    intro i
    have hop := congrArg Option.isNone (h.op i)
    simp only [opAt, Option.isNone_map] at hop
    rw [← Option.isNone_iff_eq_none, hop, Option.isNone_iff_eq_none]
  simp only [List.getElem?_eq_none_iff] at hnone
  exact Nat.le_antisymm ((hnone _).mpr (Nat.le_refl _)) ((hnone _).mp (Nat.le_refl _))

theorem outputIndices (h : m.SameFrame m') : m'.outputIndices = m.outputIndices := by
  rw [Module.outputIndices, Module.outputIndices, h.outputs]

theorem argsInRange (h : m.SameFrame m') (hm : m.argsInRange = true) : m'.argsInRange = true := by
  rw [argsInRange_iff, h.argsOf_eq, h.size]
  exact argsInRange_iff.mp hm

/-- Primitives have no more arguments than before. -/
theorem arity (h : m.SameFrame m') {bound : Nat}
    (hm : ∀ i op, m.opAt i = some (.prim op) → (m.argsOf i).length ≤ bound) :
    ∀ i op, m'.opAt i = some (.prim op) → (m'.argsOf i).length ≤ bound := by
  intro i op hop
  rw [h.args]
  exact hm i op (h.op i ▸ hop)

theorem isSorted_iff (h : m.SameFrame m') : m'.isSorted = true ↔ m.isSorted = true := by
  rw [Module.isSorted_iff, Module.isSorted_iff, h.argsOf_eq]

theorem formed (h : m.SameFrame m') (hm : m.Formed) : m'.Formed where
  within := by
    rw [h.argsOf_eq, h.size]
    exact hm.within
  arity i op hop := by
    rw [h.args]
    exact hm.arity i op (h.op i ▸ hop)
  input_args i name hop := by
    rw [h.args]
    exact hm.input_args i name (h.op i ▸ hop)
  input_pin := by
    rw [h.inputs]
    intro pin hpin i hi
    rw [h.op]
    exact hm.input_pin pin hpin i hi
  input_node i name hop := by
    rw [h.inputs]
    exact hm.input_node i name (h.op i ▸ hop)
  output := by
    rw [h.outputs, h.size]
    exact hm.output

/-- Nodes differ in their stored values only. -/
theorem getElem? (h : m.SameFrame m') {i : Nat} {node : Node} (hi : m'.nodes[i]? = some node) :
    ∃ old, m.nodes[i]? = some old ∧ old.op = node.op ∧ old.args = node.args := by
  have hop := h.op i
  rw [opAt, hi, Option.map_some] at hop
  obtain ⟨old, hold, heq⟩ := opAt_eq_some_iff.mp hop.symm
  refine ⟨old, hold, heq, ?_⟩
  rw [← Module.argsOf_eq hold, ← Module.argsOf_eq hi, h.args]

theorem opAt_eq {nodes : List Node} (h : m.SameFrame { m with nodes }) {i : Nat} {node : Node}
    (hi : nodes[i]? = some node) : m.opAt i = some node.op := by
  rw [← h.op]
  exact opAt_eq_some_iff.mpr ⟨node, hi, rfl⟩

theorem argsOf_eq_args {nodes : List Node} (h : m.SameFrame { m with nodes }) {i : Nat}
    {node : Node} (hi : nodes[i]? = some node) : m.argsOf i = node.args := by
  rw [← h.args]
  exact Module.argsOf_eq hi

/-- Constants keep their literals. -/
theorem value_eq (h : m.SameFrame m') (hm : m.Formed) {i : Nat} {old node : Node}
    (hold : m.nodes[i]? = some old) (hi : m'.nodes[i]? = some node)
    (hop : old.op = .prim .const) : node.value = old.value := by
  have hconst := opAt_eq_some_iff.mpr ⟨old, hold, hop⟩
  have := h.literal i hconst (hm.isInput_eq_false hconst)
  rw [valueAt, valueAt, hi, hold] at this
  exact this

end SameFrame

/-! ## Storing values -/

theorem getElem?_store (nodes : List Node) (i : Nat) (value : Float) (j : Nat) :
    (store nodes i value)[j]? =
      nodes[j]?.map fun node =>
        if i = j then { node with value, computed := true } else node := by
  rw [store, List.getElem?_modify]
  by_cases h : i = j <;> simp [h]

theorem valueAt_store_of_ne (nodes : List Node) {i j : Nat} (h : i ≠ j) (value : Float) :
    valueAt (store nodes i value) j = valueAt nodes j := by
  simp [valueAt, getElem?_store, h]

theorem valueAt_store (nodes : List Node) {i : Nat} (hi : i < nodes.length) (value : Float) :
    valueAt (store nodes i value) i = value := by
  simp [valueAt, getElem?_store, hi]

section

variable {m : Module} {nodes : List Node} {i : Nat} {value : Float}

/-- Storing a value changes the frame only where it replaces another literal. -/
theorem SameFrame.store (h : m.SameFrame { m with nodes })
    (hlit : m.opAt i = some (.prim .const) → m.isInput i = false → value = valueAt nodes i) :
    m.SameFrame { m with nodes := store nodes i value } where
  name := rfl
  inputs := rfl
  outputs := rfl
  op j := by
    rw [← h.op j, opAt, opAt, getElem?_store, Option.map_map]
    congr 1
    funext node
    by_cases hij : i = j <;> simp [hij]
  args j := by
    rw [← h.args j, argsOf, argsOf, getElem?_store, Option.map_map]
    congr 2
    funext node
    by_cases hij : i = j <;> simp [hij]
  literal j hop hin := by
    by_cases hij : i = j
    · subst hij
      have hlt : i < ({ m with nodes } : Module).size := by
        rw [h.size]
        exact lt_of_opAt hop
      rw [valueAt_store nodes hlt, hlit hop hin]
      exact h.literal i hop hin
    · rw [valueAt_store_of_ne nodes hij]
      exact h.literal j hop hin

end

/-- Input values replace no literal, since their pins are bound to their nodes. -/
theorem sameFrame_storeInputs {m : Module} {nodes : List Node} (pins : List Pin)
    (values : List Float) (h : m.SameFrame { m with nodes })
    (hpins : ∀ pin ∈ pins, ∀ i, pin.index = some i → m.isInput i = true) :
    m.SameFrame { m with nodes := storeInputs nodes pins values } := by
  induction pins generalizing nodes values with
  | nil => exact h
  | cons pin rest ih =>
    rw [storeInputs]
    refine ih _ ?_ fun pin hpin => hpins pin (List.mem_cons_of_mem _ hpin)
    cases hi : pin.index with
    | none => exact h
    | some i =>
      have := hpins pin List.mem_cons_self i hi
      exact h.store fun _ hin => absurd this (by simp [hin])

theorem isInput_of_mem {m : Module} {pin : Pin} (hpin : pin ∈ m.inputs) {i : Nat}
    (hi : pin.index = some i) : m.isInput i = true :=
  List.any_eq_true.mpr ⟨pin, hpin, decide_eq_true hi⟩

theorem sameFrame_uncompute (m : Module) :
    m.SameFrame { m with nodes := m.nodes.map fun node => { node with computed := false } } where
  name := rfl
  inputs := rfl
  outputs := rfl
  op i := by simp [opAt, Function.comp_def]
  args i := by simp [argsOf, Function.comp_def]
  literal i _ _ := by simp [valueAt, Function.comp_def]

/-- Where all pins name nodes, the inputs can be set. -/
theorem setInputs_of_pinsInRange {m : Module} (hp : m.pinsInRange = true) (values : List Float) :
    m.setInputs values = .ok { m with
      nodes := storeInputs (m.nodes.map fun node => { node with computed := false }) m.inputs
        values } :=
  if_pos (List.all_eq_true.mpr fun pin hpin =>
    List.all_eq_true.mp hp pin (List.mem_append_left _ hpin))

theorem sameFrame_setInputs {m m' : Module} {values : List Float}
    (h : m.setInputs values = .ok m') : m.SameFrame m' := by
  unfold setInputs at h
  split at h
  · obtain rfl := Except.ok.inj h
    exact sameFrame_storeInputs m.inputs values (sameFrame_uncompute m)
      fun pin hpin i hi => isInput_of_mem hpin hi
  · cases h

/-! ## Evaluating a module -/

section

variable {σ : Type} {m : Module} {ctx : Context σ}

/-- The value found for a constant is the one that is stored already, its literal. -/
theorem SameFrame.value_of_nodeValue {nodes : List Node} {node : Node} {s s' : σ} {value : Float}
    {i : Nat} (h : m.SameFrame { m with nodes }) (hnode : nodes[i]? = some node)
    (hop : m.opAt i = some (.prim .const))
    (hvalue : nodeValue ctx nodes node s = (.ok value, s')) : value = valueAt nodes i := by
  have hop' : node.op = .prim .const := by
    have hsame := h.op i
    rw [hop, opAt, hnode] at hsame
    exact Option.some.inj hsame
  simp only [nodeValue, hop', Prod.mk.injEq, Except.ok.injEq] at hvalue
  rw [← hvalue.1, valueAt, hnode]
  rfl

theorem sameFrame_scan (live : List Bool) (i : Nat) (nodes : List Node) (s : σ)
    (h : m.SameFrame { m with nodes }) :
    m.SameFrame { m with nodes := (scan ctx live i nodes s).2.1 } := by
  fun_induction scan ctx live i nodes s with
  | case1 => exact h
  | case2 _ _ _ _ ih => exact ih h
  | case3 _ _ _ _ _ _ ih => exact ih h
  | case4 => exact h
  | case5 i nodes s node hnode _ value s' hvalue ih =>
    exact ih (h.store fun hop _ => h.value_of_nodeValue hnode hop hvalue)

/-- Evaluation, whether it succeeds or fails, changes nothing but the stored values. -/
theorem sameFrame_eval (values : List Float) (s : σ) :
    m.SameFrame (m.eval ctx values s).2.1 := by
  unfold eval
  split
  · exact .refl m
  · next m' hset =>
    have hframe := sameFrame_setInputs hset
    have hnodes : m'.SameFrame (m'.evalNodes ctx m'.outputIndices s).2.1 := by
      unfold evalNodes
      split
      · exact .refl m'
      · exact sameFrame_scan _ _ _ _ (.refl m')
    split
    · next heq => exact hframe.trans (by rw [heq] at hnodes; exact hnodes)
    · next heq => exact hframe.trans (by rw [heq] at hnodes; exact hnodes)

theorem nodeValue_keeps {I : σ → Prop} (hcall : ∀ index xs s, I s → I (ctx.call index xs s).2)
    (nodes : List Node) (node : Node) {s : σ} (h : I s) : I (nodeValue ctx nodes node s).2 := by
  unfold nodeValue
  split
  · exact h
  · exact h
  · split <;> exact h
  · exact h
  · exact hcall _ _ _ h

/-- What all calls keep of the surroundings, evaluation keeps. -/
theorem scan_keeps {I : σ → Prop} (hcall : ∀ index xs s, I s → I (ctx.call index xs s).2)
    (live : List Bool) (i : Nat) (nodes : List Node) (s : σ) (h : I s) :
    I (scan ctx live i nodes s).2.2 := by
  fun_induction scan ctx live i nodes s with
  | case1 => exact h
  | case2 _ _ _ _ ih => exact ih h
  | case3 _ _ _ _ _ _ ih => exact ih h
  | case4 i nodes s node _ _ _ s' heq =>
    have := nodeValue_keeps hcall nodes node h
    rwa [heq] at this
  | case5 i nodes s node _ _ _ s' heq ih =>
    have := nodeValue_keeps hcall nodes node h
    exact ih (by rwa [heq] at this)

theorem eval_keeps {I : σ → Prop} (hcall : ∀ index xs s, I s → I (ctx.call index xs s).2)
    (values : List Float) (s : σ) (h : I s) : I (m.eval ctx values s).2.2 := by
  unfold eval
  split
  · exact h
  · next m' _ =>
    have hnodes : I (m'.evalNodes ctx m'.outputIndices s).2.2 := by
      unfold evalNodes
      split
      · exact h
      · exact scan_keeps hcall _ _ _ _ h
    split
    · next heq => rwa [heq] at hnodes
    · next heq => rwa [heq] at hnodes

end

end Module

/-! ## Evaluating a module of a circuit -/

/-- Both lists hold modules of the same frames at the same places. -/
def SameFrames (modules modules' : List Module) : Prop :=
  modules'.length = modules.length ∧
    ∀ (k : Nat) (m : Module), modules[k]? = some m →
      ∃ m' : Module, modules'[k]? = some m' ∧ m.SameFrame m'

namespace SameFrames

variable {ms ms' ms'' : List Module}

theorem refl (ms : List Module) : SameFrames ms ms :=
  ⟨rfl, fun _ m h => ⟨m, h, .refl m⟩⟩

theorem trans (h : SameFrames ms ms') (h' : SameFrames ms' ms'') : SameFrames ms ms'' := by
  refine ⟨h'.1.trans h.1, fun k m hm => ?_⟩
  obtain ⟨m', hm', hframe⟩ := h.2 k m hm
  obtain ⟨m'', hm'', hframe'⟩ := h'.2 k m' hm'
  exact ⟨m'', hm'', hframe.trans hframe'⟩

/-- A module that has been taken out is put back where it stood. -/
theorem set_back {index : Nat} {m m' e : Module} (hm : ms[index]? = some m)
    (h : SameFrames (ms.set index e) ms') (hframe : m.SameFrame m') :
    SameFrames ms (ms'.set index m') := by
  obtain ⟨hlen, hget⟩ := h
  rw [List.length_set] at hlen
  refine ⟨by rw [List.length_set, hlen], fun k n hn => ?_⟩
  by_cases hk : index = k
  · subst hk
    obtain rfl := Option.some.inj (hm.symm.trans hn)
    have hlt := (List.getElem?_eq_some_iff.mp hm).1
    exact ⟨m', List.getElem?_set_self (hlen ▸ hlt), hframe⟩
  · obtain ⟨n', hn', hframe'⟩ := hget k n (by rw [List.getElem?_set_ne hk, hn])
    exact ⟨n', by rw [List.getElem?_set_ne hk, hn'], hframe'⟩

end SameFrames

theorem sameFrames_evalAt_of_call {noise : Noise}
    {call : Nat → List Float → List Module → Answer Float}
    (hcall : ∀ index xs ms, SameFrames ms (call index xs ms).2) (index : Nat)
    (values : List Float) (ms : List Module) :
    SameFrames ms (evalAt noise call index values ms).2 := by
  unfold evalAt
  split
  · exact .refl ms
  · next m hm =>
    refine .set_back (e := .empty) hm ?_ (Module.sameFrame_eval values _)
    exact Module.eval_keeps (I := SameFrames (ms.set index .empty))
      (fun j xs ms' h => h.trans (hcall j xs ms')) values _ (.refl _)

theorem sameFrames_callWithin (noise : Noise) (depth index : Nat) (xs : List Float)
    (ms : List Module) : SameFrames ms (callWithin noise depth index xs ms).2 := by
  induction depth generalizing index xs ms with
  | zero => exact .refl ms
  | succ depth ih => exact sameFrames_evalAt_of_call (fun j ys ms' => ih j ys ms') index xs ms

theorem sameFrames_evalAt (noise : Noise) (depth index : Nat) (values : List Float)
    (ms : List Module) : SameFrames ms (evalAt noise (callWithin noise depth) index values ms).2 :=
  sameFrames_evalAt_of_call (sameFrames_callWithin noise depth) index values ms

end ImageCircuit
