import ImageCircuit.Proofs.Accepts
import ImageCircuit.Proofs.Connected
import ImageCircuit.Proofs.Frame
import ImageCircuit.Proofs.PostHoc

/-!
# Input pins and input nodes

Each step that moves, drops or changes nodes renumbers the input pins on its own. None of them looks
for the nodes by name, and none has to: such a search finds each pin bound already.

* `Module.Bound`: each input pin is bound to the node of its name, and to no other
* `Module.Bound.reconstructInputs_eq`: the search then changes nothing
* `Module.Bound.relayout`, `Module.Bound.opAt_eq`: renumbering keeps it, and so does all that leaves
  the input nodes where they are
* `Module.Handled.bindings_agree`: it holds of what is read from a text, whatever is done to it
-/

namespace ImageCircuit.Module

variable {m m' : Module} {order : List Nat}

/-- Each input pin is bound to the only node that carries its name, or there is none and it is
unbound. -/
structure Bound (m : Module) : Prop where
  within : Within m.argsOf m.size
  pins : m.pinsInRange = true
  input : ∀ pin ∈ m.inputs, ∀ i, pin.index = some i ↔ m.opAt i = some (.input pin.name)

/-! ## The search by name -/

theorem nodup_inputNodes (nodes : List Node) (name : Char) : (inputNodes nodes name).Nodup := by
  have hsub : (inputNodes nodes name).Sublist (nodes.zipIdx.map (·.2)) :=
    List.filter_sublist.map _
  refine hsub.nodup ?_
  rw [List.zipIdx_map_snd]
  exact List.nodup_range'

/-- If just the node that a pin is bound to carries its name, the search finds no other. -/
theorem inputNodes_eq {nodes : List Node} {pin : Pin}
    (h : ∀ i, pin.index = some i ↔ i ∈ inputNodes nodes pin.name) :
    inputNodes nodes pin.name = pin.index.toList := by
  have hperm : (inputNodes nodes pin.name).Perm pin.index.toList := by
    refine (List.perm_ext_iff_of_nodup (nodup_inputNodes _ _) ?_).mpr fun i => ?_
    · cases pin.index <;> simp
    · rw [← h, Option.mem_toList]
  cases hi : pin.index with
  | none => simpa [hi] using hperm
  | some i => simpa [hi] using hperm

theorem rebind_eq_self {nodes : List Node} {pins : List Pin}
    (h : ∀ pin ∈ pins, inputNodes nodes pin.name = pin.index.toList) :
    rebind nodes pins = (.ok (), pins) := by
  induction pins with
  | nil => rfl
  | cons pin rest ih =>
    obtain ⟨name, index⟩ := pin
    have hfirst : inputNodes nodes name = index.toList := h _ List.mem_cons_self
    have hrest := ih fun pin hpin => h pin (List.mem_cons_of_mem _ hpin)
    cases index with
    | none => simp [rebind, hfirst, hrest]
    | some i => simp [rebind, hfirst, hrest]

theorem Bound.reconstructInputs_eq (h : m.Bound) : m.reconstructInputs = (.ok (), m) := by
  have hpins : rebind m.nodes m.inputs = (.ok (), m.inputs) := by
    refine rebind_eq_self fun pin hpin => inputNodes_eq fun i => ?_
    rw [h.input pin hpin, opAt_eq_some_iff, mem_inputNodes_iff]
  rw [reconstructInputs, hpins]

/-! ## Steps -/

/-- The pins are renumbered by the nodes that they are bound to, and the nodes carry their names to
their new positions. -/
theorem Bound.relayout (h : m.Bound) (hlayout : m.IsLayout order) : (m.relayout order).Bound where
  within := within_relayout hlayout
  pins := pinsInRange_relayout hlayout
  input pin hpin k := by
    obtain ⟨old, hold, rfl⟩ := List.mem_map.mp hpin
    constructor
    · intro hk
      obtain ⟨i, hidx, hget⟩ := (index_movePin hlayout.nodup old k).mp hk
      rw [← newPosition_eq hlayout.nodup hget, opAt_relayout hlayout (List.mem_of_getElem? hget)]
      exact (h.input old hold i).mp hidx
    · intro hop
      obtain ⟨i, hi, rfl⟩ := exists_of_lt_size_relayout hlayout (lt_of_opAt hop)
      rw [opAt_relayout hlayout hi] at hop
      exact (index_movePin_newPosition hlayout hi old).mpr ((h.input old hold i).mpr hop)

/-- What keeps the input nodes in their places may change anything else. -/
theorem Bound.opAt_eq (h : m.Bound) (hn : Within m'.argsOf m'.size) (hp : m'.pinsInRange = true)
    (hinputs : m'.inputs = m.inputs)
    (hop : ∀ i name, m'.opAt i = some (.input name) ↔ m.opAt i = some (.input name)) :
    m'.Bound where
  within := hn
  pins := hp
  input pin hpin i := by
    rw [hinputs] at hpin
    rw [hop, h.input pin hpin]

theorem Bound.sameFrame (h : m.Bound) (hframe : m.SameFrame m') : m'.Bound := by
  refine h.opAt_eq ?_ ?_ hframe.inputs fun i name => by rw [hframe.op]
  · rw [hframe.argsOf_eq, hframe.size]
    exact h.within
  · rw [pinsInRange_iff, hframe.inputs, hframe.outputs, hframe.size]
    exact pinsInRange_iff.mp h.pins

theorem Bound.setOp (h : m.Bound) {i : Nat} {before : Operator}
    (hop : m.opAt i = some (.prim before)) (after : Operator) :
    (m.setOp i (.prim after)).Bound := by
  refine h.opAt_eq (by simpa using h.within) ?_ rfl fun j name => opAt_setOp_eq_input_iff hop
  rw [pinsInRange_iff, size_setOp]
  exact pinsInRange_iff.mp h.pins

theorem Bound.swapTargets (h : m.Bound) {a b : Link} (hswap : m.Swappable a b) :
    (m.swapTargets a b).Bound :=
  h.opAt_eq (hswap.within h.within) (pinsInRange_swapTargets h.pins) rfl fun i name => by
    rw [opAt_swapTargets hswap.ne]

theorem Bound.topologicalSort (h : m.Bound) (hsort : m.topologicalSort = .ok m') : m'.Bound := by
  obtain ⟨order, rfl, hlayout, -⟩ := exists_layout_of_topologicalSort h.within hsort
  exact h.relayout hlayout

theorem Bound.sortInPlace (h : m.Bound) : (sortInPlace.run m).2.Bound := by
  rw [run_sortInPlace]
  split
  · next hsort => exact h.topologicalSort hsort
  · exact h

theorem Bound.exists_treeShakeFrom (h : m.Bound) (roots : List Nat) :
    ∃ m', m.treeShakeFrom roots = .ok m' ∧ m'.Bound := by
  obtain ⟨order, hshake, hlayout, -⟩ := treeShakeFrom_eq h.within h.pins roots
  exact ⟨_, hshake, h.relayout hlayout⟩

theorem Bound.exists_setInputs (h : m.Bound) (values : List Float) :
    ∃ m', m.setInputs values = .ok m' ∧ m'.Bound := by
  have hset := setInputs_of_pinsInRange h.pins values
  exact ⟨_, hset, h.sameFrame (sameFrame_setInputs hset)⟩

theorem Bound.eval (h : m.Bound) {σ : Type} (ctx : Context σ) (values : List Float) (s : σ) :
    (m.eval ctx values s).2.1.Bound :=
  h.sameFrame (sameFrame_eval values s)

theorem OperatorStep.bound {applied : List Outcome} (hstep : m.OperatorStep applied m')
    (h : m.Bound) : m'.Bound := by
  cases hstep with
  | skip => exact h
  | change hop _ _ _ => exact h.setOp hop _

section

variable {σ : Type} [Source σ]

theorem Bound.mutateOperator (h : m.Bound) (s : σ) : (m.mutateOperator s).1.2.Bound :=
  (always_mutateOperator_step s).bound h

theorem Bound.mutateConnection (h : m.Bound) (attempts : Nat) (s : σ) :
    (m.mutateConnection attempts s).1.2.Bound := by
  rcases always_mutateConnection_cases m attempts s with hsame | ⟨-, a, b, hswap, hsort⟩
  · rwa [hsame]
  · exact (h.swapTargets hswap).topologicalSort hsort

end

/-! ## Runs -/

/-- Modules that come from a text by sorting, shaking, evaluations and mutations, in any order. -/
inductive Handled : Module → Prop
  | parse {text : String} {m : Module} (h : parse text = .ok m) : Handled m
  | sort {m : Module} (h : Handled m) : Handled (sortInPlace.run m).2
  | shake {m m' : Module} (h : Handled m) (hshake : m.treeShake = .ok m') : Handled m'
  | shakeFrom {m m' : Module} (h : Handled m) {roots : List Nat}
      (hshake : m.treeShakeFrom roots = .ok m') : Handled m'
  | setInputs {m m' : Module} (h : Handled m) {values : List Float}
      (hset : m.setInputs values = .ok m') : Handled m'
  | eval {m : Module} (h : Handled m) {σ : Type} (ctx : Context σ) (values : List Float) (s : σ) :
      Handled (m.eval ctx values s).2.1
  | mutateOperator {m : Module} (h : Handled m) {σ : Type} [Source σ] (s : σ) :
      Handled (m.mutateOperator s).1.2
  | mutateConnection {m : Module} (h : Handled m) {σ : Type} [Source σ] (attempts : Nat) (s : σ) :
      Handled (m.mutateConnection attempts s).1.2

/-- The reader binds a pin when it meets the node of its name. -/
theorem bound_of_parse {text : String} (h : parse text = .ok m) : m.Bound := by
  obtain ⟨hm, -⟩ := formed_of_parseChars h
  obtain ⟨p, -, hreads⟩ := parseChars_eq_ok_iff.mp h
  have hnodup : (m.inputs.map (·.name)).Nodup := hreads.map_name_inputs ▸ hreads.inputs
  exact ⟨hm.within, hm.pinsInRange, fun pin hpin i =>
    ⟨hm.input_pin pin hpin i, hm.index_of_opAt hnodup hpin⟩⟩

theorem Bound.of_treeShakeFrom (h : m.Bound) {roots : List Nat}
    (hshake : m.treeShakeFrom roots = .ok m') : m'.Bound := by
  obtain ⟨m'', hok, hm''⟩ := h.exists_treeShakeFrom roots
  exact Except.ok.inj (hok.symm.trans hshake) ▸ hm''

theorem Handled.bound (h : m.Handled) : m.Bound := by
  induction h with
  | parse h => exact bound_of_parse h
  | sort _ ih => exact ih.sortInPlace
  | shake _ hshake ih => exact ih.of_treeShakeFrom hshake
  | shakeFrom _ hshake ih => exact ih.of_treeShakeFrom hshake
  | setInputs _ hset ih => exact ih.sameFrame (sameFrame_setInputs hset)
  | eval _ ctx values s ih => exact ih.eval ctx values s
  | mutateOperator _ s ih => exact ih.mutateOperator s
  | mutateConnection _ attempts s ih => exact ih.mutateConnection attempts s

/-- After any sequence of sorting, shaking, evaluations and mutations of a module that is read from
a text, binding the input pins anew by the names of the nodes succeeds and changes nothing. A pin is
bound exactly to the node of its name, and shaking and setting the inputs succeed. -/
theorem Handled.bindings_agree (h : m.Handled) :
    m.reconstructInputs = (.ok (), m) ∧
      (∀ pin ∈ m.inputs, ∀ i, pin.index = some i ↔
        ∃ node, m.nodes[i]? = some node ∧ node.op = .input pin.name) ∧
      (∃ m', m.treeShake = .ok m') ∧ (∀ roots, ∃ m', m.treeShakeFrom roots = .ok m') ∧
      ∀ values, ∃ m', m.setInputs values = .ok m' := by
  have hm := h.bound
  have hshake : ∀ roots, ∃ m', m.treeShakeFrom roots = .ok m' := fun roots =>
    (hm.exists_treeShakeFrom roots).imp fun _ h => h.1
  refine ⟨hm.reconstructInputs_eq, fun pin hpin i => ?_, hshake _, hshake, fun values =>
    (hm.exists_setInputs values).imp fun _ h => h.1⟩
  rw [hm.input pin hpin, opAt_eq_some_iff]

/-- A module that is read out of order, sorted, swapped and then shaken from one of its nodes. One
of the inputs is dropped then. -/
theorem bindings_agree_shaken :
    ∃ parsed shaken, parse "(ab)(xy)[x|a:inv 0|b:cos 3|y]" = .ok parsed ∧
      ((sortInPlace.run parsed).2.mutateConnection 3 (ChaCha.ofSeed 0)).1.2.treeShakeFrom [0] =
        .ok shaken ∧
      shaken.Handled ∧ shaken.reconstructInputs = (.ok (), shaken) ∧
      (∀ pin ∈ shaken.inputs, ∀ i, pin.index = some i ↔
        ∃ node, shaken.nodes[i]? = some node ∧ node.op = .input pin.name) ∧
      (∃ m', shaken.treeShake = .ok m') ∧ (∀ roots, ∃ m', shaken.treeShakeFrom roots = .ok m') ∧
      ∀ values, ∃ m', shaken.setInputs values = .ok m' := by
  obtain ⟨parsed, hparse⟩ : ∃ m, parse "(ab)(xy)[x|a:inv 0|b:cos 3|y]" = .ok m := ⟨_, rfl⟩
  have hswapped : ((sortInPlace.run parsed).2.mutateConnection 3 (ChaCha.ofSeed 0)).1.2.Handled :=
    .mutateConnection (.sort (.parse hparse)) 3 _
  obtain ⟨shaken, hshake, -⟩ := hswapped.bound.exists_treeShakeFrom [0]
  have hshaken : shaken.Handled := .shakeFrom hswapped hshake
  exact ⟨parsed, shaken, hparse, hshake, hshaken, hshaken.bindings_agree⟩

end ImageCircuit.Module
