import ImageCircuit.Generation
import ImageCircuit.Proofs.Calls
import ImageCircuit.Proofs.Draws
import ImageCircuit.Proofs.Parse

/-!
# Modules wired with the inputs first

* `TryDraw.Yields`: what holds for every outcome of draws that may fail
* `Module.always_drawNodes`: arguments are drawn among the nodes before
* `Module.formed_of_rebind`: searching the input nodes by name binds each of them once
* `Module.yields_drawPostHoc`: the module drawn is in normal form
-/

namespace ImageCircuit

namespace TryDraw

variable {σ : Type} {α β : Type}

/-- For every state of the source the computation ends in an error of `E` or in a result of `P`. -/
def Yields (x : TryDraw σ α) (E : Error → Prop) (P : α → Prop) : Prop :=
  Draw.Always x.run fun r => match r with
    | .ok a => P a
    | .error e => E e

namespace Yields

variable {x : TryDraw σ α} {E E' : Error → Prop} {P Q : α → Prop} {R : β → Prop}

theorem pure {a : α} (h : P a) : Yields (Pure.pure a : TryDraw σ α) E P :=
  fun _ => h

theorem throw {e : Error} (h : E e) : Yields (throw e : TryDraw σ α) E P :=
  fun _ => h

theorem bind {f : α → TryDraw σ β} (hx : Yields x E P) (hf : ∀ a, P a → Yields (f a) E R) :
    Yields (x >>= f) E R := by
  rw [Yields, ExceptT.run_bind]
  refine Draw.Always.bind hx fun r hr => ?_
  cases r with
  | ok a => exact hf a hr
  | error e => exact .pure hr

theorem lift {y : Draw σ α} (h : Draw.Always y P) : Yields (liftM y : TryDraw σ α) E P :=
  Draw.Always.bind h fun _ ha => .pure ha

/-- A run that begins with a draw ends as what follows its outcome does. -/
theorem of_lift_bind {y : Draw σ α} {f : α → TryDraw σ β} {s : σ} (h : Yields (f (y s).1) E R) :
    (∀ b, ((liftM y >>= f : TryDraw σ β).run s).1 = .ok b → R b) ∧
      ∀ e, ((liftM y >>= f : TryDraw σ β).run s).1 = .error e → E e := by
  have hend := h (y s).2
  have hrun : (liftM y >>= f : TryDraw σ β).run s = (f (y s).1).run (y s).2 := rfl
  refine ⟨fun b hb => ?_, fun e he => ?_⟩
  · rwa [← hrun, hb] at hend
  · rwa [← hrun, he] at hend

theorem of_ok {a : α} (h : P a) : Yields (ExceptT.mk (Pure.pure (.ok a)) : TryDraw σ α) E P :=
  fun _ => h

theorem of_eq_ok {r : Except Error α} {a : α} (hr : r = .ok a) (h : P a) :
    Yields (ExceptT.mk (Pure.pure r) : TryDraw σ α) E P :=
  hr ▸ of_ok h

theorem of_error {e : Error} (h : E e) :
    Yields (ExceptT.mk (Pure.pure (.error e)) : TryDraw σ α) E P :=
  fun _ => h

theorem mono (h : Yields x E P) (hE : ∀ e, E e → E' e) (hPQ : ∀ a, P a → Q a) :
    Yields x E' Q := by
  refine Draw.Always.mono h fun r hr => ?_
  cases r with
  | ok a => exact hPQ a hr
  | error e => exact hE e hr

end Yields

end TryDraw

/-- A node as it is drawn: a primitive with all its arguments, or an input. -/
def Node.Drawn (node : Node) : Prop :=
  (∃ op, node.op = .prim op ∧ node.args.length = op.arity) ∨
    ∃ name, node.op = .input name ∧ node.args = []

namespace Node.Drawn

variable {node : Node}

theorem length_args (h : node.Drawn) {op : Operator} (hop : node.op = .prim op) :
    node.args.length = op.arity := by
  rcases h with ⟨op', hop', hlen⟩ | ⟨name, hname, -⟩
  · rw [hop] at hop'
    cases hop'
    exact hlen
  · rw [hop] at hname
    cases hname

theorem args_eq_nil (h : node.Drawn) {name : Char} (hop : node.op = .input name) :
    node.args = [] := by
  rcases h with ⟨op, hop', -⟩ | ⟨-, -, hargs⟩
  · rw [hop] at hop'
    cases hop'
  · exact hargs

end Node.Drawn

namespace Module

variable {σ : Type} [Source σ] {m : Module} {i : Nat}

/-! ## Nodes -/

/-- A module of drawn nodes is formed if its arguments and pins fit. -/
theorem formed_of_drawn (hdrawn : ∀ node ∈ m.nodes, node.Drawn) (hn : Within m.argsOf m.size)
    (hpin : ∀ pin ∈ m.inputs, ∀ i, pin.index = some i → m.opAt i = some (.input pin.name))
    (hnode : ∀ i name, m.opAt i = some (.input name) →
      m.inputs.countP (fun pin => pin.index = some i) = 1)
    (hout : ∀ pin ∈ m.outputs, ∃ i < m.size, pin.index = some i) : m.Formed where
  within := hn
  arity i op hop := by
    obtain ⟨node, hi, hkind⟩ := opAt_eq_some_iff.mp hop
    rw [argsOf_eq hi]
    exact (hdrawn node (List.mem_of_getElem? hi)).length_args hkind
  input_args i name hop := by
    obtain ⟨node, hi, hkind⟩ := opAt_eq_some_iff.mp hop
    rw [argsOf_eq hi]
    exact (hdrawn node (List.mem_of_getElem? hi)).args_eq_nil hkind
  input_pin := hpin
  input_node := hnode
  output := hout

/-- Drawn nodes make no calls and hold no words. -/
theorem written_of_drawn (h : ∀ node ∈ m.nodes, node.Drawn) : m.Written := by
  intro i op hop
  obtain ⟨node, hnode, rfl⟩ := opAt_eq_some_iff.mp hop
  rcases h node (List.mem_of_getElem? hnode) with ⟨op, hop, -⟩ | ⟨name, hop, -⟩
  · rw [hop]
    trivial
  · rw [hop]
    trivial

/-- The nodes of a module while operators are added: arguments are distinct and stand before their
users, and there is an input node for each input. -/
structure Upward (inputs : List Char) (nodes : List Node) : Prop where
  drawn : ∀ node ∈ nodes, node.Drawn
  distinct : ∀ node ∈ nodes, node.args.Nodup
  before : ∀ (i : Nat) (node : Node), nodes[i]? = some node → ∀ j ∈ node.args, j < i
  inputs : ∀ name, nodes.countP (fun node => node.op = .input name) = inputs.count name

theorem upward_inputs (inputs : List Char) :
    Upward inputs (inputs.map fun name => .ofOp (.input name) []) where
  drawn node hnode := by
    obtain ⟨name, -, rfl⟩ := List.mem_map.mp hnode
    exact .inr ⟨name, rfl, rfl⟩
  distinct node hnode := by
    obtain ⟨name, -, rfl⟩ := List.mem_map.mp hnode
    exact .nil
  before i node hnode j hj := by
    obtain ⟨name, -, rfl⟩ := List.mem_map.mp (List.mem_of_getElem? hnode)
    cases hj
  inputs name := by
    rw [List.countP_map, List.count]
    congr 1
    funext other
    rw [Bool.eq_iff_iff]
    simp [Node.ofOp]

theorem Upward.append {inputs : List Char} {nodes : List Node} (h : Upward inputs nodes)
    {node : Node} {op : Operator} (hop : node.op = .prim op) (hlen : node.args.length = op.arity)
    (hargs : ∀ j ∈ node.args, j < nodes.length) (hdistinct : node.args.Nodup) :
    Upward inputs (nodes ++ [node]) where
  drawn other hmem := by
    rcases List.mem_append.mp hmem with hmem | hmem
    · exact h.drawn other hmem
    · obtain rfl := List.mem_singleton.mp hmem
      exact .inl ⟨op, hop, hlen⟩
  distinct other hmem := by
    rcases List.mem_append.mp hmem with hmem | hmem
    · exact h.distinct other hmem
    · exact List.mem_singleton.mp hmem ▸ hdistinct
  before i other hi j hj := by
    rcases Nat.lt_trichotomy i nodes.length with hlt | rfl | hgt
    · rw [List.getElem?_append_left hlt] at hi
      exact h.before i other hi j hj
    · rw [List.getElem?_concat_length] at hi
      obtain rfl := Option.some.inj hi
      exact hargs j hj
    · have := (List.getElem?_eq_some_iff.mp hi).1
      rw [List.length_append, List.length_singleton] at this
      omega
  inputs name := by
    rw [List.countP_append, h.inputs]
    simp [hop]

/-- A drawn operator takes distinct arguments among the nodes before it. -/
theorem always_drawNode (emitted : Nat) :
    Draw.Always (drawNode emitted : Draw σ Node) fun node =>
      ∃ op, node.op = .prim op ∧ node.args.length = op.arity ∧ (∀ j ∈ node.args, j < emitted) ∧
        node.args.Nodup := by
  refine .bind (Draw.always_choose _) fun r hr => ?_
  split
  · exact .bind_any fun value => .pure ⟨.const, rfl, rfl, by simp [Node.constant, Node.ofOp]⟩
  · next hne =>
    cases r with
    | none => exact absurd rfl hne
    | some op =>
      have harity : op.arity ≤ emitted := by
        simpa using (List.mem_filter.mp (hr op rfl)).2
      refine .bind (Draw.always_sample harity) fun args hargs => ?_
      exact .pure ⟨op, rfl, hargs⟩

theorem always_drawNodes {inputs : List Char} (count : Nat) {nodes : List Node}
    (h : Upward inputs nodes) :
    Draw.Always (drawNodes count nodes : Draw σ (List Node)) fun nodes' =>
      Upward inputs nodes' ∧ nodes'.length = nodes.length + count := by
  induction count generalizing nodes with
  | zero => exact .pure ⟨h, rfl⟩
  | succ count ih =>
    refine .bind (always_drawNode nodes.length) ?_
    rintro node ⟨op, hop, hlen, hargs, hdistinct⟩
    refine (ih (h.append hop hlen hargs hdistinct)).mono fun nodes' h' => ⟨h'.1, ?_⟩
    rw [h'.2, List.length_append, List.length_singleton, Nat.add_assoc, Nat.add_comm 1]

/-! ## Pins -/

theorem always_drawBelow {n : Nat} (hn : 0 < n) :
    Draw.Always (drawBelow n : Draw σ Nat) (· < n) := by
  cases n with
  | zero => cases hn
  | succ n => exact .bind_any fun j => .pure j.isLt

theorem always_drawPin {size : Nat} (hsize : 0 < size) (pin : Pin) :
    Draw.Always (drawPin size pin : Draw σ Pin) fun pin' =>
      pin'.name = pin.name ∧ ∃ i < size, pin'.index = some i := by
  exact .bind (always_drawBelow hsize) fun i hi => .pure ⟨rfl, i, hi, rfl⟩

theorem mem_inputNodes_iff {nodes : List Node} {name : Char} :
    i ∈ inputNodes nodes name ↔ ∃ node, nodes[i]? = some node ∧ node.op = .input name := by
  simp only [inputNodes, List.mem_map, List.mem_filter, decide_eq_true_eq]
  constructor
  · rintro ⟨⟨node, j⟩, ⟨hnode, hop⟩, rfl⟩
    exact ⟨node, List.mem_zipIdx_iff_getElem?.mp hnode, hop⟩
  · rintro ⟨node, hnode, hop⟩
    exact ⟨(node, i), ⟨List.mem_zipIdx_iff_getElem?.mpr hnode, hop⟩, rfl⟩

theorem length_inputNodes (nodes : List Node) (name : Char) :
    (inputNodes nodes name).length = nodes.countP fun node => node.op = .input name := by
  rw [inputNodes, List.length_map, ← List.countP_eq_length_filter]
  conv_rhs => rw [← List.zipIdx_map_fst 0 nodes, List.countP_map]
  rfl

/-- A search without errors finds at most one node for each pin. -/
theorem forall₂_of_rebind {nodes : List Node} {pins pins' : List Pin}
    (h : rebind nodes pins = (.ok (), pins')) :
    List.Forall₂ (fun pin pin' : Pin => pin'.name = pin.name ∧
      inputNodes nodes pin.name = pin'.index.toList) pins pins' := by
  induction pins generalizing pins' with
  | nil =>
    cases h
    exact .nil
  | cons pin rest ih =>
    rw [rebind] at h
    cases hrest : rebind nodes rest with
    | mk result rest' =>
      rw [hrest] at h
      split at h
      · next hnone =>
        cases h
        exact .cons ⟨rfl, hnone⟩ (ih hrest)
      · next i hone =>
        cases h
        exact .cons ⟨rfl, hone⟩ (ih hrest)
      · cases h

theorem names_of_rebind {nodes : List Node} {pins pins' : List Pin}
    (h : rebind nodes pins = (.ok (), pins')) : pins'.map (·.name) = pins.map (·.name) := by
  rw [← List.forall₂_eq_eq_eq, List.forall₂_map_left_iff, List.forall₂_map_right_iff]
  exact (forall₂_of_rebind h).flip.imp fun _ _ hpin => hpin.1

/-- A search fails at a name that two nodes carry. -/
theorem duplicatedInput_of_rebind {nodes : List Node} {pins : List Pin} {e : Error}
    (h : (rebind nodes pins).1 = .error e) :
    ∃ name, e = .duplicatedInput name ∧ 1 < (inputNodes nodes name).length := by
  induction pins with
  | nil => cases h
  | cons pin rest ih =>
    rw [rebind] at h
    split at h
    · exact ih h
    · exact ih h
    · next hseveral => exact ⟨pin.name, (Except.error.inj h).symm, by simp [hseveral]⟩

/-- A search without errors finds different names if there is a node for each of them. -/
theorem nodup_of_rebind {nodes : List Node} {pins pins' : List Pin}
    (h : rebind nodes pins = (.ok (), pins'))
    (hcount : ∀ name, (inputNodes nodes name).length = (pins.map (·.name)).count name) :
    (pins.map (·.name)).Nodup := by
  rw [List.nodup_iff_count_le_one]
  intro name
  by_cases hname : name ∈ pins.map (·.name)
  · obtain ⟨pin, hpin, rfl⟩ := List.mem_map.mp hname
    obtain ⟨pin', -, -, hfound⟩ := exists_mem_of_forall₂ (forall₂_of_rebind h).flip hpin
    rw [← hcount, hfound]
    cases pin'.index <;> simp
  · rw [List.count_eq_zero.mpr hname]
    exact Nat.zero_le 1

/-- A search without errors binds the pin of its name to an input node, and no other pin. -/
theorem countP_of_rebind {nodes : List Node} {pins pins' : List Pin} {name : Char}
    (h : rebind nodes pins = (.ok (), pins'))
    (hcount : (inputNodes nodes name).length = (pins.map (·.name)).count name)
    (hi : i ∈ inputNodes nodes name) :
    pins'.countP (fun pin => pin.index = some i) = 1 := by
  have hpins := forall₂_of_rebind h
  have hname : name ∈ pins.map (·.name) := by
    rw [← List.count_pos_iff, ← hcount]
    exact List.length_pos_of_mem hi
  obtain ⟨pin, hpin, rfl⟩ := List.mem_map.mp hname
  obtain ⟨pin', -, -, hfound⟩ := exists_mem_of_forall₂ hpins.flip hpin
  have hone : inputNodes nodes pin.name = [i] := by
    rw [hfound] at hi ⊢
    rw [Option.mem_toList.mp hi]
    rfl
  rw [hone, List.count, List.countP_map] at hcount
  rw [← countP_eq_of_forall₂ hpins (p := fun p => p.name == pin.name) fun p p' hp => ?_]
  · exact hcount.symm
  rw [Bool.eq_iff_iff, beq_iff_eq, decide_eq_true_iff]
  constructor
  · intro hsame
    have := hp.2
    rw [hsame, hone] at this
    exact Option.mem_toList.mp (this ▸ List.mem_singleton_self i)
  · intro hidx
    have hin : i ∈ inputNodes nodes p.name := by
      rw [hp.2, hidx]
      exact List.mem_singleton_self i
    obtain ⟨node, hnode, hop⟩ := mem_inputNodes_iff.mp hin
    obtain ⟨node', hnode', hop'⟩ := mem_inputNodes_iff.mp hi
    obtain rfl := Option.some.inj (hnode.symm.trans hnode')
    exact Op.input.inj (hop.symm.trans hop')

/-- Where every input has a node of its name, a search without errors binds pins and nodes one by
one. -/
theorem formed_of_rebind {pins : List Pin} (hnodes : Upward (m.inputs.map (·.name)) m.nodes)
    (houtputs : ∀ pin ∈ m.outputs, ∃ i < m.size, pin.index = some i)
    (h : rebind m.nodes m.inputs = (.ok (), pins)) :
    ({ m with inputs := pins } : Module).Formed := by
  have hmem : ∀ i name, m.opAt i = some (.input name) ↔ i ∈ inputNodes m.nodes name :=
    fun i name => opAt_eq_some_iff.trans mem_inputNodes_iff.symm
  refine formed_of_drawn hnodes.drawn (fun i j hj => ?_) (fun pin' hpin' i hi => ?_)
    (fun i name hop => ?_) houtputs
  · obtain ⟨node, hnode, hj'⟩ := mem_argsOf_iff.mp hj
    have hi := lt_of_mem_argsOf hj
    exact ⟨hi, Nat.lt_trans (hnodes.before i node hnode j hj') hi⟩
  · obtain ⟨pin, -, hname, hfound⟩ := exists_mem_of_forall₂ (forall₂_of_rebind h) hpin'
    refine (hmem i pin'.name).mpr ?_
    rw [hname, hfound, hi]
    exact List.mem_singleton_self i
  · refine countP_of_rebind h ?_ ((hmem i name).mp hop)
    rw [length_inputNodes, hnodes.inputs]

/-- The inputs of a new module have the names they are given. -/
theorem names_ofPins_inputs (name inputs outputs : String) :
    (ofPins name inputs outputs).inputs.map (·.name) = inputs.toList := by
  rw [ofPins, List.map_map]
  exact List.map_id _

theorem names_ofPins_outputs (name inputs outputs : String) :
    (ofPins name inputs outputs).outputs.map (·.name) = outputs.toList := by
  rw [ofPins, List.map_map]
  exact List.map_id _

/-! ## The module -/

/-- What a wiring hands over: a formed module of drawn nodes without a cycle. -/
structure Wired (inputs outputs : List Char) (m : Module) : Prop where
  formed : m.Formed
  acyclic : Acyclic m.argsOf
  drawn : ∀ node ∈ m.nodes, node.Drawn
  inputs : m.inputs.map (·.name) = inputs
  outputs : m.outputs.map (·.name) = outputs

/-- What a wiring ends with: a normal form of drawn nodes, at most as many as there were. -/
structure NormalDrawn (inputs outputs : List Char) (count : Nat) (m : Module) : Prop
    extends Normal m where
  drawn : ∀ node ∈ m.nodes, node.Drawn
  inputs : m.inputs.map (·.name) = inputs
  outputs : m.outputs.map (·.name) = outputs
  count : m.size ≤ count

omit [Source σ] in
/-- A wired module is brought into normal form, by a relayout of what its outputs depend on. -/
theorem Wired.normalize_eq {inputs outputs : List Char} (hm : m.Wired inputs outputs) :
    ∃ order, m.normalize = .ok (m.relayout order) ∧ m.IsLayout order ∧
      (∀ j, j ∈ order ↔ ∃ o ∈ m.outputIndices, Reaches m.argsOf o j) ∧
      NormalDrawn inputs outputs m.size (m.relayout order) := by
  obtain ⟨order, hnorm, hlayout, hmem, -⟩ :=
    Module.normalize_eq hm.formed.within hm.formed.pinsInRange hm.acyclic
  obtain ⟨m', hnorm', hm', hop⟩ := hm.formed.normalize hm.acyclic
  obtain rfl := Except.ok.inj (hnorm'.symm.trans hnorm)
  refine ⟨order, hnorm, hlayout, hmem, hm', fun node hnode => ?_, ?_, ?_, size_relayout_le hlayout⟩
  · obtain ⟨k, hk⟩ := List.mem_iff_getElem?.mp hnode
    have hnew := opAt_eq_some_iff.mpr ⟨node, hk, rfl⟩
    obtain ⟨i, hi⟩ := hop k node.op hnew
    obtain ⟨old, hold, heq⟩ := opAt_eq_some_iff.mp hi
    rcases hm.drawn old (List.mem_of_getElem? hold) with ⟨op, hprim, -⟩ | ⟨name, hinput, -⟩
    · have hprim := heq.symm.trans hprim
      exact .inl ⟨op, hprim, argsOf_eq hk ▸ hm'.arity k op (hprim ▸ hnew)⟩
    · have hinput := heq.symm.trans hinput
      exact .inr ⟨name, hinput, argsOf_eq hk ▸ hm'.input_args k name (hinput ▸ hnew)⟩
  · rw [inputs_relayout, List.map_map]
    exact hm.inputs
  · rw [outputs_relayout, List.map_map]
    exact hm.outputs

/-- Arguments that are distinct are moved to distinct positions. -/
theorem nodup_args_relayout {order : List Nat} (h : m.IsLayout order)
    (hdistinct : ∀ node ∈ m.nodes, node.args.Nodup) :
    ∀ node ∈ (m.relayout order).nodes, node.args.Nodup := by
  intro node hnode
  obtain ⟨k, hk⟩ := List.mem_iff_getElem?.mp hnode
  obtain ⟨i, hi, rfl⟩ := exists_of_lt_size_relayout h (List.getElem?_eq_some_iff.mp hk).1
  obtain ⟨old, hold, rfl⟩ :=
    Option.map_eq_some_iff.mp ((getElem?_relayout_newPosition h hi).symm.trans hk)
  have hkept : ∀ j ∈ old.args, j ∈ order := fun j hj =>
    h.args i hi j (mem_argsOf_iff.mpr ⟨old, hold, hj⟩)
  rw [moveArgs_eq]
  exact (hdistinct old (List.mem_of_getElem? hold)).map_on fun j hj j' hj' heq =>
    newPosition_inj (hkept j hj) (hkept j' hj') heq

/-- Pins keep their names when they are bound to nodes that are drawn. -/
theorem names_of_drawPin {R : Pin → Pin → Prop} {pins pins' : List Pin}
    (h : List.Forall₂ (fun pin pin' : Pin => pin'.name = pin.name ∧ R pin pin') pins pins') :
    pins'.map (·.name) = pins.map (·.name) := by
  rw [← List.forall₂_eq_eq_eq, List.forall₂_map_left_iff, List.forall₂_map_right_iff]
  exact h.flip.imp fun _ _ hpin => hpin.1

/-- Wiring with the inputs first fails only if there is nothing to wire or a name is repeated. -/
theorem yields_drawPostHoc (inputs outputs : String) (numNodes : Nat) :
    TryDraw.Yields (drawPostHoc inputs outputs numNodes : TryDraw σ Module)
      (fun e => e = .nothingToGenerate ∧ inputs.toList.length + numNodes = 0 ∨
        ∃ name, e = .duplicatedInput name ∧ 1 < inputs.toList.count name)
      fun m => NormalDrawn inputs.toList outputs.toList (inputs.toList.length + numNodes) m ∧
        0 < inputs.toList.length + numNodes ∧ inputs.toList.Nodup ∧
        ∀ node ∈ m.nodes, node.args.Nodup := by
  refine .bind (.lift (always_drawNodes numNodes (upward_inputs inputs.toList))) ?_
  rintro nodes ⟨hnodes, hlen⟩
  rw [List.length_map] at hlen
  dsimp only
  split
  · next hnil =>
    rw [List.isEmpty_iff] at hnil
    refine .bind (.throw (P := fun _ => False) (.inl ⟨rfl, ?_⟩)) fun _ h => h.elim
    rw [← hlen, hnil, List.length_nil]
  next hne =>
  have hsize : 0 < nodes.length := by
    rw [List.isEmpty_iff] at hne
    exact List.length_pos_iff.mpr hne
  refine .bind (.lift (Draw.always_mapM fun pin _ => always_drawPin hsize pin))
    fun bound hbound => ?_
  have houtputs : ∀ pin ∈ bound, ∃ i < nodes.length, pin.index = some i := by
    intro pin hpin
    obtain ⟨-, -, -, hidx⟩ := exists_mem_of_forall₂ hbound hpin
    exact hidx
  have hcount : ∀ name, (inputNodes nodes name).length = inputs.toList.count name := fun name =>
    (length_inputNodes nodes name).trans (hnodes.inputs name)
  have hinputs := names_ofPins_inputs "" inputs outputs
  rw [← hinputs] at hnodes
  unfold reconstructInputs
  dsimp only
  cases hrebind : rebind nodes (ofPins "" inputs outputs).inputs with
  | mk result pins =>
    cases result with
    | error e =>
      obtain ⟨name, rfl, htwo⟩ := duplicatedInput_of_rebind (congrArg Prod.fst hrebind)
      exact .bind (.of_error (.inr ⟨name, rfl, hcount name ▸ htwo⟩)) fun _ (h : False) => h.elim
    | ok u =>
      have hm := formed_of_rebind (m := { ofPins "" inputs outputs with nodes, outputs := bound })
        hnodes houtputs hrebind
      refine .bind (.of_ok (P := fun _ => True) trivial) fun _ _ => ?_
      have hwired : Wired inputs.toList outputs.toList
          { ofPins "" inputs outputs with nodes, inputs := pins, outputs := bound } :=
        ⟨hm, acyclic_of_lt id fun i j hj => by
          obtain ⟨node, hnode, hj'⟩ := mem_argsOf_iff.mp hj
          exact hnodes.before i node hnode j hj',
          hnodes.drawn, (names_of_rebind hrebind).trans hinputs,
          (names_of_drawPin hbound).trans (names_ofPins_outputs "" inputs outputs)⟩
      obtain ⟨order, hnorm, hlayout, -, hdrawn⟩ := hwired.normalize_eq
      have hnodup := nodup_of_rebind hrebind fun name => by rw [hinputs, hcount]
      exact .of_eq_ok hnorm ⟨hlen ▸ hdrawn, hlen ▸ hsize, hinputs ▸ hnodup,
        nodup_args_relayout hlayout hnodes.distinct⟩

end Module

end ImageCircuit
