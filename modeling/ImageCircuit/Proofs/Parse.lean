import ImageCircuit.Module.Parser
import ImageCircuit.Proofs.Formed
import ImageCircuit.Proofs.Success

/-!
# What has been read is formed

Each segment of a text adds one node. If the node stands for an input, reading it binds the first
pin of its name, which was free, so pins and input nodes stay bound to each other one by one.

* `Module.readNode_cases`: the nodes that can be read
* `Module.Reading.addSegment`: what holds of a module while it is read
* `Module.formed_of_parseChars`: what holds of it at the end
-/

namespace ImageCircuit

/-- An operation that a text can give to a node: calls are not written but looked up, and no word
is empty. -/
def Op.Written : Op → Prop
  | .prim _ | .input _ => True
  | .symbol name => name ≠ ""
  | .call _ _ => False

namespace Module

variable {m m' : Module} {i : Nat}

/-- Nothing has been looked up yet. -/
def Written (m : Module) : Prop :=
  ∀ i op, m.opAt i = some op → op.Written

/-! ## Nodes -/

theorem getElem?_of_inputNamed? {word : List Char} {name : Char} {k : Nat}
    (h : m.inputNamed? word = some (name, k)) :
    ∃ pin, m.inputs[k]? = some pin ∧ pin.name = name := by
  unfold inputNamed? at h
  split at h
  · obtain ⟨k', hk, heq⟩ := Option.map_eq_some_iff.mp h
    cases heq
    obtain ⟨hlt, hname, -⟩ := List.findIdx?_eq_some_iff_getElem.mp hk
    exact ⟨_, List.getElem?_eq_getElem hlt, of_decide_eq_true hname⟩
  · cases h

/-- Reading a node leaves the module as it is or binds a free input pin to the node. -/
theorem readNode_cases {words : List (List Char)} {node : Node} (hwords : ∀ w ∈ words, w ≠ [])
    (h : m.readNode i words = .ok (m', node)) :
    (m' = m ∧ node.op.Written ∧ (∀ op, node.op = .prim op → node.args.length = op.arity) ∧
        ∀ name, node.op ≠ .input name) ∨
      ∃ (k : Nat) (pin : Pin), m.inputs[k]? = some pin ∧ pin.index = none ∧
        node = .ofOp (.input pin.name) [] ∧ m' = { m with inputs := bindPin m.inputs k i } := by
  unfold readNode at h
  split at h
  · cases h
  next word args =>
  split at h
  · split at h
    · cases h
    · split at h
      · cases h
      · obtain ⟨-, -, h⟩ := exists_of_bind_eq_ok h
        cases h
        refine .inl ⟨rfl, trivial, fun op hop => ?_, fun name hop => by cases hop⟩
        cases hop
        rfl
  · next op _ _ =>
    obtain ⟨args', -, h⟩ := exists_of_bind_eq_ok h
    split at h
    · next hlen =>
      cases h
      refine .inl ⟨rfl, trivial, fun op' hop => ?_, fun name hop => by cases hop⟩
      cases hop
      exact hlen
    · cases h
  · split at h
    · next name k hinput =>
      split at h
      · cases h
      · next hfree =>
        obtain ⟨-, -, h⟩ := exists_of_bind_eq_ok h
        cases h
        obtain ⟨pin, hpin, rfl⟩ := getElem?_of_inputNamed? hinput
        refine .inr ⟨k, pin, hpin, ?_, rfl, rfl⟩
        rw [isBound, hpin] at hfree
        simpa using hfree
    · obtain ⟨args', -, h⟩ := exists_of_bind_eq_ok h
      cases h
      refine .inl ⟨rfl, ?_, fun op hop => (by cases hop), fun name hop => by cases hop⟩
      have := hwords word List.mem_cons_self
      show String.ofList word ≠ ""
      simpa using this

/-! ## Pins -/

theorem bindPin_eq_set {pins : List Pin} {k : Nat} {pin : Pin} (h : pins[k]? = some pin) :
    bindPin pins k i = pins.set k { pin with index := some i } := by
  rw [bindPin, List.modify_eq_set_getElem?, h]
  rfl

theorem mem_bindPin {pins : List Pin} {k : Nat} {pin : Pin} (h : pin ∈ bindPin pins k i) :
    pin ∈ pins ∨ ∃ old ∈ pins, pin = { old with index := some i } := by
  cases hk : pins[k]? with
  | none =>
    rw [bindPin, List.modify_eq_set_getElem?, hk] at h
    exact .inl h
  | some old =>
    rw [bindPin_eq_set hk] at h
    rcases List.mem_or_eq_of_mem_set h with h | h
    · exact .inl h
    · exact .inr ⟨old, List.mem_of_getElem? hk, h⟩

/-- Binding a free pin adds one pin to those bound to its node and none to those of others. -/
theorem countP_bindPin {pins : List Pin} {k j : Nat} {pin : Pin} (h : pins[k]? = some pin)
    (hfree : pin.index = none) :
    (bindPin pins k i).countP (fun pin => pin.index = some j) =
      pins.countP (fun pin => pin.index = some j) + if i = j then 1 else 0 := by
  obtain ⟨hlt, hget⟩ := List.getElem?_eq_some_iff.mp h
  rw [bindPin_eq_set h, List.countP_set hlt, hget, hfree]
  simp

/-! ## A module while it is read -/

/-- What holds between two segments: like `Formed`, but arguments may name nodes to come and
outputs may be free. -/
structure Reading (m : Module) : Prop where
  arity : ∀ i op, m.opAt i = some (.prim op) → (m.argsOf i).length = op.arity
  input_args : ∀ i name, m.opAt i = some (.input name) → m.argsOf i = []
  input_pin : ∀ pin ∈ m.inputs, ∀ i, pin.index = some i → m.opAt i = some (.input pin.name)
  input_node : ∀ i name, m.opAt i = some (.input name) →
    m.inputs.countP (fun pin => pin.index = some i) = 1
  output : ∀ pin ∈ m.outputs, ∀ i, pin.index = some i → i < m.size
  written : m.Written

theorem reading_ofPins (name inputs outputs : String) : (ofPins name inputs outputs).Reading where
  arity i op h := by cases h
  input_args i name h := by cases h
  input_pin pin hpin i hi := by
    obtain ⟨c, -, rfl⟩ := List.mem_map.mp hpin
    cases hi
  input_node i name h := by cases h
  output pin hpin i hi := by
    obtain ⟨c, -, rfl⟩ := List.mem_map.mp hpin
    cases hi
  written i op h := by cases h

theorem opAt_append {node : Node} {op : Op} :
    ({ m with nodes := m.nodes ++ [node] } : Module).opAt i = some op ↔
      m.opAt i = some op ∨ i = m.size ∧ node.op = op := by
  rcases Nat.lt_trichotomy i m.nodes.length with hlt | rfl | hgt
  · have : i ≠ m.size := Nat.ne_of_lt hlt
    simp [opAt, List.getElem?_append_left hlt, this]
  · simp [opAt, size]
  · have hne : i ≠ m.size := Nat.ne_of_gt hgt
    have hold : m.nodes[i]? = none := List.getElem?_eq_none (Nat.le_of_lt hgt)
    have hnew : (m.nodes ++ [node])[i]? = none := by
      apply List.getElem?_eq_none
      rw [List.length_append, List.length_singleton]
      omega
    simp [opAt, hold, hnew, hne]

theorem argsOf_append_of_lt {node : Node} (h : i < m.size) :
    ({ m with nodes := m.nodes ++ [node] } : Module).argsOf i = m.argsOf i := by
  rw [argsOf, argsOf, List.getElem?_append_left h]

theorem argsOf_append_size {node : Node} :
    ({ m with nodes := m.nodes ++ [node] } : Module).argsOf m.size = node.args := by
  simp [argsOf, size]

/-- A node is added together with the pins that it is bound to. -/
theorem Reading.append (h : m.Reading) {node : Node} {inputs outputs : List Pin}
    (harity : ∀ op, node.op = .prim op → node.args.length = op.arity)
    (hargs : ∀ name, node.op = .input name → node.args = [])
    (hpin : ∀ pin ∈ inputs, ∀ i, pin.index = some i →
      m.opAt i = some (.input pin.name) ∨ i = m.size ∧ node.op = .input pin.name)
    (hcount : ∀ i name, m.opAt i = some (.input name) ∨ i = m.size ∧ node.op = .input name →
      inputs.countP (fun pin => pin.index = some i) = 1)
    (hout : ∀ pin ∈ outputs, ∀ i, pin.index = some i → i ≤ m.size) (hwritten : node.op.Written) :
    ({ m with nodes := m.nodes ++ [node], inputs, outputs } : Module).Reading where
  arity i op hop := by
    rcases opAt_append.mp hop with hold | ⟨rfl, hnew⟩
    · exact (congrArg List.length (argsOf_append_of_lt (lt_of_opAt hold))).trans
        (h.arity i op hold)
    · exact (congrArg List.length argsOf_append_size).trans (harity op hnew)
  input_args i name hop := by
    rcases opAt_append.mp hop with hold | ⟨rfl, hnew⟩
    · exact (argsOf_append_of_lt (lt_of_opAt hold)).trans (h.input_args i name hold)
    · exact argsOf_append_size.trans (hargs name hnew)
  input_pin pin hmem i hi := opAt_append.mpr (hpin pin hmem i hi)
  input_node i name hop := hcount i name (opAt_append.mp hop)
  output pin hmem i hi := by
    have := hout pin hmem i hi
    show i < (m.nodes ++ [node]).length
    rw [List.length_append]
    exact Nat.lt_succ_of_le this
  written i op hop := by
    rcases opAt_append.mp hop with hold | ⟨-, rfl⟩
    · exact h.written i op hold
    · exact hwritten

/-- The labels of a node bind outputs to it. -/
theorem outputs_of_labels (h : m.Reading) {labels : List Char}
    (hfold : labels.foldlM (bindOutput m.size) m = .ok m') :
    ∃ outputs, m' = { m with outputs } ∧
      ∀ pin ∈ outputs, ∀ i, pin.index = some i → i ≤ m.size := by
  refine of_foldlM_eq_ok (P := fun m' => ∃ outputs, m' = { m with outputs } ∧
    ∀ pin ∈ outputs, ∀ i, pin.index = some i → i ≤ m.size) hfold
    ⟨m.outputs, rfl, fun pin hpin i hi => Nat.le_of_lt (h.output pin hpin i hi)⟩ ?_
  rintro _ name m' - ⟨outputs, rfl, hout⟩ hbind
  unfold bindOutput at hbind
  split at hbind
  · cases hbind
  · split at hbind
    · cases hbind
    · cases hbind
      refine ⟨_, rfl, fun pin hpin i hi => ?_⟩
      rcases mem_bindPin hpin with hpin | ⟨old, -, rfl⟩
      · exact hout pin hpin i hi
      · exact Nat.le_of_eq (Option.some.inj hi).symm

/-- What holds of a module while it is read holds after one more segment. -/
theorem Reading.addSegment (h : m.Reading) {segment : List Char}
    (hadd : m.addSegment segment = .ok m') : m'.Reading := by
  obtain ⟨⟨labels, body⟩, -, hadd⟩ := exists_of_bind_eq_ok hadd
  obtain ⟨m₁, hfold, hadd⟩ := exists_of_bind_eq_ok hadd
  obtain ⟨⟨m₂, node⟩, hread, hadd⟩ := exists_of_bind_eq_ok hadd
  obtain rfl := Except.ok.inj hadd
  obtain ⟨outputs, rfl, hout⟩ := outputs_of_labels h hfold
  have hwords : ∀ w ∈ Text.words body, w ≠ [] := fun w => Text.ne_nil_of_mem_words
  have hold : ∀ i name, m.opAt i = some (.input name) → i ≠ m.size :=
    fun i name hop => Nat.ne_of_lt (lt_of_opAt hop)
  rcases readNode_cases hwords hread with
    ⟨rfl, hwritten, harity, hnot⟩ | ⟨k, pin, hk, hfree, rfl, rfl⟩
  · refine h.append harity (fun name hin => absurd hin (hnot name))
      (fun pin hpin i hi => .inl (h.input_pin pin hpin i hi)) (fun i name hin => ?_) hout hwritten
    rcases hin with hin | ⟨-, hin⟩
    · exact h.input_node i name hin
    · exact absurd hin (hnot name)
  · refine h.append (fun op' hop' => by cases hop') (fun name hin => rfl)
      (fun pin' hpin i hi => ?_) (fun i name hin => ?_) hout trivial
    · rw [bindPin_eq_set hk] at hpin
      rcases List.mem_or_eq_of_mem_set hpin with hpin | rfl
      · exact .inl (h.input_pin pin' hpin i hi)
      · exact .inr ⟨(Option.some.inj hi).symm, rfl⟩
    · rw [countP_bindPin hk hfree]
      rcases hin with hin | ⟨rfl, hin⟩
      · rw [if_neg (hold i name hin).symm]
        exact h.input_node i name hin
      · -- No pin was bound to the node before, as there was none.
        have : m.inputs.countP (fun pin => pin.index = some m.size) = 0 := by
          rw [List.countP_eq_zero]
          intro pin hpin hi
          exact hold _ _ (h.input_pin pin hpin _ (of_decide_eq_true hi)) rfl
        rw [if_pos rfl]
        exact congrArg (· + 1) this

theorem Reading.formed (h : m.Reading) (hcheck : m.checkComplete = .ok ()) : m.Formed := by
  unfold checkComplete at hcheck
  split at hcheck
  · cases hcheck
  split at hcheck
  · cases hcheck
  next hbound =>
  split at hcheck
  · cases hcheck
  next hargs =>
  rw [List.find?_eq_none] at hbound hargs
  refine ⟨fun i j hj => ⟨lt_of_mem_argsOf hj, ?_⟩, h.arity, h.input_args, h.input_pin,
    h.input_node, fun pin hpin => ?_⟩
  · obtain ⟨node, hnode, hmem⟩ := mem_argsOf_iff.mp hj
    have := hargs j (List.mem_flatMap.mpr ⟨node, List.mem_of_getElem? hnode, hmem⟩)
    simpa using this
  · have := hbound pin hpin
    cases hi : pin.index with
    | none => simp [hi] at this
    | some i => exact ⟨i, h.output pin hpin i hi, rfl⟩

/-! ## The whole text -/

/-- A module that has been read is formed, and its words are not looked up. -/
theorem formed_of_parseChars {text : List Char} (h : parseChars text = .ok m) :
    m.Formed ∧ m.Written := by
  unfold parseChars at h
  dsimp only at h
  split at h
  · cases h
  split at h
  · split at h
    · cases h
    split at h
    · cases h
    · obtain ⟨m', hfold, h⟩ := exists_of_bind_eq_ok h
      obtain ⟨⟨⟩, hcheck, h⟩ := exists_of_bind_eq_ok h
      obtain rfl := Except.ok.inj h
      have hreading : m'.Reading := of_foldlM_eq_ok hfold (reading_ofPins _ _ _)
        fun _ _ _ _ h hadd => h.addSegment hadd
      exact ⟨hreading.formed hcheck, hreading.written⟩
  · cases h

end Module

end ImageCircuit
