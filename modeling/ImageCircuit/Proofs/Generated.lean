import ImageCircuit.Proofs.SocketMatching

/-!
# What generators deliver

Both wirings deliver a well-made module for all names of pins, all sizes and all outcomes of draws,
unless there is nothing to wire or, with the inputs first, the name of an input is repeated.
Plugging never leaves a slot open for which there is no later node, and neither wiring closes a
cycle.

* `Module.WellMade`: what is asked of a module
* `Module.NormalDrawn.wellMade`: normal forms of drawn nodes are well-made
* `Module.draws_wellMade`: when a wiring fails, with which error, and what it delivers otherwise
-/

namespace ImageCircuit.Module

/-- A module as it is asked for, in terms of its nodes and pins. -/
structure WellMade (inputs outputs : String) (numNodes : Nat) (m : Module) : Prop where
  inputNames : m.inputNames = inputs
  outputNames : m.outputNames = outputs
  size : m.size ≤ numNodes + inputs.length
  sorted : m.isSorted = true
  /-- A node is a primitive with as many arguments as its operator takes, or an input. -/
  node : ∀ node ∈ m.nodes, (∃ op, node.op = .prim op ∧ node.args.length = op.arity) ∨
    ∃ name ∈ inputs.toList, node.op = .input name ∧ node.args = []
  args : ∀ node ∈ m.nodes, ∀ j ∈ node.args, j < m.size
  output : ∀ pin ∈ m.outputs, ∃ i < m.size, pin.index = some i
  connected : ∀ i < m.size, ∃ o ∈ m.outputIndices, Reaches m.argsOf o i
  /-- A bound input pin names an input node of its own name. -/
  input_pin : ∀ pin ∈ m.inputs, ∀ i, pin.index = some i →
    ∃ node, m.nodes[i]? = some node ∧ node.op = .input pin.name

theorem NormalDrawn.wellMade {inputs outputs : String} {numNodes : Nat} {m : Module}
    (hm : m.NormalDrawn inputs.toList outputs.toList (inputs.toList.length + numNodes)) :
    m.WellMade inputs outputs numNodes where
  inputNames := by rw [Module.inputNames, hm.inputs, String.ofList_toList]
  outputNames := by rw [Module.outputNames, hm.outputs, String.ofList_toList]
  size := by
    rw [← String.length_toList, Nat.add_comm]
    exact hm.count
  sorted := hm.sorted
  node node hnode := by
    refine (hm.drawn node hnode).imp id ?_
    rintro ⟨name, hop, hargs⟩
    obtain ⟨i, hi⟩ := List.mem_iff_getElem?.mp hnode
    obtain ⟨pin, hpin, rfl, -⟩ := hm.exists_input (opAt_eq_some_iff.mpr ⟨node, hi, hop⟩)
    exact ⟨pin.name, hm.inputs ▸ List.mem_map_of_mem hpin, hop, hargs⟩
  args _ hnode _ hj := hm.lt_of_mem_args hnode hj
  output := hm.output
  connected := hm.connected
  input_pin pin hpin i hi := opAt_eq_some_iff.mp (hm.input_pin pin hpin i hi)

theorem nothing_iff {inputs : String} {numNodes : Nat} :
    inputs.toList.length + numNodes = 0 ↔ inputs = "" ∧ numNodes = 0 := by
  rw [Nat.add_eq_zero_iff, List.length_eq_zero_iff, String.toList_eq_nil_iff]

/-- Whatever is drawn, wiring with the inputs last fails exactly if there are neither inputs nor
nodes, and wiring with the inputs first in that case or if the name of an input is repeated. Without
an error the module is well-made; with the inputs first, the arguments of each node are distinct. -/
theorem draws_wellMade {σ : Type} [Source σ] (inputs outputs : String) (numNodes : Nat) (s : σ) :
    (∀ result s', (drawSocketMatching inputs outputs numNodes : TryDraw σ Module) s = (result, s') →
      ((∃ e, result = .error e) ↔ inputs = "" ∧ numNodes = 0) ∧
      (∀ e, result = .error e → e = .nothingToGenerate ∧ e.kind = .settings) ∧
      ∀ m, result = .ok m → m.WellMade inputs outputs numNodes) ∧
    ∀ result s', (drawPostHoc inputs outputs numNodes : TryDraw σ Module) s = (result, s') →
      ((∃ e, result = .error e ∧ e.kind = .settings) ↔ inputs = "" ∧ numNodes = 0) ∧
      ((∃ e, result = .error e ∧ e.kind = .structural) ↔ ¬ inputs.toList.Nodup) ∧
      (∀ e, result = .error e → e = .nothingToGenerate ∨
        ∃ name, e = .duplicatedInput name ∧ 1 < inputs.toList.count name) ∧
      ∀ m, result = .ok m →
        m.WellMade inputs outputs numNodes ∧ ∀ node ∈ m.nodes, node.args.Nodup := by
  constructor
  · intro result s' hresult
    have hyields := yields_drawSocketMatching (σ := σ) inputs outputs numNodes s
    rw [ExceptT.run, hresult] at hyields
    rw [← nothing_iff]
    cases result with
    | error e =>
      obtain ⟨rfl, hnothing⟩ := hyields
      exact ⟨⟨fun _ => hnothing, fun _ => ⟨_, rfl⟩⟩,
        fun e he => by cases he; exact ⟨rfl, rfl⟩, fun m hm => by cases hm⟩
    | ok m =>
      obtain ⟨hm, hpos⟩ := hyields
      refine ⟨⟨fun ⟨e, he⟩ => (by cases he), fun hnothing => ?_⟩, fun e he => (by cases he),
        fun m' hm' => Except.ok.inj hm' ▸ hm.wellMade⟩
      omega
  · intro result s' hresult
    have hyields := yields_drawPostHoc (σ := σ) inputs outputs numNodes s
    rw [ExceptT.run, hresult] at hyields
    rw [← nothing_iff]
    cases result with
    | error e =>
      have heq : ∀ e', (Except.error e : Except Error Module) = .error e' → e' = e :=
        fun e' he => (Except.error.inj he).symm
      rcases hyields with ⟨rfl, hnothing⟩ | ⟨name, rfl, hcount⟩
      · have hnil : inputs.toList = [] := List.length_eq_zero_iff.mp (by omega)
        refine ⟨⟨fun _ => hnothing, fun _ => ⟨_, rfl, rfl⟩⟩, ⟨fun ⟨e, he, hkind⟩ => ?_,
          fun hrepeated => absurd (hnil ▸ List.nodup_nil) hrepeated⟩,
          fun e he => .inl (heq e he), fun m hm => by cases hm⟩
        cases heq e he
        cases hkind
      · have hlength := List.count_le_length (l := inputs.toList) (a := name)
        refine ⟨⟨fun ⟨e, he, hkind⟩ => ?_, fun hnothing => by omega⟩,
          ⟨fun _ hnodup => ?_, fun _ => ⟨_, rfl, rfl⟩⟩,
          fun e he => .inr ⟨name, heq e he, hcount⟩, fun m hm => by cases hm⟩
        · cases heq e he
          cases hkind
        · have := List.nodup_iff_count_le_one.mp hnodup name
          omega
    | ok m =>
      obtain ⟨hm, hpos, hnodup, hdistinct⟩ := hyields
      refine ⟨⟨fun ⟨e, he, _⟩ => (by cases he), fun hnothing => ?_⟩,
        ⟨fun ⟨e, he, _⟩ => (by cases he), fun hrepeated => absurd hnodup hrepeated⟩,
        fun e he => (by cases he), fun m' hm' => ?_⟩
      · omega
      · cases hm'
        exact ⟨hm.wellMade, hdistinct⟩

end ImageCircuit.Module
