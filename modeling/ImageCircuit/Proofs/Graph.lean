import ImageCircuit.Graph.Basic
import ImageCircuit.Proofs.Reachable

/-!
# Graphs depict their modules

The graph of a module shows input nodes by the pins that are bound to them and all other nodes by
themselves. In a formed module each input node has one such pin, so each node is shown once.

* `Module.Formed.perm_vertices`: there is one vertex for each node and one for each output
* `Module.filter_target_argEdges`, `Module.filter_target_outputEdges`: the edges that lead to one of
  them
* `Module.Formed.depicts_graph`: the graph of a formed module depicts it
* `Circuit.Reachable.graph_depicts`: the graphs of a circuit depict its modules
-/

namespace ImageCircuit

open scoped List

/-! ## What a graph should show -/

/-- The kind of the vertex of a node with this operation. -/
def Op.vertexKind : Op → VertexKind
  | prim .const => .constant
  | prim _ => .operator
  | input _ => .input
  | symbol _ | call _ _ => .call

/-- The label of a node: a constant shows its literal, any other node the word for its operation. -/
def Node.label (node : Node) : String :=
  if node.isConstant then Decimal.fixed labelPlaces node.value else node.op.word

/-- The vertex of the node at a position. -/
def Node.vertex (node : Node) (i : Nat) : Vertex :=
  ⟨i, node.op.vertexKind, node.label⟩

/-- The vertex of an output. -/
def Pin.vertex (pin : Pin) (id : Nat) : Vertex :=
  ⟨id, .output, .singleton pin.name⟩

/-- The graph `g` depicts the module `m`. -/
structure ModuleGraph.Depicts (g : ModuleGraph) (m : Module) : Prop where
  name : g.name = m.name
  /-- Each node and each output has one vertex. -/
  ids : (g.vertices.map (·.id)).Perm (List.range (m.size + m.outputs.length))
  ends : ∀ e ∈ g.edges, e.source < m.size + m.outputs.length ∧
    e.target < m.size + m.outputs.length
  /-- The edges that lead to a node come from its arguments, in their order. -/
  incoming : ∀ (i : Nat) (node : Node), m.nodes[i]? = some node →
    (g.edges.filter (·.target = i)).map (·.source) = node.args
  /-- One edge leads to an output, from the node that it is bound to, and none starts there. -/
  output : ∀ (k : Nat) (pin : Pin), m.outputs[k]? = some pin →
    ∃ o < m.size, pin.index = some o ∧
      g.edges.filter (·.target = m.size + k) = [⟨o, m.size + k⟩] ∧
      ∀ e ∈ g.edges, e.source ≠ m.size + k
  node_vertex : ∀ v ∈ g.vertices, ∀ node, m.nodes[v.id]? = some node → v = node.vertex v.id
  input_vertex : ∀ v ∈ g.vertices, v.kind = .input →
    ∃ pin ∈ m.inputs, pin.index = some v.id ∧ v.label = .singleton pin.name
  output_vertex : ∀ v ∈ g.vertices, ∀ k pin, v.id = m.size + k → m.outputs[k]? = some pin →
    v = pin.vertex v.id

theorem Op.vertexKind_eq_input_iff {op : Op} :
    op.vertexKind = .input ↔ ∃ name, op = .input name := by
  cases op with
  | prim op => cases op <;> simp [vertexKind]
  | input name => simp [vertexKind]
  | symbol word => simp [vertexKind]
  | call word index => simp [vertexKind]

namespace Node

/-- The vertex of an input node shows the name of its pin. -/
theorem vertex_of_input {node : Node} {name : Char} (h : node.op = .input name) (i : Nat) :
    node.vertex i = ⟨i, .input, .singleton name⟩ := by
  simp [vertex, label, isConstant, h, Op.vertexKind, Op.word]

/-- Just the input nodes are not shown by themselves. -/
theorem vertexLabel?_eq (node : Node) :
    node.vertexLabel? =
      if node.op.vertexKind = .input then none else some (node.op.vertexKind, node.label) := by
  unfold vertexLabel? label isConstant
  cases node.op with
  | prim op => cases op <;> rfl
  | input name => rfl
  | symbol word => rfl
  | call word index => rfl

end Node

namespace Module

variable {m : Module} {i k : Nat}

/-! ## Vertices -/

/-- The vertices of all nodes. -/
def allVertices (m : Module) : List Vertex :=
  m.nodes.zipIdx.map fun x => x.1.vertex x.2

theorem map_id_allVertices (m : Module) : m.allVertices.map (·.id) = List.range' 0 m.size := by
  rw [allVertices, List.map_map]
  exact List.zipIdx_map_snd 0 m.nodes

theorem map_id_outputVertices (m : Module) :
    m.outputVertices.map (·.id) = List.range' m.size m.outputs.length := by
  have hplaces : m.outputs.zipIdx.map (·.2) = List.range m.outputs.length := by
    rw [List.zipIdx_map_snd, List.range_eq_range']
  rw [outputVertices, List.map_map, List.range'_eq_map_range, ← hplaces, List.map_map]
  rfl

theorem nodup_allVertices (m : Module) : m.allVertices.Nodup :=
  .of_map (·.id) (m.map_id_allVertices ▸ List.nodup_range')

theorem mem_allVertices_iff {v : Vertex} :
    v ∈ m.allVertices ↔ ∃ (i : Nat) (node : Node), m.nodes[i]? = some node ∧ v = node.vertex i := by
  simp only [allVertices, List.mem_map, Prod.exists, List.mem_zipIdx_iff_getElem?]
  constructor
  · rintro ⟨node, i, hnode, rfl⟩
    exact ⟨i, node, hnode, rfl⟩
  · rintro ⟨i, node, hnode, rfl⟩
    exact ⟨node, i, hnode, rfl⟩

theorem mem_outputVertices_iff {v : Vertex} :
    v ∈ m.outputVertices ↔
      ∃ (k : Nat) (pin : Pin), m.outputs[k]? = some pin ∧ v = pin.vertex (m.size + k) := by
  simp only [outputVertices, List.mem_map, Prod.exists, List.mem_zipIdx_iff_getElem?]
  constructor
  · rintro ⟨pin, k, hpin, rfl⟩
    exact ⟨k, pin, hpin, rfl⟩
  · rintro ⟨k, pin, hpin, rfl⟩
    exact ⟨pin, k, hpin, rfl⟩

theorem mem_inputVertices_iff {v : Vertex} :
    v ∈ m.inputVertices ↔ ∃ pin ∈ m.inputs, ∃ i, pin.index = some i ∧
      v = ⟨i, .input, .singleton pin.name⟩ := by
  simp only [inputVertices, List.mem_filterMap, Option.map_eq_some_iff, eq_comm (a := v)]

theorem nodeVertices_eq (m : Module) :
    m.nodeVertices = (m.nodes.zipIdx.filter fun x => !(x.1.op.vertexKind = .input)).map
      fun x => x.1.vertex x.2 := by
  rw [← List.filterMap_eq_map, List.filterMap_filter, nodeVertices]
  congr 1
  funext ⟨node, i⟩
  by_cases h : node.op.vertexKind = .input <;> simp [Node.vertexLabel?_eq, h, Node.vertex]

/-- No two inputs are bound to one node. -/
theorem Formed.nodup_inputVertices (hm : m.Formed) : m.inputVertices.Nodup := by
  have hids : m.inputVertices.map (·.id) = m.inputs.filterMap (·.index) := by
    rw [inputVertices, List.map_filterMap]
    congr 1
    funext pin
    cases pin.index <;> rfl
  refine .of_map (·.id) ?_
  rw [hids, List.nodup_iff_count_le_one]
  intro i
  rw [List.count_filterMap]
  by_cases hop : ∃ name, m.opAt i = some (.input name)
  · obtain ⟨name, hop⟩ := hop
    simpa only [beq_eq_decide] using (hm.input_node i name hop).le
  · refine (List.countP_eq_zero.mpr fun pin hpin hidx => hop ?_).le.trans (Nat.zero_le 1)
    exact ⟨_, hm.input_pin pin hpin i (by simpa using hidx)⟩

/-- The bound inputs show the input nodes. -/
theorem Formed.perm_inputVertices (hm : m.Formed) :
    m.inputVertices.Perm ((m.nodes.zipIdx.filter fun x => x.1.op.vertexKind = .input).map
      fun x => x.1.vertex x.2) := by
  -- Neither list repeats a vertex, so it is enough to compare their members.
  refine (List.perm_ext_iff_of_nodup hm.nodup_inputVertices
    ((List.filter_sublist.map _).nodup m.nodup_allVertices)).mpr fun v => ?_
  rw [mem_inputVertices_iff, List.mem_map]
  constructor
  · rintro ⟨pin, hpin, i, hidx, rfl⟩
    obtain ⟨node, hnode, hop⟩ := opAt_eq_some_iff.mp (hm.input_pin pin hpin i hidx)
    refine ⟨(node, i), List.mem_filter.mpr ⟨List.mem_zipIdx_iff_getElem?.mpr hnode, ?_⟩,
      Node.vertex_of_input hop i⟩
    exact decide_eq_true (Op.vertexKind_eq_input_iff.mpr ⟨_, hop⟩)
  · rintro ⟨⟨node, i⟩, hmem, rfl⟩
    obtain ⟨hnode, hkind⟩ := List.mem_filter.mp hmem
    obtain ⟨name, hop⟩ := Op.vertexKind_eq_input_iff.mp (of_decide_eq_true hkind)
    obtain ⟨pin, hpin, rfl, hidx⟩ := hm.exists_input
      (opAt_eq_some_iff.mpr ⟨node, List.mem_zipIdx_iff_getElem?.mp hnode, hop⟩)
    exact ⟨pin, hpin, i, hidx, Node.vertex_of_input hop i⟩

/-- There is one vertex for each node and one for each output. -/
theorem Formed.perm_vertices (hm : m.Formed) :
    m.graph.vertices.Perm (m.allVertices ++ m.outputVertices) := by
  have hnodes : (m.inputVertices ++ m.nodeVertices).Perm m.allVertices := by
    rw [nodeVertices_eq]
    refine (hm.perm_inputVertices.append_right _).trans ?_
    rw [← List.map_append]
    exact (List.filter_append_perm _ _).map _
  calc m.graph.vertices
      = m.inputVertices ++ (m.outputVertices ++ m.nodeVertices) := List.append_assoc ..
    _ ~ m.inputVertices ++ (m.nodeVertices ++ m.outputVertices) :=
      List.perm_append_comm.append_left _
    _ = m.inputVertices ++ m.nodeVertices ++ m.outputVertices := (List.append_assoc ..).symm
    _ ~ m.allVertices ++ m.outputVertices := hnodes.append_right _

/-! ## Edges -/

/-- Of edges that are listed by their users, those of one user are the ones listed for it. -/
theorem filter_target_flatMap {α : Type} {xs : List α} (f : α × Nat → List Edge)
    (base start : Nat) (htarget : ∀ x j, ∀ e ∈ f (x, j), e.target = base + j) {x : α}
    (h : xs[i]? = some x) :
    ((xs.zipIdx start).flatMap f).filter (·.target = base + (start + i)) = f (x, start + i) := by
  induction xs generalizing start i with
  | nil => cases h
  | cons y rest ih =>
    rw [List.zipIdx_cons, List.flatMap_cons, List.filter_append]
    cases i with
    | zero =>
      obtain rfl := Option.some.inj h
      have hfirst : (f (y, start)).filter (·.target = base + (start + 0)) = f (y, start) :=
        List.filter_eq_self.mpr fun e he => decide_eq_true (htarget _ _ e he)
      have hrest : ((rest.zipIdx (start + 1)).flatMap f).filter
          (·.target = base + (start + 0)) = [] := by
        refine List.filter_eq_nil_iff.mpr fun e he htarget' => ?_
        obtain ⟨⟨z, j⟩, hmem, he⟩ := List.mem_flatMap.mp he
        have := List.le_snd_of_mem_zipIdx hmem
        have := htarget _ _ e he
        have := of_decide_eq_true htarget'
        omega
      rw [hfirst, hrest, List.append_nil]
      rfl
    | succ i =>
      have hfirst : (f (y, start)).filter (·.target = base + (start + (i + 1))) = [] := by
        refine List.filter_eq_nil_iff.mpr fun e he htarget' => ?_
        have := htarget _ _ e he
        have := of_decide_eq_true htarget'
        omega
      have hstart : start + (i + 1) = start + 1 + i := by omega
      rw [hfirst, List.nil_append, hstart]
      exact ih (start + 1) h

theorem mem_argEdges_iff {e : Edge} : e ∈ m.argEdges ↔ e.source ∈ m.argsOf e.target := by
  obtain ⟨source, target⟩ := e
  simp only [argEdges, List.mem_flatMap, List.mem_map, Prod.exists, List.mem_zipIdx_iff_getElem?,
    mem_argsOf_iff]
  constructor
  · rintro ⟨node, i, hnode, arg, harg, heq⟩
    cases heq
    exact ⟨node, hnode, harg⟩
  · rintro ⟨node, hnode, harg⟩
    exact ⟨node, target, hnode, source, harg, rfl⟩

theorem mem_outputEdges_iff {e : Edge} :
    e ∈ m.outputEdges ↔ ∃ (k : Nat) (pin : Pin), m.outputs[k]? = some pin ∧
      pin.index = some e.source ∧ e.target = m.size + k := by
  obtain ⟨source, target⟩ := e
  simp only [outputEdges, List.mem_filterMap, Prod.exists, List.mem_zipIdx_iff_getElem?,
    Option.map_eq_some_iff]
  constructor
  · rintro ⟨pin, k, hpin, i, hidx, heq⟩
    cases heq
    exact ⟨k, pin, hpin, hidx, rfl⟩
  · rintro ⟨k, pin, hpin, hidx, rfl⟩
    exact ⟨pin, k, hpin, source, hidx, rfl⟩

theorem filter_target_argEdges {node : Node} (hnode : m.nodes[i]? = some node) :
    m.argEdges.filter (·.target = i) = node.args.map fun arg => ⟨arg, i⟩ := by
  have hfilter := filter_target_flatMap
    (fun x : Node × Nat => x.1.args.map fun arg => (⟨arg, x.2⟩ : Edge)) 0 0 (fun _ j e he => ?_)
    hnode
  · simp only [Nat.zero_add] at hfilter
    exact hfilter
  · obtain ⟨arg, -, rfl⟩ := List.mem_map.mp he
    exact (Nat.zero_add j).symm

theorem filter_target_outputEdges {pin : Pin} (hpin : m.outputs[k]? = some pin) :
    m.outputEdges.filter (·.target = m.size + k) =
      (pin.index.map fun i => (⟨i, m.size + k⟩ : Edge)).toList := by
  have hfilter := filter_target_flatMap
    (fun x : Pin × Nat => (x.1.index.map fun i => (⟨i, m.size + x.2⟩ : Edge)).toList) m.size 0
    (fun _ j e he => ?_) hpin
  · rw [outputEdges, List.filterMap_eq_flatMap_toList]
    simpa only [Nat.zero_add] using hfilter
  · obtain ⟨o, -, rfl⟩ := Option.map_eq_some_iff.mp (Option.mem_toList.mp he)
    rfl

/-! ## The graph -/

theorem filter_target_eq_nil {edges : List Edge} {t : Nat} (h : ∀ e ∈ edges, e.target ≠ t) :
    edges.filter (·.target = t) = [] :=
  List.filter_eq_nil_iff.mpr fun e he heq => h e he (of_decide_eq_true heq)

/-- The edges of arguments lead to nodes. -/
theorem target_lt_of_mem_argEdges {e : Edge} (he : e ∈ m.argEdges) : e.target < m.size :=
  lt_of_mem_argsOf (mem_argEdges_iff.mp he)

/-- The edges of outputs lead past the nodes. -/
theorem le_target_of_mem_outputEdges {e : Edge} (he : e ∈ m.outputEdges) : m.size ≤ e.target := by
  obtain ⟨k, pin, -, -, htarget⟩ := mem_outputEdges_iff.mp he
  omega

/-- All edges start at nodes. -/
theorem Formed.source_lt (hm : m.Formed) {e : Edge} (he : e ∈ m.graph.edges) :
    e.source < m.size := by
  rcases List.mem_append.mp he with he | he
  · exact (hm.within _ _ (mem_argEdges_iff.mp he)).2
  · obtain ⟨k, pin, hpin, hidx, -⟩ := mem_outputEdges_iff.mp he
    exact hm.outputIndices_lt _ (mem_outputIndices_iff.mpr ⟨pin, List.mem_of_getElem? hpin, hidx⟩)

theorem target_lt_of_mem_edges {e : Edge} (he : e ∈ m.graph.edges) :
    e.target < m.size + m.outputs.length := by
  rcases List.mem_append.mp he with he | he
  · have := target_lt_of_mem_argEdges he
    omega
  · obtain ⟨k, pin, hpin, -, htarget⟩ := mem_outputEdges_iff.mp he
    have := (List.getElem?_eq_some_iff.mp hpin).1
    omega

theorem Formed.depicts_graph (hm : m.Formed) : m.graph.Depicts m where
  name := rfl
  ids := by
    refine (hm.perm_vertices.map (·.id)).trans (.of_eq ?_)
    rw [List.map_append, map_id_allVertices, map_id_outputVertices, List.range_eq_range',
      ← List.range'_append_1, Nat.zero_add]
  ends e he := ⟨Nat.lt_add_right _ (hm.source_lt he), target_lt_of_mem_edges he⟩
  incoming i node hnode := by
    have hlt : i < m.size := (List.getElem?_eq_some_iff.mp hnode).1
    have hout : m.outputEdges.filter (·.target = i) = [] := filter_target_eq_nil fun e he heq => by
      have := le_target_of_mem_outputEdges he
      omega
    rw [graph, List.filter_append, filter_target_argEdges hnode, hout, List.append_nil,
      List.map_map]
    exact List.map_id _
  output k pin hpin := by
    obtain ⟨o, ho, hidx⟩ := hm.output pin (List.mem_of_getElem? hpin)
    have hargs : m.argEdges.filter (·.target = m.size + k) = [] :=
      filter_target_eq_nil fun e he heq => by
        have := target_lt_of_mem_argEdges he
        omega
    refine ⟨o, ho, hidx, ?_, fun e he heq => ?_⟩
    · rw [graph, List.filter_append, hargs, filter_target_outputEdges hpin, hidx]
      rfl
    · have := hm.source_lt he
      omega
  node_vertex v hv node hnode := by
    have hlt : v.id < m.size := (List.getElem?_eq_some_iff.mp hnode).1
    rcases List.mem_append.mp (hm.perm_vertices.mem_iff.mp hv) with hv | hv
    · obtain ⟨i, node', hnode', rfl⟩ := mem_allVertices_iff.mp hv
      obtain rfl := Option.some.inj (hnode'.symm.trans hnode)
      rfl
    · obtain ⟨k, pin, -, rfl⟩ := mem_outputVertices_iff.mp hv
      exact absurd hlt (Nat.not_lt.mpr (Nat.le_add_right _ _))
  input_vertex v hv hkind := by
    rcases List.mem_append.mp (hm.perm_vertices.mem_iff.mp hv) with hv | hv
    · obtain ⟨i, node, hnode, rfl⟩ := mem_allVertices_iff.mp hv
      obtain ⟨name, hop⟩ := Op.vertexKind_eq_input_iff.mp hkind
      obtain ⟨pin, hpin, rfl, hidx⟩ := hm.exists_input (opAt_eq_some_iff.mpr ⟨node, hnode, hop⟩)
      exact ⟨pin, hpin, hidx, congrArg Vertex.label (Node.vertex_of_input hop i)⟩
    · obtain ⟨k, pin, -, rfl⟩ := mem_outputVertices_iff.mp hv
      cases hkind
  output_vertex v hv k pin hid hpin := by
    rcases List.mem_append.mp (hm.perm_vertices.mem_iff.mp hv) with hv | hv
    · obtain ⟨i, node, hnode, rfl⟩ := mem_allVertices_iff.mp hv
      have hlt : i < m.size := (List.getElem?_eq_some_iff.mp hnode).1
      have hid : i = m.size + k := hid
      omega
    · obtain ⟨k', pin', hpin', rfl⟩ := mem_outputVertices_iff.mp hv
      obtain rfl : k' = k := Nat.add_left_cancel hid
      obtain rfl := Option.some.inj (hpin'.symm.trans hpin)
      rfl

end Module

namespace Circuit

/-- In every circuit that is read or drawn at random, and then evaluated and mutated any number of
times, the graphs depict the modules, one after the other. -/
theorem Reachable.graph_depicts {c : Circuit} (h : c.Reachable) :
    List.Forall₂ (fun m g => g.Depicts m) c.modules c.graph :=
  List.forall₂_map_right_iff.mpr <| List.forall₂_same.mpr fun m hm =>
    (h.wellFormed.normal m hm).toFormed.depicts_graph

/-- A circuit with a call and with three outputs on one node, evaluated and then mutated. -/
theorem graph_depicts_unaryCircuit_mutated :
    ∃ c, c = ((unaryCircuit.eval [0.5]).2.mutate .standard (ChaCha.ofSeed 1)).1.2 ∧ c.Reachable ∧
      List.Forall₂ (fun m g => g.Depicts m) c.modules c.graph := by
  have hc : ((unaryCircuit.eval [0.5]).2.mutate .standard (ChaCha.ofSeed 1)).1.2.Reachable :=
    .mutate (.eval reachable_unaryCircuit [0.5]) _ _
  exact ⟨_, rfl, hc, hc.graph_depicts⟩

end Circuit

end ImageCircuit
