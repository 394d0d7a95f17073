import ImageCircuit.Graph.Dot
import ImageCircuit.Proofs.Graph
import ImageCircuit.Proofs.Pieces
import Mathlib.Data.List.Pairwise

/-!
# Identifiers in DOT text

An identifier is the name of a module, an underscore and a number. It is cut at its last underscore
in one way, so vertices share an identifier only if their modules are printed under one name. The
names of modules differ, but the entry is printed as `main`, which another module may be called.

* `DotItem`, `Graph.items`: the statements of the text
* `Graph.prints_items`: they make up the text, with one statement for each vertex
* `ModuleGraph.dotId_inj`: what an identifier is made of
* `Circuit.WellFormed.name_ne_main`, `Circuit.WellFormed.separates`: when the identifiers of a
  circuit are different
* `Circuit.Reachable.dot_separates_iff`: the same for the text of every circuit
-/

namespace ImageCircuit

open scoped List

/-! ## Statements -/

/-- A statement of DOT text, or a line that opens or closes a block. -/
inductive DotItem where
  | vertex (id label attributes : String)
  | edge (source target : String)
  | mark (text : String)

namespace DotItem

/-- The text of a statement. -/
def text : DotItem → String
  | vertex id label attributes => s!"      {id} [label=\"{label}\"{attributes}];\n"
  | edge source target => s!"      {source} -> {target};\n"
  | mark text => text

@[simp] theorem text_mark (s : String) : (mark s).text = s :=
  rfl

/-- The identifier that the statement of a vertex carries. -/
def vertexId? : DotItem → Option String
  | vertex id _ _ => some id
  | edge _ _ | mark _ => none

end DotItem

namespace ModuleGraph

/-- The statement of a vertex. -/
def vertexItem (g : ModuleGraph) (attributes : String) (v : Vertex) : DotItem :=
  .vertex (g.dotId v.id) v.label attributes

/-- The statement of a computing node. -/
def nodeItem? (g : ModuleGraph) (v : Vertex) : Option DotItem :=
  match v.kind with
  | .input | .output => none
  | .constant => some (g.vertexItem ",shape=diamond,style=filled,color=\"#99aaff\"" v)
  | .operator | .call => some (g.vertexItem "" v)

/-- The statements of the pins of one kind. -/
def pinItems (g : ModuleGraph) (kind : VertexKind) : List DotItem :=
  (g.vertices.filter (·.kind = kind)).map (g.vertexItem ",shape=square,style=filled")

/-- The statement of an edge. -/
def edgeItem (g : ModuleGraph) (e : Edge) : DotItem :=
  .edge (g.dotId e.source) (g.dotId e.target)

/-- The statements of a subgraph. -/
def items (g : ModuleGraph) : List DotItem :=
  [.mark s!"   subgraph {g.dotName} \x7b\n", .mark "      \x7b rank = same;\n"] ++
    g.pinItems .input ++ [.mark "      \x7d\n", .mark "      \x7b rank = same;\n"] ++
    g.pinItems .output ++ [.mark "      \x7d\n"] ++ g.vertices.filterMap g.nodeItem? ++
    g.edges.map g.edgeItem ++ [.mark "   \x7d\n"]

/-- The identifiers of the vertices of a subgraph. -/
def vertexIds (g : ModuleGraph) : List String :=
  g.items.filterMap DotItem.vertexId?

end ModuleGraph

namespace Graph

/-- The statements of the text of some graphs. -/
def items (graphs : List ModuleGraph) : List DotItem :=
  .mark "digraph Circuit \x7b\n" :: graphs.flatMap ModuleGraph.items ++ [.mark "\x7d\n"]

/-- The identifiers of all vertices. -/
def vertexIds (graphs : List ModuleGraph) : List String :=
  (items graphs).filterMap DotItem.vertexId?

/-- The statements make up the text, and each vertex has one, which carries its identifier. -/
structure Prints (graphs : List ModuleGraph) : Prop where
  text : dot graphs = .join ((items graphs).map DotItem.text)
  vertices : (vertexIds graphs).Perm (graphs.flatMap fun g => g.vertices.map (g.dotId ·.id))

/-- Different vertices have different identifiers. -/
structure Separates (graphs : List ModuleGraph) : Prop where
  distinct : (vertexIds graphs).Nodup
  /-- Each end of an edge refers to the statement of one vertex, in the subgraph of the edge. -/
  ends : ∀ g ∈ graphs, ∀ source target, .edge source target ∈ g.items →
    ∀ id ∈ [source, target], id ∈ g.vertexIds ∧ (vertexIds graphs).count id = 1

end Graph

/-! ## The text -/

/-- Where nothing is kept, the text is empty. -/
theorem Text.join_filterMap {α β : Type} (f : α → Option β) (text : β → String) (xs : List α) :
    String.join ((xs.filterMap f).map text) = String.join (xs.map fun x => (f x).elim "" text) := by
  induction xs with
  | nil => rfl
  | cons x xs ih =>
    rw [List.map_cons, String.join_cons, ← ih]
    cases hx : f x with
    | none => rw [List.filterMap_cons_none hx, Option.elim_none, String.empty_append]
    | some y => rw [List.filterMap_cons_some hx, List.map_cons, String.join_cons, Option.elim_some]

namespace ModuleGraph

variable {g h : ModuleGraph}

@[simp] theorem text_vertexItem (g : ModuleGraph) (attributes : String) (v : Vertex) :
    (g.vertexItem attributes v).text = g.dotVertex v attributes :=
  rfl

@[simp] theorem text_edgeItem (g : ModuleGraph) (e : Edge) : (g.edgeItem e).text = g.dotEdge e :=
  rfl

@[simp] theorem text_nodeItem? (g : ModuleGraph) (v : Vertex) :
    (g.nodeItem? v).elim "" DotItem.text = g.dotNode v := by
  unfold nodeItem? dotNode
  cases v.kind <;> rfl

theorem text_pinItems (g : ModuleGraph) (kind : VertexKind) :
    String.join ((g.pinItems kind).map DotItem.text) =
      String.join ((g.vertices.filter (·.kind = kind)).map fun v =>
        g.dotVertex v ",shape=square,style=filled") := by
  simp only [pinItems, List.map_map, Function.comp_def, text_vertexItem]

theorem text_edgeItems (g : ModuleGraph) :
    String.join ((g.edges.map g.edgeItem).map DotItem.text) =
      String.join (g.edges.map g.dotEdge) := by
  simp only [List.map_map, Function.comp_def, text_edgeItem]

theorem text_nodeItems (g : ModuleGraph) :
    String.join ((g.vertices.filterMap g.nodeItem?).map DotItem.text) =
      String.join (g.vertices.map g.dotNode) := by
  simp only [Text.join_filterMap, text_nodeItem?]

theorem dot_eq_join (g : ModuleGraph) : g.dot = .join (g.items.map DotItem.text) := by
  unfold dot dotPins
  simp only [items, List.map_append, List.map_cons, List.map_nil, String.join_append,
    String.join_cons, String.join_nil, DotItem.text_mark, text_pinItems, text_edgeItems,
    text_nodeItems, String.append_assoc, String.append_empty]

/-! ## Identifiers -/

theorem vertexId?_nodeItem? (g : ModuleGraph) (v : Vertex) :
    (g.nodeItem? v).bind DotItem.vertexId? =
      if v.kind = .input ∨ v.kind = .output then none else some (g.dotId v.id) := by
  unfold nodeItem?
  cases v.kind <;> rfl

theorem filterMap_pinItems (g : ModuleGraph) (kind : VertexKind) :
    (g.pinItems kind).filterMap DotItem.vertexId? =
      (g.vertices.filter (·.kind = kind)).map (g.dotId ·.id) := by
  rw [pinItems, List.filterMap_map, ← List.filterMap_eq_map]
  rfl

/-- Pins are listed before the other vertices. -/
theorem perm_pinsFirst (vertices : List Vertex) :
    (vertices.filter (·.kind = .input) ++ (vertices.filter (·.kind = .output) ++
      vertices.filter fun v => ¬(v.kind = .input ∨ v.kind = .output))) ~ vertices := by
  have hinner := List.filter_append_perm (fun v : Vertex => v.kind = .output)
    (vertices.filter fun v => !decide (v.kind = .input))
  have houtput : ∀ v : Vertex, (decide (v.kind = .output) && !decide (v.kind = .input)) =
      decide (v.kind = .output) := fun v => by cases v.kind <;> rfl
  have hrest : ∀ v : Vertex, (!decide (v.kind = .output) && !decide (v.kind = .input)) =
      decide (¬(v.kind = .input ∨ v.kind = .output)) := fun v => by cases v.kind <;> rfl
  simp only [List.filter_filter, houtput, hrest] at hinner
  exact (hinner.append_left _).trans (List.filter_append_perm _ vertices)

/-- Every vertex has one statement. -/
theorem perm_vertexIds (g : ModuleGraph) : g.vertexIds ~ g.vertices.map (g.dotId ·.id) := by
  have hnodes : (g.vertices.filterMap g.nodeItem?).filterMap DotItem.vertexId? =
      (g.vertices.filter fun v => ¬(v.kind = .input ∨ v.kind = .output)).map (g.dotId ·.id) := by
    rw [List.filterMap_filterMap, ← List.filterMap_eq_map, List.filterMap_filter]
    refine List.filterMap_congr fun v _ => (g.vertexId?_nodeItem? v).trans ?_
    by_cases hpin : v.kind = .input ∨ v.kind = .output <;> simp [hpin]
  have hedges : (g.edges.map g.edgeItem).filterMap DotItem.vertexId? = [] := by
    rw [List.filterMap_map]
    exact List.filterMap_eq_nil_iff.mpr fun _ _ => rfl
  have hids : g.vertexIds = (g.vertices.filter (·.kind = .input) ++
      (g.vertices.filter (·.kind = .output) ++
        g.vertices.filter fun v => ¬(v.kind = .input ∨ v.kind = .output))).map (g.dotId ·.id) := by
    simp only [vertexIds, items, List.filterMap_append, filterMap_pinItems, hnodes, hedges,
      List.map_append, List.filterMap_cons, DotItem.vertexId?, List.filterMap_nil, List.nil_append,
      List.append_nil, List.append_assoc]
  rw [hids]
  exact (perm_pinsFirst g.vertices).map _

theorem mem_vertexIds_iff {id : String} :
    id ∈ g.vertexIds ↔ ∃ v ∈ g.vertices, g.dotId v.id = id := by
  rw [g.perm_vertexIds.mem_iff, List.mem_map]

/-- The statements of edges are those of the edges of the graph. -/
theorem edge_mem_items_iff {source target : String} :
    .edge source target ∈ g.items ↔
      ∃ e ∈ g.edges, g.dotId e.source = source ∧ g.dotId e.target = target := by
  have hnodes : ∀ v, ¬ g.nodeItem? v = some (.edge source target) := by
    intro v
    unfold nodeItem? vertexItem
    cases v.kind <;> simp
  simp [items, pinItems, vertexItem, edgeItem, hnodes]

theorem toList_dotId (g : ModuleGraph) (i : Nat) :
    (g.dotId i).toList = g.dotName.toList ++ '_' :: Nat.toDigits 10 i := by
  have hid : g.dotId i = g.dotName ++ "_" ++ i.repr := rfl
  simp [hid]

/-- The number behind the last underscore and the name before it are known from an identifier. -/
theorem dotId_inj {i j : Nat} (heq : g.dotId i = h.dotId j) : g.dotName = h.dotName ∧ i = j := by
  have hchars : g.dotName.toList ++ '_' :: Nat.toDigits 10 i =
      h.dotName.toList ++ '_' :: Nat.toDigits 10 j := by
    rw [← toList_dotId, ← toList_dotId, heq]
  obtain ⟨hname, hdigits⟩ := Text.cut_last_unique hchars Nat.underscore_not_in_toDigits
    Nat.underscore_not_in_toDigits
  refine ⟨String.toList_inj.mp hname, ?_⟩
  calc i = Nat.ofDigitChars 10 (Nat.toDigits 10 i) 0 := Nat.ofDigitChars_ten_toDigits.symm
    _ = Nat.ofDigitChars 10 (Nat.toDigits 10 j) 0 := by rw [hdigits]
    _ = j := Nat.ofDigitChars_ten_toDigits

end ModuleGraph

namespace Graph

variable {graphs : List ModuleGraph}

theorem vertexIds_eq (graphs : List ModuleGraph) :
    vertexIds graphs = graphs.flatMap ModuleGraph.vertexIds := by
  simp only [vertexIds, items, List.filterMap_append, List.filterMap_cons, DotItem.vertexId?,
    List.filterMap_nil, List.append_nil, List.filterMap_flatMap]
  rfl

theorem prints_items (graphs : List ModuleGraph) : Prints graphs where
  text := by
    have hgraphs : String.join (graphs.map ModuleGraph.dot) =
        String.join ((graphs.flatMap ModuleGraph.items).map DotItem.text) := by
      induction graphs with
      | nil => rfl
      | cons g graphs ih =>
        rw [List.map_cons, String.join_cons, ih, g.dot_eq_join, List.flatMap_cons, List.map_append,
          String.join_append]
    unfold dot
    simp only [items, List.map_append, List.map_cons, List.map_nil, String.join_append,
      String.join_cons, String.join_nil, DotItem.text_mark, hgraphs, String.append_empty]
  vertices := by
    rw [vertexIds_eq]
    exact List.Perm.flatMap_left _ fun g _ => g.perm_vertexIds

/-- Modules that are printed under different names do not collide. -/
theorem separates_of_dotNames (hnames : (graphs.map ModuleGraph.dotName).Nodup)
    (hids : ∀ g ∈ graphs, (g.vertices.map (·.id)).Nodup)
    (hends : ∀ g ∈ graphs, ∀ e ∈ g.edges, ∀ i ∈ [e.source, e.target], i ∈ g.vertices.map (·.id)) :
    Separates graphs := by
  have hdistinct : (vertexIds graphs).Nodup := by
    rw [vertexIds_eq, List.nodup_flatMap]
    constructor
    · intro g hg
      have hinj : Function.Injective g.dotId := fun i j heq => (ModuleGraph.dotId_inj heq).2
      rw [g.perm_vertexIds.nodup_iff, ← Function.comp_def g.dotId, ← List.map_map]
      exact (hids g hg).map hinj
    · refine (List.pairwise_map.mp hnames).imp fun {g h} hne id hid hid' => hne ?_
      obtain ⟨v, -, rfl⟩ := ModuleGraph.mem_vertexIds_iff.mp hid
      obtain ⟨w, -, heq⟩ := ModuleGraph.mem_vertexIds_iff.mp hid'
      exact (ModuleGraph.dotId_inj heq).1.symm
  refine ⟨hdistinct, fun g hg source target hedge id hid => ?_⟩
  obtain ⟨e, he, rfl, rfl⟩ := ModuleGraph.edge_mem_items_iff.mp hedge
  have hmem : id ∈ g.vertexIds := by
    have hid : id ∈ [e.source, e.target].map g.dotId := hid
    obtain ⟨i, hi, rfl⟩ := List.mem_map.mp hid
    obtain ⟨v, hv, rfl⟩ := List.mem_map.mp (hends g hg e he i hi)
    exact ModuleGraph.mem_vertexIds_iff.mpr ⟨v, hv, rfl⟩
  refine ⟨hmem, List.count_eq_one_of_mem hdistinct ?_⟩
  rw [vertexIds_eq]
  exact List.mem_flatMap.mpr ⟨g, hg, hmem⟩

/-- Two graphs with a vertex of one number are printed under different names. -/
theorem Separates.dotName_ne (hsep : Separates graphs) {g h : ModuleGraph} (hg : g ∈ graphs)
    (hh : h ∈ graphs) (hne : g ≠ h) {v w : Vertex} (hv : v ∈ g.vertices) (hw : w ∈ h.vertices)
    (hid : v.id = w.id) : g.dotName ≠ h.dotName := by
  intro hname
  have hnodup := hsep.distinct
  rw [vertexIds_eq, List.nodup_flatMap] at hnodup
  have hsymm : Std.Symm (Function.onFun List.Disjoint ModuleGraph.vertexIds) :=
    ⟨fun _ _ hdisjoint => hdisjoint.symm⟩
  have hdisjoint : List.Disjoint g.vertexIds h.vertexIds := hnodup.2.forall hg hh hne
  have hsame : g.dotId v.id = h.dotId w.id := by
    unfold ModuleGraph.dotId
    rw [hname, hid]
  exact hdisjoint (ModuleGraph.mem_vertexIds_iff.mpr ⟨v, hv, rfl⟩)
    (ModuleGraph.mem_vertexIds_iff.mpr ⟨w, hw, hsame.symm⟩)

end Graph

/-! ## Circuits -/

namespace Circuit

variable {c : Circuit}

theorem dotName_graph (m : Module) : m.graph.dotName = if m.name = "" then "main" else m.name :=
  rfl

/-- A module with outputs has a vertex of number 0. -/
theorem exists_vertex_zero {m : Module} (hm : m.Formed) (houtputs : m.outputs ≠ []) :
    ∃ v ∈ m.graph.vertices, v.id = 0 := by
  have hpos : 0 < m.outputs.length := List.length_pos_iff.mpr houtputs
  have hzero : 0 ∈ m.graph.vertices.map (·.id) := by
    rw [hm.depicts_graph.ids.mem_iff, List.mem_range]
    omega
  exact List.mem_map.mp hzero

/-- A module called `main` is printed under the name of the entry. -/
theorem WellFormed.name_ne_main (h : c.WellFormed) (hsep : Graph.Separates c.graph) :
    ∀ m ∈ c.modules, m.name ≠ "main" := by
  intro m hm hname
  obtain ⟨entry, hget, hentry, hcolors⟩ := h.entry
  have hmem := List.mem_of_getElem? hget
  have houtputs : entry.outputs ≠ [] := by
    intro hnil
    rw [Module.outputNames, hnil] at hcolors
    exact absurd hcolors (by decide)
  have houtputs' : m.outputs ≠ [] := by
    intro hnil
    have hone := h.single m hm (hname ▸ by decide)
    simp [hnil] at hone
  obtain ⟨v, hv, hvid⟩ := exists_vertex_zero (h.normal entry hmem).toFormed houtputs
  obtain ⟨w, hw, hwid⟩ := exists_vertex_zero (h.normal m hm).toFormed houtputs'
  have hgraphs : entry.graph ≠ m.graph := by
    intro heq
    have hsame : entry.name = m.name := congrArg ModuleGraph.name heq
    rw [hentry, hname] at hsame
    exact absurd hsame (by decide)
  refine hsep.dotName_ne (List.mem_map_of_mem hmem) (List.mem_map_of_mem hm) hgraphs hv hw
    (hvid.trans hwid.symm) ?_
  rw [dotName_graph, dotName_graph, hentry, hname]
  rfl

/-- Without a module called `main` all modules are printed under different names. -/
theorem WellFormed.separates (h : c.WellFormed) (hmain : ∀ m ∈ c.modules, m.name ≠ "main") :
    Graph.Separates c.graph := by
  have hdepicts : ∀ m ∈ c.modules, m.graph.Depicts m := fun m hm =>
    (h.normal m hm).toFormed.depicts_graph
  refine Graph.separates_of_dotNames ?_ ?_ ?_
  · have hnames : c.graph.map ModuleGraph.dotName =
        (c.modules.map (·.name)).map fun name => if name = "" then "main" else name := by
      rw [graph, List.map_map, List.map_map]
      rfl
    rw [hnames]
    refine List.Nodup.map_on (fun name hname name' hname' heq => ?_) (h.names ▸ h.distinct)
    obtain ⟨m, hm, rfl⟩ := List.mem_map.mp hname
    obtain ⟨m', hm', rfl⟩ := List.mem_map.mp hname'
    have := hmain m hm
    have := hmain m' hm'
    grind
  · rintro g hg
    obtain ⟨m, hm, rfl⟩ := List.mem_map.mp hg
    exact (hdepicts m hm).ids.nodup_iff.mpr List.nodup_range
  · intro g hg e he i hi
    obtain ⟨m, hm, rfl⟩ := List.mem_map.mp hg
    obtain ⟨hsource, htarget⟩ := (hdepicts m hm).ends e he
    rw [(hdepicts m hm).ids.mem_iff, List.mem_range]
    simp only [List.mem_cons, List.not_mem_nil, or_false] at hi
    rcases hi with rfl | rfl
    · exact hsource
    · exact htarget

/-- Of every circuit that is read or drawn at random, and then evaluated and mutated any number of
times, the DOT text has one statement for each vertex of each module. Their identifiers are
different, so that edges refer to vertices of their own modules, just if no module is called
`main`. -/
theorem Reachable.dot_separates_iff (h : c.Reachable) :
    Graph.Prints c.graph ∧ (Graph.Separates c.graph ↔ ∀ m ∈ c.modules, m.name ≠ "main") :=
  ⟨Graph.prints_items c.graph, h.wellFormed.name_ne_main, h.wellFormed.separates⟩

/-- A circuit with a call of a module that is not called `main`. -/
theorem dot_separates_iff_unaryCircuit :
    unaryCircuit.Reachable ∧ Graph.Prints unaryCircuit.graph ∧
      Graph.Separates unaryCircuit.graph := by
  obtain ⟨hprints, hsep⟩ := reachable_unaryCircuit.dot_separates_iff
  exact ⟨reachable_unaryCircuit, hprints, hsep.mpr (by decide)⟩

/-- The entry and a module called `main` both state a vertex `main_0`. -/
theorem dot_main_collides :
    ∃ c, Circuit.read "(rgb)(x)[rgb:main 1|x];(a)main(x)[a:inv 1|x]" = .ok c ∧
      (∀ m ∈ c.modules, "main_0" ∈ m.graph.vertexIds) ∧ ¬ (Graph.vertexIds c.graph).Nodup := by
  have hread : Circuit.read "(rgb)(x)[rgb:main 1|x];(a)main(x)[a:inv 1|x]" = .ok (calling "main") :=
    read_calling "(rgb)(x)[rgb:main 1|x]" "(a)main(x)[a:inv 1|x]" rfl rfl rfl rfl
  refine ⟨_, hread, ?_, ?_⟩
  · decide
  · decide

end Circuit

end ImageCircuit
