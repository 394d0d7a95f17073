import ImageCircuit.Proofs.CircuitEval
import ImageCircuit.Proofs.Composition
import ImageCircuit.Proofs.Printing

/-!
# Circuits read again

The text of a circuit is cut where its modules end. Each piece is read as what the text says of the
module, which is in normal form already, so that normalization leaves it as it is; and the words
that calls have been written as lead to where the calls led.

* `Circuit.WellFormed.read_text`: a well-formed circuit is read again but for what evaluation stored
* `Circuit.WellFormed.evalModule_congr`: evaluation does not see the difference
-/

namespace ImageCircuit

/-- What the names of a module must be for its text to be found among others. -/
structure Module.Separable (m : Module) : Prop extends Legible m where
  name_end : ';' ∉ m.name.toList
  inputs_end : ';' ∉ m.inputs.map (·.name)
  outputs_end : ';' ∉ m.outputs.map (·.name)
  words_end : ∀ node ∈ m.nodes, ';' ∉ node.op.word.toList

/-- A module that stores nothing but the literals of its constants. -/
def Module.unevaluated (m : Module) : Module :=
  { m with nodes := m.nodes.map Node.unevaluated }

namespace Module

variable {m : Module}

/-! ## The end of a module -/

theorem Separable.not_mem_chars (h : m.Separable) : ';' ∉ m.chars := by
  have hbody : ';' ∉ ['|'].intercalate m.segments := by
    intro hmem
    rcases Text.mem_of_mem_intercalate hmem with heq | ⟨segment, hsegment, hmem⟩
    · cases heq
    · obtain ⟨i, node, hnode, rfl⟩ := mem_segments_iff.mp hsegment
      have hlabels : ';' ∉ m.labels i := by
        intro hlabel
        obtain ⟨pin, hpin, -, hname⟩ := mem_labels_iff.mp hlabel
        exact h.outputs_end (hname ▸ List.mem_map_of_mem hpin)
      have hchars : ';' ∉ node.chars := by
        have hall : ∀ c ∈ node.chars, c ≠ ';' :=
          Node.of_mem_chars
            (fun c hc heq => h.words_end node (List.mem_of_getElem? hnode) (heq ▸ hc))
            (by decide) fun _ _ hend => hend.1
        exact fun hmem => hall _ hmem rfl
      rw [segment] at hmem
      split at hmem <;> simp [hlabels, hchars] at hmem
  show ';' ∉ '(' :: m.outputs.map (·.name) ++ ')' :: m.name.toList ++
    '(' :: m.inputs.map (·.name) ++ ')' :: '[' :: ['|'].intercalate m.segments ++ [']']
  have hname := h.name_end
  have hinputs := h.inputs_end
  have houtputs := h.outputs_end
  simp only [List.mem_append, List.mem_cons, hname, hinputs, houtputs, hbody]
  decide

/-! ## Stored values -/

theorem sameFrame_unevaluated (m : Module) : m.SameFrame m.unevaluated where
  name := rfl
  inputs := rfl
  outputs := rfl
  op i := by
    rw [opAt, unevaluated, List.getElem?_map, Option.map_map]
    rfl
  args i := by
    rw [argsOf, unevaluated, List.getElem?_map, Option.map_map]
    rfl
  literal i hop _ := by
    obtain ⟨node, hnode, hop⟩ := opAt_eq_some_iff.mp hop
    have hconst : node.isConstant = true := decide_eq_true hop
    rw [valueAt, valueAt, unevaluated, List.getElem?_map, hnode]
    exact if_pos hconst

/-- Evaluation stores nothing that is written. -/
theorem chars_unevaluated (m : Module) : m.unevaluated.chars = m.chars := by
  have hnode : ∀ node : Node, node.unevaluated.chars = node.chars := by
    intro node
    rw [Node.chars, Node.chars, Node.unevaluated, Node.isConstant, Node.isConstant]
    split
    · rfl
    · rfl
  have hsegments : m.unevaluated.segments = m.segments := by
    rw [segments, segments, unevaluated, List.zipIdx_map, List.map_map]
    exact List.map_congr_left fun pair _ => congrArg (_ ++ ·) (hnode pair.1)
  exact congrArg (fun segments => '(' :: m.outputs.map (·.name) ++ ')' :: m.name.toList ++
    '(' :: m.inputs.map (·.name) ++ ')' :: '[' :: ['|'].intercalate segments ++ [']']) hsegments

/-! ## Reading a module -/

/-- What text says of a normal form is a normal form. -/
theorem Normal.source (hm : m.Normal) (hformed : m.source.Formed) : m.source.Normal := by
  refine hm.of_sameArgs hformed (funext fun i => ?_) (List.length_map _) rfl
  rw [argsOf, argsOf, Module.source, List.getElem?_map, Option.map_map]
  rfl

theorem Normal.readPart_chars (hm : m.Normal) (h : m.Legible)
    (hargs : ∀ node ∈ m.nodes, ∀ arg ∈ node.args, arg < Decimal.wordLimit) :
    Circuit.readPart m.chars = .ok m.source := by
  have hparse := parseChars_chars hm.toFormed h hargs
  rw [Circuit.readPart, hparse]
  exact (hm.source (formed_of_parseChars hparse).1).normalize_eq

end Module

namespace Circuit

variable {c : Circuit}

theorem splitAll_text (hne : c.modules ≠ []) (h : ∀ m ∈ c.modules, m.Separable) :
    Text.splitAll ';' c.text.toList = c.modules.map (·.chars) := by
  rw [text, String.toList_ofList]
  refine Text.splitAll_intercalate (fun piece hpiece => ?_) (by simpa using hne)
  obtain ⟨m, hm, rfl⟩ := List.mem_map.mp hpiece
  exact (h m hm).not_mem_chars

theorem text_unevaluated (c : Circuit) :
    text { c with modules := c.modules.map (·.unevaluated) } = c.text := by
  rw [text, text, List.map_map]
  exact congrArg (fun pieces => String.ofList (pieces.intersperse [';']).flatten)
    (List.map_congr_left fun m _ => Module.chars_unevaluated m)

namespace WellFormed

/-- A call is written as the name of its callee, which is found where the callee is. -/
theorem resolveNode_source (h : c.WellFormed) {m : Module} (hm : m ∈ c.modules) {node : Node}
    (hnode : node ∈ m.nodes) :
    resolveNode (c.modules.map (·.name)) (c.modules.map (·.inputs.length)) node.source =
      .ok node.unevaluated := by
  obtain ⟨i, hi⟩ := List.mem_iff_getElem?.mp hnode
  have hop : m.opAt i = some node.op := Module.opAt_eq_some_iff.mpr ⟨node, hi, rfl⟩
  obtain ⟨op, args, value, computed⟩ := node
  cases op with
  | prim op => rfl
  | input name => rfl
  | symbol word => exact absurd hop (h.resolved m hm i word)
  | call word index =>
    obtain ⟨-, callee, hcallee, rfl, hinputs⟩ := h.call m hm i word index hop
    have hidx : (c.modules.map (·.name)).idxOf? callee.name = some index :=
      Module.idxOf?_of_nodup (h.names ▸ h.distinct) (by simp [hcallee])
    rw [Module.argsOf_eq hi] at hinputs
    have hcount : (c.modules.map (·.inputs.length)).getD index 0 = args.length := by
      simp [hcallee, hinputs]
    show resolveNode _ _ (⟨.symbol callee.name, args, 0, false⟩ : Node) = _
    rw [resolveNode]
    dsimp only
    rw [hidx]
    exact if_pos hcount

theorem resolveCalls_source (h : c.WellFormed) :
    resolveCalls (c.modules.map (·.source)) = .ok (c.modules.map (·.unevaluated)) := by
  have hnames : (c.modules.map (·.source)).map (·.name) = c.modules.map (·.name) := List.map_map
  have hcounts : (c.modules.map (·.source)).map (·.inputs.length) =
      c.modules.map (·.inputs.length) := List.map_map
  rw [resolveCalls, hnames, hcounts, mapM_eq_ok_iff, List.forall₂_map_left_iff,
    List.forall₂_map_right_iff, List.forall₂_same]
  intro m hm
  refine bind_eq_ok_iff.mpr ⟨m.unevaluated.nodes, ?_, rfl⟩
  rw [Module.source, Module.unevaluated, mapM_eq_ok_iff, List.forall₂_map_left_iff,
    List.forall₂_map_right_iff, List.forall₂_same]
  exact fun node hnode => h.resolveNode_source hm hnode

theorem sameFrames_unevaluated (c : Circuit) :
    SameFrames c.modules (c.modules.map (·.unevaluated)) := by
  refine ⟨List.length_map _, fun k m hm => ⟨m.unevaluated, ?_, m.sameFrame_unevaluated⟩⟩
  rw [List.getElem?_map, hm, Option.map_some]

/-- The sources of the modules are put together to the circuit again. -/
theorem compose_source (h : c.WellFormed) :
    compose (c.modules.map (·.source)) =
      .ok ⟨c.modules.map (·.unevaluated), c.names, .standard⟩ := by
  have hnames : (c.modules.map (·.source)).map (·.name) = c.names :=
    List.map_map.trans h.names.symm
  have hagain := h.sameFrames (sameFrames_unevaluated c)
  refine compose_eq_ok_iff.mpr ⟨hnames ▸ h.distinct, ?_, ?_, _, h.resolveCalls_source,
    (checkCallGraph_eq_ok_iff hagain.within_callGraph).mpr hagain.acyclic, by rw [hnames]⟩
  · obtain ⟨m, hm, hname, houtputs⟩ := h.entry
    refine (checkEntry_eq_ok_iff (hnames ▸ h.distinct)).mpr
      ⟨m.source, List.mem_map_of_mem (List.mem_of_getElem? hm), hname, ?_⟩
    exact String.ofList_inj.mp houtputs
  · refine checkOutputs_eq_ok_iff.mpr fun m hm hname => ?_
    obtain ⟨source, hsource, rfl⟩ := List.mem_map.mp hm
    exact h.single source hsource hname

/-- A circuit that can be written to be read is read again without what evaluation stored. -/
theorem read_text (h : c.WellFormed) (hs : ∀ m ∈ c.modules, m.Separable)
    (hargs : ∀ m ∈ c.modules, ∀ node ∈ m.nodes, ∀ arg ∈ node.args, arg < Decimal.wordLimit) :
    Circuit.read c.text = .ok ⟨c.modules.map (·.unevaluated), c.names, .standard⟩ := by
  have hne : c.modules ≠ [] := List.ne_nil_of_length_pos (Nat.zero_lt_of_lt h.entryIndex_lt)
  rw [Circuit.read, splitAll_text hne hs]
  refine bind_eq_ok_iff.mpr ⟨c.modules.map (·.source), ?_, h.compose_source⟩
  rw [mapM_eq_ok_iff, List.forall₂_map_left_iff, List.forall₂_map_right_iff, List.forall₂_same]
  exact fun m hm => (h.normal m hm).readPart_chars (hs m hm).toLegible (hargs m hm)

/-! ## Evaluation -/

/-- Evaluation does not depend on what the modules store. -/
theorem evalModule_congr (h : c.WellFormed) {modules : List Module}
    (hframes : SameFrames c.modules modules) (k : Nat) (values : List Float) :
    (({ c with modules } : Circuit).evalModule k values).1 = (c.evalModule k values).1 := by
  by_cases hk : k < c.modules.length
  · obtain ⟨ys, hys⟩ := h.exists_outputMeanings hk values
    rw [h.evalModule_of_meanings hk hframes hys]
    exact (h.evalModule_of_meanings hk (.refl _) hys).symm
  · have hnone : ∀ modules : List Module, modules.length = c.modules.length →
        (({ c with modules } : Circuit).evalModule k values).1 = .error (.noModule k) := by
      intro modules hlen
      have hget : modules[k]? = none := List.getElem?_eq_none (by omega)
      simp only [Circuit.evalModule, evalAt, hget]
    rw [hnone modules hframes.1]
    exact (hnone c.modules rfl).symm

end WellFormed

end Circuit

end ImageCircuit
