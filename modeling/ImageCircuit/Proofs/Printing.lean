import ImageCircuit.Module.Printer
import ImageCircuit.Proofs.Accepts
import ImageCircuit.Proofs.Literals

/-!
# The text of a module reads back

The pins of a formed module with distinct names are where the reader looks for them, and its words
are read as they are written. What is lost is what text does not say: the places of called modules
and the values of nodes that are no constants.

* `Module.source`: what the text of a module says
* `Module.parseChars_chars`: the text is read as the source
* `Module.parse_text`: a module that has been read is read again from its text
-/

namespace ImageCircuit

open Text (trim splitOnce splitAll words isBlank)

/-! ## Sources -/

/-- The operation that text gives to a node. -/
def Op.source : Op → Op
  | .call name _ => .symbol name
  | op => op

/-- A node that stores nothing but the literal of a constant. -/
def Node.unevaluated (node : Node) : Node :=
  { node with value := if node.isConstant then node.value else 0, computed := false }

/-- What text says of a node. -/
def Node.source (node : Node) : Node :=
  { node.unevaluated with op := node.op.source }

/-- What text says of a module. -/
def Module.source (m : Module) : Module :=
  { m with nodes := m.nodes.map Node.source }

/-- A character that neither ends a word nor a segment or its labels. -/
def Plain (c : Char) : Prop :=
  isBlank c = false ∧ c ≠ '|' ∧ c ≠ ':'

/-- A word that is written to be read as the same operation. -/
def Op.Legible (inputs : List Char) (op : Op) : Prop :=
  (∀ c ∈ op.word.toList, Plain c) ∧
    match op with
    | .prim _ => True
    | .input c => Operator.isSymbol (.ofList [c]) = false
    | .symbol name | .call name _ =>
      name ≠ "" ∧ Operator.isSymbol name = false ∧ ∀ c ∈ inputs, name.toList ≠ [c]

/-- What the names of a module must be for its text to be read. -/
structure Module.Legible (m : Module) : Prop where
  name : trim m.name.toList = m.name.toList
  name_bracket : '(' ∉ m.name.toList
  name_symbol : Operator.isSymbol m.name = false
  inputs : (m.inputs.map (·.name)).Nodup
  input : ∀ c ∈ m.inputs.map (·.name), isBlank c = false ∧ c ≠ ')'
  outputs : (m.outputs.map (·.name)).Nodup
  outputs_ne_nil : m.outputs ≠ []
  output : ∀ c ∈ m.outputs.map (·.name), Plain c ∧ c ≠ ')'
  op : ∀ node ∈ m.nodes, node.op.Legible (m.inputs.map (·.name))

/-! ## Pins -/

namespace Module

variable {m : Module} {pin : Pin} {i : Nat}

/-- A search that can end at one place only ends there. -/
theorem findIdx?_eq_of_unique {α : Type} {p : α → Bool} {xs : List α} {place : Option Nat}
    (hsome : ∀ i, place = some i → ∃ x, xs[i]? = some x ∧ p x = true)
    (hunique : ∀ i x, xs[i]? = some x → p x = true → place = some i) : xs.findIdx? p = place := by
  cases h : xs.findIdx? p with
  | none =>
    cases hplace : place with
    | none => rfl
    | some i =>
      obtain ⟨x, hx, hp⟩ := hsome i hplace
      rw [List.findIdx?_eq_none_iff.mp h x (List.mem_of_getElem? hx)] at hp
      cases hp
  | some i =>
    obtain ⟨hlt, hp, -⟩ := List.findIdx?_eq_some_iff_getElem.mp h
    exact (hunique i _ (List.getElem?_eq_getElem hlt) hp).symm

theorem Formed.inputPlace_eq (hm : m.Formed) (hnodup : (m.inputs.map (·.name)).Nodup)
    (hpin : pin ∈ m.inputs) : inputPlace m.nodes pin.name = pin.index := by
  refine findIdx?_eq_of_unique (fun i hidx => ?_) fun i node hnode hop => ?_
  · obtain ⟨node, hnode, hop⟩ := opAt_eq_some_iff.mp (hm.input_pin pin hpin i hidx)
    exact ⟨node, hnode, decide_eq_true hop⟩
  · exact hm.index_of_opAt hnodup hpin
      (opAt_eq_some_iff.mpr ⟨node, hnode, of_decide_eq_true hop⟩)

theorem mem_labels_iff {c : Char} :
    c ∈ m.labels i ↔ ∃ pin ∈ m.outputs, pin.index = some i ∧ pin.name = c := by
  simp [labels, and_assoc]

end Module

/-! ## Words -/

theorem Operator.plain_symbol (op : Operator) :
    ∀ c ∈ op.symbol.toList, Plain c ∧ c ≠ ';' ∧ c ≠ ')' := by
  have hall : ∀ c ∈ op.symbol.toList,
      (isBlank c = false ∧ c ≠ '|' ∧ c ≠ ':') ∧ c ≠ ';' ∧ c ≠ ')' := by
    refine List.all_iff_forall_prop.mp ?_
    cases op <;> decide
  exact hall

theorem Operator.legible_prim (op : Operator) (inputs : List Char) : (Op.prim op).Legible inputs :=
  ⟨fun c hc => (op.plain_symbol c hc).1, trivial⟩

theorem Operator.symbol_ne_nil (op : Operator) : op.symbol.toList ≠ [] := by
  cases op <;> decide

/-- The words of a node behind its operation. -/
def Node.argWords (node : Node) : List (List Char) :=
  if node.isConstant then [Decimal.textChars node.value] else node.args.map Decimal.digitsOf

theorem Node.chars_eq (node : Node) :
    node.chars = node.op.word.toList ++ node.argWords.flatMap (' ' :: ·) :=
  rfl

theorem Node.argWords_plain {node : Node} {word : List Char} (h : word ∈ node.argWords) :
    word ≠ [] ∧ ∀ c ∈ word, Plain c ∧ c ≠ ';' ∧ c ≠ ')' := by
  unfold argWords at h
  split at h
  · obtain rfl := List.mem_singleton.mp h
    refine ⟨Decimal.textChars_ne_nil _, fun c hc => ?_⟩
    obtain ⟨hblank, hbar, hcolon, hend⟩ := (Decimal.isLiteralChar_of_mem_textChars hc).plain
    exact ⟨⟨hblank, hbar, hcolon⟩, hend⟩
  · obtain ⟨n, -, rfl⟩ := List.mem_map.mp h
    refine ⟨Decimal.digitsOf_ne_nil n, fun c hc => ?_⟩
    obtain ⟨hblank, hbar, hcolon, hend⟩ :=
      Decimal.IsLiteralChar.plain (.inl (Decimal.isDigit_of_mem_digitsOf hc))
    exact ⟨⟨hblank, hbar, hcolon⟩, hend⟩

theorem Op.Legible.word_ne_nil {op : Op} {inputs : List Char} (h : op.Legible inputs) :
    op.word.toList ≠ [] := by
  cases op with
  | prim op => exact op.symbol_ne_nil
  | input c => exact (by simp : (String.singleton c).toList ≠ [])
  | symbol name => exact fun hnil => h.2.1 (String.toList_eq_nil_iff.mp hnil)
  | call name => exact fun hnil => h.2.1 (String.toList_eq_nil_iff.mp hnil)

/-- What holds of the word of a node and of the characters of literals holds of its text. -/
theorem Node.of_mem_chars {node : Node} {P : Char → Prop} (hword : ∀ c ∈ node.op.word.toList, P c)
    (hspace : P ' ') (hplain : ∀ c, Plain c → c ≠ ';' ∧ c ≠ ')' → P c) :
    ∀ c ∈ node.chars, P c := by
  intro c hc
  rw [chars_eq] at hc
  rcases List.mem_append.mp hc with hc | hc
  · exact hword c hc
  · obtain ⟨word, hword, hc⟩ := List.mem_flatMap.mp hc
    rcases List.mem_cons.mp hc with rfl | hc
    · exact hspace
    · obtain ⟨hc, hend⟩ := (argWords_plain hword).2 c hc
      exact hplain c hc hend

theorem Node.mem_chars {node : Node} {inputs : List Char} {c : Char} (h : node.op.Legible inputs)
    (hc : c ∈ node.chars) : c ≠ '|' ∧ c ≠ ':' :=
  of_mem_chars (fun c hc => (h.1 c hc).2) (by decide) (fun _ hc _ => hc.2) c hc

theorem Node.words_chars {node : Node} {inputs : List Char} (h : node.op.Legible inputs) :
    words node.chars = node.op.word.toList :: node.argWords := by
  rw [chars_eq]
  exact Text.words_spaced ⟨h.word_ne_nil, fun c hc => (h.1 c hc).1⟩ fun word hword =>
    ⟨(argWords_plain hword).1, fun c hc => ((argWords_plain hword).2 c hc).1.1⟩

theorem readsArgs_digitsOf {args : List Nat} (h : ∀ arg ∈ args, arg < Decimal.wordLimit) :
    ReadsArgs (args.map Decimal.digitsOf) args :=
  List.forall₂_map_left_iff.mpr <|
    List.forall₂_same.mpr fun arg harg => Decimal.readCount_digitsOf (h arg harg)

/-- The words that are written for a word and its arguments. -/
theorem denotes_symbol {name : String} {args : List Nat} {inputs : List Char}
    (hname : Operator.isSymbol name = false) (hinput : ∀ c ∈ inputs, name.toList ≠ [c])
    (hargs : ∀ arg ∈ args, arg < Decimal.wordLimit) :
    Denotes inputs (name.toList :: args.map Decimal.digitsOf) (.ofOp (.symbol name) args) := by
  have h : Denotes inputs _ (.ofOp (.symbol (.ofList name.toList)) args) :=
    .symbol (by rwa [String.ofList_toList]) hinput (readsArgs_digitsOf hargs)
  rwa [String.ofList_toList] at h

/-- The words that are written for a node stand for its source. -/
theorem Node.denotes_source {node : Node} {inputs : List Char} (h : node.op.Legible inputs)
    (harity : ∀ op, node.op = .prim op → node.args.length = op.arity)
    (hinput : ∀ c, node.op = .input c → c ∈ inputs ∧ node.args = [])
    (hargs : ∀ arg ∈ node.args, arg < Decimal.wordLimit) :
    Denotes inputs (node.op.word.toList :: node.argWords) node.source := by
  obtain ⟨op, args, value, computed⟩ := node
  cases op with
  | prim op =>
    by_cases hop : op = .const
    · subst hop
      obtain rfl := List.eq_nil_of_length_eq_zero (harity .const rfl)
      have hconst : (⟨.prim .const, [], value, computed⟩ : Node).isConstant = true := by
        simp [isConstant]
      have hword : (Op.prim .const).word.toList = ['='] := by decide
      rw [argWords, source, unevaluated, if_pos hconst, if_pos hconst, hword]
      exact .constant (Decimal.readFloat_textChars value)
    · have hconst : (⟨.prim op, args, value, computed⟩ : Node).isConstant = false := by
        simp [isConstant, hop]
      rw [argWords, source, unevaluated, hconst]
      exact .operator hop (readsArgs_digitsOf hargs) (harity op rfl)
  | input c =>
    obtain ⟨hmem, rfl⟩ := hinput c rfl
    show Denotes inputs ((String.singleton c).toList :: []) _
    rw [String.toList_singleton]
    exact .input h.2 hmem
  | symbol name => exact denotes_symbol h.2.2.1 h.2.2.2 hargs
  | call name index => exact denotes_symbol h.2.2.1 h.2.2.2 hargs

/-! ## Segments -/

namespace Module

variable {m : Module} {node : Node} {i : Nat} {c : Char}

theorem Legible.mem_labels (h : m.Legible) (hc : c ∈ m.labels i) : Plain c ∧ c ≠ ')' := by
  obtain ⟨pin, hpin, -, rfl⟩ := mem_labels_iff.mp hc
  exact h.output _ (List.mem_map_of_mem hpin)

/-- A segment is cut behind its labels. -/
theorem splitOnce_segment (h : m.Legible) (hnode : node ∈ m.nodes) :
    splitOnce ':' (m.segment node i) =
      if m.labels i = [] then none else some (m.labels i, node.chars) := by
  rw [segment]
  simp only [List.isEmpty_iff]
  split
  · rw [List.nil_append, Text.splitOnce_eq_none_iff]
    exact fun hmem => (Node.mem_chars (h.op node hnode) hmem).2 rfl
  · rw [Text.splitOnce_eq_some_iff]
    exact ⟨by simp, fun hmem => (h.mem_labels hmem).1.2.2 rfl⟩

theorem labelsOf_segment (h : m.Legible) (hnode : node ∈ m.nodes) :
    labelsOf (m.segment node i) = m.labels i := by
  rw [labelsOf, splitOnce_segment h hnode]
  by_cases hnil : m.labels i = []
  · rw [if_pos hnil, hnil]
  · rw [if_neg hnil]
    exact Text.trim_eq_self_of_forall fun c hc => (h.mem_labels hc).1.1

theorem wordsOf_segment (h : m.Legible) (hnode : node ∈ m.nodes) :
    wordsOf (m.segment node i) = node.op.word.toList :: node.argWords := by
  rw [wordsOf, bodyOf, splitOnce_segment h hnode, ← Node.words_chars (h.op node hnode)]
  by_cases hnil : m.labels i = []
  · rw [if_pos hnil, segment, hnil]
    rfl
  · rw [if_neg hnil]

theorem count_colon_segment (h : m.Legible) (hnode : node ∈ m.nodes) :
    (m.segment node i).count ':' ≤ 1 := by
  have hlabels : (m.labels i).count ':' = 0 :=
    List.count_eq_zero_of_not_mem fun hmem => (h.mem_labels hmem).1.2.2 rfl
  have hchars : node.chars.count ':' = 0 :=
    List.count_eq_zero_of_not_mem fun hmem => (Node.mem_chars (h.op node hnode) hmem).2 rfl
  rw [segment, List.count_append, hchars]
  split
  · exact Nat.zero_le 1
  · rw [List.count_append, hlabels]
    decide

theorem not_mem_segment (h : m.Legible) (hnode : node ∈ m.nodes) : '|' ∉ m.segment node i := by
  have hchars : '|' ∉ node.chars := fun hmem => (Node.mem_chars (h.op node hnode) hmem).1 rfl
  have hlabels : '|' ∉ m.labels i := fun hmem => (h.mem_labels hmem).1.2.1 rfl
  rw [segment]
  split
  · simpa using hchars
  · simp [hlabels, hchars]

/-! ## The whole text -/

/-- The segments that are written for a module. -/
def segments (m : Module) : List (List Char) :=
  m.nodes.zipIdx.map fun (node, i) => m.segment node i

theorem getElem?_segments : m.segments[i]? = m.nodes[i]?.map fun node => m.segment node i := by
  rw [segments, List.getElem?_map, List.getElem?_zipIdx, Option.map_map]
  simp [Function.comp_def]

theorem mem_segments_iff {segment : List Char} :
    segment ∈ m.segments ↔ ∃ i node, m.nodes[i]? = some node ∧ m.segment node i = segment := by
  rw [List.mem_iff_getElem?]
  simp only [getElem?_segments, Option.map_eq_some_iff]

/-- What is written for a module is cut into its names and segments. -/
def pieces (m : Module) : Pieces where
  outputs := m.outputs.map (·.name)
  name := m.name.toList
  inputs := m.inputs.map (·.name)
  segments := m.segments

theorem Formed.size_pos (hm : m.Formed) (h : m.outputs ≠ []) : 0 < m.size := by
  obtain ⟨pin, hpin⟩ := List.exists_mem_of_ne_nil _ h
  obtain ⟨i, hi, -⟩ := hm.output pin hpin
  exact Nat.zero_lt_of_lt hi

theorem Formed.segments_ne_nil (hm : m.Formed) (h : m.outputs ≠ []) : m.segments ≠ [] := by
  have := hm.size_pos h
  rw [Ne, ← List.length_eq_zero_iff, segments, List.length_map, List.length_zipIdx]
  exact this.ne'

/-- The segments are cut where they were joined. -/
theorem splitAll_segments (hm : m.Formed) (h : m.Legible) :
    splitAll '|' (['|'].intercalate m.segments) = m.segments := by
  refine Text.splitAll_intercalate (fun segment hsegment => ?_)
    (hm.segments_ne_nil h.outputs_ne_nil)
  obtain ⟨i, node, hnode, rfl⟩ := mem_segments_iff.mp hsegment
  exact not_mem_segment h (List.mem_of_getElem? hnode)

theorem cutFrom_chars (hm : m.Formed) (h : m.Legible) : m.pieces.CutFrom (trim m.chars) := by
  have hnames : ∀ names : List Char, (∀ c ∈ names, isBlank c = false) →
      names.filter (!isBlank ·) = names := by
    intro names hnames
    rw [List.filter_eq_self]
    intro c hc
    rw [hnames c hc]
    rfl
  have hlast : m.chars.getLast? = some ']' := List.getLast?_concat
  have htrim : trim m.chars = m.chars := by
    refine Text.trim_eq_self (fun c hc => ?_) fun c hc => ?_
    · cases hc
      decide
    · rw [hlast] at hc
      cases hc
      decide
  rw [htrim]
  refine ⟨_, _, _, ['|'].intercalate m.segments, rfl, fun hmem => (h.output _ hmem).2 rfl,
    h.name_bracket, fun hmem => (h.input _ hmem).2 rfl, ?_⟩
  rw [hnames _ fun c hc => (h.output c hc).1.1, hnames _ fun c hc => (h.input c hc).1,
    splitAll_segments hm h, h.name]
  rfl

theorem flatMap_labelsOf (h : m.Legible) :
    m.segments.flatMap labelsOf = (List.range m.size).flatMap m.labels := by
  have hmap : m.segments.map labelsOf = (List.range m.size).map m.labels := by
    apply List.ext_getElem?
    intro i
    rw [List.getElem?_map, getElem?_segments, Option.map_map, List.getElem?_map]
    by_cases hi : i < m.size
    · have hnode := List.getElem?_eq_getElem hi
      rw [hnode, List.getElem?_range hi, Option.map_some, Option.map_some, Function.comp_apply,
        labelsOf_segment h (List.mem_of_getElem? hnode)]
    · rw [List.getElem?_eq_none (Nat.le_of_not_lt hi),
        List.getElem?_eq_none (by rwa [List.length_range, Nat.not_lt] at *)]
      rfl
  rw [List.flatMap_def, List.flatMap_def, hmap]

/-- No output labels two nodes. -/
theorem nodup_labels (h : m.Legible) : (m.segments.flatMap labelsOf).Nodup := by
  rw [flatMap_labelsOf h, List.nodup_flatMap]
  constructor
  · intro i _
    exact h.outputs.sublist (List.filter_sublist.map _)
  · refine List.nodup_range.pairwise_of_forall_ne fun i _ j _ hij c hi hj => hij ?_
    obtain ⟨pin, hpin, hidx, rfl⟩ := mem_labels_iff.mp hi
    obtain ⟨pin', hpin', hidx', hname⟩ := mem_labels_iff.mp hj
    obtain rfl := eq_of_name_eq h.outputs hpin' hpin hname
    exact Option.some.inj (hidx.symm.trans hidx')

theorem Formed.outputPlace_eq (hm : m.Formed) (h : m.Legible) {pin : Pin} (hpin : pin ∈ m.outputs) :
    outputPlace m.segments pin.name = pin.index := by
  refine findIdx?_eq_of_unique (fun i hidx => ?_) fun i segment hsegment hlabel => ?_
  · obtain ⟨j, hj, hidx'⟩ := hm.output pin hpin
    obtain rfl := Option.some.inj (hidx.symm.trans hidx')
    have hnode := List.getElem?_eq_getElem hj
    refine ⟨_, getElem?_segments.trans (congrArg _ hnode), ?_⟩
    rw [decide_eq_true_eq, labelsOf_segment h (List.mem_of_getElem? hnode), mem_labels_iff]
    exact ⟨pin, hpin, hidx, rfl⟩
  · rw [getElem?_segments] at hsegment
    obtain ⟨node, hnode, rfl⟩ := Option.map_eq_some_iff.mp hsegment
    rw [decide_eq_true_eq, labelsOf_segment h (List.mem_of_getElem? hnode),
      mem_labels_iff] at hlabel
    obtain ⟨pin', hpin', hidx, hname⟩ := hlabel
    rw [← eq_of_name_eq h.outputs hpin' hpin hname]
    exact hidx

theorem Op.source_eq_input_iff {op : Op} {c : Char} : op.source = .input c ↔ op = .input c := by
  cases op <;> simp [Op.source]

theorem inputPlace_source (c : Char) : inputPlace m.source.nodes c = inputPlace m.nodes c := by
  rw [inputPlace, inputPlace, source, List.findIdx?_map]
  refine congrArg (List.findIdx? · m.nodes) (funext fun node => ?_)
  exact decide_eq_decide.mpr Op.source_eq_input_iff

/-- No two nodes stand for one input. -/
theorem Formed.countP_input_le_one (hm : m.Formed) (hnodup : (m.inputs.map (·.name)).Nodup)
    (c : Char) : m.nodes.countP (·.op = .input c) ≤ 1 := by
  refine countP_le_one_of_unique fun i j node node' hi hj hop hop' => ?_
  have hi : m.opAt i = some (.input c) := opAt_eq_some_iff.mpr ⟨node, hi, of_decide_eq_true hop⟩
  have hj : m.opAt j = some (.input c) := opAt_eq_some_iff.mpr ⟨node', hj, of_decide_eq_true hop'⟩
  obtain ⟨pin, hpin, rfl, -⟩ := hm.exists_input hi
  have := (hm.index_of_opAt hnodup hpin hi).symm.trans (hm.index_of_opAt hnodup hpin hj)
  exact Option.some.inj this

/-- The words of a node's segment stand for its source. -/
theorem Formed.denotes_source (hm : m.Formed) (h : m.Legible) (hnode : m.nodes[i]? = some node)
    (hargs : ∀ arg ∈ node.args, arg < Decimal.wordLimit) :
    Denotes (m.inputs.map (·.name)) (wordsOf (m.segment node i)) node.source := by
  have hmem := List.mem_of_getElem? hnode
  have hop : m.opAt i = some node.op := opAt_eq_some_iff.mpr ⟨node, hnode, rfl⟩
  rw [wordsOf_segment h hmem]
  refine Node.denotes_source (h.op node hmem) (fun op hprim => ?_) (fun c hinput => ?_) hargs
  · rw [← hm.arity i op (hprim ▸ hop), argsOf_eq hnode]
  · rw [hinput] at hop
    obtain ⟨pin, hpin, rfl, -⟩ := hm.exists_input hop
    exact ⟨List.mem_map_of_mem hpin, argsOf_eq hnode ▸ hm.input_args i _ hop⟩

theorem readable_source (hm : m.Formed) (h : m.Legible)
    (hargs : ∀ node ∈ m.nodes, ∀ arg ∈ node.args, arg < Decimal.wordLimit) :
    Readable (m.inputs.map (·.name)) (m.outputs.map (·.name)) m.segments m.source.nodes where
  denotes := by
    refine forall₂_of_getElem? (by simp [source, segments]) fun i segment hsegment => ?_
    obtain ⟨node, hnode, rfl⟩ := Option.map_eq_some_iff.mp (getElem?_segments.symm.trans hsegment)
    refine ⟨node.source, by simp [source, hnode], ?_⟩
    exact hm.denotes_source h hnode (hargs node (List.mem_of_getElem? hnode))
  colon segment hsegment := by
    obtain ⟨i, node, hnode, rfl⟩ := mem_segments_iff.mp hsegment
    exact count_colon_segment h (List.mem_of_getElem? hnode)
  label segment hsegment c hc := by
    obtain ⟨i, node, hnode, rfl⟩ := mem_segments_iff.mp hsegment
    rw [labelsOf_segment h (List.mem_of_getElem? hnode)] at hc
    obtain ⟨pin, hpin, -, rfl⟩ := mem_labels_iff.mp hc
    exact List.mem_map_of_mem hpin
  label_once := nodup_labels h
  input_once c := by
    have hsource : m.source.nodes.countP (·.op = .input c) =
        m.nodes.countP (·.op = .input c) := by
      rw [source, List.countP_map]
      refine congrArg (List.countP · m.nodes) (funext fun node => ?_)
      exact decide_eq_decide.mpr Op.source_eq_input_iff
    exact hsource.trans_le (hm.countP_input_le_one h.inputs c)

theorem complete_source (hm : m.Formed) (h : m.Legible) :
    Complete (m.outputs.map (·.name)) m.segments m.source.nodes where
  outputs_ne_nil hnil := h.outputs_ne_nil (List.map_eq_nil_iff.mp hnil)
  nodup := h.outputs
  labelled c hc := by
    obtain ⟨pin, hpin, rfl⟩ := List.mem_map.mp hc
    obtain ⟨i, hi, hidx⟩ := hm.output pin hpin
    rw [flatMap_labelsOf h, List.mem_flatMap]
    exact ⟨i, List.mem_range.mpr hi, mem_labels_iff.mpr ⟨pin, hpin, hidx, rfl⟩⟩
  args node hnode arg harg := by
    obtain ⟨node, hnode', rfl⟩ := List.mem_map.mp hnode
    exact (hm.lt_of_mem_args hnode' harg).trans_eq (List.length_map _).symm

theorem reads_source (hm : m.Formed) (h : m.Legible)
    (hargs : ∀ node ∈ m.nodes, ∀ arg ∈ node.args, arg < Decimal.wordLimit) :
    m.pieces.Reads m.source where
  name := by
    show Operator.isSymbol (.ofList m.name.toList) = false
    rw [String.ofList_toList]
    exact h.name_symbol
  inputs := h.inputs
  readable := readable_source hm h hargs
  complete := complete_source hm h
  eq_described := by
    have hinputs : m.inputs = firstPins (m.inputs.map (·.name)) (inputPlace m.source.nodes) :=
      eq_firstPins h.inputs fun pin hpin => by
        rw [inputPlace_source, hm.inputPlace_eq h.inputs hpin]
    have houtputs : m.outputs = firstPins (m.outputs.map (·.name)) (outputPlace m.segments) :=
      eq_firstPins h.outputs fun pin hpin => hm.outputPlace_eq h hpin
    rw [described, pieces, ← hinputs, ← houtputs, String.ofList_toList]
    rfl

/-- The text of a module is read as what it says of the module. -/
theorem parseChars_chars (hm : m.Formed) (h : m.Legible)
    (hargs : ∀ node ∈ m.nodes, ∀ arg ∈ node.args, arg < Decimal.wordLimit) :
    parseChars m.chars = .ok m.source :=
  parseChars_eq_ok_iff.mpr ⟨m.pieces, cutFrom_chars hm h, reads_source hm h hargs⟩

end Module

/-! ## Modules that have been read -/

theorem mem_of_mem_labelsOf {segment : List Char} {c : Char} (h : c ∈ labelsOf segment) :
    c ∈ segment ∧ c ≠ ':' := by
  rw [labelsOf] at h
  split at h
  · next labels body hsplit =>
    obtain ⟨rfl, hcolon⟩ := Text.splitOnce_eq_some_iff.mp hsplit
    have hmem := Text.mem_of_mem_trim h
    exact ⟨List.mem_append_left _ hmem, fun heq => hcolon (heq ▸ hmem)⟩
  · cases h

theorem mem_of_mem_bodyOf {segment : List Char} {c : Char} (h : c ∈ bodyOf segment) :
    c ∈ segment := by
  rw [bodyOf] at h
  split at h
  · next labels body hsplit =>
    obtain ⟨rfl, -⟩ := Text.splitOnce_eq_some_iff.mp hsplit
    exact List.mem_append_right _ (List.mem_cons_of_mem _ h)
  · exact h

theorem colon_not_mem_bodyOf {segment : List Char} (h : segment.count ':' ≤ 1) :
    ':' ∉ bodyOf segment := by
  rw [bodyOf]
  split
  · next labels body hsplit =>
    obtain ⟨rfl, -⟩ := Text.splitOnce_eq_some_iff.mp hsplit
    rw [List.count_append, List.count_cons_self] at h
    rw [← List.count_eq_zero]
    omega
  · next hsplit => exact Text.splitOnce_eq_none_iff.mp hsplit

theorem ReadsArgs.lt_wordLimit {words : List (List Char)} {args : List Nat}
    (h : ReadsArgs words args) : ∀ arg ∈ args, arg < Decimal.wordLimit := by
  intro arg harg
  obtain ⟨word, -, hword⟩ := exists_mem_of_forall₂ h harg
  exact Decimal.lt_of_readCount hword

namespace Denotes

variable {inputs word : List Char} {words : List (List Char)} {node : Node}

theorem args_lt (h : Denotes inputs words node) : ∀ arg ∈ node.args, arg < Decimal.wordLimit := by
  cases h with
  | operator _ hargs => exact hargs.lt_wordLimit
  | symbol _ _ hargs => exact hargs.lt_wordLimit
  | _ => exact fun _ harg => by cases harg

/-- A node that has been read is all that text says of it. -/
theorem source_eq (h : Denotes inputs words node) : node.source = node := by
  cases h with
  | operator =>
    rw [Node.source, Node.unevaluated]
    split <;> rfl
  | _ => rfl

theorem word_mem (h : Denotes inputs words node) : node.op.word.toList ∈ words := by
  cases h with
  | constant =>
    have hword : (Op.prim .const).word.toList = ['='] := by decide
    exact List.mem_cons.mpr (.inl hword)
  | operator => exact List.mem_cons_self
  | input => exact List.mem_singleton.mpr (String.toList_singleton _)
  | symbol => exact List.mem_cons.mpr (.inl String.toList_ofList)

theorem legible (h : Denotes inputs words node)
    (hplain : ∀ c ∈ node.op.word.toList, Plain c) (hne : ∀ word ∈ words, word ≠ []) :
    node.op.Legible inputs := by
  refine ⟨hplain, ?_⟩
  cases h with
  | input hname => exact hname
  | @symbol word words args hword hinput =>
    refine ⟨?_, hword, fun c hc => String.toList_ofList.symm ▸ hinput c hc⟩
    rw [Ne, ← String.toList_eq_nil_iff, String.toList_ofList]
    exact hne word List.mem_cons_self
  | _ => trivial

end Denotes

namespace Pieces

variable {p : Pieces} {text : List Char} {m : Module}

theorem CutFrom.not_mem_segment (hcut : p.CutFrom text) :
    ∀ segment ∈ p.segments, '|' ∉ segment := by
  obtain ⟨-, -, -, body, -, -, -, -, rfl⟩ := hcut
  exact fun segment hsegment => Text.not_mem_of_mem_splitAll hsegment

theorem CutFrom.outputs (hcut : p.CutFrom text) : ∀ c ∈ p.outputs, isBlank c = false ∧ c ≠ ')' := by
  obtain ⟨outputs, -, -, -, -, hbracket, -, -, rfl⟩ := hcut
  intro c hc
  obtain ⟨hmem, hblank⟩ := List.mem_filter.mp hc
  exact ⟨by simpa using hblank, fun heq => hbracket (heq ▸ hmem)⟩

theorem CutFrom.inputs (hcut : p.CutFrom text) : ∀ c ∈ p.inputs, isBlank c = false ∧ c ≠ ')' := by
  obtain ⟨-, -, inputs, -, -, -, -, hbracket, rfl⟩ := hcut
  intro c hc
  obtain ⟨hmem, hblank⟩ := List.mem_filter.mp hc
  exact ⟨by simpa using hblank, fun heq => hbracket (heq ▸ hmem)⟩

theorem CutFrom.name (hcut : p.CutFrom text) : trim p.name = p.name ∧ '(' ∉ p.name := by
  obtain ⟨-, name, -, -, -, -, hbracket, -, rfl⟩ := hcut
  exact ⟨Text.trim_trim name, fun hmem => hbracket (Text.mem_of_mem_trim hmem)⟩

theorem Reads.source_eq (h : p.Reads m) : m.source = m := by
  have hnodes : m.nodes.map Node.source = m.nodes := by
    refine (List.map_congr_left fun node hnode => ?_).trans (List.map_id _)
    obtain ⟨segment, -, hden⟩ := exists_mem_of_forall₂ h.readable.denotes hnode
    exact hden.source_eq
  rw [Module.source, hnodes]

theorem Reads.args_lt (h : p.Reads m) :
    ∀ node ∈ m.nodes, ∀ arg ∈ node.args, arg < Decimal.wordLimit := by
  intro node hnode
  obtain ⟨segment, -, hden⟩ := exists_mem_of_forall₂ h.readable.denotes hnode
  exact hden.args_lt

/-- A module that has been read can be written to be read again. -/
theorem Reads.legible (h : p.Reads m) (hcut : p.CutFrom text) : m.Legible := by
  have hname : m.name.toList = p.name := by
    rw [h.eq_described]
    exact String.toList_ofList
  have houtputs := h.map_name_outputs
  have hinputs := h.map_name_inputs
  constructor
  case name => exact hname ▸ hcut.name.1
  case name_bracket => exact hname ▸ hcut.name.2
  case name_symbol => exact (congrArg (Operator.isSymbol ·.name) h.eq_described).trans h.name
  case inputs => exact hinputs ▸ h.inputs
  case outputs => exact houtputs ▸ h.complete.nodup
  case outputs_ne_nil =>
    intro hnil
    rw [hnil] at houtputs
    exact h.complete.outputs_ne_nil houtputs.symm
  case input => exact hinputs ▸ hcut.inputs
  case output =>
    rw [houtputs]
    intro c hmem
    obtain ⟨segment, hsegment, hlabel⟩ := List.mem_flatMap.mp (h.complete.labelled _ hmem)
    obtain ⟨hin, hcolon⟩ := mem_of_mem_labelsOf hlabel
    refine ⟨⟨(hcut.outputs _ hmem).1, fun hbar => ?_, hcolon⟩, (hcut.outputs _ hmem).2⟩
    exact hcut.not_mem_segment segment hsegment (hbar ▸ hin)
  case op =>
    intro node hnode
    obtain ⟨segment, hsegment, hden⟩ := exists_mem_of_forall₂ h.readable.denotes hnode
    rw [hinputs]
    refine hden.legible (fun c hc => ?_) fun word hword => Text.ne_nil_of_mem_words hword
    have hin := Text.mem_of_mem_words hden.word_mem hc
    refine ⟨Text.not_isBlank_of_mem_words hden.word_mem hc, fun hbar => ?_, fun hcolon => ?_⟩
    · exact hcut.not_mem_segment segment hsegment (hbar ▸ mem_of_mem_bodyOf hin)
    · exact colon_not_mem_bodyOf (h.readable.colon segment hsegment) (hcolon ▸ hin)

end Pieces

/-- A module that has been read is read again from its own text. -/
theorem Module.parse_text {text : String} {m : Module} (h : parse text = .ok m) :
    parse m.text = .ok m := by
  obtain ⟨p, hcut, hreads⟩ := parseChars_eq_ok_iff.mp h
  have hlegible := hreads.legible hcut
  rw [parse, Module.text, String.toList_ofList,
    parseChars_chars (formed_of_parseChars h).1 hlegible hreads.args_lt, hreads.source_eq]

/-- A module with two labels at one node, a constant, a word and an input that no node stands
for. -/
def Module.labelled : Module where
  name := "m"
  nodes := [.ofOp (.input 'x') [], .ofOp (.prim .add) [0, 3], .constant 1.5,
    .ofOp (.symbol "f") [2]]
  inputs := [⟨'x', some 0⟩, ⟨'y', none⟩]
  outputs := [⟨'a', some 1⟩, ⟨'b', some 1⟩]

theorem Module.parse_text_labelled :
    parse " (a b)m(xy)[x|ba: + 0 3|= 1.50|f 2 ]" = .ok labelled ∧
      parse labelled.text = .ok labelled :=
  have h : parse " (a b)m(xy)[x|ba: + 0 3|= 1.50|f 2 ]" = .ok labelled := rfl
  ⟨h, parse_text h⟩

end ImageCircuit
