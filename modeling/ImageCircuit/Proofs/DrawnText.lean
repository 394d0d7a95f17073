import ImageCircuit.Proofs.Evolution

/-!
# Which drawn circuits read back

A drawn circuit has one module, whose inputs have whatever names the settings choose. Nothing checks
that these can be written, so its text may be refused, or read as something else. It is read back as
the same text exactly if the names of the inputs can be written.

* `Text.exists_piece`: what holds no separator is found in some piece
* `Module.Legible.label_of_infix`: in a legible body, a colon ends labels
* `GeneratorSettings.MakesEntry`: what the settings make of the entry of a circuit
* `Circuit.writes_of_reads_back`: a text that reads back has been written in legible names
* `Circuit.draw_reads_back_iff`: which drawn circuits read back
-/

namespace ImageCircuit

open Text (splitAll isBlank)

/-! ## Cuts -/

namespace Text

variable {sep : Char} {w : List Char}

/-- What holds no separator is found in one of the pieces. -/
theorem exists_piece (hw : sep ∉ w) (s t : List Char) :
    ∃ u v, u ++ w ++ v ∈ splitAll sep (s ++ w ++ t) := by
  induction s with
  | nil =>
    by_cases ht : sep ∈ t
    · obtain ⟨before, after, rfl, hbefore⟩ := List.eq_append_cons_of_mem ht
      refine ⟨[], before, ?_⟩
      have hfirst : sep ∉ w ++ before := by simp [hw, hbefore]
      simp only [List.nil_append]
      rw [← List.append_assoc, splitAll_append, splitAll_of_not_mem hfirst]
      exact List.mem_append_left _ List.mem_cons_self
    · exact ⟨[], t, by simp [splitAll_of_not_mem (show sep ∉ w ++ t by simp [hw, ht])]⟩
  | cons c s ih =>
    obtain ⟨u, v, hmem⟩ := ih
    by_cases hc : c = sep
    · subst hc
      refine ⟨u, v, ?_⟩
      have hcut := splitAll_append c [] (s ++ w ++ t)
      rw [List.nil_append] at hcut
      rw [List.cons_append, List.cons_append, hcut]
      exact List.mem_append_right _ hmem
    · have hne : (c == sep) = false := beq_eq_false_iff_ne.mpr hc
      rw [List.cons_append, List.cons_append, splitAll, splitWhere, hne]
      cases hpieces : splitWhere (· == sep) (s ++ w ++ t) with
      | nil => exact absurd hpieces (splitWhere_ne_nil _ _)
      | cons piece pieces =>
        rw [splitAll, hpieces] at hmem
        rcases List.mem_cons.mp hmem with heq | hmem
        · exact ⟨c :: u, v, by simp [← heq]⟩
        · exact ⟨u, v, List.mem_cons_of_mem _ hmem⟩

/-- A piece stands in the joined text. -/
theorem exists_intercalate (sep : Char) {pieces : List (List Char)} {piece : List Char}
    (h : piece ∈ pieces) :
    ∃ s t, [sep].intercalate pieces = s ++ piece ++ t ∧ (t = [] ∨ t.head? = some sep) := by
  induction pieces with
  | nil => cases h
  | cons first rest ih =>
    by_cases hrest : rest = []
    · subst hrest
      obtain rfl := List.mem_singleton.mp h
      exact ⟨[], [], by simp, .inl rfl⟩
    · rw [List.intercalate_cons_of_ne_nil hrest]
      rcases List.mem_cons.mp h with rfl | h
      · exact ⟨[], sep :: [sep].intercalate rest, by simp, .inr rfl⟩
      · obtain ⟨s, t, heq, ht⟩ := ih h
        exact ⟨first ++ [sep] ++ s, t, by simp [heq], ht⟩

/-- Joined texts end with the last of them. -/
theorem exists_intercalate_concat (sep : List Char) (pieces : List (List Char)) (last : List Char) :
    ∃ s, sep.intercalate (pieces ++ [last]) = s ++ last := by
  induction pieces with
  | nil => exact ⟨[], by simp⟩
  | cons piece rest ih =>
    obtain ⟨s, hs⟩ := ih
    exact ⟨piece ++ sep ++ s, by simp [List.intercalate_cons_of_ne_nil, hs]⟩

/-- Joined texts start with the first of them. -/
theorem exists_intercalate_cons (sep first : List Char) (pieces : List (List Char)) :
    ∃ t, sep.intercalate (first :: pieces) = first ++ t := by
  by_cases hne : pieces = []
  · exact ⟨[], by simp [hne]⟩
  · exact ⟨sep ++ sep.intercalate pieces, by
      rw [List.intercalate_cons_of_ne_nil hne, List.append_assoc]⟩

/-- A bracket before a square one that is found in two texts around another character is found
behind it, if nothing follows a bracket in the first text. -/
theorem exists_bracket_behind {first rest u v : List Char} {d : Char} (hd : d ≠ ')' ∧ d ≠ '[')
    (hfirst : ∀ u v, first = u ++ ')' :: v → v = [])
    (heq : first ++ d :: rest = u ++ ')' :: '[' :: v) : ∃ a, rest = a ++ ')' :: '[' :: v := by
  rcases List.append_eq_append_iff.mp heq with ⟨a, -, hbehind⟩ | ⟨a, rfl, hbehind⟩
  · cases a with
    | nil => exact absurd (List.cons.inj hbehind).1 hd.1
    | cons e a => exact ⟨a, (List.cons.inj hbehind).2⟩
  · cases a with
    | nil => exact absurd (List.cons.inj hbehind).1.symm hd.1
    | cons e a =>
      obtain ⟨rfl, hrest⟩ := List.cons.inj hbehind
      obtain rfl := hfirst u a rfl
      exact absurd (List.cons.inj hrest).1.symm hd.2

/-- Joined pieces hold no bracket before a square one, if nothing follows a bracket in a piece. -/
theorem bracket_intercalate {pieces : List (List Char)}
    (h : ∀ piece ∈ pieces, ∀ u v, piece = u ++ ')' :: v → v = []) (u v : List Char) :
    ['|'].intercalate pieces ++ [']'] ≠ u ++ ')' :: '[' :: v := by
  have hnil : ∀ a, [] ≠ a ++ ')' :: '[' :: v := by simp
  intro heq
  induction pieces generalizing u with
  | nil =>
    have hcut : [] ++ ']' :: [] = u ++ ')' :: '[' :: v := heq
    obtain ⟨a, ha⟩ := exists_bracket_behind (by decide) (by simp) hcut
    exact hnil a ha
  | cons first rest ih =>
    obtain ⟨hfirst, hrest⟩ := List.forall_mem_cons.mp h
    by_cases hne : rest = []
    · subst hne
      rw [List.intercalate_singleton] at heq
      obtain ⟨a, ha⟩ := exists_bracket_behind (by decide) hfirst heq
      exact hnil a ha
    · rw [List.intercalate_cons_of_ne_nil hne, List.append_assoc, List.append_assoc] at heq
      obtain ⟨a, ha⟩ := exists_bracket_behind (by decide) hfirst heq
      exact ih hrest a ha

end Text

/-- Two cuts of a text, each at a round bracket and a square one, are at one place, or one is behind
the other. -/
theorem cut_cases {p p' r r' : List Char}
    (h : p ++ ')' :: '[' :: r = p' ++ ')' :: '[' :: r') :
    (p = p' ∧ r = r') ∨ (∃ x, r' = x ++ ')' :: '[' :: r) ∨ ∃ x, r = x ++ ')' :: '[' :: r' := by
  have hcut : ∀ {a r r' : List Char}, ')' :: '[' :: r = a ++ ')' :: '[' :: r' →
      a = [] ∧ r = r' ∨ ∃ x, r = x ++ ')' :: '[' :: r' := by
    intro a r r' heq
    match a with
    | [] => exact .inl ⟨rfl, by simpa using heq⟩
    | [c] => simp at heq
    | c :: d :: x =>
      simp only [List.cons_append, List.cons.injEq] at heq
      exact .inr ⟨x, heq.2.2⟩
  rcases List.append_eq_append_iff.mp h with ⟨a, rfl, heq⟩ | ⟨a, rfl, heq⟩
  · rcases hcut heq with ⟨rfl, rfl⟩ | hbehind
    · exact .inl ⟨(List.append_nil p).symm, rfl⟩
    · exact .inr (.inr hbehind)
  · rcases hcut heq with ⟨rfl, rfl⟩ | hbehind
    · exact .inl ⟨List.append_nil p', rfl⟩
    · exact .inr (.inl hbehind)

namespace Module

variable {m : Module}

/-! ## Bodies -/

/-- The text of a module between its square brackets. -/
def body (m : Module) : List Char :=
  ['|'].intercalate m.segments

/-- The text of a module before its square brackets, up to the last round one. -/
def heading (m : Module) : List Char :=
  '(' :: (m.outputs.map (·.name) ++ ')' :: (m.name.toList ++ '(' :: m.inputs.map (·.name)))

theorem chars_eq (m : Module) : m.chars = m.heading ++ ')' :: '[' :: (m.body ++ [']']) := by
  show '(' :: m.outputs.map (·.name) ++ ')' :: m.name.toList ++
    '(' :: m.inputs.map (·.name) ++ ')' :: '[' :: m.body ++ [']'] = _
  simp [heading]

/-- The names are where their brackets are. -/
theorem heading_append_inj {m' : Module} {x x' : List Char} (h : m.heading ++ x = m'.heading ++ x')
    (houtputs : ')' ∉ m.outputs.map (·.name)) (houtputs' : ')' ∉ m'.outputs.map (·.name))
    (hname : '(' ∉ m.name.toList) (hname' : '(' ∉ m'.name.toList) :
    m.outputs.map (·.name) = m'.outputs.map (·.name) ∧ m.name = m'.name ∧
      m.inputs.map (·.name) ++ x = m'.inputs.map (·.name) ++ x' := by
  simp only [heading, List.cons_append, List.append_assoc] at h
  obtain ⟨heq, hrest⟩ := Text.cut_unique (List.cons.inj h).2 houtputs houtputs'
  obtain ⟨heq', hinputs⟩ := Text.cut_unique hrest hname hname'
  exact ⟨heq, String.toList_inj.mp heq', hinputs⟩

/-- A segment up to its colon holds its labels. -/
theorem Legible.labels_of_segment (h : m.Legible) {node : Node} (hnode : node ∈ m.nodes) {i : Nat}
    {u v : List Char} (heq : m.segment node i = u ++ ':' :: v) : m.labels i = u := by
  have hcount := count_colon_segment (i := i) h hnode
  rw [heq, List.count_append, List.count_cons_self] at hcount
  have hu : ':' ∉ u := List.count_eq_zero.mp (by omega)
  have hsplit := Text.splitOnce_eq_some_iff.mpr ⟨heq, hu⟩
  rw [splitOnce_segment h hnode] at hsplit
  split at hsplit
  · cases hsplit
  · exact (Prod.mk.inj (Option.some.inj hsplit)).1

/-- In the body of a legible module, what stands before a colon and behind a bar is a label. -/
theorem Legible.label_of_infix (h : m.Legible) (hm : m.Formed) {s w t : List Char}
    (hbody : m.body = s ++ (w ++ [':']) ++ t) (hw : '|' ∉ w) {c : Char} (hc : c ∈ w) :
    c ∈ m.outputs.map (·.name) := by
  have hw' : '|' ∉ w ++ [':'] := by simp [hw]
  obtain ⟨u, v, hmem⟩ := Text.exists_piece hw' s t
  rw [← hbody, body, splitAll_segments hm h] at hmem
  obtain ⟨i, node, hnode, heq⟩ := mem_segments_iff.mp hmem
  have hlabels := h.labels_of_segment (List.mem_of_getElem? hnode) (u := u ++ w) (v := v)
    (by rw [heq]; simp)
  have hlabel : c ∈ m.labels i := by
    rw [hlabels]
    exact List.mem_append_right _ hc
  obtain ⟨pin, hpin, -, rfl⟩ := mem_labels_iff.mp hlabel
  exact List.mem_map_of_mem hpin

/-- What stands before the text of a node: its labels and a colon, if it has any. -/
def tag (m : Module) (i : Nat) : List Char :=
  if (m.labels i).isEmpty then [] else m.labels i ++ [':']

theorem segment_eq (node : Node) (i : Nat) : m.segment node i = m.tag i ++ node.chars :=
  rfl

theorem tag_of_eq_nil {i : Nat} (h : m.labels i = []) : m.tag i = [] :=
  if_pos (by simpa using h)

theorem tag_of_ne_nil {i : Nat} (h : m.labels i ≠ []) : m.tag i = m.labels i ++ [':'] :=
  if_neg (by simpa using h)

/-- The first node of a normal form is an output, since no node has it for an argument. -/
theorem Normal.zero_mem_outputIndices (hm : m.Normal) (h : m.outputs ≠ []) :
    0 ∈ m.outputIndices := by
  obtain ⟨o, ho, hreaches⟩ := hm.connected 0 (hm.size_pos h)
  rcases hreaches.cases_tail with rfl | ⟨j, -, hj⟩
  · exact ho
  · exact absurd (isSorted_iff.mp hm.sorted j 0 hj) (Nat.not_lt_zero j)

/-- The body of a normal form starts with labels. -/
theorem Normal.exists_body_eq (hm : m.Normal) (h : m.outputs ≠ []) :
    ∃ t, m.body = m.labels 0 ++ ':' :: t := by
  obtain ⟨pin, hpin, hidx⟩ := mem_outputIndices_iff.mp (hm.zero_mem_outputIndices h)
  have hlabels : m.labels 0 ≠ [] := List.ne_nil_of_mem (mem_labels_iff.mpr ⟨pin, hpin, hidx, rfl⟩)
  obtain ⟨node, nodes, hnodes⟩ :=
    List.exists_cons_of_ne_nil (List.ne_nil_of_length_pos (hm.size_pos h))
  obtain ⟨rest, hrest⟩ : ∃ rest, m.segments = m.segment node 0 :: rest := by
    rw [segments, hnodes]
    exact ⟨_, rfl⟩
  obtain ⟨t, ht⟩ := Text.exists_intercalate_cons ['|'] (m.segment node 0) rest
  refine ⟨node.chars ++ t, ?_⟩
  rw [body, hrest, ht, segment_eq, tag_of_ne_nil hlabels]
  simp

/-- The name of each output stands before a colon in the body. -/
theorem Formed.exists_body_eq (hm : m.Formed) {pin : Pin} (hpin : pin ∈ m.outputs) :
    ∃ s i t, pin.name ∈ m.labels i ∧ m.body = s ++ (m.labels i ++ [':']) ++ t := by
  obtain ⟨i, hi, hidx⟩ := hm.output pin hpin
  have hlabel : pin.name ∈ m.labels i := mem_labels_iff.mpr ⟨pin, hpin, hidx, rfl⟩
  have hsegment : m.segment m.nodes[i] i ∈ m.segments :=
    mem_segments_iff.mpr ⟨i, _, List.getElem?_eq_getElem hi, rfl⟩
  obtain ⟨s, t, heq, -⟩ := Text.exists_intercalate '|' hsegment
  refine ⟨s, i, m.nodes[i].chars ++ t, hlabel, ?_⟩
  rw [body, heq, segment_eq, tag_of_ne_nil (List.ne_nil_of_mem hlabel)]
  simp

end Module

theorem Node.chars_ne_nil {node : Node} {inputs : List Char} (h : node.op.Legible inputs) :
    node.chars ≠ [] := fun hnil =>
  h.word_ne_nil (List.append_eq_nil_iff.mp (node.chars_eq.symm.trans hnil)).1

/-- A character that is all that is written for a legible node is the symbol of no operator. -/
theorem Op.Legible.not_isSymbol {node : Node} {inputs : List Char} (h : node.op.Legible inputs)
    (harity : ∀ op, node.op = .prim op → node.args.length = op.arity) {c : Char}
    (hword : node.op.word.toList :: node.argWords = [[c]]) :
    Operator.isSymbol (.ofList [c]) = false := by
  obtain ⟨hword, hargs⟩ := List.cons.inj hword
  obtain ⟨op, args, value, computed⟩ := node
  cases op with
  | prim op =>
    unfold Node.argWords at hargs
    split at hargs
    · cases hargs
    · next hconst =>
      have hzero : op.arity = 0 := by
        rw [← harity op rfl, List.map_eq_nil_iff.mp hargs]
        rfl
      cases op <;> simp [Operator.arity, Node.isConstant] at hzero hconst
  | input d =>
    have hd : (String.singleton d).toList = [c] := hword
    rw [String.toList_singleton] at hd
    exact hd ▸ h.2
  | symbol name =>
    have hname : name.toList = [c] := hword
    rw [← hname, String.ofList_toList]
    exact h.2.2.1
  | call name index =>
    have hname : name.toList = [c] := hword
    rw [← hname, String.ofList_toList]
    exact h.2.2.1

/-! ## Drawn bodies -/

namespace Module.NormalDrawn

variable {inputs outputs : List Char} {count : Nat} {m : Module} {node : Node}

theorem chars_of_input (hm : m.NormalDrawn inputs outputs count) (hnode : node ∈ m.nodes) {c : Char}
    (hop : node.op = .input c) : node.chars = [c] := by
  obtain ⟨i, hi⟩ := List.mem_iff_getElem?.mp hnode
  have hargs := hm.input_args i c (opAt_eq_some_iff.mpr ⟨node, hi, hop⟩)
  rw [argsOf_eq hi] at hargs
  simp [Node.chars, Node.isConstant, hop, hargs, Op.word]

/-- The text of a drawn node is the name of an input, or holds no mark of program text. -/
theorem chars_cases (hm : m.NormalDrawn inputs outputs count) (hnode : node ∈ m.nodes) :
    (∃ c, node.op = .input c ∧ node.chars = [c]) ∨
      ∀ c ∈ node.chars, c ≠ '|' ∧ c ≠ ':' ∧ c ≠ ')' := by
  rcases hm.op_cases hnode with ⟨op, hop⟩ | ⟨c, -, hop⟩
  · refine .inr (Node.of_mem_chars (fun c hc => ?_) (by decide) fun c hplain hmark =>
      ⟨hplain.2.1, hplain.2.2, hmark.2⟩)
    rw [hop] at hc
    obtain ⟨hplain, -, hbracket⟩ := op.plain_symbol c hc
    exact ⟨hplain.2.1, hplain.2.2, hbracket⟩
  · exact .inl ⟨c, hop, hm.chars_of_input hnode hop⟩

/-- Drawn nodes are written without words. -/
theorem source_ne_symbol (hm : m.NormalDrawn inputs outputs count) (hnode : node ∈ m.nodes)
    (word : String) : node.op.source ≠ .symbol word := by
  rcases hm.op_cases hnode with ⟨op, hop⟩ | ⟨c, -, hop⟩
  · rw [hop]
    exact nofun
  · rw [hop]
    exact nofun

end Module.NormalDrawn

/-- A module that the settings make, as the entry of a circuit. -/
structure GeneratorSettings.MakesEntry (settings : GeneratorSettings) (m : Module) : Prop
    extends m.NormalDrawn settings.inputs.toList settings.outputs.toList
      (settings.inputs.toList.length + settings.numNodes) where
  unnamed : m.name = ""
  colors : m.outputs.map (·.name) = ['r', 'g', 'b']

namespace GeneratorSettings.MakesEntry

variable {settings : GeneratorSettings} {m : Module} {node : Node} {i : Nat} {c : Char}

theorem outputs_ne_nil (hm : settings.MakesEntry m) : m.outputs ≠ [] := fun hnil => by
  simpa [hnil] using hm.colors

theorem not_mem_outputs (hm : settings.MakesEntry m) : ')' ∉ m.outputs.map (·.name) := by
  rw [hm.colors]
  decide

theorem not_mem_name (hm : settings.MakesEntry m) : '(' ∉ m.name.toList := by
  simp [hm.unnamed]

theorem not_mem_labels (hm : settings.MakesEntry m) (hc : c ∉ ['r', 'g', 'b']) :
    c ∉ m.labels i := by
  intro hmem
  obtain ⟨pin, hpin, -, rfl⟩ := Module.mem_labels_iff.mp hmem
  exact hc (hm.colors ▸ List.mem_map_of_mem hpin)

theorem not_mem_tag (hm : settings.MakesEntry m) (hc : c ∉ ['r', 'g', 'b', ':']) :
    c ∉ m.tag i := by
  have hlabels : c ∉ m.labels i :=
    hm.not_mem_labels fun hmem => hc (List.mem_append_left [':'] hmem)
  have hcolon : c ≠ ':' := fun heq => hc (by simp [heq])
  by_cases hnil : m.labels i = []
  · simp [Module.tag_of_eq_nil hnil]
  · simp [Module.tag_of_ne_nil hnil, hlabels, hcolon]

/-- A segment that ends in a character has the one word that the character makes. -/
theorem wordsOf_tag (hm : settings.MakesEntry m) (hblank : isBlank c = false) (hcolon : c ≠ ':') :
    wordsOf (m.tag i ++ [c]) = [[c]] := by
  have hbody : bodyOf (m.tag i ++ [c]) = [c] := by
    by_cases hnil : m.labels i = []
    · have hcut : Text.splitOnce ':' [c] = none :=
        Text.splitOnce_eq_none_iff.mpr (by simpa using hcolon.symm)
      rw [Module.tag_of_eq_nil hnil, List.nil_append, bodyOf, hcut]
    · have hcut : Text.splitOnce ':' (m.labels i ++ ':' :: [c]) = some (m.labels i, [c]) :=
        Text.splitOnce_eq_some_iff.mpr ⟨rfl, hm.not_mem_labels (by decide)⟩
      rw [Module.tag_of_ne_nil hnil, List.append_assoc, List.singleton_append, bodyOf, hcut]
  have hwords := Text.words_spaced (w := [c]) (by simpa using hblank) (List.forall_mem_nil _)
  rw [wordsOf, hbody]
  exact hwords

/-- In a segment a bracket is the last character. -/
theorem bracket_last (hm : settings.MakesEntry m) (hnode : node ∈ m.nodes) {u v : List Char}
    (heq : m.segment node i = u ++ ')' :: v) : v = [] := by
  have htag : ')' ∉ m.tag i := hm.not_mem_tag (by decide)
  rw [Module.segment_eq] at heq
  rcases hm.chars_cases hnode with ⟨c, -, hchars⟩ | hchars
  · rw [hchars] at heq
    rcases List.append_eq_append_iff.mp heq with ⟨a, rfl, hc⟩ | ⟨a, hu, hv⟩
    · cases a with
      | nil => exact (List.cons.inj hc).2.symm
      | cons d a => simp at hc
    · cases a with
      | nil => exact (List.cons.inj hv).2
      | cons d a =>
        obtain ⟨rfl, -⟩ := List.cons.inj hv
        exact absurd (hu ▸ by simp) htag
  · have hmem : ')' ∈ m.tag i ++ node.chars := heq ▸ by simp
    rcases List.mem_append.mp hmem with hmem | hmem
    · exact absurd hmem htag
    · exact absurd rfl (hchars _ hmem).2.2

/-- A body holds no bracket before a square one. -/
theorem bracket_body (hm : settings.MakesEntry m) (u v : List Char) :
    m.body ++ [']'] ≠ u ++ ')' :: '[' :: v := by
  refine Text.bracket_intercalate (fun segment hsegment u v heq => ?_) u v
  obtain ⟨i, node, hnode, rfl⟩ := Module.mem_segments_iff.mp hsegment
  exact hm.bracket_last (List.mem_of_getElem? hnode) heq

/-! ## Reading a drawn text -/

variable {last : Module}

/-- A legible text at the end of a drawn one has its body and outputs. -/
theorem body_eq_of_chars_eq (hm : settings.MakesEntry m) (hlast : last.Formed)
    (hlegible : last.Legible) {s : List Char} (heq : m.chars = s ++ last.chars) :
    m.body = last.body ∧ m.heading = s ++ last.heading ∧
      ∀ c ∈ ['r', 'g', 'b'], c ∈ last.outputs.map (·.name) := by
  have hbar : ∀ i, '|' ∉ m.labels i := fun i => hm.not_mem_labels (by decide)
  rw [m.chars_eq, last.chars_eq, ← List.append_assoc] at heq
  obtain ⟨hheading, hbody⟩ : m.heading = s ++ last.heading ∧ m.body = last.body := by
    rcases cut_cases heq with ⟨hheading, hbody⟩ | ⟨x, hbehind⟩ | ⟨x, hbehind⟩
    · exact ⟨hheading, List.append_cancel_right hbody⟩
    · -- The last module would have a bracket among the labels of a node.
      rw [← List.cons_append, ← List.cons_append, ← List.append_assoc] at hbehind
      have hbody := List.append_cancel_right hbehind
      obtain ⟨t, ht⟩ := hm.toNormal.exists_body_eq hm.outputs_ne_nil
      have hbracket : ')' ∈ last.outputs.map (·.name) :=
        hlegible.label_of_infix hlast (s := x) (w := ')' :: '[' :: m.labels 0) (t := t)
          (by rw [hbody, ht]; simp) (by simp [hbar 0]) List.mem_cons_self
      exact absurd rfl (hlegible.output _ hbracket).2
    · exact absurd hbehind (hm.bracket_body x _)
  refine ⟨hbody, hheading, fun c hc => ?_⟩
  obtain ⟨pin, hpin, rfl⟩ := List.mem_map.mp (hm.colors ▸ hc)
  obtain ⟨s, i, t, hmem, hi⟩ := hm.toFormed.exists_body_eq hpin
  exact hlegible.label_of_infix hlast (hbody ▸ hi) (hbar i) hmem

/-- A circuit with a drawn text has one module. -/
theorem exists_modules_eq (hm : settings.MakesEntry m) {c : Circuit} (hc : c.Printable)
    (htext : c.text = .ofList m.chars) :
    ∃ last, c.modules = [last] ∧ last.chars = m.chars := by
  have hchars : m.chars = [';'].intercalate (c.modules.map (·.chars)) :=
    (String.ofList_inj.mp htext).symm
  have hne : c.modules ≠ [] := List.ne_nil_of_length_pos (Nat.zero_lt_of_lt hc.entryIndex_lt)
  obtain ⟨before, last, hmodules⟩ := (List.eq_nil_or_concat c.modules).resolve_left hne
  rw [List.concat_eq_append] at hmodules
  have hlast : last ∈ c.modules := hmodules ▸ by simp
  rw [hmodules, List.map_append, List.map_singleton] at hchars
  obtain ⟨s, hs⟩ := Text.exists_intercalate_concat [';'] (before.map (·.chars)) last.chars
  obtain ⟨-, -, hmem⟩ := hm.body_eq_of_chars_eq (hc.normal last hlast).toFormed
    (hc.separable last hlast).toLegible (hchars.trans hs)
  have hnameLast : last.name = "" := by
    by_contra hnamed
    obtain ⟨pin, hpin⟩ := List.length_eq_one_iff.mp (hc.single last hlast hnamed)
    rw [hpin] at hmem
    have hr := List.mem_singleton.mp (hmem 'r' (by decide))
    have hg := List.mem_singleton.mp (hmem 'g' (by decide))
    exact absurd (hr.trans hg.symm) (by decide)
  cases before with
  | nil =>
    exact ⟨last, hmodules, by simpa using hchars.symm⟩
  | cons first before =>
    -- The first module would be a second entry.
    have hfirst : first ∈ c.modules := hmodules ▸ by simp
    have hlegible := (hc.separable first hfirst).toLegible
    obtain ⟨t, ht⟩ := Text.exists_intercalate_cons [';'] first.chars
      ((before ++ [last]).map (·.chars))
    have heq : m.chars = first.chars ++ t := by
      rw [hchars, ← ht]
      simp
    rw [m.chars_eq, first.chars_eq, List.append_assoc] at heq
    obtain ⟨-, hnameFirst, -⟩ := Module.heading_append_inj heq hm.not_mem_outputs
      (fun hmem => (hlegible.output _ hmem).2 rfl) hm.not_mem_name hlegible.name_bracket
    have hnodup := hc.names ▸ hc.distinct
    rw [hmodules] at hnodup
    simp [hnameLast, hnameFirst.symm.trans hm.unnamed] at hnodup

/-- A legible module with the text of a drawn one has its inputs and body. -/
theorem inputs_eq_of_chars_eq (hm : settings.MakesEntry m) (hlast : last.Formed)
    (hlegible : last.Legible) (heq : last.chars = m.chars) :
    m.inputs.map (·.name) = last.inputs.map (·.name) ∧ m.body = last.body := by
  obtain ⟨hbody, hheading, -⟩ :=
    hm.body_eq_of_chars_eq hlast hlegible (s := []) heq.symm
  obtain ⟨-, -, hinputs⟩ := Module.heading_append_inj (congrArg (· ++ []) hheading)
    hm.not_mem_outputs (fun hmem => (hlegible.output _ hmem).2 rfl) hm.not_mem_name
    hlegible.name_bracket
  exact ⟨List.append_cancel_right hinputs, hbody⟩

/-- A bar as the name of an input would leave a segment empty. -/
theorem input_ne_bar (hm : settings.MakesEntry m) (hlast : last.Formed) (hlegible : last.Legible)
    (hbody : m.body = last.body) (hnode : node ∈ m.nodes) : node.op ≠ .input '|' := by
  intro hop
  obtain ⟨i, hi⟩ := List.mem_iff_getElem?.mp hnode
  obtain ⟨s, t, heq, ht⟩ :=
    Text.exists_intercalate '|' (Module.mem_segments_iff.mpr ⟨i, node, hi, rfl⟩)
  have hcut : m.body = (s ++ m.tag i) ++ '|' :: t := by
    rw [Module.body, heq, Module.segment_eq, hm.chars_of_input hnode hop]
    simp
  have hempty : [] ∈ splitAll '|' t := by
    cases t with
    | nil => exact List.mem_singleton_self []
    | cons d t =>
      obtain rfl : d = '|' := by simpa using ht
      exact (Text.splitAll_append '|' [] t).symm ▸ List.mem_cons_self
  have hmem : [] ∈ last.segments := by
    rw [← Module.splitAll_segments hlast hlegible, ← Module.body, ← hbody, hcut,
      Text.splitAll_append]
    exact List.mem_append_right _ hempty
  obtain ⟨j, node', hnode', hsegment⟩ := Module.mem_segments_iff.mp hmem
  have hchars := Node.chars_ne_nil (hlegible.op node' (List.mem_of_getElem? hnode'))
  exact hchars (List.append_eq_nil_iff.mp hsegment).2

theorem segments_eq (hm : settings.MakesEntry m) (hlast : last.Formed) (hlegible : last.Legible)
    (hbody : m.body = last.body) : m.segments = last.segments := by
  have hbar : ∀ segment ∈ m.segments, '|' ∉ segment := by
    intro segment hsegment hmem
    obtain ⟨i, node, hi, rfl⟩ := Module.mem_segments_iff.mp hsegment
    have hnode := List.mem_of_getElem? hi
    rw [Module.segment_eq] at hmem
    rcases List.mem_append.mp hmem with hmem | hmem
    · exact hm.not_mem_tag (by decide) hmem
    · rcases hm.chars_cases hnode with ⟨c, hop, hchars⟩ | hchars
      · rw [hchars] at hmem
        exact hm.input_ne_bar hlast hlegible hbody hnode (List.mem_singleton.mp hmem ▸ hop)
      · exact (hchars _ hmem).1 rfl
  have hne : m.segments ≠ [] := hm.segments_ne_nil hm.outputs_ne_nil
  rw [← Module.splitAll_segments hlast hlegible, ← Module.body, ← hbody, Module.body,
    Text.splitAll_intercalate hbar hne]

/-- The names of inputs that the nodes have can be read. -/
theorem input_of_body_eq (hm : settings.MakesEntry m) (hlast : last.Formed)
    (hlegible : last.Legible) (hbody : m.body = last.body) (hnode : node ∈ m.nodes)
    (hop : node.op = .input c) (hblank : isBlank c = false) :
    c ≠ ':' ∧ c ≠ '|' ∧ Operator.isSymbol (.ofList [c]) = false := by
  obtain ⟨i, hi⟩ := List.mem_iff_getElem?.mp hnode
  obtain ⟨node', hi', heq⟩ : ∃ node', last.nodes[i]? = some node' ∧
      last.segment node' i = m.tag i ++ [c] := by
    have hget := congrArg (·[i]?) (hm.segments_eq hlast hlegible hbody)
    simp only [Module.getElem?_segments, hi, Option.map_some] at hget
    obtain ⟨node', hi', heq⟩ := Option.map_eq_some_iff.mp hget.symm
    exact ⟨node', hi', by rw [heq, Module.segment_eq, hm.chars_of_input hnode hop]⟩
  have hnode' := List.mem_of_getElem? hi'
  have hlegible' := hlegible.op node' hnode'
  have hcolon : c ≠ ':' := by
    rintro rfl
    have hlabels := hlegible.labels_of_segment hnode' heq
    rw [Module.segment_eq] at heq
    by_cases hnil : last.labels i = []
    · rw [Module.tag_of_eq_nil hnil, ← hlabels, hnil, List.nil_append, List.nil_append] at heq
      exact (Node.mem_chars hlegible' (heq ▸ List.mem_singleton_self ':')).2 rfl
    · rw [Module.tag_of_ne_nil hnil, hlabels] at heq
      exact absurd (List.append_right_eq_self.mp heq) (Node.chars_ne_nil hlegible')
  refine ⟨hcolon, fun hbar => ?_, ?_⟩
  · exact hm.input_ne_bar hlast hlegible hbody hnode (hbar ▸ hop)
  · refine hlegible'.not_isSymbol (fun op hprim => ?_) ?_
    · rw [← hlast.arity i op (Module.opAt_eq_some_iff.mpr ⟨node', hi', hprim⟩),
        Module.argsOf_eq hi']
    · rw [← Module.wordsOf_segment hlegible hnode', heq, hm.wordsOf_tag hblank hcolon]

end GeneratorSettings.MakesEntry

/-- The standard settings but for two inputs of one name. -/
def GeneratorSettings.twins : GeneratorSettings :=
  { standard with inputs := "xx" }

namespace Circuit

variable {c : Circuit}

/-! ## Reading a drawn circuit -/

/-- Without words there is nothing to look up. -/
theorem resolveModule_eq {m : Module} {names : List String} {counts : List Nat}
    (hop : ∀ node ∈ m.nodes, ∀ word, node.op ≠ .symbol word) :
    resolveModule names counts m = .ok m := by
  refine bind_eq_ok_iff.mpr ⟨m.nodes, mapM_eq_ok_iff.mpr (List.forall₂_same.mpr ?_), rfl⟩
  intro node hnode
  have hop := hop node hnode
  obtain ⟨op, args, value, computed⟩ := node
  cases op with
  | symbol word => exact absurd rfl (hop word)
  | _ => rfl

/-- An entry without words and calls is put together to a circuit as it is. -/
theorem compose_single {m : Module} (hname : m.name = "")
    (hcolors : m.outputs.map (·.name) = ['r', 'g', 'b'])
    (hop : ∀ node ∈ m.nodes, ∀ word, node.op.source ≠ .symbol word) :
    compose [m] = .ok ⟨[m], [""], .standard⟩ := by
  have hresolve : resolveCalls [m] = .ok [m] := by
    refine mapM_eq_ok_iff.mpr (.cons (resolveModule_eq fun node hnode word hword => ?_) .nil)
    exact hop node hnode word (congrArg Op.source hword)
  have hcall : ∀ k j, j ∉ callGraph [m] k := by
    intro k j hj
    obtain ⟨m', hm', hmem⟩ := mem_callGraph_iff.mp hj
    obtain rfl := List.mem_singleton.mp (List.mem_of_getElem? hm')
    obtain ⟨i, word, hi⟩ := Module.mem_callees_iff.mp hmem
    obtain ⟨node, hnode, hword⟩ := Module.opAt_eq_some_iff.mp hi
    exact hop node (List.mem_of_getElem? hnode) word (congrArg Op.source hword)
  have hacyclic : Acyclic (callGraph [m]) := fun k hk => by
    obtain ⟨j, -, hj⟩ := Relation.TransGen.tail'_iff.mp hk
    exact hcall j k hj
  have hdistinct : ([m].map (·.name)).Nodup := List.nodup_singleton _
  refine compose_eq_ok_iff.mpr ⟨hdistinct, ?_, ?_, [m], hresolve,
    (checkCallGraph_eq_ok_iff fun k j hj => absurd hj (hcall k j)).mpr hacyclic,
    by simp [hname]⟩
  · exact (checkEntry_eq_ok_iff hdistinct).mpr ⟨m, List.mem_singleton_self m, hname, hcolors⟩
  · refine checkOutputs_eq_ok_iff.mpr fun m' hm' hnamed => ?_
    obtain rfl := List.mem_singleton.mp hm'
    exact absurd hname hnamed

/-- An entry that the settings make is put together to a circuit as it is. -/
theorem compose_drawn {settings : GeneratorSettings} {m : Module} (hm : settings.MakesEntry m) :
    compose [m] = .ok ⟨[m], [""], .standard⟩ :=
  compose_single hm.unnamed hm.colors fun _ hnode => hm.source_ne_symbol hnode

/-- A random circuit is one random module, as it has been drawn. -/
theorem exists_modules_of_draw {σ : Type} [Source σ] {settings : GeneratorSettings} {s s' : σ}
    (h : (Circuit.draw settings : TryDraw σ Circuit) s = (.ok c, s')) :
    ∃ m, settings.MakesEntry m ∧ c = ⟨[m], [""], .standard⟩ := by
  obtain ⟨m, hm, hname, hcompose⟩ := exists_of_draw h
  obtain ⟨hdistinct, hentry, -⟩ := compose_eq_ok_iff.mp hcompose
  obtain ⟨m', hm', -, houtputs⟩ := (checkEntry_eq_ok_iff hdistinct).mp hentry
  obtain rfl := List.mem_singleton.mp hm'
  have hentry : settings.MakesEntry m' := ⟨hm, hname, houtputs⟩
  exact ⟨m', hentry, Except.ok.inj (hcompose.symm.trans (compose_drawn hentry))⟩

/-- Settings for the three colors that nothing is wrong with draw a circuit. -/
theorem exists_draw {σ : Type} [Source σ] {settings : GeneratorSettings}
    (houtputs : settings.outputs = "rgb") (hrefuses : ∀ e, ¬ settings.Refuses e) (s : σ) :
    ∃ c s', (Circuit.draw settings : TryDraw σ Circuit) s = (.ok c, s') := by
  have hyields : TryDraw.Yields (Circuit.draw settings : TryDraw σ Circuit) settings.Refuses
      fun _ => True := by
    refine .bind (yields_drawModule settings entryName) fun m ⟨hm, hname⟩ => ?_
    have hcolors : m.outputs.map (·.name) = ['r', 'g', 'b'] := by
      rw [hm.outputs, houtputs]
      rfl
    rw [compose_drawn ⟨hm, hname, hcolors⟩]
    exact .of_ok trivial
  have hs := hyields s
  cases hdraw : (Circuit.draw settings : TryDraw σ Circuit) s with
  | mk result s' =>
    rw [ExceptT.run, hdraw] at hs
    cases result with
    | ok c => exact ⟨c, s', rfl⟩
    | error e => exact absurd hs (hrefuses e)

/-- If the text of a drawn entry is that of a circuit that has been read, its names can be read. -/
theorem writes_of_reads_back {settings : GeneratorSettings} {m : Module}
    (hm : settings.MakesEntry m) {text : String} (hread : read text = .ok c)
    (htext : c.text = .ofList m.chars) : settings.Writes m := by
  have hc := printable_of_read hread
  obtain ⟨last, hmodules, hchars⟩ := hm.exists_modules_eq hc htext
  have hmem : last ∈ c.modules := hmodules ▸ List.mem_singleton_self last
  have hseparable := hc.separable last hmem
  have hlast := (hc.normal last hmem).toFormed
  obtain ⟨hinputs, hbody⟩ := hm.inputs_eq_of_chars_eq hlast hseparable.toLegible hchars
  have hinputs : last.inputs.map (·.name) = settings.inputs.toList := hinputs.symm.trans hm.inputs
  have hinput := hinputs ▸ hseparable.input
  refine ⟨hinputs ▸ hseparable.inputs, fun c hc => ?_, fun node hnode c hop => ?_⟩
  · refine ⟨(hinput c hc).1, (hinput c hc).2, ?_⟩
    rintro rfl
    exact hseparable.inputs_end (hinputs ▸ hc)
  · have hblank : isBlank c = false := by
      rcases hm.op_cases hnode with ⟨op, hprim⟩ | ⟨c', hc', hop'⟩
      · cases hop.symm.trans hprim
      · obtain rfl := Op.input.inj (hop.symm.trans hop')
        exact (hinput c hc').1
    exact hm.input_of_body_eq hlast hseparable.toLegible hbody hnode hop hblank

/-- A drawn circuit with at most as many nodes as a word of 64 bits counts is read back from its
text as a circuit of the same text exactly if its names can be read: the inputs are distinct and
none is a blank, a closing bracket or a semicolon; and those that nodes stand for are neither colons
nor bars nor symbols of operators. -/
theorem draw_reads_back_iff {σ : Type} [Source σ] (settings : GeneratorSettings) (s s' : σ)
    (c : Circuit) (h : (Circuit.draw settings : TryDraw σ Circuit) s = (.ok c, s'))
    (hsize : c.entry.size ≤ Decimal.wordLimit) :
    (∃ c', read c.text = .ok c' ∧ c'.text = c.text) ↔
      settings.inputs.toList.Nodup ∧
      (∀ name ∈ settings.inputs.toList, isBlank name = false ∧ name ≠ ')' ∧ name ≠ ';') ∧
      ∀ node ∈ c.entry.nodes, ∀ name, node.op = .input name →
        name ≠ ':' ∧ name ≠ '|' ∧ Operator.isSymbol (.ofList [name]) = false := by
  obtain ⟨m, hm, rfl⟩ := exists_modules_of_draw h
  have htext : (⟨[m], [""], .standard⟩ : Circuit).text = .ofList m.chars := by
    simp [Circuit.text]
  have hentry : (⟨[m], [""], .standard⟩ : Circuit).entry = m := rfl
  rw [hentry] at hsize ⊢
  constructor
  · rintro ⟨c', hread, heq⟩
    obtain ⟨hnodup, hinput, hword⟩ := writes_of_reads_back hm hread (heq.trans htext)
    exact ⟨hnodup, hinput, hword⟩
  · rintro ⟨hnodup, hinput, hword⟩
    have hmakes : settings.Makes m := hm.toNormalDrawn
    have hseparable := hmakes.separable ⟨hnodup, hinput, hword⟩ hm.unnamed hm.colors
    have hargs : ∀ node ∈ m.nodes, ∀ arg ∈ node.args, arg < Decimal.wordLimit :=
      fun node hnode arg harg => Nat.lt_of_lt_of_le (hm.lt_of_mem_args hnode harg) hsize
    refine ⟨_, (wellFormed_of_draw h).read_text ?_ ?_, text_unevaluated _⟩
    · simpa using hseparable
    · simpa using hargs

/-- A circuit that is drawn by the standard settings. -/
theorem draw_reads_back_iff_standard :
    ∃ c s', (Circuit.draw .standard : TryDraw ChaCha Circuit) (.ofSeed 0) = (.ok c, s') ∧
      c.entry.size ≤ Decimal.wordLimit ∧
      ((∃ c', read c.text = .ok c' ∧ c'.text = c.text) ↔
        GeneratorSettings.standard.inputs.toList.Nodup ∧
        (∀ name ∈ GeneratorSettings.standard.inputs.toList,
          isBlank name = false ∧ name ≠ ')' ∧ name ≠ ';') ∧
        ∀ node ∈ c.entry.nodes, ∀ name, node.op = .input name →
          name ≠ ':' ∧ name ≠ '|' ∧ Operator.isSymbol (.ofList [name]) = false) := by
  have hrefuses : ∀ e, ¬ GeneratorSettings.standard.Refuses e := by
    rintro e (⟨-, hzero⟩ | ⟨hwiring, -⟩)
    · exact absurd hzero (by decide)
    · cases hwiring
  obtain ⟨c, s', hdraw⟩ := exists_draw rfl hrefuses (ChaCha.ofSeed 0)
  have hsize : c.entry.size ≤ Decimal.wordLimit := by
    obtain ⟨m, hm, rfl⟩ := exists_modules_of_draw hdraw
    have hcount : m.size ≤ 9 := hm.count
    exact Nat.le_trans hcount (by decide)
  exact ⟨c, s', hdraw, hsize, draw_reads_back_iff _ _ _ c hdraw hsize⟩

/-- A run accepts settings that draw a circuit whose text is not read back. -/
theorem draw_twins_not_read_back :
    ({ Settings.standard with generator := .twins } : Settings).validate = .ok () ∧
      ∃ c s', (Circuit.draw .twins : TryDraw ChaCha Circuit) (.ofSeed 0) = (.ok c, s') ∧
        ¬ ∃ c', read c.text = .ok c' ∧ c'.text = c.text := by
  have hrefuses : ∀ e, ¬ GeneratorSettings.twins.Refuses e := by
    rintro e (⟨-, hzero⟩ | ⟨hwiring, -⟩)
    · exact absurd hzero (by decide)
    · cases hwiring
  obtain ⟨c, s', hdraw⟩ := exists_draw rfl hrefuses (ChaCha.ofSeed 0)
  refine ⟨rfl, c, s', hdraw, ?_⟩
  rintro ⟨c', hread, heq⟩
  obtain ⟨m, hm, rfl⟩ := exists_modules_of_draw hdraw
  have hwrites := writes_of_reads_back hm hread (heq.trans (by simp [Circuit.text]))
  exact absurd hwrites.nodup (by decide)

end Circuit

end ImageCircuit
