import ImageCircuit.Proofs.Grammar
import ImageCircuit.Proofs.Parse

/-!
# What the reader of a module accepts

Read from left to right, segments give the module that the grammar names for them: after each of
them the nodes are those that the words denote, and a pin is bound to the first segment that places
it. So a text is read exactly if it has the grammar.

* `Module.foldlM_addSegment_eq_ok_iff`: what the reader has made of the segments it has read
* `Module.parseChars_eq_ok_iff`: what it makes of a text
* `Module.parse_ok_iff_grammatical`: which texts it accepts, and what they stand for
-/

namespace ImageCircuit

open Text (trim splitOnce splitAll words isBlank)

/-! ## Labels -/

theorem splitLabels_eq_ok_iff {i : Nat} {segment : List Char} {r : List Char × List Char} :
    splitLabels i segment = .ok r ↔
      segment.count ':' ≤ 1 ∧ r = (labelsOf segment, bodyOf segment) := by
  rw [splitLabels, labelsOf, bodyOf]
  cases hsplit : splitOnce ':' segment with
  | none =>
    have hnot : ':' ∉ segment := Text.splitOnce_eq_none_iff.mp hsplit
    rw [Text.splitAll_of_not_mem hnot, List.count_eq_zero_of_not_mem hnot]
    simp [eq_comm]
  | some cut =>
    obtain ⟨before, after⟩ := cut
    obtain ⟨rfl, hbefore⟩ := Text.splitOnce_eq_some_iff.mp hsplit
    rw [Text.splitAll_append, Text.splitAll_of_not_mem hbefore, List.count_append,
      List.count_cons_self, List.count_eq_zero_of_not_mem hbefore]
    by_cases hafter : ':' ∈ after
    · obtain ⟨first, rest, rfl, hfirst⟩ := List.eq_append_cons_of_mem hafter
      have hpieces : ∃ x y rest', Text.splitAll ':' (first ++ ':' :: rest) = x :: y :: rest' := by
        rw [Text.splitAll_append, Text.splitAll_of_not_mem hfirst]
        obtain ⟨y, rest', hy⟩ := List.exists_cons_of_ne_nil (Text.splitAll_ne_nil ':' rest)
        exact ⟨first, y, rest', by rw [hy]; rfl⟩
      obtain ⟨x, y, rest', hpieces⟩ := hpieces
      rw [hpieces]
      have : 0 < (first ++ ':' :: rest).count ':' := List.count_pos_iff.mpr hafter
      exact iff_of_false nofun fun h => by omega
    · rw [Text.splitAll_of_not_mem hafter, List.count_eq_zero_of_not_mem hafter]
      simp [eq_comm]

namespace Module

variable {m m' : Module} {inputs outputs : List Char} {place : Char → Option Nat} {i : Nat}
  {segments : List (List Char)} {nodes : List Node} {segment : List Char} {node : Node}

theorem bindOutput_eq_ok_iff {c : Char} (h : m.outputs = firstPins outputs place) :
    bindOutput i m c = .ok m' ↔
      c ∈ outputs ∧ place c = none ∧
        m' = { m with outputs := firstPins outputs (Function.update place c (some i)) } := by
  rw [bindOutput, outputPosition?, h, pinPosition?_firstPins]
  cases hk : outputs.idxOf? c with
  | none => exact iff_of_false nofun fun h => idxOf?_eq_none_iff.mp hk h.1
  | some k =>
    have hmem : c ∈ outputs := exists_idxOf?_iff.mp ⟨k, hk⟩
    dsimp only
    rw [isBound_firstPins hk, bindPin_firstPins hk]
    cases place c <;> simp [hmem, eq_comm]

/-- Labels bind outputs that are free and different from each other. -/
theorem foldlM_bindOutput_eq_ok_iff {labels : List Char} (h : m.outputs = firstPins outputs place) :
    labels.foldlM (bindOutput i) m = .ok m' ↔
      (∀ c ∈ labels, c ∈ outputs ∧ place c = none) ∧ labels.Nodup ∧
        m' = { m with outputs := firstPins outputs fun c =>
          if c ∈ labels then some i else place c } := by
  induction labels generalizing m place with
  | nil =>
    simp [pure, Except.pure, ← h, eq_comm]
  | cons c rest ih =>
    have hupdate : ∀ d, Function.update place c (some i) d = none ↔ d ≠ c ∧ place d = none := by
      intro d
      by_cases hdc : d = c <;> simp [hdc]
    have hplace : (fun d => if d ∈ rest then some i else Function.update place c (some i) d) =
        fun d => if d ∈ c :: rest then some i else place d := by
      funext d
      by_cases hdc : d = c <;> simp [hdc]
    rw [List.foldlM_cons, bind_eq_ok_iff, List.forall_mem_cons, List.nodup_cons, ← hplace]
    constructor
    · rintro ⟨m₁, hbind, hrest⟩
      obtain ⟨hmem, hfree, rfl⟩ := (bindOutput_eq_ok_iff h).mp hbind
      obtain ⟨hlabels, hnodup, rfl⟩ := (ih rfl).mp hrest
      have hlabels' := fun d hd => (hupdate d).mp (hlabels d hd).2
      exact ⟨⟨⟨hmem, hfree⟩, fun d hd => ⟨(hlabels d hd).1, (hlabels' d hd).2⟩⟩,
        ⟨fun hc => (hlabels' c hc).1 rfl, hnodup⟩, rfl⟩
    · rintro ⟨⟨⟨hmem, hfree⟩, hlabels⟩, ⟨hc, hnodup⟩, rfl⟩
      refine ⟨_, (bindOutput_eq_ok_iff h).mpr ⟨hmem, hfree, rfl⟩, (ih rfl).mpr ⟨?_, hnodup, rfl⟩⟩
      intro d hd
      exact ⟨(hlabels d hd).1, (hupdate d).mpr ⟨fun hdc => hc (hdc ▸ hd), (hlabels d hd).2⟩⟩

/-! ## Segments -/

/-- The first segment that an output labels. -/
def outputPlace (segments : List (List Char)) (c : Char) : Option Nat :=
  segments.findIdx? (c ∈ labelsOf ·)

/-- The first node that stands for an input. -/
def inputPlace (nodes : List Node) (c : Char) : Option Nat :=
  nodes.findIdx? (·.op = .input c)

theorem outputPlace_eq_none_iff {c : Char} :
    outputPlace segments c = none ↔ c ∉ segments.flatMap labelsOf := by
  rw [outputPlace, List.findIdx?_eq_none_iff, List.mem_flatMap]
  simp

theorem inputPlace_eq_none_iff {c : Char} :
    inputPlace nodes c = none ↔ ∀ node ∈ nodes, node.op ≠ .input c := by
  rw [inputPlace, List.findIdx?_eq_none_iff]
  simp

/-- The place of what is found for the first time at the end of a list. -/
theorem findIdx?_concat {α : Type} {p : α → Bool} {xs : List α} {x : α}
    (h : p x = true → xs.findIdx? p = none) :
    (xs ++ [x]).findIdx? p = if p x = true then some xs.length else xs.findIdx? p := by
  rw [List.findIdx?_append, List.findIdx?_singleton]
  split
  · next hx => simp [h hx]
  · simp

/-- The module that has been read from some segments. -/
def described (name : String) (inputs outputs : List Char) (segments : List (List Char))
    (nodes : List Node) : Module where
  name
  nodes
  inputs := firstPins inputs (inputPlace nodes)
  outputs := firstPins outputs (outputPlace segments)

/-- What a segment and its node must be to follow others. -/
structure Follows (inputs outputs : List Char) (segments : List (List Char)) (nodes : List Node)
    (segment : List Char) (node : Node) : Prop where
  denotes : Denotes inputs (wordsOf segment) node
  colon : segment.count ':' ≤ 1
  label : ∀ c ∈ labelsOf segment, c ∈ outputs
  nodup : (labelsOf segment).Nodup
  label_new : ∀ c ∈ labelsOf segment, c ∉ segments.flatMap labelsOf
  input_new : ∀ c, node.op = .input c → ∀ old ∈ nodes, old.op ≠ .input c

theorem outputPlace_concat (h : ∀ c ∈ labelsOf segment, outputPlace segments c = none) :
    outputPlace (segments ++ [segment]) = fun c =>
      if c ∈ labelsOf segment then some segments.length else outputPlace segments c := by
  funext c
  rw [outputPlace, findIdx?_concat fun hc => h c (of_decide_eq_true hc)]
  simp only [decide_eq_true_eq]
  rfl

theorem inputPlace_concat (h : ∀ c, node.op = .input c → inputPlace nodes c = none) :
    inputPlace (nodes ++ [node]) = placeInput (inputPlace nodes) nodes.length node.op := by
  funext c
  rw [inputPlace, findIdx?_concat fun hc => h c (of_decide_eq_true hc)]
  simp only [decide_eq_true_eq]
  rfl

theorem described_concat {name : String} (hlen : segments.length = nodes.length)
    (houtput : ∀ c ∈ labelsOf segment, outputPlace segments c = none)
    (hinput : ∀ c, node.op = .input c → inputPlace nodes c = none) :
    described name inputs outputs (segments ++ [segment]) (nodes ++ [node]) =
      ⟨name, nodes ++ [node],
        firstPins inputs (placeInput (inputPlace nodes) nodes.length node.op),
        firstPins outputs fun c =>
          if c ∈ labelsOf segment then some nodes.length else outputPlace segments c⟩ := by
  rw [described, inputPlace_concat hinput, outputPlace_concat houtput, hlen]

/-- The steps of reading a segment. -/
theorem addSegment_eq_ok_iff :
    m.addSegment segment = .ok m' ↔
      segment.count ':' ≤ 1 ∧ ∃ m₁, (labelsOf segment).foldlM (bindOutput m.size) m = .ok m₁ ∧
        ∃ m₂ node, m₁.readNode m.size (wordsOf segment) = .ok (m₂, node) ∧
          { m₂ with nodes := m₂.nodes ++ [node] } = m' := by
  rw [addSegment, bind_eq_ok_iff]
  constructor
  · rintro ⟨r, hr, h⟩
    obtain ⟨hcolon, rfl⟩ := splitLabels_eq_ok_iff.mp hr
    obtain ⟨m₁, hfold, h⟩ := exists_of_bind_eq_ok h
    obtain ⟨⟨m₂, node⟩, hread, h⟩ := exists_of_bind_eq_ok h
    exact ⟨hcolon, m₁, hfold, m₂, node, hread, Except.ok.inj h⟩
  · rintro ⟨hcolon, m₁, hfold, m₂, node, hread, rfl⟩
    refine ⟨_, splitLabels_eq_ok_iff.mpr ⟨hcolon, rfl⟩, ?_⟩
    exact bind_eq_ok_iff.mpr ⟨m₁, hfold, bind_eq_ok_iff.mpr ⟨_, hread, rfl⟩⟩

/-- A segment is read after others exactly if it follows them. -/
theorem addSegment_described_eq_ok_iff {name : String} (hlen : segments.length = nodes.length) :
    (described name inputs outputs segments nodes).addSegment segment = .ok m' ↔
      ∃ node, Follows inputs outputs segments nodes segment node ∧
        m' = described name inputs outputs (segments ++ [segment]) (nodes ++ [node]) := by
  rw [addSegment_eq_ok_iff]
  constructor
  · rintro ⟨hcolon, m₁, hfold, m₂, node, hread, rfl⟩
    obtain ⟨hlabels, hnodup, rfl⟩ := (foldlM_bindOutput_eq_ok_iff rfl).mp hfold
    obtain ⟨hden, hfree, rfl⟩ := (readNode_eq_ok_iff rfl).mp hread
    exact ⟨node, ⟨hden, hcolon, fun c hc => (hlabels c hc).1, hnodup,
      fun c hc => outputPlace_eq_none_iff.mp (hlabels c hc).2,
      fun c hc => inputPlace_eq_none_iff.mp (hfree c hc)⟩,
      (described_concat hlen (fun c hc => (hlabels c hc).2) hfree).symm⟩
  · rintro ⟨node, h, rfl⟩
    have hlabels : ∀ c ∈ labelsOf segment, outputPlace segments c = none :=
      fun c hc => outputPlace_eq_none_iff.mpr (h.label_new c hc)
    have hfree : ∀ c, node.op = .input c → inputPlace nodes c = none :=
      fun c hc => inputPlace_eq_none_iff.mpr (h.input_new c hc)
    exact ⟨h.colon, _, (foldlM_bindOutput_eq_ok_iff rfl).mpr
      ⟨fun c hc => ⟨h.label c hc, hlabels c hc⟩, h.nodup, rfl⟩,
      _, node, (readNode_eq_ok_iff rfl).mpr ⟨h.denotes, hfree, rfl⟩,
      (described_concat hlen hlabels hfree).symm⟩

/-- Segments that can be read one by one, and the nodes that they denote. -/
structure Readable (inputs outputs : List Char) (segments : List (List Char))
    (nodes : List Node) : Prop where
  denotes : List.Forall₂ (fun segment node => Denotes inputs (wordsOf segment) node) segments nodes
  colon : ∀ segment ∈ segments, segment.count ':' ≤ 1
  label : ∀ segment ∈ segments, ∀ c ∈ labelsOf segment, c ∈ outputs
  label_once : (segments.flatMap labelsOf).Nodup
  input_once : ∀ c, nodes.countP (·.op = .input c) ≤ 1

theorem readable_nil : Readable inputs outputs [] [] where
  denotes := .nil
  colon _ h := by cases h
  label _ h := by cases h
  label_once := .nil
  input_once _ := Nat.zero_le 1

theorem readable_concat_iff {nodes' : List Node} :
    Readable inputs outputs (segments ++ [segment]) nodes' ↔
      ∃ nodes, Readable inputs outputs segments nodes ∧
        ∃ node, Follows inputs outputs segments nodes segment node ∧ nodes' = nodes ++ [node] := by
  have hlabels : (segments ++ [segment]).flatMap labelsOf =
      segments.flatMap labelsOf ++ labelsOf segment := by simp
  constructor
  · intro h
    obtain ⟨nodes, node, hnodes, hnode, rfl⟩ := forall₂_concat_left_iff.mp h.denotes
    obtain ⟨hcolon, hcolon'⟩ := List.forall_mem_append.mp h.colon
    obtain ⟨hlabel, hlabel'⟩ := List.forall_mem_append.mp h.label
    obtain ⟨honce, hnodup, hnew⟩ := List.nodup_append.mp (hlabels ▸ h.label_once)
    have hcount : ∀ c, nodes.countP (·.op = .input c) +
        [node].countP (·.op = .input c) ≤ 1 := fun c => List.countP_append ▸ h.input_once c
    refine ⟨nodes, ⟨hnodes, hcolon, hlabel, honce, fun c => ?_⟩, node,
      ⟨hnode, hcolon' _ List.mem_cons_self, hlabel' _ List.mem_cons_self, hnodup, ?_, ?_⟩, rfl⟩
    · exact Nat.le_trans (Nat.le_add_right _ _) (hcount c)
    · exact fun c hc hc' => hnew c hc' c hc rfl
    · intro c hc old hold hop
      have hnode : 0 < [node].countP (·.op = .input c) :=
        List.countP_pos_iff.mpr ⟨node, List.mem_cons_self, decide_eq_true hc⟩
      have hnodes : 0 < nodes.countP (·.op = .input c) :=
        List.countP_pos_iff.mpr ⟨old, hold, decide_eq_true hop⟩
      have := hcount c
      omega
  · rintro ⟨nodes, h, node, hfollows, rfl⟩
    refine ⟨forall₂_concat_left_iff.mpr ⟨nodes, node, h.denotes, hfollows.denotes, rfl⟩,
      List.forall_mem_append.mpr ⟨h.colon, by simpa using hfollows.colon⟩,
      List.forall_mem_append.mpr ⟨h.label, by simpa using hfollows.label⟩, ?_, fun c => ?_⟩
    · rw [hlabels]
      exact List.nodup_append.mpr ⟨h.label_once, hfollows.nodup,
        fun c hc d hd hcd => hfollows.label_new d hd (hcd ▸ hc)⟩
    · rw [List.countP_append, List.countP_singleton]
      split
      · next hc =>
        have hzero : nodes.countP (·.op = .input c) = 0 :=
          List.countP_eq_zero.mpr fun old hold hop =>
            hfollows.input_new c (of_decide_eq_true hc) old hold (of_decide_eq_true hop)
        rw [hzero]
      · exact h.input_once c

/-- The reader accepts segments exactly if they are readable. -/
theorem foldlM_addSegment_eq_ok_iff {name : String} :
    segments.foldlM addSegment (described name inputs outputs [] []) = .ok m ↔
      ∃ nodes, Readable inputs outputs segments nodes ∧
        m = described name inputs outputs segments nodes := by
  -- The last segment is read after all the others.
  induction segments using List.reverseRecOn generalizing m with
  | nil =>
    constructor
    · intro h
      exact ⟨[], readable_nil, (Except.ok.inj h).symm⟩
    · rintro ⟨nodes, h, rfl⟩
      cases h.denotes
      rfl
  | append_singleton segments segment ih =>
    have hstep : (segments ++ [segment]).foldlM addSegment (described name inputs outputs [] []) =
        segments.foldlM addSegment (described name inputs outputs [] []) >>=
          (addSegment · segment) := by
      simp [List.foldlM_append]
    rw [hstep, bind_eq_ok_iff]
    constructor
    · rintro ⟨m₁, hm₁, hadd⟩
      obtain ⟨nodes, h, rfl⟩ := ih.mp hm₁
      obtain ⟨node, hfollows, rfl⟩ :=
        (addSegment_described_eq_ok_iff h.denotes.length_eq).mp hadd
      exact ⟨_, readable_concat_iff.mpr ⟨nodes, h, node, hfollows, rfl⟩, rfl⟩
    · rintro ⟨nodes', h', rfl⟩
      obtain ⟨nodes, h, node, hfollows, rfl⟩ := readable_concat_iff.mp h'
      exact ⟨_, ih.mpr ⟨nodes, h, rfl⟩,
        (addSegment_described_eq_ok_iff h.denotes.length_eq).mpr ⟨node, hfollows, rfl⟩⟩

/-! ## The whole text -/

/-- What can be seen only of all segments together. -/
structure Complete (outputs : List Char) (segments : List (List Char)) (nodes : List Node) :
    Prop where
  outputs_ne_nil : outputs ≠ []
  nodup : outputs.Nodup
  labelled : ∀ c ∈ outputs, c ∈ segments.flatMap labelsOf
  args : ∀ node ∈ nodes, ∀ arg ∈ node.args, arg < nodes.length

theorem checkComplete_eq_ok_iff :
    m.checkComplete = .ok () ↔
      m.outputs ≠ [] ∧ (∀ pin ∈ m.outputs, pin.index ≠ none) ∧
        ∀ node ∈ m.nodes, ∀ arg ∈ node.args, arg < m.size := by
  have hbound : m.outputs.find? (·.index.isNone) = none ↔ ∀ pin ∈ m.outputs, pin.index ≠ none := by
    simp [List.find?_eq_none]
  have hargs : m.allArgs.find? (m.size ≤ ·) = none ↔
      ∀ node ∈ m.nodes, ∀ arg ∈ node.args, arg < m.size := by
    simp [List.find?_eq_none, allArgs]
  rw [← hbound, ← hargs, checkComplete]
  cases m.outputs with
  | nil => simp
  | cons pin pins =>
    rw [if_neg (by simp)]
    split
    · next h => simp [h]
    · next h =>
      rw [h]
      split <;> simp_all

theorem checkComplete_described_iff {name : String} :
    (described name inputs outputs segments nodes).checkComplete = .ok () ↔
      Complete outputs segments nodes := by
  have hne : firstPins outputs (outputPlace segments) ≠ [] ↔ outputs ≠ [] := by
    rw [Ne, ← List.map_eq_nil_iff (f := (·.name)), map_name_firstPins]
  rw [checkComplete_eq_ok_iff]
  show firstPins outputs (outputPlace segments) ≠ [] ∧
    (∀ pin ∈ firstPins outputs (outputPlace segments), pin.index ≠ none) ∧ _ ↔ _
  rw [hne, firstPins_bound_iff]
  simp only [Ne, outputPlace_eq_none_iff, not_not]
  constructor
  · rintro ⟨houtputs, ⟨hnodup, hlabelled⟩, hargs⟩
    exact ⟨houtputs, hnodup, hlabelled, hargs⟩
  · rintro ⟨houtputs, hnodup, hlabelled, hargs⟩
    exact ⟨houtputs, ⟨hnodup, hlabelled⟩, hargs⟩

theorem ofPins_eq_described (name : String) (inputs outputs : List Char) :
    ofPins name (.ofList inputs) (.ofList outputs) = described name inputs outputs [] [] := by
  have hpins : ∀ names : List Char,
      (String.ofList names).toList.map Pin.unbound = firstPins names fun _ => none := by
    intro names
    apply List.ext_getElem?
    intro k
    rw [String.toList_ofList, List.getElem?_map, getElem?_firstPins]
    simp only [ite_self]
    rfl
  rw [ofPins, hpins, hpins]
  rfl

end Module

theorem bracketed?_eq_some_iff {text body : List Char} :
    bracketed? text = some body ↔ text = '[' :: body ++ [']'] := by
  unfold bracketed?
  split
  · next rest =>
    rw [List.cons_append, List.cons.injEq, and_iff_right rfl]
    split
    · next hlast =>
      obtain ⟨body', rfl⟩ := List.getLast?_eq_some_iff.mp hlast
      simp
    · next hlast =>
      refine iff_of_false nofun ?_
      rintro rfl
      exact hlast List.getLast?_concat
  · next hnot => exact iff_of_false nofun fun h => hnot _ h

theorem Shape.ofChars?_eq_some_iff {text : List Char} {shape : Shape} :
    Shape.ofChars? text = some shape ↔
      ∃ outputs name inputs body,
        text = '(' :: outputs ++ ')' :: name ++ '(' :: inputs ++ ')' :: '[' :: body ++ [']'] ∧
        ')' ∉ outputs ∧ '(' ∉ name ∧ ')' ∉ inputs ∧ shape = ⟨outputs, trim name, inputs, body⟩ := by
  constructor
  · intro h
    unfold ofChars? at h
    split at h
    · obtain ⟨⟨outputs, rest₁⟩, h₁, h⟩ := Option.bind_eq_some_iff.mp h
      obtain ⟨⟨name, rest₂⟩, h₂, h⟩ := Option.bind_eq_some_iff.mp h
      obtain ⟨⟨inputs, rest₃⟩, h₃, h⟩ := Option.bind_eq_some_iff.mp h
      obtain ⟨body, hbody, heq⟩ := Option.bind_eq_some_iff.mp h
      obtain ⟨rfl, houtputs⟩ := Text.splitOnce_eq_some_iff.mp h₁
      obtain ⟨rfl, hname⟩ := Text.splitOnce_eq_some_iff.mp h₂
      obtain ⟨rfl, hinputs⟩ := Text.splitOnce_eq_some_iff.mp h₃
      obtain rfl := bracketed?_eq_some_iff.mp hbody
      exact ⟨outputs, name, inputs, body, by simp, houtputs, hname, hinputs,
        (Option.some.inj heq).symm⟩
    · cases h
  · rintro ⟨outputs, name, inputs, body, rfl, houtputs, hname, hinputs, rfl⟩
    have h₁ : splitOnce ')' (outputs ++ ')' :: name ++ '(' :: inputs ++ ')' :: '[' :: body ++ [']'])
        = some (outputs, name ++ '(' :: inputs ++ ')' :: '[' :: body ++ [']']) :=
      Text.splitOnce_eq_some_iff.mpr ⟨by simp, houtputs⟩
    have h₂ : splitOnce '(' (name ++ '(' :: inputs ++ ')' :: '[' :: body ++ [']']) =
        some (name, inputs ++ ')' :: '[' :: body ++ [']']) :=
      Text.splitOnce_eq_some_iff.mpr ⟨by simp, hname⟩
    have h₃ : splitOnce ')' (inputs ++ ')' :: '[' :: body ++ [']']) =
        some (inputs, '[' :: body ++ [']']) :=
      Text.splitOnce_eq_some_iff.mpr ⟨by simp, hinputs⟩
    have hbody : bracketed? ('[' :: body ++ [']']) = some body := bracketed?_eq_some_iff.mpr rfl
    show (splitOnce ')' (outputs ++ ')' :: name ++ '(' :: inputs ++ ')' :: '[' :: body ++
      [']'])).bind _ = _
    rw [h₁, Option.bind_some]
    show (splitOnce '(' _).bind _ = _
    rw [h₂, Option.bind_some]
    show (splitOnce ')' _).bind _ = _
    rw [h₃, Option.bind_some]
    show (bracketed? _).bind _ = _
    rw [hbody]
    rfl

/-- The reader makes the module of the pieces. -/
structure Pieces.Reads (p : Pieces) (m : Module) : Prop where
  name : Operator.isSymbol (.ofList p.name) = false
  inputs : p.inputs.Nodup
  readable : Module.Readable p.inputs p.outputs p.segments m.nodes
  complete : Module.Complete p.outputs p.segments m.nodes
  eq_described : m = Module.described (.ofList p.name) p.inputs p.outputs p.segments m.nodes

theorem Module.parseChars_eq_ok_iff {text : List Char} {m : Module} :
    parseChars text = .ok m ↔ ∃ p : Pieces, p.CutFrom (trim text) ∧ p.Reads m := by
  unfold parseChars
  dsimp only
  constructor
  · intro h
    split at h
    · cases h
    split at h
    · next shape hshape =>
      obtain ⟨outputs, name, inputs, body, hcut, houtputs, hname, hinputs, rfl⟩ :=
        Shape.ofChars?_eq_some_iff.mp hshape
      split at h
      · cases h
      · next hsymbol =>
        split at h
        · cases h
        · next hrepeated =>
          obtain ⟨m', hfold, h⟩ := exists_of_bind_eq_ok h
          obtain ⟨⟨⟩, hcheck, h⟩ := exists_of_bind_eq_ok h
          obtain rfl := Except.ok.inj h
          rw [ofPins_eq_described] at hfold
          obtain ⟨nodes, hreadable, rfl⟩ := foldlM_addSegment_eq_ok_iff.mp hfold
          exact ⟨_, ⟨outputs, name, inputs, body, hcut, houtputs, hname, hinputs, rfl⟩,
            ⟨Bool.eq_false_iff.mpr hsymbol,
              repeated?_eq_none_iff.mp (Option.eq_none_iff_forall_ne_some.mpr hrepeated),
              hreadable, checkComplete_described_iff.mp hcheck, rfl⟩⟩
    · cases h
  · rintro ⟨p, ⟨outputs, name, inputs, body, hcut, houtputs, hname, hinputs, rfl⟩, h⟩
    have hshape : Shape.ofChars? (trim text) = some ⟨outputs, trim name, inputs, body⟩ :=
      Shape.ofChars?_eq_some_iff.mpr
        ⟨outputs, name, inputs, body, hcut, houtputs, hname, hinputs, rfl⟩
    have hne : ¬ (trim text).isEmpty = true := by simp [hcut]
    have hsymbol : ¬ Operator.isSymbol (.ofList (trim name)) = true := by simp [h.name]
    have hrepeated : repeated? (inputs.filter (!isBlank ·)) = none :=
      repeated?_eq_none_iff.mpr h.inputs
    rw [if_neg hne, hshape]
    dsimp only
    rw [if_neg hsymbol, hrepeated, ofPins_eq_described]
    refine bind_eq_ok_iff.mpr
      ⟨m, foldlM_addSegment_eq_ok_iff.mpr ⟨_, h.readable, h.eq_described⟩, ?_⟩
    have hcheck : m.checkComplete = .ok () := by
      rw [h.eq_described]
      exact checkComplete_described_iff.mpr h.complete
    rw [hcheck]
    rfl

/-! ## The grammar -/

/-- As many nodes stand for an input as segments hold its name alone. -/
theorem countP_wordsOf_eq {inputs : List Char} {segments : List (List Char)} {nodes : List Node}
    {c : Char} (h : List.Forall₂ (fun segment node => Denotes inputs (wordsOf segment) node)
      segments nodes) (hc : c ∈ inputs) :
    segments.countP (wordsOf · = [[c]]) = nodes.countP (·.op = .input c) :=
  countP_eq_of_forall₂ h fun _ _ hden => decide_eq_decide.mpr (hden.eq_input_iff hc)

namespace Pieces

variable {p : Pieces} {m : Module}

theorem Reads.grammatical (h : p.Reads m) : p.Grammatical where
  name := h.name
  inputs := h.inputs
  outputs := h.complete.nodup
  outputs_ne_nil := h.complete.outputs_ne_nil
  colon := h.readable.colon
  label := h.readable.label
  label_once c hc := List.count_eq_one_of_mem h.readable.label_once (h.complete.labelled c hc)
  node segment hsegment := by
    obtain ⟨node, hnode, hden⟩ := exists_mem_of_forall₂ h.readable.denotes.flip hsegment
    refine ⟨node, hden, fun arg harg => ?_⟩
    rw [h.readable.denotes.length_eq]
    exact h.complete.args node hnode arg harg
  input_once c hc := by
    rw [countP_wordsOf_eq h.readable.denotes hc]
    exact h.readable.input_once c

theorem Grammatical.exists_reads (h : p.Grammatical) : ∃ m, p.Reads m := by
  obtain ⟨nodes, hnodes⟩ := exists_forall₂ h.node
  have hden := hnodes.imp fun _ _ hnode => hnode.1
  have hcount : ∀ c ∈ p.segments.flatMap labelsOf, (p.segments.flatMap labelsOf).count c = 1 := by
    intro c hc
    obtain ⟨segment, hsegment, hc⟩ := List.mem_flatMap.mp hc
    exact h.label_once c (h.label segment hsegment c hc)
  refine ⟨.described (.ofList p.name) p.inputs p.outputs p.segments nodes, h.name, h.inputs,
    ⟨hden, h.colon, h.label, ?_, fun c => ?_⟩,
    ⟨h.outputs_ne_nil, h.outputs, fun c hc => ?_, fun node hnode => ?_⟩, rfl⟩
  · rw [List.nodup_iff_count_le_one]
    intro c
    by_cases hc : c ∈ p.segments.flatMap labelsOf
    · exact (hcount c hc).le
    · rw [List.count_eq_zero_of_not_mem hc]
      exact Nat.zero_le 1
  · by_cases hc : c ∈ p.inputs
    · exact countP_wordsOf_eq hden hc ▸ h.input_once c hc
    · have hzero : nodes.countP (·.op = .input c) = 0 := by
        rw [List.countP_eq_zero]
        intro node hnode hop
        obtain ⟨segment, -, hsegment⟩ := exists_mem_of_forall₂ hden hnode
        exact hc (hsegment.mem_of_op (of_decide_eq_true hop))
      exact hzero.le.trans (Nat.zero_le 1)
  · exact List.count_pos_iff.mp (h.label_once c hc ▸ Nat.one_pos)
  · obtain ⟨segment, -, -, hargs⟩ := exists_mem_of_forall₂ hnodes hnode
    exact fun arg harg => hnodes.length_eq ▸ hargs arg harg

theorem Reads.outputs_eq (h : p.Reads m) :
    m.outputs = p.outputs.map fun c => ⟨c, Module.outputPlace p.segments c⟩ :=
  (congrArg Module.outputs h.eq_described).trans (Module.firstPins_eq_map h.complete.nodup)

theorem Reads.inputs_eq (h : p.Reads m) :
    m.inputs = p.inputs.map fun c => ⟨c, Module.inputPlace m.nodes c⟩ :=
  (congrArg Module.inputs h.eq_described).trans (Module.firstPins_eq_map h.inputs)

theorem Reads.map_name_inputs (h : p.Reads m) : m.inputs.map (·.name) = p.inputs := by
  rw [h.inputs_eq, List.map_map]
  exact List.map_id _

theorem Reads.map_name_outputs (h : p.Reads m) : m.outputs.map (·.name) = p.outputs := by
  rw [h.outputs_eq, List.map_map]
  exact List.map_id _

theorem Reads.describes (h : p.Reads m) (hm : m.Formed) : p.Describes m where
  name := congrArg Module.name h.eq_described
  nodes := h.readable.denotes
  outputs := h.map_name_outputs
  inputs := h.map_name_inputs
  output pin hpin := by
    obtain ⟨i, -, hidx⟩ := hm.output pin hpin
    rw [h.outputs_eq] at hpin
    obtain ⟨c, -, rfl⟩ := List.mem_map.mp hpin
    obtain ⟨hlt, hlabel, -⟩ := List.findIdx?_eq_some_iff_getElem.mp hidx
    exact ⟨i, _, hidx, List.getElem?_eq_getElem hlt, of_decide_eq_true hlabel⟩
  input pin hpin i := by
    have hname : pin.name ∈ p.inputs := by
      rw [h.inputs_eq] at hpin
      obtain ⟨c, hc, rfl⟩ := List.mem_map.mp hpin
      exact hc
    constructor
    · intro hidx
      obtain ⟨node, hnode, hop⟩ := Module.opAt_eq_some_iff.mp (hm.input_pin pin hpin i hidx)
      obtain ⟨segment, hsegment, hden⟩ := exists_getElem?_of_forall₂ h.readable.denotes hnode
      exact ⟨segment, hsegment, (hden.eq_input_iff hname).mpr hop⟩
    · rintro ⟨segment, hsegment, hwords⟩
      obtain ⟨node, hnode, hden⟩ :=
        exists_getElem?_of_forall₂ h.readable.denotes.flip hsegment
      have hop : m.opAt i = some (.input pin.name) :=
        Module.opAt_eq_some_iff.mpr ⟨node, hnode, (Denotes.eq_input_iff hden hname).mp hwords⟩
      exact hm.index_of_opAt (h.map_name_inputs ▸ h.inputs) hpin hop

end Pieces

/-- A text has the grammar of a module. -/
def Grammatical (text : List Char) : Prop :=
  ∃ p : Pieces, p.CutFrom (trim text) ∧ p.Grammatical

/-- A text is accepted exactly if it has the grammar, and the module is the one that its pieces
describe. -/
theorem Module.parse_ok_iff_grammatical (text : String) :
    ((∃ m, Module.parse text = .ok m) ↔ Grammatical text.toList) ∧
      ∀ m, Module.parse text = .ok m →
        ∃ p : Pieces, p.CutFrom (trim text.toList) ∧ p.Describes m := by
  refine ⟨⟨?_, ?_⟩, ?_⟩
  · rintro ⟨m, h⟩
    obtain ⟨p, hcut, hreads⟩ := parseChars_eq_ok_iff.mp h
    exact ⟨p, hcut, hreads.grammatical⟩
  · rintro ⟨p, hcut, hgrammatical⟩
    obtain ⟨m, hreads⟩ := hgrammatical.exists_reads
    exact ⟨m, parseChars_eq_ok_iff.mpr ⟨p, hcut, hreads⟩⟩
  · intro m h
    obtain ⟨p, hcut, hreads⟩ := parseChars_eq_ok_iff.mp h
    exact ⟨p, hcut, hreads.describes (formed_of_parseChars h).1⟩

/-- Arguments that point both ways, two labels at one node, a blank among the pins, a constant and
a word. -/
theorem Module.grammatical_labelled :
    Grammatical " (a b)m(xy)[x|ba: + 0 3|= 1|f 2 ]".toList ∧
      ∀ m, Module.parse " (a b)m(xy)[x|ba: + 0 3|= 1|f 2 ]" = .ok m →
        ∃ p : Pieces, p.CutFrom (trim " (a b)m(xy)[x|ba: + 0 3|= 1|f 2 ]".toList) ∧
          p.Describes m :=
  have h := parse_ok_iff_grammatical " (a b)m(xy)[x|ba: + 0 3|= 1|f 2 ]"
  ⟨h.1.mp ⟨_, rfl⟩, h.2⟩

end ImageCircuit
