import ImageCircuit.Proofs.DrawnText
import ImageCircuit.Proofs.Leaves

/-!
# What text says of inner nodes

The nodes with arguments stand before the leaves. Whatever the inputs are named, the words of these
inner nodes can be read, and so can the colors. The text of a module is cut at its bars up to the
first leaf, so it determines the labels, words and arguments of all inner nodes.

* `Circuit.Reachable.innerLegible`: what is written for inner nodes can be read
* `Module.sameInner_of_chars_eq`: modules of the same text have the same inner nodes
-/

namespace ImageCircuit

/-! ## Pieces -/

namespace Text

variable {sep : Char} {pieces pieces' : List (List Char)} {p : Nat}

/-- Joined texts have the same first pieces, as far as these hold no separator. -/
theorem take_eq_of_intercalate_eq (hp : p < pieces.length) (hp' : p < pieces'.length)
    (hfree : ∀ piece ∈ pieces.take p, sep ∉ piece)
    (hfree' : ∀ piece ∈ pieces'.take p, sep ∉ piece)
    (h : [sep].intercalate pieces = [sep].intercalate pieces') :
    pieces.take p = pieces'.take p := by
  induction p generalizing pieces pieces' with
  | zero => simp
  | succ p ih =>
    obtain ⟨piece, rest, rfl⟩ := List.exists_cons_of_length_pos (Nat.zero_lt_of_lt hp)
    obtain ⟨piece', rest', rfl⟩ := List.exists_cons_of_length_pos (Nat.zero_lt_of_lt hp')
    have hlt : p < rest.length := Nat.lt_of_succ_lt_succ hp
    have hlt' : p < rest'.length := Nat.lt_of_succ_lt_succ hp'
    rw [List.intercalate_cons_of_ne_nil (List.ne_nil_of_length_pos (Nat.zero_lt_of_lt hlt)),
      List.intercalate_cons_of_ne_nil (List.ne_nil_of_length_pos (Nat.zero_lt_of_lt hlt')),
      List.append_assoc, List.append_assoc, List.singleton_append, List.singleton_append] at h
    rw [List.take_succ_cons, List.forall_mem_cons] at hfree hfree'
    obtain ⟨rfl, hrest⟩ := cut_unique h hfree.1 hfree'.1
    rw [List.take_succ_cons, List.take_succ_cons, ih hlt hlt' hfree.2 hfree'.2 hrest]

/-- Joined texts of which one is replaced stay the same only if the other is the same. -/
theorem eq_of_intercalate_set_eq {sep piece piece' : List Char} {k : Nat}
    (hk : pieces[k]? = some piece)
    (h : sep.intercalate (pieces.set k piece') = sep.intercalate pieces) : piece' = piece := by
  induction pieces generalizing k with
  | nil => cases hk
  | cons first rest ih =>
    cases k with
    | zero =>
      obtain rfl := Option.some.inj hk
      rw [List.set_cons_zero] at h
      by_cases hrest : rest = []
      · simpa [hrest] using h
      · rw [List.intercalate_cons_of_ne_nil hrest, List.intercalate_cons_of_ne_nil hrest] at h
        exact List.append_cancel_right (List.append_cancel_right h)
    | succ k =>
      rw [List.getElem?_cons_succ] at hk
      have hrest : rest ≠ [] := List.ne_nil_of_mem (List.mem_of_getElem? hk)
      have hset : rest.set k piece' ≠ [] := by simpa using hrest
      rw [List.set_cons_succ, List.intercalate_cons_of_ne_nil hrest,
        List.intercalate_cons_of_ne_nil hset] at h
      exact ih hk (List.append_cancel_left h)

end Text

theorem Decimal.digitsOf_injective : Function.Injective Decimal.digitsOf :=
  Function.LeftInverse.injective Decimal.ofDigits_digitsOf

namespace Module

variable {m m' : Module} {node node' : Node} {i p : Nat}

/-! ## Inner nodes -/

/-- What is written for inner nodes can be read. -/
structure InnerLegible (m : Module) : Prop where
  label : ∀ c ∈ m.outputs.map (·.name), Plain c
  op : ∀ node ∈ m.nodes, node.args ≠ [] → node.op.Legible (m.inputs.map (·.name))

theorem Legible.innerLegible (h : m.Legible) : m.InnerLegible :=
  ⟨fun c hc => (h.output c hc).1, fun node hnode _ => h.op node hnode⟩

theorem Fits.innerLegible (hfits : m.Fits m') (h : m.InnerLegible) : m'.InnerLegible where
  label := hfits.outputs ▸ h.label
  op node' hnode' hargs := by
    rw [hfits.inputs]
    obtain ⟨i, hi⟩ := List.mem_iff_getElem?.mp hnode'
    rcases hfits.op i _ (opAt_eq_some_iff.mpr ⟨node', hi, rfl⟩) with ⟨op, hop⟩ | ⟨j, hj, hlen⟩
    · exact hop ▸ op.legible_prim _
    · obtain ⟨node, hnode, hop⟩ := opAt_eq_some_iff.mp hj
      rw [argsOf_eq hnode, argsOf_eq hi] at hlen
      refine hop ▸ h.op node (List.mem_of_getElem? hnode) fun hnil => hargs ?_
      rw [← List.length_eq_zero_iff, ← hlen, hnil]
      rfl

theorem InnerLegible.not_mem_labels (h : m.InnerLegible) : ':' ∉ m.labels i ∧ '|' ∉ m.labels i := by
  have hplain : ∀ c ∈ m.labels i, Plain c := by
    intro c hc
    obtain ⟨pin, hpin, -, rfl⟩ := mem_labels_iff.mp hc
    exact h.label _ (List.mem_map_of_mem hpin)
  exact ⟨fun hc => (hplain _ hc).2.2 rfl, fun hc => (hplain _ hc).2.1 rfl⟩

/-! ## Reading inner nodes -/

/-- Modules have the same labels, words and arguments at the positions before `p`. -/
structure SameInner (m m' : Module) (p : Nat) : Prop where
  labels : ∀ i < p, m'.labels i = m.labels i
  word : ∀ i < p, (m'.opAt i).map Op.word = (m.opAt i).map Op.word
  args : ∀ i < p, m'.argsOf i = m.argsOf i

/-- A segment without other colons is cut behind its labels. -/
theorem labels_eq_of_segment_eq (h : m.segment node i = m'.segment node' i)
    (hlabels : ':' ∉ m.labels i) (hlabels' : ':' ∉ m'.labels i) (hchars : ':' ∉ node.chars)
    (hchars' : ':' ∉ node'.chars) : m.labels i = m'.labels i ∧ node.chars = node'.chars := by
  rw [segment_eq, segment_eq] at h
  by_cases hnil : m.labels i = [] <;> by_cases hnil' : m'.labels i = []
  · rw [tag_of_eq_nil hnil, tag_of_eq_nil hnil'] at h
    exact ⟨hnil.trans hnil'.symm, h⟩
  · rw [tag_of_eq_nil hnil, tag_of_ne_nil hnil', List.nil_append] at h
    exact absurd (h ▸ by simp) hchars
  · rw [tag_of_ne_nil hnil, tag_of_eq_nil hnil', List.nil_append] at h
    exact absurd (h ▸ by simp) hchars'
  · rw [tag_of_ne_nil hnil, tag_of_ne_nil hnil', List.append_assoc, List.append_assoc] at h
    exact Text.cut_unique h hlabels hlabels'

theorem Formed.isConstant_eq_false (hm : m.Formed) (hi : m.nodes[i]? = some node)
    (hargs : node.args ≠ []) : node.isConstant = false := by
  refine decide_eq_false fun hop => hargs ?_
  have := hm.arity i .const (opAt_eq_some_iff.mpr ⟨node, hi, hop⟩)
  rw [argsOf_eq hi] at this
  exact List.eq_nil_of_length_eq_zero this

/-- The text of an inner node is cut into its word and its arguments. -/
theorem Formed.args_eq_of_chars_eq (hm : m.Formed) (hm' : m'.Formed) {inputs inputs' : List Char}
    (hi : m.nodes[i]? = some node) (hi' : m'.nodes[i]? = some node') (hargs : node.args ≠ [])
    (hargs' : node'.args ≠ []) (h : node.op.Legible inputs) (h' : node'.op.Legible inputs')
    (hchars : node.chars = node'.chars) :
    node.op.word = node'.op.word ∧ node.args = node'.args := by
  have hwords := congrArg Text.words hchars
  rw [Node.words_chars h, Node.words_chars h', List.cons.injEq, Node.argWords, Node.argWords,
    hm.isConstant_eq_false hi hargs, hm'.isConstant_eq_false hi' hargs'] at hwords
  exact ⟨String.toList_inj.mp hwords.1,
    List.map_injective_iff.mpr Decimal.digitsOf_injective hwords.2⟩

/-- A formed module of which the nodes before position `p` are inner nodes that can be read. -/
structure InnerReadable (m : Module) (p : Nat) : Prop extends Formed m, InnerLegible m where
  inner : m.InnerBefore p

theorem InnerReadable.legible (h : m.InnerReadable p) (hi : m.nodes[i]? = some node) (hlt : i < p) :
    node.args ≠ [] ∧ node.op.Legible (m.inputs.map (·.name)) := by
  have hargs := argsOf_eq hi ▸ (h.inner i).mpr hlt
  exact ⟨hargs, h.op node (List.mem_of_getElem? hi) hargs⟩

theorem InnerReadable.bar_not_mem_segment (h : m.InnerReadable p) {segment : List Char}
    (hsegment : segment ∈ m.segments.take p) : '|' ∉ segment := by
  obtain ⟨i, hget⟩ := List.mem_iff_getElem?.mp hsegment
  rw [List.getElem?_take] at hget
  split at hget
  · next hlt =>
    rw [getElem?_segments] at hget
    obtain ⟨node, hi, rfl⟩ := Option.map_eq_some_iff.mp hget
    have hbar : '|' ∉ node.chars := fun hc => (Node.mem_chars (h.legible hi hlt).2 hc).1 rfl
    have hlabels := h.toInnerLegible.not_mem_labels (i := i)
    rw [segment_eq, tag]
    split <;> simp [hbar, hlabels]
  · cases hget

theorem sameInner_of_take_eq (h : m.InnerReadable p) (h' : m'.InnerReadable p)
    (hsegments : m.segments.take p = m'.segments.take p) : m.SameInner m' p := by
  have hread : ∀ i < p, ∃ node node', m.nodes[i]? = some node ∧ m'.nodes[i]? = some node' ∧
      m.labels i = m'.labels i ∧ node.op.word = node'.op.word ∧ node.args = node'.args := by
    intro i hi
    have hget := congrArg (·[i]?) hsegments
    simp only [List.getElem?_take, hi, if_true, getElem?_segments] at hget
    obtain ⟨node, hnode⟩ : ∃ node, m.nodes[i]? = some node :=
      ⟨_, List.getElem?_eq_getElem (Nat.lt_of_lt_of_le hi h.inner.le_size)⟩
    rw [hnode, Option.map_some] at hget
    obtain ⟨node', hnode', hsegment⟩ := Option.map_eq_some_iff.mp hget.symm
    obtain ⟨hargs, hlegible⟩ := h.legible hnode hi
    obtain ⟨hargs', hlegible'⟩ := h'.legible hnode' hi
    obtain ⟨hlabels, hchars⟩ := labels_eq_of_segment_eq hsegment.symm
      h.toInnerLegible.not_mem_labels.1 h'.toInnerLegible.not_mem_labels.1
      (fun hc => (Node.mem_chars hlegible hc).2 rfl)
      (fun hc => (Node.mem_chars hlegible' hc).2 rfl)
    exact ⟨node, node', hnode, hnode', hlabels, h.toFormed.args_eq_of_chars_eq h'.toFormed hnode
      hnode' hargs hargs' hlegible hlegible' hchars⟩
  refine ⟨fun i hi => ?_, fun i hi => ?_, fun i hi => ?_⟩ <;>
    obtain ⟨node, node', hnode, hnode', hlabels, hword, hargs⟩ := hread i hi
  · exact hlabels.symm
  · rw [opAt, opAt, hnode, hnode']
    exact congrArg some hword.symm
  · rw [argsOf_eq hnode, argsOf_eq hnode', hargs]

/-- Modules of the same names and text have the same inner nodes. -/
theorem sameInner_of_chars_eq (h : m.InnerReadable p) (h' : m'.InnerReadable p)
    (hfits : m.Fits m') (hp : p < m.size) (hp' : p < m'.size) (hchars : m'.chars = m.chars) :
    m.SameInner m' p := by
  have hheading : m'.heading = m.heading := by
    rw [heading, heading, hfits.outputs, hfits.name, hfits.inputs]
  rw [chars_eq, chars_eq, hheading] at hchars
  have hbody : m'.body = m.body :=
    List.append_cancel_right (List.cons.inj (List.cons.inj (List.append_cancel_left hchars)).2).2
  have hlength : ∀ m : Module, m.segments.length = m.size := fun m => by simp [segments, size]
  refine sameInner_of_take_eq h h' ?_
  exact Text.take_eq_of_intercalate_eq (hlength m ▸ hp) (hlength m' ▸ hp')
    (fun _ => h.bar_not_mem_segment) (fun _ => h'.bar_not_mem_segment) hbody.symm

end Module

/-! ## Circuits -/

/-- The inner nodes of drawn modules are primitives. -/
theorem GeneratorSettings.MakesEntry.innerLegible {settings : GeneratorSettings} {m : Module}
    (hm : settings.MakesEntry m) : m.InnerLegible where
  label := by
    rw [hm.colors]
    exact fun c hc => (plain_color hc).1
  op node hnode hargs := by
    rcases hm.op_cases hnode with ⟨op, hop⟩ | ⟨c, -, hop⟩
    · exact hop ▸ op.legible_prim _
    · obtain ⟨i, hi⟩ := List.mem_iff_getElem?.mp hnode
      have := hm.input_args i c (Module.opAt_eq_some_iff.mpr ⟨node, hi, hop⟩)
      exact absurd (Module.argsOf_eq hi ▸ this) hargs

namespace Circuit

variable {c : Circuit} {m : Module}

/-- If a circuit with another entry has the same text, the entry has. -/
theorem WellFormed.chars_eq_of_text_eq (h : c.WellFormed) (htext : (c.withEntry m).text = c.text) :
    m.chars = c.entry.chars := by
  have hchars : [';'].intercalate ((c.modules.map (·.chars)).set c.entryIndex m.chars) =
      [';'].intercalate (c.modules.map (·.chars)) := by
    rw [← List.map_set]
    exact String.ofList_inj.mp htext
  refine Text.eq_of_intercalate_set_eq ?_ hchars
  rw [List.getElem?_map, h.getElem?_entryIndex]
  rfl

theorem WellFormed.colors (h : c.WellFormed) : c.entry.outputs.map (·.name) = ['r', 'g', 'b'] := by
  obtain ⟨m, hm, -, hout⟩ := h.entry
  obtain rfl := Option.some.inj (h.getElem?_entryIndex.symm.trans hm)
  simpa [Module.outputNames, entryOutputNames] using congrArg String.toList hout

/-- Whatever the inputs of a reachable circuit are named, what is written for inner nodes can be
read. -/
theorem Reachable.innerLegible (h : c.Reachable) : ∀ m ∈ c.modules, m.InnerLegible := by
  have hstep : ∀ {c c' : Circuit}, (∀ m ∈ c.modules, m.InnerLegible) →
      (∀ m' ∈ c'.modules, ∃ m ∈ c.modules, m.Fits m') → ∀ m' ∈ c'.modules, m'.InnerLegible := by
    intro c c' hc hfits m' hm'
    obtain ⟨m, hm, hfit⟩ := hfits m' hm'
    exact hfit.innerLegible (hc m hm)
  induction h with
  | read h => exact fun m hm => ((printable_of_read h).separable m hm).innerLegible
  | draw h =>
    obtain ⟨m, hm, rfl⟩ := exists_modules_of_draw h
    simpa using hm.innerLegible
  | eval _ values ih => exact hstep ih fun _ => exists_fits_evalModule _
  | evalModule _ index values ih => exact hstep ih fun _ => exists_fits_evalModule _
  | mutateOperator h s ih =>
    obtain ⟨-, hfits⟩ := Module.always_mutateOperator h.wellFormed.entry_normal s
    exact hstep ih fun _ => h.wellFormed.exists_fits_withEntry hfits
  | mutateConnection h attempts s ih =>
    obtain ⟨-, -, hfits⟩ :=
      Module.always_mutateConnection_normal h.wellFormed.entry_normal attempts s
    exact hstep ih fun _ => h.wellFormed.exists_fits_withEntry hfits
  | mutate h settings s ih => exact hstep ih fun _ => h.wellFormed.exists_fits_mutate
  | mutated h settings s hchild ih =>
    obtain rfl := eq_of_mutated hchild
    exact hstep ih fun _ => h.wellFormed.exists_fits_mutate
  | withNoiseSeed _ seed ih =>
    unfold Circuit.withNoiseSeed
    split
    · exact ih
    · exact ih

end Circuit

end ImageCircuit
