import ImageCircuit.Proofs.Rereading

/-!
# Circuits that evolve

Names are given to a circuit where it starts, by its text or by the settings of the generator.
Evaluation and mutation keep them: a mutation brings new primitives only, and these are written in
characters that mean nothing else.

* `Circuit.Printable`: what a circuit has that can be read from its own text
* `Circuit.Evolved`: the circuits of all histories
* `Circuit.Evolved.reads_back`: the text of each of them describes it completely
-/

namespace ImageCircuit

open Text (isBlank)

/-! ## Names that stay -/

namespace Module

variable {m m' : Module}

theorem legible_source_iff {inputs : List Char} {op : Op} :
    op.source.Legible inputs ↔ op.Legible inputs := by
  cases op <;> rfl

theorem word_source (op : Op) : op.source.word = op.word := by
  cases op <;> rfl

/-- Names can still be read after some operations have become primitives and some words calls of
the modules that they name. -/
theorem Separable.of_ops (h : m.Separable) (hname : m'.name = m.name)
    (hinputs : m'.inputs.map (·.name) = m.inputs.map (·.name))
    (houtputs : m'.outputs.map (·.name) = m.outputs.map (·.name))
    (hop : ∀ node' ∈ m'.nodes, (∃ op, node'.op = .prim op) ∨
      ∃ node ∈ m.nodes, node'.op.source = node.op.source) : m'.Separable where
  name := hname ▸ h.name
  name_bracket := hname ▸ h.name_bracket
  name_symbol := hname ▸ h.name_symbol
  inputs := hinputs ▸ h.inputs
  input := hinputs ▸ h.input
  outputs := houtputs ▸ h.outputs
  outputs_ne_nil hnil := by
    rw [hnil] at houtputs
    exact h.outputs_ne_nil (List.map_eq_nil_iff.mp houtputs.symm)
  output := houtputs ▸ h.output
  op node' hnode' := by
    rw [hinputs]
    rcases hop node' hnode' with ⟨op, hprim⟩ | ⟨node, hnode, hsource⟩
    · exact hprim ▸ op.legible_prim _
    · rw [← legible_source_iff, hsource, legible_source_iff]
      exact h.op node hnode
  name_end := hname ▸ h.name_end
  inputs_end := hinputs ▸ h.inputs_end
  outputs_end := houtputs ▸ h.outputs_end
  words_end node' hnode' := by
    rcases hop node' hnode' with ⟨op, hprim⟩ | ⟨node, hnode, hsource⟩
    · rw [hprim]
      exact fun hmem => (op.plain_symbol _ hmem).2.1 rfl
    · rw [← word_source, hsource, word_source]
      exact h.words_end node hnode

theorem Fits.separable (hfits : m.Fits m') (h : m.Separable) : m'.Separable := by
  refine h.of_ops hfits.name hfits.inputs hfits.outputs fun node' hnode' => ?_
  obtain ⟨i, hi⟩ := List.mem_iff_getElem?.mp hnode'
  refine (hfits.op i _ (opAt_eq_some_iff.mpr ⟨node', hi, rfl⟩)).imp id ?_
  rintro ⟨j, hj, -⟩
  obtain ⟨node, hnode, hop⟩ := opAt_eq_some_iff.mp hj
  exact ⟨node, List.mem_of_getElem? hnode, congrArg Op.source hop.symm⟩

theorem Resolves.separable (hres : m.Resolves m') (h : m.Separable) : m'.Separable := by
  refine h.of_ops hres.name (by rw [hres.inputs]) (by rw [hres.outputs]) fun node' hnode' => ?_
  obtain ⟨node, hnode, hstep⟩ := exists_mem_of_forall₂ hres.nodes hnode'
  refine .inr ⟨node, hnode, ?_⟩
  rcases hstep with rfl | ⟨word, index, hop, rfl⟩
  · rfl
  · rw [hop]
    rfl

end Module

/-! ## Names that are read -/

namespace Pieces

variable {p : Pieces} {text : List Char} {c : Char}

/-- The pieces hold characters of the text only. -/
theorem CutFrom.not_mem (hcut : p.CutFrom text) (hc : c ∉ text) :
    c ∉ p.outputs ∧ c ∉ p.name ∧ c ∉ p.inputs ∧ ∀ segment ∈ p.segments, c ∉ segment := by
  obtain ⟨outputs, name, inputs, body, rfl, -, -, -, rfl⟩ := hcut
  simp only [List.mem_append, List.mem_cons, not_or] at hc
  obtain ⟨⟨⟨⟨⟨-, houtputs⟩, -, hname⟩, -, hinputs⟩, -, -, hbody⟩, -⟩ := hc
  exact ⟨fun hmem => houtputs (List.mem_filter.mp hmem).1,
    fun hmem => hname (Text.mem_of_mem_trim hmem), fun hmem => hinputs (List.mem_filter.mp hmem).1,
    fun segment hsegment hmem => hbody (Text.mem_of_mem_splitAll hsegment hmem)⟩

theorem Reads.separable {m : Module} (h : p.Reads m) (hcut : p.CutFrom text) (hend : ';' ∉ text) :
    m.Separable where
  toLegible := h.legible hcut
  name_end := by
    rw [h.eq_described]
    exact String.toList_ofList ▸ (hcut.not_mem hend).2.1
  inputs_end := h.map_name_inputs ▸ (hcut.not_mem hend).2.2.1
  outputs_end := h.map_name_outputs ▸ (hcut.not_mem hend).1
  words_end := by
    intro node hnode hmem
    obtain ⟨segment, hsegment, hden⟩ := exists_mem_of_forall₂ h.readable.denotes hnode
    exact (hcut.not_mem hend).2.2.2 segment hsegment
      (mem_of_mem_bodyOf (Text.mem_of_mem_words hden.word_mem hmem))

end Pieces

namespace Circuit

variable {c : Circuit} {modules : List Module}

theorem separable_of_readPart {part : List Char} {m : Module} (h : readPart part = .ok m)
    (hend : ';' ∉ part) : m.Separable := by
  obtain ⟨source, hparse, hformed, hac, hnorm⟩ := readPart_eq_ok_iff.mp h
  obtain ⟨p, hcut, hreads⟩ := Module.parseChars_eq_ok_iff.mp hparse
  have hsource := hreads.separable hcut fun hmem => hend (Text.mem_of_mem_trim hmem)
  obtain ⟨order, hnorm', hlayout, -⟩ := Module.normalize_eq hformed.within hformed.pinsInRange hac
  obtain rfl := Except.ok.inj (hnorm.symm.trans hnorm')
  exact (Module.fits_relayout hlayout).separable hsource

/-- Looking words up does not change what is written. -/
theorem separable_of_compose (hs : ∀ m ∈ modules, m.Separable) (hok : compose modules = .ok c) :
    ∀ m ∈ c.modules, m.Separable := by
  obtain ⟨-, -, -, modules', hresolve, -, rfl⟩ := compose_eq_ok_iff.mp hok
  intro m' hm'
  obtain ⟨m, hm, hres⟩ := exists_mem_of_forall₂ (forall₂_of_mapM_eq_ok hresolve) hm'
  exact (resolves_of_resolveModule hres).1.separable (hs m hm)

/-- Over the noise field of some seed, the circuit goes over to that of another. -/
theorem withNoiseSeed_eq_withNoise (hnoise : c.noise = .ofSeed c.noise.seed) (seed : UInt64) :
    c.withNoiseSeed seed = c.withNoise (.ofSeed seed) := by
  unfold withNoiseSeed
  split
  · next hseed =>
    rw [withNoise, ← hseed, ← hnoise]
  · rfl

theorem noise_of_compose (hok : compose modules = .ok c) : c.noise = .standard := by
  obtain ⟨-, -, -, modules', -, -, rfl⟩ := compose_eq_ok_iff.mp hok
  rfl

end Circuit

/-! ## Names that are chosen -/

/-- The input names of the settings can be written to be read. -/
structure GeneratorSettings.Writable (s : GeneratorSettings) : Prop where
  nodup : s.inputs.toList.Nodup
  input : ∀ c ∈ s.inputs.toList, isBlank c = false ∧ c ≠ ')' ∧ c ≠ ':' ∧ c ≠ '|' ∧ c ≠ ';' ∧
    Operator.isSymbol (.ofList [c]) = false

/-- The input names of the settings can be written to be read in a module, of whose words some are
input names. -/
structure GeneratorSettings.Writes (s : GeneratorSettings) (m : Module) : Prop where
  nodup : s.inputs.toList.Nodup
  input : ∀ c ∈ s.inputs.toList, isBlank c = false ∧ c ≠ ')' ∧ c ≠ ';'
  word : ∀ node ∈ m.nodes, ∀ c, node.op = .input c →
    c ≠ ':' ∧ c ≠ '|' ∧ Operator.isSymbol (.ofList [c]) = false

theorem GeneratorSettings.Writes.end_not_mem {s : GeneratorSettings} {m : Module}
    (h : s.Writes m) : ';' ∉ s.inputs.toList :=
  fun hmem => (h.input _ hmem).2.2 rfl

/-- The words of a drawn module are primitives and input names. -/
theorem Module.NormalDrawn.op_cases {inputs outputs : List Char} {count : Nat} {m : Module}
    (hm : m.NormalDrawn inputs outputs count) {node : Node} (hnode : node ∈ m.nodes) :
    (∃ op, node.op = .prim op) ∨ ∃ c ∈ inputs, node.op = .input c := by
  refine (hm.drawn node hnode).imp (fun ⟨op, hop, _⟩ => ⟨op, hop⟩) ?_
  rintro ⟨c, hop, -⟩
  obtain ⟨i, hi⟩ := List.mem_iff_getElem?.mp hnode
  obtain ⟨pin, hpin, rfl, -⟩ := hm.exists_input (opAt_eq_some_iff.mpr ⟨node, hi, hop⟩)
  exact ⟨pin.name, hm.inputs ▸ List.mem_map_of_mem hpin, hop⟩

theorem GeneratorSettings.Writable.writes {settings : GeneratorSettings} {m : Module}
    (h : settings.Writable) (hm : settings.Makes m) : settings.Writes m where
  nodup := h.nodup
  input c hc := by
    obtain ⟨hblank, hbracket, -, -, hend, -⟩ := h.input c hc
    exact ⟨hblank, hbracket, hend⟩
  word node hnode c hop := by
    rcases hm.op_cases hnode with ⟨op, hprim⟩ | ⟨c', hc', hop'⟩
    · cases hop.symm.trans hprim
    · obtain rfl := Op.input.inj (hop.symm.trans hop')
      obtain ⟨-, -, hcolon, hbar, -, hsymbol⟩ := h.input c hc'
      exact ⟨hcolon, hbar, hsymbol⟩

/-- The names of the color outputs can be written. -/
theorem plain_color {c : Char} (h : c ∈ ['r', 'g', 'b']) : Plain c ∧ c ≠ ')' := by
  have hall : ∀ c ∈ ['r', 'g', 'b'], (isBlank c = false ∧ c ≠ '|' ∧ c ≠ ':') ∧ c ≠ ')' :=
    List.all_iff_forall_prop.mp (by decide)
  exact hall c h

theorem GeneratorSettings.Makes.separable {settings : GeneratorSettings} {m : Module}
    (hm : settings.Makes m) (h : settings.Writes m) (hname : m.name = "")
    (houtputs : m.outputs.map (·.name) = ['r', 'g', 'b']) : m.Separable where
  name := by
    rw [hname]
    rfl
  name_bracket := by simp [hname]
  name_symbol := by
    rw [hname]
    decide
  inputs := hm.inputs ▸ h.nodup
  input := by
    rw [hm.inputs]
    intro c hc
    exact ⟨(h.input c hc).1, (h.input c hc).2.1⟩
  outputs := by
    rw [houtputs]
    decide
  outputs_ne_nil hnil := by
    rw [hnil] at houtputs
    cases houtputs
  output := by
    rw [houtputs]
    exact fun c hc => plain_color hc
  op node hnode := by
    rcases hm.op_cases hnode with ⟨op, hop⟩ | ⟨c, hc, hop⟩
    · exact hop ▸ op.legible_prim _
    · obtain ⟨hcolon, hbar, hsymbol⟩ := h.word node hnode c hop
      have hblank := (h.input c hc).1
      rw [hop]
      refine ⟨fun c' hc' => ?_, hsymbol⟩
      obtain rfl : c' = c := by simpa [Op.word] using hc'
      exact ⟨hblank, hbar, hcolon⟩
  name_end := by simp [hname]
  inputs_end := hm.inputs ▸ h.end_not_mem
  outputs_end := by
    rw [houtputs]
    decide
  words_end node hnode := by
    rcases hm.op_cases hnode with ⟨op, hop⟩ | ⟨c, hc, hop⟩
    · rw [hop]
      exact fun hmem => (op.plain_symbol _ hmem).2.1 rfl
    · rw [hop]
      intro hmem
      obtain rfl : ';' = c := by simpa [Op.word] using hmem
      exact h.end_not_mem hc

namespace Circuit

variable {c : Circuit}

/-! ## Histories -/

/-- What every circuit has that can be read from its own text. -/
structure Printable (c : Circuit) : Prop extends WellFormed c where
  separable : ∀ m ∈ c.modules, m.Separable
  noise : c.noise = .ofSeed c.noise.seed

/-- Circuits that come from a text, or from random draws with names that can be written, by
evaluations and mutations. -/
inductive Evolved : Circuit → Prop
  | read {text : String} {c : Circuit} (h : Circuit.read text = .ok c) : Evolved c
  | draw {σ : Type} [Source σ] {settings : GeneratorSettings} {s s' : σ} {c : Circuit}
      (hinputs : settings.Writable)
      (h : (Circuit.draw settings : TryDraw σ Circuit) s = (.ok c, s')) : Evolved c
  | eval {c : Circuit} (h : Evolved c) (values : List Float) : Evolved (c.eval values).2
  | evalModule {c : Circuit} (h : Evolved c) (index : Nat) (values : List Float) :
      Evolved (c.evalModule index values).2
  | mutate {σ : Type} [Source σ] {c : Circuit} (h : Evolved c) (settings : MutationSettings)
      (s : σ) : Evolved (c.mutate settings s).1.2
  | mutated {σ : Type} [Source σ] {c child : Circuit} (h : Evolved c)
      (settings : MutationSettings) (s : σ)
      (hchild : (c.mutated settings s).1 = .ok (some child)) : Evolved child
  | withNoiseSeed {c : Circuit} (h : Evolved c) (seed : UInt64) : Evolved (c.withNoiseSeed seed)

theorem printable_of_read {text : String} (h : Circuit.read text = .ok c) : c.Printable := by
  obtain ⟨modules, hparts, hcompose⟩ := exists_of_bind_eq_ok h
  refine ⟨wellFormed_of_read h, separable_of_compose (fun m hm => ?_) hcompose, ?_⟩
  · obtain ⟨part, hpart, hread⟩ := exists_mem_of_forall₂ (forall₂_of_mapM_eq_ok hparts) hm
    exact separable_of_readPart hread (Text.not_mem_of_mem_splitAll hpart)
  · rw [noise_of_compose hcompose]
    rfl

theorem printable_of_draw {σ : Type} [Source σ] {settings : GeneratorSettings} {s s' : σ}
    (hinputs : settings.Writable)
    (h : (Circuit.draw settings : TryDraw σ Circuit) s = (.ok c, s')) : c.Printable := by
  obtain ⟨m, hm, hname, hcompose⟩ := exists_of_draw h
  obtain ⟨hdistinct, hentry, -⟩ := compose_eq_ok_iff.mp hcompose
  obtain ⟨m', hm', -, houtputs⟩ := (checkEntry_eq_ok_iff hdistinct).mp hentry
  obtain rfl := List.mem_singleton.mp hm'
  refine ⟨wellFormed_of_draw h, separable_of_compose ?_ hcompose, ?_⟩
  · simpa using hm.separable (hinputs.writes hm) hname houtputs
  · rw [noise_of_compose hcompose]
    rfl

/-! ## Steps -/

/-- Each module of an evaluated circuit fits in the place of a module before. -/
theorem exists_fits_evalModule (c : Circuit) {index : Nat} {values : List Float} {m' : Module}
    (hm' : m' ∈ (c.evalModule index values).2.modules) : ∃ m ∈ c.modules, m.Fits m' := by
  have hframes := sameFrames_evalAt c.noise c.modules.length index values c.modules
  obtain ⟨m, hm, hframe⟩ := exists_mem_of_forall₂ (forall₂_of_getElem? hframes.1 hframes.2) hm'
  exact ⟨m, hm, hframe.fits⟩

/-- Each module of a circuit whose entry has been replaced by one that fits in its place fits in the
place of a module before. -/
theorem WellFormed.exists_fits_withEntry (h : c.WellFormed) {entry m' : Module}
    (hfits : c.entry.Fits entry) (hm' : m' ∈ (c.withEntry entry).modules) :
    ∃ m ∈ c.modules, m.Fits m' := by
  rcases List.mem_or_eq_of_mem_set hm' with hm' | rfl
  · exact ⟨m', hm', .refl m'⟩
  · exact ⟨c.entry, List.mem_of_getElem? h.getElem?_entryIndex, hfits⟩

/-- Each module of a mutated circuit fits in the place of a module before. -/
theorem WellFormed.exists_fits_mutate (h : c.WellFormed) {σ : Type} [Source σ]
    {settings : MutationSettings} {s : σ} {m' : Module}
    (hm' : m' ∈ (c.mutate settings s).1.2.modules) : ∃ m ∈ c.modules, m.Fits m' := by
  obtain ⟨-, -, hfits⟩ := Module.always_mutate h.entry_normal settings s
  exact h.exists_fits_withEntry hfits hm'

namespace Printable

theorem evalModule (h : c.Printable) (index : Nat) (values : List Float) :
    (c.evalModule index values).2.Printable where
  toWellFormed := h.toWellFormed.evalModule index values
  separable _ hm' :=
    have ⟨m, hm, hfits⟩ := exists_fits_evalModule c hm'
    hfits.separable (h.separable m hm)
  noise := h.noise

theorem mutate (h : c.Printable) {σ : Type} [Source σ] (settings : MutationSettings) (s : σ) :
    (c.mutate settings s).1.2.Printable where
  toWellFormed := h.toWellFormed.mutate settings s
  separable _ hm' :=
    have ⟨m, hm, hfits⟩ := h.exists_fits_mutate hm'
    hfits.separable (h.separable m hm)
  noise := h.noise

theorem withNoiseSeed_eq (h : c.Printable) (seed : UInt64) :
    c.withNoiseSeed seed = c.withNoise (.ofSeed seed) :=
  withNoiseSeed_eq_withNoise h.noise seed

theorem withNoiseSeed (h : c.Printable) (seed : UInt64) : (c.withNoiseSeed seed).Printable := by
  rw [h.withNoiseSeed_eq]
  exact ⟨h.toWellFormed.withNoise _, h.separable, rfl⟩

end Printable

theorem Evolved.printable (h : c.Evolved) : c.Printable := by
  induction h with
  | read h => exact printable_of_read h
  | draw hinputs h => exact printable_of_draw hinputs h
  | eval _ values ih => exact ih.evalModule _ values
  | evalModule _ index values ih => exact ih.evalModule index values
  | mutate _ settings s ih => exact ih.mutate settings s
  | mutated _ settings s hchild ih => exact eq_of_mutated hchild ▸ ih.mutate settings s
  | withNoiseSeed _ seed ih => exact ih.withNoiseSeed seed

/-! ## Reading back -/

/-- A circuit that has evolved from a text or from random draws is described completely by its own
text, in which arguments are words of 64 bits. It is read again with the same modules but for what
evaluation has stored, printed as the same text, and evaluated to the same values over the same
noise. -/
theorem Evolved.reads_back (h : c.Evolved)
    (hargs : ∀ m ∈ c.modules, ∀ node ∈ m.nodes, ∀ arg ∈ node.args, arg < Decimal.wordLimit) :
    ∃ c', Circuit.read c.text = .ok c' ∧ c'.modules = c.modules.map (·.unevaluated) ∧
      c'.names = c.names ∧ c'.text = c.text ∧
      (∀ values, ((c'.withNoiseSeed c.noise.seed).eval values).1 = (c.eval values).1) ∧
      ∀ index values, ((c'.withNoiseSeed c.noise.seed).evalModule index values).1 =
        (c.evalModule index values).1 := by
  have hp := h.printable
  have hread := hp.read_text hp.separable hargs
  have hnoise := (printable_of_read hread).withNoiseSeed_eq c.noise.seed
  have hagain : (⟨c.modules.map (·.unevaluated), c.names, .ofSeed c.noise.seed⟩ : Circuit) =
      { c with modules := c.modules.map (·.unevaluated) } := by rw [← hp.noise]
  have heval := fun index values =>
    hp.evalModule_congr (WellFormed.sameFrames_unevaluated c) index values
  refine ⟨_, hread, rfl, rfl, text_unevaluated c, fun values => ?_, fun index values => ?_⟩
  · rw [hnoise, Circuit.withNoise, hagain]
    exact heval c.entryIndex values
  · rw [hnoise, Circuit.withNoise, hagain]
    exact heval index values

/-- A circuit with a call, evaluated and then mutated. -/
theorem reads_back_unaryCircuit_mutated :
    ∃ c, c = ((unaryCircuit.eval [0.5]).2.mutate .standard (ChaCha.ofSeed 1)).1.2 ∧ c.Evolved ∧
      (∀ m ∈ c.modules, ∀ node ∈ m.nodes, ∀ arg ∈ node.args, arg < Decimal.wordLimit) ∧
      ∃ c', Circuit.read c.text = .ok c' ∧ c'.modules = c.modules.map (·.unevaluated) ∧
        c'.names = c.names ∧ c'.text = c.text ∧
        (∀ values, ((c'.withNoiseSeed c.noise.seed).eval values).1 = (c.eval values).1) ∧
        ∀ index values, ((c'.withNoiseSeed c.noise.seed).evalModule index values).1 =
          (c.evalModule index values).1 := by
  have hstart : unaryCircuit.Evolved := .read read_unaryCircuit
  have hc : ((unaryCircuit.eval [0.5]).2.mutate .standard (ChaCha.ofSeed 1)).1.2.Evolved :=
    .mutate (.eval hstart [0.5]) _ _
  have hargs : ∀ m ∈ ((unaryCircuit.eval [0.5]).2.mutate .standard (ChaCha.ofSeed 1)).1.2.modules,
      ∀ node ∈ m.nodes, ∀ arg ∈ node.args, arg < Decimal.wordLimit := by
    intro m hm node hnode arg harg
    obtain ⟨m₁, hm₁, hfits⟩ := (hstart.eval [0.5]).printable.exists_fits_mutate hm
    obtain ⟨m₀, hm₀, hfits₀⟩ := exists_fits_evalModule unaryCircuit hm₁
    have hsmall : ∀ m ∈ unaryCircuit.modules, m.size ≤ Decimal.wordLimit := by decide
    calc arg < m.size := (hc.printable.normal m hm).lt_of_mem_args hnode harg
      _ ≤ m₀.size := (hfits₀.trans hfits).size
      _ ≤ Decimal.wordLimit := hsmall m₀ hm₀
  exact ⟨_, rfl, hc, hargs, hc.reads_back hargs⟩

end Circuit

end ImageCircuit
