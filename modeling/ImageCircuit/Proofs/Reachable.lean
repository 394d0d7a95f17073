import ImageCircuit.Circuit.Read
import ImageCircuit.Proofs.Mutation
import ImageCircuit.Proofs.SocketMatching
import ImageCircuit.Random.ChaCha

/-!
# Reachable circuits

A circuit starts from a text or from random draws, and goes on by evaluations and mutations. Each
step keeps it well-formed.

* `Circuit.Reachable`: the circuits of all such histories
* `Circuit.Reachable.wellFormed`: all of them are well-formed
-/

namespace ImageCircuit

/-- A normal form with the pins that the settings ask for, and with no more nodes. -/
def GeneratorSettings.Makes (settings : GeneratorSettings) (m : Module) : Prop :=
  m.NormalDrawn settings.inputs.toList settings.outputs.toList
    (settings.inputs.toList.length + settings.numNodes)

/-- Why no module can be made: there is nothing to wire, or one wiring finds a name repeated. -/
def GeneratorSettings.Refuses (settings : GeneratorSettings) (e : Error) : Prop :=
  e = .nothingToGenerate ∧ settings.inputs.toList.length + settings.numNodes = 0 ∨
    settings.wiring = .postHoc ∧
      ∃ name, e = .duplicatedInput name ∧ 1 < settings.inputs.toList.count name

/-- Circuits that come from a text or from random draws by evaluations and mutations. -/
inductive Circuit.Reachable : Circuit → Prop
  | read {text : String} {c : Circuit} (h : Circuit.read text = .ok c) : Reachable c
  | draw {σ : Type} [Source σ] {settings : GeneratorSettings} {s s' : σ} {c : Circuit}
      (h : (Circuit.draw settings : TryDraw σ Circuit) s = (.ok c, s')) : Reachable c
  | eval {c : Circuit} (h : Reachable c) (values : List Float) : Reachable (c.eval values).2
  | evalModule {c : Circuit} (h : Reachable c) (index : Nat) (values : List Float) :
      Reachable (c.evalModule index values).2
  | mutateOperator {σ : Type} [Source σ] {c : Circuit} (h : Reachable c) (s : σ) :
      Reachable (c.withEntry (c.entry.mutateOperator s).1.2)
  | mutateConnection {σ : Type} [Source σ] {c : Circuit} (h : Reachable c) (attempts : Nat)
      (s : σ) : Reachable (c.withEntry (c.entry.mutateConnection attempts s).1.2)
  | mutate {σ : Type} [Source σ] {c : Circuit} (h : Reachable c) (settings : MutationSettings)
      (s : σ) : Reachable (c.mutate settings s).1.2
  | mutated {σ : Type} [Source σ] {c child : Circuit} (h : Reachable c)
      (settings : MutationSettings) (s : σ)
      (hchild : (c.mutated settings s).1 = .ok (some child)) : Reachable child
  | withNoiseSeed {c : Circuit} (h : Reachable c) (seed : UInt64) : Reachable (c.withNoiseSeed seed)

namespace Circuit

variable {c : Circuit}

/-! ## Origins -/

theorem normal_of_readPart {part : List Char} {m : Module} (h : readPart part = .ok m) :
    m.Normal ∧ m.Written := by
  obtain ⟨source, hparse, hnorm⟩ := exists_of_bind_eq_ok h
  obtain ⟨hformed, hwritten⟩ := Module.formed_of_parseChars hparse
  obtain ⟨sorted, hsort, -⟩ := exists_of_bind_eq_ok hnorm
  have hac := Module.acyclic_of_topologicalSort hformed.within hsort
  obtain ⟨m', hnorm', hm', hop⟩ := hformed.normalize hac
  obtain rfl := Except.ok.inj (hnorm.symm.trans hnorm')
  refine ⟨hm', fun k op hk => ?_⟩
  obtain ⟨i, hi⟩ := hop k op hk
  exact hwritten i op hi

theorem wellFormed_of_read {text : String} (h : Circuit.read text = .ok c) : c.WellFormed := by
  obtain ⟨modules, hparts, hcompose⟩ := exists_of_bind_eq_ok h
  have hall : ∀ m ∈ modules, m.Normal ∧ m.Written := by
    intro m hm
    obtain ⟨part, -, hpart⟩ := exists_mem_of_forall₂ (forall₂_of_mapM_eq_ok hparts) hm
    exact normal_of_readPart hpart
  exact wellFormed_of_compose (fun m hm => (hall m hm).1) (fun m hm => (hall m hm).2) hcompose

section

variable {σ : Type} [Source σ]

theorem yields_drawModule (settings : GeneratorSettings) (name : String) :
    TryDraw.Yields (Module.draw settings name : TryDraw σ Module) settings.Refuses
      fun m => settings.Makes m ∧ m.name = name := by
  have hnamed : ∀ m : Module, settings.Makes m → settings.Makes { m with name } ∧ name = name := by
    rintro m ⟨hm, hdrawn, hinputs, houtputs, hcount⟩
    exact ⟨⟨⟨⟨hm.within, hm.arity, hm.input_args, hm.input_pin, hm.input_node, hm.output⟩,
      hm.sorted, hm.ranked, hm.connected⟩, hdrawn, hinputs, houtputs, hcount⟩, rfl⟩
  unfold Module.draw
  dsimp only
  split
  · next hwiring =>
    refine .bind ((Module.yields_drawPostHoc _ _ _).mono (fun e he => ?_)
      fun m hm => hnamed m hm.1) fun m hm => .pure hm
    exact he.imp id fun ⟨name, hname, hcount⟩ => ⟨hwiring, name, hname, hcount⟩
  · exact .bind ((Module.yields_drawSocketMatching _ _ _).mono (fun e he => .inl he)
      fun m hm => hnamed m hm.1) fun m hm => .pure hm

/-- A random circuit is put together of one random module. -/
theorem exists_of_draw {settings : GeneratorSettings} {s s' : σ}
    (h : (Circuit.draw settings : TryDraw σ Circuit) s = (.ok c, s')) :
    ∃ m, settings.Makes m ∧ m.name = entryName ∧ compose [m] = .ok c := by
  have hyields : TryDraw.Yields (Circuit.draw settings : TryDraw σ Circuit) (fun _ => True)
      fun c => ∃ m, settings.Makes m ∧ m.name = entryName ∧ compose [m] = .ok c := by
    refine .bind ((yields_drawModule settings entryName).mono (fun _ _ => trivial) fun _ h => h) ?_
    rintro m ⟨hm, hname⟩
    cases hcompose : compose [m] with
    | error e => exact .of_error trivial
    | ok c => exact .of_ok ⟨m, hm, hname, hcompose⟩
  have := hyields s
  rw [ExceptT.run, h] at this
  exact this

theorem wellFormed_of_draw {settings : GeneratorSettings} {s s' : σ}
    (h : (Circuit.draw settings : TryDraw σ Circuit) s = (.ok c, s')) : c.WellFormed := by
  obtain ⟨m, hm, -, hcompose⟩ := exists_of_draw h
  have hwritten := Module.written_of_drawn hm.drawn
  refine wellFormed_of_compose ?_ ?_ hcompose
  · simpa using hm.toNormal
  · simpa using hwritten

end

/-! ## Steps -/

/-- Something has been applied to a mutated copy. -/
theorem exists_of_mutated {σ : Type} [Source σ] {settings : MutationSettings} {s : σ}
    {child : Circuit} (hchild : (c.mutated settings s).1 = .ok (some child)) :
    ∃ outcomes, (c.mutate settings s).1 = (.ok outcomes, child) ∧
      outcomes.filter (·.isApplied) ≠ [] := by
  have hstep : (c.mutated settings s).1 = (c.mutate settings s).1.1.map fun outcomes =>
      if outcomes.any (·.isApplied) then some (c.mutate settings s).1.2 else none := rfl
  rw [hstep] at hchild
  cases hresult : (c.mutate settings s).1.1 with
  | error e =>
    rw [hresult] at hchild
    cases hchild
  | ok outcomes =>
    rw [hresult] at hchild
    have := Except.ok.inj hchild
    dsimp only at this
    split at this
    · next happlied =>
      refine ⟨outcomes, Prod.ext hresult (Option.some.inj this), fun hnil => ?_⟩
      obtain ⟨outcome, hmem, happlied⟩ := List.any_eq_true.mp happlied
      exact List.filter_eq_nil_iff.mp hnil outcome hmem happlied
    · cases this

/-- A mutated copy is the mutated circuit. -/
theorem eq_of_mutated {σ : Type} [Source σ] {settings : MutationSettings} {s : σ} {child : Circuit}
    (hchild : (c.mutated settings s).1 = .ok (some child)) : (c.mutate settings s).1.2 = child := by
  obtain ⟨outcomes, hmutate, -⟩ := exists_of_mutated hchild
  exact congrArg Prod.snd hmutate

namespace WellFormed

theorem evalModule (h : c.WellFormed) (index : Nat) (values : List Float) :
    (c.evalModule index values).2.WellFormed :=
  h.sameFrames (sameFrames_evalAt c.noise c.modules.length index values c.modules)

variable {σ : Type} [Source σ]

theorem mutateOperator (h : c.WellFormed) (s : σ) :
    (c.withEntry (c.entry.mutateOperator s).1.2).WellFormed := by
  obtain ⟨hm, hfits⟩ := Module.always_mutateOperator h.entry_normal s
  exact h.withEntry hm hfits

theorem mutateConnection (h : c.WellFormed) (attempts : Nat) (s : σ) :
    (c.withEntry (c.entry.mutateConnection attempts s).1.2).WellFormed := by
  obtain ⟨-, hm, hfits⟩ := Module.always_mutateConnection_normal h.entry_normal attempts s
  exact h.withEntry hm hfits

theorem mutate (h : c.WellFormed) (settings : MutationSettings) (s : σ) :
    (c.mutate settings s).1.2.WellFormed := by
  obtain ⟨-, hm, hfits⟩ := Module.always_mutate h.entry_normal settings s
  exact h.withEntry hm hfits

theorem mutated (h : c.WellFormed) {settings : MutationSettings} {s : σ} {child : Circuit}
    (hchild : (c.mutated settings s).1 = .ok (some child)) : child.WellFormed :=
  eq_of_mutated hchild ▸ h.mutate settings s

end WellFormed

/-- Every circuit that is read or drawn at random, and then evaluated and mutated any number of
times, is well-formed. -/
theorem Reachable.wellFormed (h : c.Reachable) : c.WellFormed := by
  induction h with
  | read h => exact wellFormed_of_read h
  | draw h => exact wellFormed_of_draw h
  | eval _ values ih => exact ih.evalModule _ values
  | evalModule _ index values ih => exact ih.evalModule index values
  | mutateOperator _ s ih => exact ih.mutateOperator s
  | mutateConnection _ attempts s ih => exact ih.mutateConnection attempts s
  | mutate _ settings s ih => exact ih.mutate settings s
  | mutated _ settings s hchild ih => exact ih.mutated hchild
  | withNoiseSeed _ seed ih => exact ih.withNoiseSeed seed

end Circuit

/-! ## What holds of every reachable circuit -/

/-- A module that stands among `modules`, in terms of its nodes and pins. -/
structure Module.Valid (modules : List Module) (m : Module) : Prop where
  args : ∀ (i : Nat) (node : Node), m.nodes[i]? = some node → ∀ j ∈ node.args, i < j ∧ j < m.size
  arity : ∀ node ∈ m.nodes, ∀ op, node.op = .prim op → node.args.length = op.arity
  input_args : ∀ node ∈ m.nodes, ∀ name, node.op = .input name → node.args = []
  /-- A bound input pin names an input node of its own name. -/
  input_pin : ∀ pin ∈ m.inputs, ∀ i, pin.index = some i →
    ∃ node, m.nodes[i]? = some node ∧ node.op = .input pin.name
  /-- Exactly one input pin is bound to an input node. -/
  input_node : ∀ (i : Nat) (node : Node), m.nodes[i]? = some node → ∀ name,
    node.op = .input name → m.inputs.countP (fun pin => pin.index = some i) = 1
  output : ∀ pin ∈ m.outputs, ∃ i < m.size, pin.index = some i
  connected : ∀ i < m.size, ∃ o ∈ m.outputIndices, Reaches m.argsOf o i
  resolved : ∀ node ∈ m.nodes, ∀ word, node.op ≠ .symbol word
  call : ∀ node ∈ m.nodes, ∀ name index, node.op = .call name index →
    ∃ callee, modules[index]? = some callee ∧ callee.name = name ∧
      callee.inputs.length = node.args.length

namespace Circuit

variable {c : Circuit}

theorem WellFormed.valid (h : c.WellFormed) {m : Module} (hm : m ∈ c.modules) :
    m.Valid c.modules := by
  have hn := h.normal m hm
  have hat : ∀ node ∈ m.nodes, ∃ i, m.opAt i = some node.op ∧ m.argsOf i = node.args := by
    intro node hnode
    obtain ⟨i, hi⟩ := List.mem_iff_getElem?.mp hnode
    exact ⟨i, Module.opAt_eq_some_iff.mpr ⟨node, hi, rfl⟩, Module.argsOf_eq hi⟩
  refine ⟨fun i node hi j hj => ?_, fun node hnode op hop => ?_, fun node hnode name hop => ?_,
    fun pin hpin i hi => Module.opAt_eq_some_iff.mp (hn.input_pin pin hpin i hi),
    fun i node hi name hop => hn.input_node i name (Module.opAt_eq_some_iff.mpr ⟨node, hi, hop⟩),
    hn.output, hn.connected, fun node hnode word hop => ?_, fun node hnode name index hop => ?_⟩
  · have hj' : j ∈ m.argsOf i := Module.mem_argsOf_iff.mpr ⟨node, hi, hj⟩
    exact ⟨Module.isSorted_iff.mp hn.sorted i j hj', (hn.within i j hj').2⟩
  · obtain ⟨i, hi, hargs⟩ := hat node hnode
    exact hargs ▸ hn.arity i op (hop ▸ hi)
  · obtain ⟨i, hi, hargs⟩ := hat node hnode
    exact hargs ▸ hn.input_args i name (hop ▸ hi)
  · obtain ⟨i, hi, -⟩ := hat node hnode
    exact h.resolved m hm i word (hop ▸ hi)
  · obtain ⟨i, hi, hargs⟩ := hat node hnode
    obtain ⟨-, callee, hcallee, hname, hinputs⟩ := h.call m hm i name index (hop ▸ hi)
    exact ⟨callee, hcallee, hname, hargs ▸ hinputs⟩

/-- In every circuit that is read or drawn at random, and then evaluated and mutated any number of
times, names are distinct, the entry has the three color outputs and the other modules have one,
all modules are valid, and no module reaches itself through calls. -/
theorem Reachable.invariants (h : c.Reachable) :
    (c.modules.map (·.name)).Nodup ∧
      (∃ m ∈ c.modules, m.name = "" ∧ m.outputs.map (·.name) = ['r', 'g', 'b']) ∧
      (∀ m ∈ c.modules, m.name ≠ "" → m.outputs.length = 1) ∧
      (∀ m ∈ c.modules, m.Valid c.modules) ∧ Acyclic (callGraph c.modules) := by
  have hwf := h.wellFormed
  refine ⟨hwf.names ▸ hwf.distinct, ?_, hwf.single, fun m hm => hwf.valid hm, hwf.acyclic⟩
  obtain ⟨m, hm, hname, hout⟩ := hwf.entry
  refine ⟨m, List.mem_of_getElem? hm, hname, ?_⟩
  have := congrArg String.toList hout
  simpa [Module.outputNames, entryOutputNames] using this

end Circuit

/-! ## A circuit with a call -/

namespace Module

/-- A module of one operation on its input. -/
def unary (name : String) (op : Op) (outputs : List Char) : Module where
  name
  nodes := [.ofOp op [1], .ofOp (.input 'x') []]
  inputs := [⟨'x', some 1⟩]
  outputs := outputs.map fun output => ⟨output, some 0⟩

/-- A module of one operation is in normal form already. -/
theorem normalize_unary {name : String} {op : Op} {outputs : List Char}
    (hm : (unary name op outputs).Formed) (hne : outputs ≠ []) :
    (unary name op outputs).normalize = .ok (unary name op outputs) := by
  have hsorted : (unary name op outputs).isSorted = true := rfl
  have hranked : (unary name op outputs).RankSorted := by
    intro i j hij hj r s _ hs
    have hlt : j < 2 := hj
    obtain rfl : j = 1 := by omega
    cases hs
    exact Nat.zero_le r
  obtain ⟨output, hout⟩ := List.exists_mem_of_ne_nil outputs hne
  have h0 : 0 ∈ (unary name op outputs).outputIndices :=
    mem_outputIndices_iff.mpr ⟨_, List.mem_map_of_mem hout, rfl⟩
  refine hranked.normalize_eq hm.within hm.pinsInRange (acyclic_of_isSorted hm.within hsorted)
    fun i hi => ?_
  have hlt : i < 2 := hi
  rcases (by omega : i = 0 ∨ i = 1) with rfl | rfl
  · exact ⟨0, h0, .refl⟩
  · exact ⟨0, h0, .single (List.mem_singleton_self 1)⟩

end Module

namespace Circuit

/-- An entry that calls a module of this name. -/
def calling (word : String) : Circuit where
  modules := [.unary "" (.call word 1) ['r', 'g', 'b'], .unary word (.prim .inv) ['a']]
  names := ["", word]
  noise := .standard

theorem checkCallGraph_calling (word : String) :
    checkCallGraph (calling word).modules = .ok () := by
  have hsearch : search (calling word).modules [.active, .new] [(0, [1])] = .ok [.done, .done] := by
    rw [search]
    show search _ [.active, .active] [(1, []), (0, [])] = _
    rw [search, search, search]
    rfl
  have hfirst : searchFrom (calling word).modules [.new, .new] 0 = .ok [.done, .done] := hsearch
  have hall : (List.range (calling word).modules.length).foldlM (searchFrom (calling word).modules)
      (List.replicate (calling word).modules.length .new) = .ok [.done, .done] := by
    show (searchFrom (calling word).modules [.new, .new] 0 >>= fun visits =>
      searchFrom (calling word).modules visits 1 >>= pure) = _
    rw [hfirst]
    rfl
  rw [checkCallGraph, hall]
  rfl

/-- The circuit is read if its modules are parsed and their words are found. -/
theorem read_calling {word text : String} (first second : String)
    (hparts : Text.splitAll ';' text.toList = [first.toList, second.toList])
    (hentry : Module.parseChars first.toList = .ok (.unary "" (.symbol word) ['r', 'g', 'b']))
    (hcallee : Module.parseChars second.toList = .ok (.unary word (.prim .inv) ['a']))
    (hcompose : compose [.unary "" (.symbol word) ['r', 'g', 'b'], .unary word (.prim .inv) ['a']] =
      (checkCallGraph (calling word).modules >>= fun _ => .ok (calling word))) :
    Circuit.read text = .ok (calling word) := by
  have hread : readPart first.toList = .ok (.unary "" (.symbol word) ['r', 'g', 'b']) := by
    rw [readPart, hentry]
    exact Module.normalize_unary (Module.formed_of_parseChars hentry).1 (by decide)
  have hread' : readPart second.toList = .ok (.unary word (.prim .inv) ['a']) := by
    rw [readPart, hcallee]
    exact Module.normalize_unary (Module.formed_of_parseChars hcallee).1 (by decide)
  rw [Circuit.read, hparts, List.mapM_cons, List.mapM_cons, List.mapM_nil, hread, hread']
  refine Eq.trans hcompose ?_
  rw [checkCallGraph_calling]
  rfl

/-- What `(rgb)(x)[rgb:f 1|x];(a)f(x)[a:inv 1|x]` describes. -/
def unaryCircuit : Circuit where
  modules := [.unary "" (.call "f" 1) ['r', 'g', 'b'], .unary "f" (.prim .inv) ['a']]
  names := ["", "f"]
  noise := .standard

theorem read_unaryCircuit :
    Circuit.read "(rgb)(x)[rgb:f 1|x];(a)f(x)[a:inv 1|x]" = .ok unaryCircuit := by
  have hread : Circuit.read "(rgb)(x)[rgb:f 1|x];(a)f(x)[a:inv 1|x]" = .ok (calling "f") :=
    read_calling "(rgb)(x)[rgb:f 1|x]" "(a)f(x)[a:inv 1|x]" rfl rfl rfl rfl
  exact hread

theorem reachable_unaryCircuit : unaryCircuit.Reachable :=
  .read read_unaryCircuit

/-- A circuit with a call, evaluated and then mutated. -/
theorem invariants_unaryCircuit_mutated :
    ∃ c, c = ((unaryCircuit.eval [0.5]).2.mutate .standard (ChaCha.ofSeed 1)).1.2 ∧ c.Reachable ∧
      (c.modules.map (·.name)).Nodup ∧
      (∃ m ∈ c.modules, m.name = "" ∧ m.outputs.map (·.name) = ['r', 'g', 'b']) ∧
      (∀ m ∈ c.modules, m.name ≠ "" → m.outputs.length = 1) ∧
      (∀ m ∈ c.modules, m.Valid c.modules) ∧ Acyclic (callGraph c.modules) := by
  have hc : ((unaryCircuit.eval [0.5]).2.mutate .standard (ChaCha.ofSeed 1)).1.2.Reachable :=
    .mutate (.eval reachable_unaryCircuit [0.5]) _ _
  exact ⟨_, rfl, hc, hc.invariants⟩

end Circuit

end ImageCircuit
