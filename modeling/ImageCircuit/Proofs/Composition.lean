import ImageCircuit.Proofs.FirstPins
import ImageCircuit.Proofs.Reachable
import ImageCircuit.Proofs.Refusals

/-!
# Which programs are accepted

What makes modules a program can be said of the modules as they are written: of their names and
pins, and of the words that their outputs need. Words that no output needs do not count, since
normalization drops them before words are looked up.

* `WellComposed`: what makes some modules a program
* `Circuit.exists_compose_iff`: which modules in normal form are accepted
* `Circuit.read_ok_iff_wellComposed`: which texts are accepted
-/

namespace ImageCircuit

open Relation

namespace Module

/-- Some output names node `i` or depends on it. -/
def Live (m : Module) (i : Nat) : Prop :=
  ∃ o ∈ m.outputIndices, Reaches m.argsOf o i

/-- The outputs need a node that is this word with as many arguments. -/
def Uses (m : Module) (word : String) (count : Nat) : Prop :=
  ∃ i, m.Live i ∧ m.opAt i = some (.symbol word) ∧ (m.argsOf i).length = count

end Module

/-- Some output of the one module needs the name of the other. -/
def Calls (modules : List Module) (caller callee : String) : Prop :=
  ∃ m ∈ modules, m.name = caller ∧ ∃ count, m.Uses callee count

/-- The modules make a program. -/
structure WellComposed (modules : List Module) : Prop where
  distinct : (modules.map (·.name)).Nodup
  entry : ∃ m ∈ modules, m.name = "" ∧ m.outputs.map (·.name) = ['r', 'g', 'b']
  single : ∀ m ∈ modules, m.name ≠ "" → m.outputs.length = 1
  call : ∀ m ∈ modules, ∀ word count, m.Uses word count →
    ∃ callee ∈ modules, callee.name = word ∧ callee.inputs.length = count
  acyclic : ∀ name, ¬ TransGen (Calls modules) name name

/-! ## Normal forms -/

namespace Module

variable {m m' : Module}

/-- Nothing that makes modules a program tells the two modules apart. -/
structure SameUse (m m' : Module) : Prop where
  name : m'.name = m.name
  inputs : m'.inputs.length = m.inputs.length
  outputs : m'.outputs.map (·.name) = m.outputs.map (·.name)
  uses : ∀ word count, m'.Uses word count ↔ m.Uses word count

theorem SameUse.symm (h : m.SameUse m') : m'.SameUse m :=
  ⟨h.name.symm, h.inputs.symm, h.outputs.symm, fun word count => (h.uses word count).symm⟩

/-- In a normal form all nodes are needed. -/
theorem Connected.uses_iff (h : m.Connected) {word : String} {count : Nat} :
    m.Uses word count ↔ ∃ i, m.opAt i = some (.symbol word) ∧ (m.argsOf i).length = count :=
  exists_congr fun i => ⟨And.right, fun hi => ⟨h i (lt_of_opAt hi.1), hi⟩⟩

/-- Normalization keeps the words that outputs need, with their arguments. -/
theorem Formed.sameUse_of_normalize (hm : m.Formed) (hac : Acyclic m.argsOf)
    (hnorm : m.normalize = .ok m') : m.SameUse m' := by
  obtain ⟨order, hnorm', h, hmem, -⟩ := normalize_eq hm.within hm.pinsInRange hac
  obtain ⟨m'', hnorm'', hnormal, -⟩ := hm.normalize hac
  obtain rfl := Except.ok.inj (hnorm.symm.trans hnorm'')
  obtain rfl := Except.ok.inj (hnorm.symm.trans hnorm')
  refine ⟨rfl, List.length_map _, ?_, fun word count => ?_⟩
  · rw [outputs_relayout, List.map_map]
    rfl
  · rw [hnormal.connected.uses_iff]
    constructor
    · rintro ⟨k, hop, hcount⟩
      obtain ⟨i, hi, rfl⟩ := exists_of_lt_size_relayout h (lt_of_opAt hop)
      rw [opAt_relayout h hi] at hop
      rw [argsOf_relayout h hi, List.length_map] at hcount
      exact ⟨i, (hmem i).mp hi, hop, hcount⟩
    · rintro ⟨i, hlive, hop, hcount⟩
      have hi := (hmem i).mpr hlive
      refine ⟨newPosition order i, (opAt_relayout h hi).trans hop, ?_⟩
      rw [argsOf_relayout h hi, List.length_map, hcount]

end Module

theorem WellComposed.of_sameUse {sources modules : List Module} (h : WellComposed sources)
    (hsame : List.Forall₂ Module.SameUse sources modules) : WellComposed modules where
  distinct := by
    rw [Circuit.map_name_of_forall₂ hsame fun _ _ h => h.name]
    exact h.distinct
  entry := by
    obtain ⟨m, hm, hname, houtputs⟩ := h.entry
    obtain ⟨m', hm', hmm'⟩ := exists_mem_of_forall₂ hsame.flip hm
    exact ⟨m', hm', hmm'.name.trans hname, hmm'.outputs.trans houtputs⟩
  single m' hm' hname := by
    obtain ⟨m, hm, hmm'⟩ := exists_mem_of_forall₂ hsame hm'
    have hlen := congrArg List.length hmm'.outputs
    rw [List.length_map, List.length_map] at hlen
    exact hlen.trans (h.single m hm (hmm'.name ▸ hname))
  call m' hm' word count huses := by
    obtain ⟨m, hm, hmm'⟩ := exists_mem_of_forall₂ hsame hm'
    obtain ⟨callee, hcallee, hname, hinputs⟩ :=
      h.call m hm word count ((hmm'.uses word count).mp huses)
    obtain ⟨callee', hcallee', hcc'⟩ := exists_mem_of_forall₂ hsame.flip hcallee
    exact ⟨callee', hcallee', hcc'.name.trans hname, hcc'.inputs.trans hinputs⟩
  acyclic name hcycle := by
    refine h.acyclic name (TransGen.mono (fun caller callee hcalls => ?_) name name hcycle)
    obtain ⟨m', hm', hname, count, huses⟩ := hcalls
    obtain ⟨m, hm, hmm'⟩ := exists_mem_of_forall₂ hsame hm'
    exact ⟨m, hm, hmm'.name.symm.trans hname, count, (hmm'.uses callee count).mp huses⟩

theorem wellComposed_iff_of_sameUse {sources modules : List Module}
    (hsame : List.Forall₂ Module.SameUse sources modules) :
    WellComposed sources ↔ WellComposed modules :=
  ⟨fun h => h.of_sameUse hsame, fun h => h.of_sameUse (hsame.flip.imp fun _ _ h => h.symm)⟩

/-! ## Looking words up -/

section

variable {modules modules' : List Module} {names : List String} {counts : List Nat} {node : Node}

theorem exists_resolveNode_iff :
    (∃ node', resolveNode names counts node = .ok node') ↔
      ∀ word, node.op = .symbol word →
        ∃ i, names.idxOf? word = some i ∧ counts.getD i 0 = node.args.length := by
  unfold resolveNode
  split
  · next name hop =>
    have hword : ∀ P : String → Prop, (∀ word, node.op = .symbol word → P word) ↔ P name := by
      intro P
      simp [hop]
    rw [hword]
    split
    · next hnone => simp [hnone]
    · next i hi =>
      dsimp only
      split
      · next hlen => exact iff_of_true ⟨_, rfl⟩ ⟨i, hi, hlen⟩
      · next hlen =>
        refine iff_of_false nofun ?_
        rintro ⟨i', hi', hlen'⟩
        obtain rfl := Option.some.inj (hi.symm.trans hi')
        exact hlen hlen'
  · next hnot => exact iff_of_true ⟨node, rfl⟩ fun word hop => absurd hop (hnot word)

/-- Distinct modules are found by their names. -/
theorem exists_idxOf?_name_iff (hdistinct : (modules.map (·.name)).Nodup) {word : String}
    {count : Nat} :
    (∃ i, (modules.map (·.name)).idxOf? word = some i ∧
      (modules.map (·.inputs.length)).getD i 0 = count) ↔
      ∃ callee ∈ modules, callee.name = word ∧ callee.inputs.length = count := by
  constructor
  · rintro ⟨i, hi, hcount⟩
    obtain ⟨callee, hcallee, hname⟩ :=
      Option.map_eq_some_iff.mp (List.getElem?_map.symm.trans (Module.getElem?_of_idxOf? hi))
    refine ⟨callee, List.mem_of_getElem? hcallee, hname, ?_⟩
    simpa [hcallee] using hcount
  · rintro ⟨callee, hmem, rfl, rfl⟩
    obtain ⟨i, hi⟩ := List.mem_iff_getElem?.mp hmem
    exact ⟨i, Module.idxOf?_of_nodup hdistinct (by simp [hi]), by simp [hi]⟩

/-- Words are looked up successfully exactly if they name modules with as many inputs as they have
arguments. -/
theorem exists_resolveCalls_iff (hdistinct : (modules.map (·.name)).Nodup) :
    (∃ modules', resolveCalls modules = .ok modules') ↔
      ∀ m ∈ modules, ∀ i word, m.opAt i = some (.symbol word) →
        ∃ callee ∈ modules, callee.name = word ∧ callee.inputs.length = (m.argsOf i).length := by
  rw [resolveCalls, exists_mapM_eq_ok_iff]
  refine forall₂_congr fun m _ => ?_
  have hmodule : ∀ names counts, (∃ m', resolveModule names counts m = .ok m') ↔
      ∃ nodes, m.nodes.mapM (resolveNode names counts) = .ok nodes := by
    intro names counts
    simp only [resolveModule, bind_eq_ok_iff]
    exact ⟨fun ⟨_, nodes, hnodes, _⟩ => ⟨nodes, hnodes⟩,
      fun ⟨nodes, hnodes⟩ => ⟨_, nodes, hnodes, rfl⟩⟩
  simp only [hmodule, exists_mapM_eq_ok_iff, exists_resolveNode_iff,
    exists_idxOf?_name_iff hdistinct]
  constructor
  · intro h i word hop
    obtain ⟨node, hnode, hop⟩ := Module.opAt_eq_some_iff.mp hop
    rw [Module.argsOf_eq hnode]
    exact h node (List.mem_of_getElem? hnode) word hop
  · intro h node hnode word hop
    obtain ⟨i, hi⟩ := List.mem_iff_getElem?.mp hnode
    rw [← Module.argsOf_eq hi]
    exact h i word (Module.opAt_eq_some_iff.mpr ⟨node, hi, hop⟩)

/-- The calls that words have become. -/
theorem mem_callGraph_resolved_iff (hdistinct : (modules.map (·.name)).Nodup)
    (hwritten : ∀ m ∈ modules, m.Written) (hok : resolveCalls modules = .ok modules') {k j : Nat} :
    j ∈ callGraph modules' k ↔ ∃ m callee, modules[k]? = some m ∧ modules[j]? = some callee ∧
      ∃ i, m.opAt i = some (.symbol callee.name) := by
  have hall := forall₂_of_mapM_eq_ok hok
  rw [mem_callGraph_iff]
  constructor
  · rintro ⟨m', hm', hmem⟩
    obtain ⟨i, word, hop⟩ := Module.mem_callees_iff.mp hmem
    obtain ⟨m, hm, hres⟩ := exists_getElem?_of_forall₂ hall hm'
    rcases (resolves_of_resolveModule hres).2.2 i word j hop with hcall | ⟨hsymbol, hidx, -⟩
    · exact absurd (hwritten m (List.mem_of_getElem? hm) i _ hcall) id
    · obtain ⟨callee, hcallee, rfl⟩ :=
        Option.map_eq_some_iff.mp (List.getElem?_map.symm.trans (Module.getElem?_of_idxOf? hidx))
      exact ⟨m, callee, hm, hcallee, i, hsymbol⟩
  · rintro ⟨m, callee, hm, hcallee, i, hop⟩
    obtain ⟨m', hm', hres⟩ := exists_getElem?_of_forall₂ hall.flip hm
    obtain ⟨hresolves, hnone, hcall⟩ := resolves_of_resolveModule hres
    obtain ⟨node, hnode, hop⟩ := Module.opAt_eq_some_iff.mp hop
    obtain ⟨node', hnode', hstep⟩ := exists_getElem?_of_forall₂ hresolves.nodes.flip hnode
    rcases hstep with rfl | ⟨word, index, hword, rfl⟩
    · exact absurd (Module.opAt_eq_some_iff.mpr ⟨_, hnode', hop⟩) (hnone i _)
    · obtain rfl := Op.symbol.inj (hop.symm.trans hword)
      have hop' : m'.opAt i = some (.call callee.name index) :=
        Module.opAt_eq_some_iff.mpr ⟨_, hnode', rfl⟩
      rcases hcall i _ _ hop' with hcall | ⟨-, hidx, -⟩
      · exact absurd (hwritten m (List.mem_of_getElem? hm) i _ hcall) id
      · have hj : (modules.map (·.name)).idxOf? callee.name = some j :=
          Module.idxOf?_of_nodup hdistinct (by simp [hcallee])
        obtain rfl := Option.some.inj (hj.symm.trans hidx)
        exact ⟨m', hm', Module.mem_callees_iff.mpr ⟨i, _, hop'⟩⟩

end

section

variable {next : Nat → List Nat} {names : List String} {R : String → String → Prop}

/-- A path from place to place is one from name to name. -/
theorem transGen_of_precedes
    (hnext : ∀ k j, j ∈ next k ↔ ∃ a b, names[k]? = some a ∧ names[j]? = some b ∧ R a b)
    {k j : Nat} (hkj : Precedes next k j) :
    ∃ a b, names[k]? = some a ∧ names[j]? = some b ∧ TransGen R a b := by
  induction hkj with
  | single hmem =>
    obtain ⟨a, b, ha, hb, hab⟩ := (hnext _ _).mp hmem
    exact ⟨a, b, ha, hb, .single hab⟩
  | tail _ hmem ih =>
    obtain ⟨a, b, ha, hb, hab⟩ := ih
    obtain ⟨b', c, hb', hc, hbc⟩ := (hnext _ _).mp hmem
    obtain rfl := Option.some.inj (hb.symm.trans hb')
    exact ⟨a, c, ha, hc, hab.tail hbc⟩

/-- A path from name to name is one from place to place if the names are distinct. -/
theorem precedes_of_transGen (hdistinct : names.Nodup)
    (hnext : ∀ k j, j ∈ next k ↔ ∃ a b, names[k]? = some a ∧ names[j]? = some b ∧ R a b)
    (hR : ∀ a b, R a b → a ∈ names ∧ b ∈ names) {a b : String} (hab : TransGen R a b) :
    ∃ k j, names[k]? = some a ∧ names[j]? = some b ∧ Precedes next k j := by
  have hedge : ∀ {a b}, R a b → ∃ k j, names[k]? = some a ∧ names[j]? = some b ∧ j ∈ next k := by
    intro a b hab
    obtain ⟨k, hk⟩ := List.mem_iff_getElem?.mp (hR a b hab).1
    obtain ⟨j, hj⟩ := List.mem_iff_getElem?.mp (hR a b hab).2
    exact ⟨k, j, hk, hj, (hnext k j).mpr ⟨a, b, hk, hj, hab⟩⟩
  induction hab with
  | single hab =>
    obtain ⟨k, j, hk, hj, hmem⟩ := hedge hab
    exact ⟨k, j, hk, hj, .single hmem⟩
  | tail _ hbc ih =>
    obtain ⟨k, j, hk, hj, hkj⟩ := ih
    obtain ⟨j', l, hj', hl, hmem⟩ := hedge hbc
    obtain rfl := Module.eq_of_getElem? hdistinct hj hj'
    exact ⟨k, l, hk, hl, hkj.tail hmem⟩

/-- A graph of places has no cycle exactly if the relation of their distinct names has none. -/
theorem acyclic_iff_of_names (hdistinct : names.Nodup)
    (hnext : ∀ k j, j ∈ next k ↔ ∃ a b, names[k]? = some a ∧ names[j]? = some b ∧ R a b)
    (hR : ∀ a b, R a b → a ∈ names ∧ b ∈ names) :
    Acyclic next ↔ ∀ a, ¬ TransGen R a a := by
  constructor
  · intro hac a ha
    obtain ⟨k, j, hk, hj, hkj⟩ := precedes_of_transGen hdistinct hnext hR ha
    obtain rfl := Module.eq_of_getElem? hdistinct hk hj
    exact hac k hkj
  · intro hac k hk
    obtain ⟨a, b, ha, hb, hab⟩ := transGen_of_precedes hnext hk
    obtain rfl := Option.some.inj (ha.symm.trans hb)
    exact hac a hab

end

namespace Circuit

variable {modules modules' : List Module}

/-! ## Composing -/

theorem checkEntry_eq_ok_iff (hdistinct : (modules.map (·.name)).Nodup) :
    checkEntry modules = .ok () ↔
      ∃ m ∈ modules, m.name = "" ∧ m.outputs.map (·.name) = ['r', 'g', 'b'] := by
  have hrgb : ∀ names : List Char,
      String.ofList names = entryOutputNames ↔ names = ['r', 'g', 'b'] :=
    fun names => @String.ofList_inj names ['r', 'g', 'b']
  constructor
  · intro h
    obtain ⟨m, hm, hname, houtputs⟩ := entry_of_checkEntry h hdistinct
    exact ⟨m, List.mem_of_getElem? hm, hname, (hrgb _).mp houtputs⟩
  · rintro ⟨m, hm, hname, houtputs⟩
    have hfind : modules.find? (·.name = entryName) = some m := by
      cases hsome : modules.find? (·.name = entryName) with
      | none => exact absurd (decide_eq_true hname) (List.find?_eq_none.mp hsome m hm)
      | some m' =>
        have hname' : m'.name = entryName := by simpa using List.find?_some hsome
        exact congrArg some (List.inj_on_of_nodup_map hdistinct
          (List.mem_of_find?_eq_some hsome) hm (hname'.trans hname.symm))
    rw [checkEntry, hfind]
    exact if_pos ((hrgb _).mpr houtputs)

theorem checkOutputs_eq_ok_iff :
    checkOutputs modules = .ok () ↔ ∀ m ∈ modules, m.name ≠ "" → m.outputs.length = 1 := by
  refine ⟨single_of_checkOutputs, fun h => ?_⟩
  have hfind : modules.find? (fun m => !m.isEntry && m.outputs.length ≠ 1) = none := by
    rw [List.find?_eq_none]
    intro m hm
    by_cases hname : m.name = ""
    · simp [Module.isEntry, hname]
    · simp [h m hm hname]
  rw [checkOutputs, hfind]

/-- In normal forms the words that outputs need are all words. -/
theorem forall_symbol_iff (hnormal : ∀ m ∈ modules, m.Normal) :
    (∀ m ∈ modules, ∀ i word, m.opAt i = some (.symbol word) →
        ∃ callee ∈ modules, callee.name = word ∧ callee.inputs.length = (m.argsOf i).length) ↔
      ∀ m ∈ modules, ∀ word count, m.Uses word count →
        ∃ callee ∈ modules, callee.name = word ∧ callee.inputs.length = count := by
  refine forall₂_congr fun m hm => ?_
  simp only [(hnormal m hm).connected.uses_iff]
  constructor
  · rintro h word count ⟨i, hop, rfl⟩
    exact h i word hop
  · exact fun h i word hop => h word _ ⟨i, hop, rfl⟩

/-- The calls that words have become close a cycle exactly if the names do. -/
theorem checkCallGraph_resolved_iff (hnormal : ∀ m ∈ modules, m.Normal)
    (hwritten : ∀ m ∈ modules, m.Written) (hdistinct : (modules.map (·.name)).Nodup)
    (hresolve : resolveCalls modules = .ok modules') :
    checkCallGraph modules' = .ok () ↔ ∀ name, ¬ TransGen (Calls modules) name name := by
  rw [checkCallGraph_eq_ok_iff (within_callGraph_of_resolveCalls hwritten hresolve)]
  refine acyclic_iff_of_names hdistinct (fun k j => ?_) fun caller callee hcalls => ?_
  · rw [mem_callGraph_resolved_iff hdistinct hwritten hresolve]
    constructor
    · rintro ⟨m, callee, hm, hcallee, i, hop⟩
      have hmem := List.mem_of_getElem? hm
      exact ⟨m.name, callee.name, by simp [hm], by simp [hcallee], m, hmem, rfl, _,
        (hnormal m hmem).connected.uses_iff.mpr ⟨i, hop, rfl⟩⟩
    · rintro ⟨_, _, hk, hj, m, hmem, rfl, count, huses⟩
      obtain ⟨m', hm', hname⟩ := Option.map_eq_some_iff.mp (List.getElem?_map.symm.trans hk)
      obtain ⟨callee, hcallee, rfl⟩ :=
        Option.map_eq_some_iff.mp (List.getElem?_map.symm.trans hj)
      obtain rfl :=
        List.inj_on_of_nodup_map hdistinct (List.mem_of_getElem? hm') hmem hname
      obtain ⟨i, hop, -⟩ := (hnormal m' hmem).connected.uses_iff.mp huses
      exact ⟨m', callee, hm', hcallee, i, hop⟩
  · obtain ⟨m, hm, rfl, count, huses⟩ := hcalls
    obtain ⟨callee, hcallee, rfl, -⟩ := (forall_symbol_iff hnormal).mp
      ((exists_resolveCalls_iff hdistinct).mp ⟨modules', hresolve⟩) m hm _ count huses
    exact ⟨List.mem_map_of_mem hm, List.mem_map_of_mem hcallee⟩

/-- Modules in normal form are accepted exactly if they are well-composed. -/
theorem exists_compose_iff (hnormal : ∀ m ∈ modules, m.Normal)
    (hwritten : ∀ m ∈ modules, m.Written) :
    (∃ c, compose modules = .ok c) ↔ WellComposed modules := by
  simp only [compose_eq_ok_iff]
  constructor
  · rintro ⟨c, hdistinct, hentry, houtputs, modules', hresolve, hcheck, -⟩
    have hcall := (exists_resolveCalls_iff hdistinct).mp ⟨modules', hresolve⟩
    exact ⟨hdistinct, (checkEntry_eq_ok_iff hdistinct).mp hentry,
      checkOutputs_eq_ok_iff.mp houtputs, (forall_symbol_iff hnormal).mp hcall,
      (checkCallGraph_resolved_iff hnormal hwritten hdistinct hresolve).mp hcheck⟩
  · intro h
    obtain ⟨modules', hresolve⟩ :=
      (exists_resolveCalls_iff h.distinct).mpr ((forall_symbol_iff hnormal).mpr h.call)
    exact ⟨_, h.distinct, (checkEntry_eq_ok_iff h.distinct).mpr h.entry,
      checkOutputs_eq_ok_iff.mpr h.single, modules', hresolve,
      (checkCallGraph_resolved_iff hnormal hwritten h.distinct hresolve).mpr h.acyclic, rfl⟩

/-! ## Reading -/

/-- A part is accepted exactly if it is a module whose arguments close no cycle. -/
theorem readPart_eq_ok_iff {part : List Char} {m : Module} :
    readPart part = .ok m ↔
      ∃ source, Module.parseChars part = .ok source ∧
        source.Formed ∧ Acyclic source.argsOf ∧ source.normalize = .ok m := by
  rw [readPart, bind_eq_ok_iff]
  refine exists_congr fun source => and_congr_right fun hparse => ?_
  have hformed := (Module.formed_of_parseChars hparse).1
  refine ⟨fun hnorm => ⟨hformed, ?_, hnorm⟩, fun h => h.2.2⟩
  by_contra hcycle
  obtain ⟨n, herr⟩ := hformed.normalize_error hcycle
  cases herr.symm.trans hnorm

/-- The parts are accepted exactly if all of them are such modules. -/
theorem mapM_readPart_eq_ok_iff {parts : List (List Char)} :
    parts.mapM readPart = .ok modules ↔
      ∃ sources, List.Forall₂ (fun part m => Module.parseChars part = .ok m) parts sources ∧
        List.Forall₂ (fun source m => source.Formed ∧ Acyclic source.argsOf ∧
          source.normalize = .ok m) sources modules := by
  rw [mapM_eq_ok_iff, ← forall₂_comp_iff]
  simp only [readPart_eq_ok_iff]

/-- A text is accepted exactly if its parts are modules without cycles of arguments that make a
program. Whatever else it is, it is refused with an error that it is to blame for. -/
theorem read_ok_iff_wellComposed (text : String) :
    ((∃ c, read text = .ok c) ↔
      ∃ sources, List.Forall₂ (fun part m => Module.parseChars part = .ok m)
        (Text.splitAll ';' text.toList) sources ∧
        (∀ m ∈ sources, Acyclic m.argsOf) ∧ WellComposed sources) ∧
    ∀ e, read text = .error e → e.isUserError = true := by
  have hread : ∀ modules, (Text.splitAll ';' text.toList).mapM readPart = .ok modules →
      ∀ m ∈ modules, m.Normal ∧ m.Written := by
    intro modules hmap m hm
    obtain ⟨part, -, hpart⟩ := exists_mem_of_forall₂ (mapM_eq_ok_iff.mp hmap) hm
    exact normal_of_readPart hpart
  have hcompose : ∀ modules, (Text.splitAll ';' text.toList).mapM readPart = .ok modules →
      ((∃ c, compose modules = .ok c) ↔ WellComposed modules) := fun modules hmap =>
    exists_compose_iff (fun m hm => (hread modules hmap m hm).1) fun m hm =>
      (hread modules hmap m hm).2
  constructor
  · simp only [read, bind_eq_ok_iff]
    constructor
    · rintro ⟨c, modules, hmap, hc⟩
      obtain ⟨sources, hsources, hnorm⟩ := mapM_readPart_eq_ok_iff.mp hmap
      have hsame := hnorm.imp fun _ _ h => h.1.sameUse_of_normalize h.2.1 h.2.2
      refine ⟨sources, hsources, fun source hsource => ?_,
        (wellComposed_iff_of_sameUse hsame).mpr ((hcompose modules hmap).mp ⟨c, hc⟩)⟩
      obtain ⟨m, -, -, hac, -⟩ := exists_mem_of_forall₂ hnorm.flip hsource
      exact hac
    · rintro ⟨sources, hsources, hac, hcomposed⟩
      have hnormalizes : ∀ source ∈ sources,
          ∃ m, source.Formed ∧ Acyclic source.argsOf ∧ source.normalize = .ok m := by
        intro source hsource
        obtain ⟨part, -, hparse⟩ := exists_mem_of_forall₂ hsources hsource
        have hformed := (Module.formed_of_parseChars hparse).1
        obtain ⟨m, hm, -⟩ := hformed.normalize (hac source hsource)
        exact ⟨m, hformed, hac source hsource, hm⟩
      obtain ⟨modules, hnorm⟩ := exists_forall₂ hnormalizes
      have hmap := mapM_readPart_eq_ok_iff.mpr ⟨sources, hsources, hnorm⟩
      have hsame := hnorm.imp fun _ _ h => h.1.sameUse_of_normalize h.2.1 h.2.2
      obtain ⟨c, hc⟩ :=
        (hcompose modules hmap).mpr ((wellComposed_iff_of_sameUse hsame).mp hcomposed)
      exact ⟨c, modules, hmap, hc⟩
  · refine UserErrors.bind (.mapM fun part _ => userErrors_readPart part) fun modules hmap => ?_
    exact userErrors_compose fun m hm => (hread modules hmap m hm).2

end Circuit

end ImageCircuit
