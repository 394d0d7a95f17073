import ImageCircuit.Proofs.Evolution
import Mathlib.Data.List.OfFn

/-!
# The order of modules

Calls are resolved to places, so circuits of the same modules in different orders differ in their
calls. What text says of their modules is the same, and a call leads to the module of its name in
either.

* `WellComposed.perm`: whether modules make a program does not depend on their order
* `Circuit.SameSources`: circuits whose modules have the same texts up to a permutation
* `Circuit.SameSources.eval_eq`: they are evaluated to the same values
* `Circuit.read_reordered`: texts of modules may be joined in any order
-/

namespace ImageCircuit

open Relation

/-! ## Functions and lists -/

theorem forall₂_ofFn_iff {α β : Type} {R : α → β → Prop} {n : Nat} {f : Fin n → α} {ys : List β} :
    List.Forall₂ R (List.ofFn f) ys ↔ ∃ g, ys = List.ofFn g ∧ ∀ i, R (f i) (g i) := by
  constructor
  · intro h
    have hlen : ys.length = n := by rw [← h.length_eq, List.length_ofFn]
    subst hlen
    refine ⟨ys.get, (List.ofFn_get ys).symm, fun i => ?_⟩
    have hget := (List.forall₂_iff_get.mp h).2 i (by simp) i.isLt
    simpa using hget
  · rintro ⟨g, rfl, h⟩
    rw [List.forall₂_iff_get]
    refine ⟨by simp, fun i hi _ => ?_⟩
    simpa using h ⟨i, by simpa using hi⟩

/-! ## Programs -/

theorem WellComposed.perm {modules modules' : List Module} (h : WellComposed modules)
    (hperm : modules'.Perm modules) : WellComposed modules' where
  distinct := (hperm.map _).nodup_iff.mpr h.distinct
  entry := by
    obtain ⟨m, hm, hentry⟩ := h.entry
    exact ⟨m, hperm.mem_iff.mpr hm, hentry⟩
  single m hm := h.single m (hperm.mem_iff.mp hm)
  call m hm word count huses := by
    obtain ⟨callee, hcallee, hfits⟩ := h.call m (hperm.mem_iff.mp hm) word count huses
    exact ⟨callee, hperm.mem_iff.mpr hcallee, hfits⟩
  acyclic name hcycle := by
    refine h.acyclic name (TransGen.mono (fun caller callee hcalls => ?_) name name hcycle)
    obtain ⟨m, hm, hcalls⟩ := hcalls
    exact ⟨m, hperm.mem_iff.mp hm, hcalls⟩

/-! ## Sources -/

theorem Node.args_eq_of_source {node node' : Node} (h : node'.source = node.source) :
    node'.args = node.args := by
  rw [← show node'.source.args = node'.args from rfl, h, source, unevaluated]

namespace Module

variable {m m' : Module}

theorem Resolves.source_eq (h : m.Resolves m') : m'.source = m.source := by
  have hnodes : m'.nodes.map Node.source = m.nodes.map Node.source := by
    rw [← List.forall₂_eq_eq_eq, List.forall₂_map_left_iff, List.forall₂_map_right_iff]
    refine h.nodes.flip.imp fun node' node hstep => ?_
    rcases hstep with rfl | ⟨word, index, hop, rfl⟩
    · rfl
    · simp [Node.source, Node.unevaluated, Node.isConstant, Op.source, hop]
  rw [source, source, hnodes, h.name, h.inputs, h.outputs]

variable {noise : Float → Float → Float} {answer answer' : Nat → List Float → Option Float}
  {values : List Float}

theorem name_eq_of_source (h : m'.source = m.source) : m'.name = m.name := by
  rw [← show m'.source.name = m'.name from rfl, h, source]

theorem inputs_eq_of_source (h : m'.source = m.source) : m'.inputs = m.inputs := by
  rw [← show m'.source.inputs = m'.inputs from rfl, h, source]

theorem outputs_eq_of_source (h : m'.source = m.source) : m'.outputs = m.outputs := by
  rw [← show m'.source.outputs = m'.outputs from rfl, h, source]

/-- Operations of which text says the same mean the same if their calls are answered alike. -/
theorem opMeaning_of_source (hinputs : m'.inputs = m.inputs) {node node' : Node}
    (hsource : node'.source = node.source) (hword : ∀ word, node.op ≠ .symbol word)
    (hword' : ∀ word, node'.op ≠ .symbol word)
    (hanswer : ∀ word k k', node.op = .call word k → node'.op = .call word k' →
      answer' k' = answer k) (i : Nat) :
    m'.opMeaning noise answer' values i node' = m.opMeaning noise answer values i node := by
  have hop : node'.op.source = node.op.source := congrArg Node.op hsource
  have hvalue : (if node'.isConstant then node'.value else 0) =
      if node.isConstant then node.value else 0 := congrArg Node.value hsource
  funext xs
  obtain ⟨op, args, value, computed⟩ := node
  obtain ⟨op', args', value', computed'⟩ := node'
  cases op with
  | prim primitive =>
    obtain rfl : op' = .prim primitive := by cases op' <;> simp_all [Op.source]
    cases primitive <;> first | exact congrArg some hvalue | rfl
  | input name =>
    obtain rfl : op' = .input name := Op.source_eq_input_iff.mp hop
    simp only [opMeaning, hinputs]
  | symbol word => exact absurd rfl (hword word)
  | call word k =>
    cases op' with
    | prim primitive => cases hop
    | input name => cases hop
    | symbol word' => exact absurd rfl (hword' word')
    | call word' k' =>
      obtain rfl := Op.symbol.inj hop
      exact congrFun (hanswer word' k k' rfl rfl) xs

theorem exists_node_of_source (h : m'.source = m.source) {i : Nat} {node : Node}
    (hi : m.nodes[i]? = some node) : ∃ node', m'.nodes[i]? = some node' ∧
      node'.source = node.source := by
  have hnodes : m'.nodes.map Node.source = m.nodes.map Node.source := congrArg Module.nodes h
  have hget : (m'.nodes.map Node.source)[i]? = some node.source := by
    rw [hnodes, List.getElem?_map, hi, Option.map_some]
  rw [List.getElem?_map] at hget
  exact Option.map_eq_some_iff.mp hget

/-- Modules of which text says the same mean the same if their calls are answered alike. -/
theorem meaningWithin_of_source (h : m'.source = m.source)
    (hword : ∀ i word, m.opAt i ≠ some (.symbol word))
    (hword' : ∀ i word, m'.opAt i ≠ some (.symbol word))
    (hanswer : ∀ i word k k', m.opAt i = some (.call word k) → m'.opAt i = some (.call word k') →
      answer' k' = answer k) (depth i : Nat) :
    m'.meaningWithin noise answer' values depth i =
      m.meaningWithin noise answer values depth i := by
  refine meaningWithin_eq_of_forall_sameAt (fun i => ?_) depth i
  unfold SameAt
  cases hi : m.nodes[i]? with
  | none =>
    have hlen : m'.nodes.length = m.nodes.length := by
      simpa [source] using congrArg (fun m => m.nodes.length) h
    have hi' : m'.nodes[i]? = none := by
      rw [List.getElem?_eq_none_iff] at hi ⊢
      rwa [hlen]
    rw [hi']
    exact .none
  | some node =>
    obtain ⟨node', hi', hsource⟩ := exists_node_of_source h hi
    have hop : m.opAt i = some node.op := opAt_eq_some_iff.mpr ⟨node, hi, rfl⟩
    have hop' : m'.opAt i = some node'.op := opAt_eq_some_iff.mpr ⟨node', hi', rfl⟩
    rw [hi']
    refine .some ⟨Node.args_eq_of_source hsource, ?_⟩
    exact opMeaning_of_source (inputs_eq_of_source h) hsource
      (fun word heq => hword i word (heq ▸ hop)) (fun word heq => hword' i word (heq ▸ hop'))
      (fun word k k' heq heq' => hanswer i word k k' (heq ▸ hop) (heq' ▸ hop')) i

theorem meaning_of_source (h : m'.source = m.source)
    (hword : ∀ i word, m.opAt i ≠ some (.symbol word))
    (hword' : ∀ i word, m'.opAt i ≠ some (.symbol word))
    (hanswer : ∀ i word k k', m.opAt i = some (.call word k) → m'.opAt i = some (.call word k') →
      answer' k' = answer k) :
    m'.meaning noise answer' values = m.meaning noise answer values := by
  have hsize : m'.size = m.size := by simpa [source, size] using congrArg Module.size h
  funext i
  rw [meaning, meaning, hsize]
  exact meaningWithin_of_source h hword hword' hanswer m.size i

/-- Text says of a source what it says of the module. -/
theorem text_source (m : Module) : m.source.text = m.text := by
  have hchars : ∀ node : Node, node.source.chars = node.chars := by
    rintro ⟨op, args, value, computed⟩
    cases op with
    | prim primitive => cases primitive <;> rfl
    | input name => rfl
    | symbol word => rfl
    | call word k => rfl
  have hsegments : m.source.segments = m.segments := by
    rw [segments, segments, source, List.zipIdx_map, List.map_map]
    exact List.map_congr_left fun pair _ => congrArg (_ ++ ·) (hchars pair.1)
  exact congrArg (fun segments => String.ofList ('(' :: m.outputs.map (·.name) ++ ')' ::
    m.name.toList ++ '(' :: m.inputs.map (·.name) ++ ')' :: '[' ::
    ['|'].intercalate segments ++ [']'])) hsegments

end Module

namespace Circuit

variable {c c' : Circuit}

/-! ## Circuits of the same modules -/

/-- Text says the same of the modules of both circuits, up to a permutation. -/
def SameSources (c c' : Circuit) : Prop :=
  (c'.modules.map (·.source)).Perm (c.modules.map (·.source))

namespace SameSources

variable {k k' : Nat} {m m' : Module}

theorem length_eq (h : c.SameSources c') : c'.modules.length = c.modules.length := by
  simpa using List.Perm.length_eq h

/-- Text says the same of modules of one name. -/
theorem source_eq (h : c.SameSources c') (hc : c.WellFormed) (hm : m ∈ c.modules)
    (hm' : m' ∈ c'.modules) (hname : m'.name = m.name) : m'.source = m.source := by
  obtain ⟨n, hn, hsource⟩ := List.mem_map.mp (h.mem_iff.mp (List.mem_map_of_mem hm'))
  have hname' := Module.name_eq_of_source hsource
  obtain rfl := List.inj_on_of_nodup_map (hc.names ▸ hc.distinct) hn hm (hname'.trans hname)
  exact hsource.symm

/-- Modules of one name mean the same if modules of one name answer calls alike: the callees of one
word have one name. -/
theorem meaning_eq (h : c.SameSources c') (hc : c.WellFormed) (hc' : c'.WellFormed)
    (hm : m ∈ c.modules) (hm' : m' ∈ c'.modules) (hname : m'.name = m.name)
    {noise : Float → Float → Float} {answer answer' : Nat → List Float → Option Float}
    (hanswer : ∀ (j j' : Nat) (callee callee' : Module), c.modules[j]? = some callee →
      c'.modules[j']? = some callee' → callee'.name = callee.name → answer' j' = answer j)
    (values : List Float) : m'.meaning noise answer' values = m.meaning noise answer values := by
  refine Module.meaning_of_source (h.source_eq hc hm hm' hname) (hc.resolved m hm)
    (hc'.resolved m' hm') fun i word j j' hop hop' => ?_
  obtain ⟨-, callee, hcallee, hword, -⟩ := hc.call m hm i word j hop
  obtain ⟨-, callee', hcallee', hword', -⟩ := hc'.call m' hm' i word j' hop'
  exact hanswer j j' callee callee' hcallee hcallee' (hword'.trans hword.symm)

/-- Modules of one name answer calls alike, at whatever places they stand. The induction is on the
depth of calls: the callees of one name are again modules of one name. -/
theorem answerWithin_eq (h : c.SameSources c') (hc : c.WellFormed) (hc' : c'.WellFormed)
    (hnoise : c'.noise = c.noise) (depth : Nat) (hm : c.modules[k]? = some m)
    (hm' : c'.modules[k']? = some m') (hname : m'.name = m.name) :
    c'.answerWithin depth k' = c.answerWithin depth k := by
  induction depth generalizing k k' m m' with
  | zero => rfl
  | succ depth ih =>
    have hmem := List.mem_of_getElem? hm
    have hmem' := List.mem_of_getElem? hm'
    have hmeaning : ∀ xs, m'.meaning c'.noise.at (c'.answerWithin depth) xs =
        m.meaning c.noise.at (c.answerWithin depth) xs := by
      rw [hnoise]
      exact h.meaning_eq hc hc' hmem hmem' hname fun _ _ _ _ => ih
    have houtputs := Module.outputs_eq_of_source (h.source_eq hc hmem hmem' hname)
    funext xs
    rw [answerWithin, answerWithin, hm, hm']
    simp only [Option.bind_eq_bind, Option.bind_some, houtputs, hmeaning]

/-- Modules of one name have outputs of the same meanings. -/
theorem outputMeanings_eq (h : c.SameSources c') (hc : c.WellFormed) (hc' : c'.WellFormed)
    (hnoise : c'.noise = c.noise) (hm : c.modules[k]? = some m) (hm' : c'.modules[k']? = some m')
    (hname : m'.name = m.name) (values : List Float) :
    c'.outputMeanings k' values = c.outputMeanings k values := by
  have hmem := List.mem_of_getElem? hm
  have hmem' := List.mem_of_getElem? hm'
  have hmeaning : m'.meaning c'.noise.at c'.answer values =
      m.meaning c.noise.at c.answer values := by
    rw [hnoise]
    refine h.meaning_eq hc hc' hmem hmem' hname (fun j j' _ _ hcallee hcallee' hname => ?_) values
    funext xs
    rw [answer, answer, h.length_eq]
    exact congrFun (h.answerWithin_eq hc hc' hnoise _ hcallee hcallee' hname) xs
  have houtputs := Module.outputs_eq_of_source (h.source_eq hc hmem hmem' hname)
  rw [outputMeanings, outputMeanings, hm, hm']
  simp only [Option.bind_eq_bind, Option.bind_some, Module.outputMeanings, houtputs, hmeaning]

/-- The entries are evaluated to the same values. -/
theorem eval_eq (h : c.SameSources c') (hc : c.WellFormed) (hc' : c'.WellFormed)
    (hnoise : c'.noise = c.noise) (values : List Float) :
    (c'.eval values).1 = (c.eval values).1 := by
  obtain ⟨m, hm, hname, -⟩ := hc.entry
  obtain ⟨m', hm', hname', -⟩ := hc'.entry
  have hsame := h.outputMeanings_eq hc hc' hnoise hm hm' (hname'.trans hname.symm) values
  obtain ⟨ys, hys⟩ := hc.exists_outputMeanings hc.entryIndex_lt values
  have heval : (c.eval values).1 = .ok ys :=
    hc.evalModule_of_meanings hc.entryIndex_lt (.refl _) hys
  have heval' : (c'.eval values).1 = .ok ys :=
    hc'.evalModule_of_meanings hc'.entryIndex_lt (.refl _) (hsame.trans hys)
  rw [heval, heval']

end SameSources

/-! ## Joined texts -/

/-- Joined texts without semicolons are read one by one. -/
theorem read_join_eq_ok_iff {texts : List String} (hend : ∀ text ∈ texts, ';' ∉ text.toList) :
    read (";".intercalate texts) = .ok c ↔
      ∃ modules, List.Forall₂ (fun text m => readPart text.toList = .ok m) texts modules ∧
        compose modules = .ok c := by
  by_cases hne : texts = []
  · subst hne
    constructor
    · intro h
      cases h
    · rintro ⟨modules, hread, hcompose⟩
      cases hread
      cases hcompose
  have hparts : Text.splitAll ';' (";".intercalate texts).toList = texts.map (·.toList) := by
    rw [String.toList_intercalate]
    refine Text.splitAll_intercalate (fun piece hpiece => ?_) (by simpa using hne)
    obtain ⟨text, htext, rfl⟩ := List.mem_map.mp hpiece
    exact hend text htext
  rw [read, bind_eq_ok_iff, hparts]
  simp only [mapM_eq_ok_iff, List.forall₂_map_left_iff]

/-- The circuit of some modules says of them what they say. -/
theorem map_source_of_compose {modules : List Module} (hok : compose modules = .ok c) :
    c.modules.map (·.source) = modules.map (·.source) := by
  obtain ⟨-, -, -, modules', hresolve, -, rfl⟩ := compose_eq_ok_iff.mp hok
  rw [← List.forall₂_eq_eq_eq, List.forall₂_map_left_iff, List.forall₂_map_right_iff]
  exact (forall₂_of_mapM_eq_ok hresolve).flip.imp fun m' m hres =>
    (resolves_of_resolveModule hres).1.source_eq

theorem map_text_of_compose {modules : List Module} (hok : compose modules = .ok c) :
    c.modules.map (·.text) = modules.map (·.text) := by
  have h := congrArg (List.map Module.text) (map_source_of_compose hok)
  simpa only [List.map_map, Function.comp_def, Module.text_source] using h

section

variable {n : Nat} {texts : Fin n → String} {modules : Fin n → Module}

theorem read_ofFn_eq_ok_iff (hend : ∀ i, ';' ∉ (texts i).toList) :
    read (";".intercalate (List.ofFn texts)) = .ok c ↔
      ∃ modules : Fin n → Module, (∀ i, readPart (texts i).toList = .ok (modules i)) ∧
        compose (List.ofFn modules) = .ok c := by
  have hend' : ∀ text ∈ List.ofFn texts, ';' ∉ text.toList := by simpa using hend
  simp only [read_join_eq_ok_iff hend', forall₂_ofFn_iff]
  constructor
  · rintro ⟨_, ⟨modules, rfl, hread⟩, hcompose⟩
    exact ⟨modules, hread, hcompose⟩
  · rintro ⟨modules, hread, hcompose⟩
    exact ⟨_, ⟨modules, rfl, hread⟩, hcompose⟩

/-- Some texts are read exactly if each is read and the modules make a program. -/
theorem exists_read_ofFn_iff (hend : ∀ i, ';' ∉ (texts i).toList) :
    (∃ c, read (";".intercalate (List.ofFn texts)) = .ok c) ↔
      ∃ modules : Fin n → Module, (∀ i, readPart (texts i).toList = .ok (modules i)) ∧
        WellComposed (List.ofFn modules) := by
  simp only [read_ofFn_eq_ok_iff hend]
  rw [exists_comm]
  refine exists_congr fun modules => ?_
  rw [exists_and_left]
  refine and_congr_right fun hread => exists_compose_iff ?_ ?_
  · simpa using fun i => (normal_of_readPart (hread i)).1
  · simpa using fun i => (normal_of_readPart (hread i)).2

/-- Circuits of the same modules in two orders. -/
theorem sameSources_of_compose {σ : Equiv.Perm (Fin n)}
    (hcompose : compose (List.ofFn modules) = .ok c)
    (hcompose' : compose (List.ofFn (modules ∘ σ)) = .ok c') : c.SameSources c' := by
  rw [SameSources, map_source_of_compose hcompose, map_source_of_compose hcompose']
  exact (σ.ofFn_comp_perm modules).map _

end

/-- Texts of modules that are joined in another order are read exactly if they are read in the
first. The two circuits are evaluated to the same values over the noise of any seed, and their
modules have the same texts, in the other order. -/
theorem read_reordered {n : Nat} (texts : Fin n → String) (σ : Equiv.Perm (Fin n))
    (hend : ∀ i, ';' ∉ (texts i).toList) :
    ((∃ c, read (";".intercalate (List.ofFn texts)) = .ok c) ↔
        ∃ c', read (";".intercalate (List.ofFn (texts ∘ σ))) = .ok c') ∧
      ∀ c c', read (";".intercalate (List.ofFn texts)) = .ok c →
        read (";".intercalate (List.ofFn (texts ∘ σ))) = .ok c' →
        (∀ seed values, ((c'.withNoiseSeed seed).eval values).1 =
          ((c.withNoiseSeed seed).eval values).1) ∧
        ∃ printed : Fin n → String, c.modules.map (·.text) = List.ofFn printed ∧
          c'.modules.map (·.text) = List.ofFn (printed ∘ σ) := by
  have hend' : ∀ i, ';' ∉ ((texts ∘ σ) i).toList := fun i => hend (σ i)
  constructor
  · rw [exists_read_ofFn_iff hend, exists_read_ofFn_iff hend']
    constructor
    · rintro ⟨modules, hread, hcomposed⟩
      exact ⟨modules ∘ σ, fun i => hread (σ i), hcomposed.perm (σ.ofFn_comp_perm modules)⟩
    · rintro ⟨modules, hread, hcomposed⟩
      have hperm := Equiv.Perm.ofFn_comp_perm σ.symm modules
      refine ⟨modules ∘ σ.symm, fun i => ?_, hcomposed.perm hperm⟩
      simpa using hread (σ.symm i)
  · intro c c' hc hc'
    obtain ⟨modules, hread, hcompose⟩ := (read_ofFn_eq_ok_iff hend).mp hc
    obtain ⟨modules', hread', hcompose'⟩ := (read_ofFn_eq_ok_iff hend').mp hc'
    obtain rfl : modules' = modules ∘ σ :=
      funext fun i => Except.ok.inj ((hread' i).symm.trans (hread (σ i)))
    refine ⟨fun seed values => ?_, fun i => (modules i).text, ?_, ?_⟩
    · have hp := printable_of_read hc
      have hp' := printable_of_read hc'
      rw [hp.withNoiseSeed_eq, hp'.withNoiseSeed_eq]
      have hsame : c.SameSources c' := sameSources_of_compose hcompose hcompose'
      have hnoise : (c.withNoise (.ofSeed seed)).SameSources (c'.withNoise (.ofSeed seed)) := hsame
      exact hnoise.eval_eq (hp.toWellFormed.withNoise _) (hp'.toWellFormed.withNoise _) rfl values
    · rw [map_text_of_compose hcompose, List.map_ofFn]
      rfl
    · rw [map_text_of_compose hcompose', List.map_ofFn]
      rfl

/-- A program of two modules, the callee declared last and then first. -/
theorem read_reordered_unaryCircuit :
    ∃ (texts : Fin 2 → String) (σ : Equiv.Perm (Fin 2)),
      texts = ![ "(rgb)(x)[rgb:f 1|x]", "(a)f(x)[a:inv 1|x]"] ∧ σ = Equiv.swap 0 1 ∧
      (∀ i, ';' ∉ (texts i).toList) ∧
      (∃ c, read (";".intercalate (List.ofFn texts)) = .ok c) ∧
      ((∃ c, read (";".intercalate (List.ofFn texts)) = .ok c) ↔
        ∃ c', read (";".intercalate (List.ofFn (texts ∘ σ))) = .ok c') ∧
      ∀ c c', read (";".intercalate (List.ofFn texts)) = .ok c →
        read (";".intercalate (List.ofFn (texts ∘ σ))) = .ok c' →
        (∀ seed values, ((c'.withNoiseSeed seed).eval values).1 =
          ((c.withNoiseSeed seed).eval values).1) ∧
        ∃ printed : Fin 2 → String, c.modules.map (·.text) = List.ofFn printed ∧
          c'.modules.map (·.text) = List.ofFn (printed ∘ σ) := by
  have hend : ∀ i, ';' ∉ ((![ "(rgb)(x)[rgb:f 1|x]", "(a)f(x)[a:inv 1|x]"] :
      Fin 2 → String) i).toList := by decide
  have hjoin : ";".intercalate (List.ofFn ![ "(rgb)(x)[rgb:f 1|x]", "(a)f(x)[a:inv 1|x]"]) =
      "(rgb)(x)[rgb:f 1|x];(a)f(x)[a:inv 1|x]" := by decide
  exact ⟨_, _, rfl, rfl, hend, ⟨unaryCircuit, hjoin ▸ read_unaryCircuit⟩,
    read_reordered _ _ hend⟩

end Circuit

end ImageCircuit
