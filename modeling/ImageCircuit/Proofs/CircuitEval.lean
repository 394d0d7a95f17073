import ImageCircuit.Proofs.Eval
import ImageCircuit.Proofs.Reachable

/-!
# Evaluation of a circuit

In a circuit the call of a module means what the output of the module means, over the same
recursion. No module stores anything for it.

* `Module.SameFrame.outputMeanings_eq`: what modules mean does not depend on what they store
* `Circuit.WellFormed.answer_eq`: a call means what the output of its callee means
* `Circuit.WellFormed.callWithin_eq`: calls are evaluated to their meaning
* `Circuit.Reachable.evalModule_meaning`: evaluation succeeds with the meanings of the outputs
-/

namespace ImageCircuit

/-! ## Meaning and stored values -/

namespace Module.SameFrame

variable {m m' : Module} {noise : Float → Float → Float}
  {answer : Nat → List Float → Option Float} {values : List Float}

/-- Nodes mean the same whatever the nodes of the module store. -/
theorem meaningWithin_eq (h : m.SameFrame m') (hm : m.Formed) (depth i : Nat) :
    m'.meaningWithin noise answer values depth i = m.meaningWithin noise answer values depth i := by
  refine meaningWithin_eq_of_forall_sameAt (fun i => ?_) depth i
  unfold SameAt
  cases hi : m'.nodes[i]? with
  | none =>
    have hnone : m.nodes[i]? = none := by
      have hlen : m'.nodes.length = m.nodes.length := h.size
      rw [List.getElem?_eq_none_iff] at hi ⊢
      rwa [← hlen]
    rw [hnone]
    exact .none
  | some node =>
    obtain ⟨old, hold, hop, hargs⟩ := h.getElem? hi
    rw [hold]
    refine .some ⟨hargs.symm, funext fun xs => ?_⟩
    unfold opMeaning
    rw [← hop, h.inputs]
    split
    · next hconst => rw [h.value_eq hm hold hi hconst]
    all_goals rfl

theorem outputMeanings_eq (h : m.SameFrame m') (hm : m.Formed) :
    m'.outputMeanings noise answer values = m.outputMeanings noise answer values := by
  have hmeaning : m'.meaning noise answer values = m.meaning noise answer values := by
    funext i
    rw [meaning, h.size]
    exact h.meaningWithin_eq hm m.size i
  rw [outputMeanings, outputMeanings, h.outputs, hmeaning]

end Module.SameFrame

/-- Only the answers to the calls of a module matter. -/
theorem Module.meaningWithin_congr {m : Module} {noise : Float → Float → Float}
    {answer answer' : Nat → List Float → Option Float}
    (h : ∀ index ∈ m.callees, answer index = answer' index) (values : List Float) (depth i : Nat) :
    m.meaningWithin noise answer values depth i = m.meaningWithin noise answer' values depth i := by
  refine meaningWithin_eq_of_forall_sameAt (fun i => ?_) depth i
  unfold SameAt
  cases hi : m.nodes[i]? with
  | none => exact .none
  | some node =>
    refine .some ⟨rfl, funext fun xs => ?_⟩
    unfold opMeaning
    split
    case h_5 word index hop =>
      have hcall : index ∈ m.callees :=
        mem_callees_iff.mpr ⟨i, word, opAt_eq_some_iff.mpr ⟨node, hi, hop⟩⟩
      rw [h index hcall]
    all_goals rfl

namespace Circuit

/-! ## The meaning of calls -/

/-- The answer to a call of module `index`, the value of the single output of the callee, if calls
are nested at most `depth` deep. -/
def answerWithin (c : Circuit) : (depth index : Nat) → List Float → Option Float
  | 0, _, _ => none
  | depth + 1, index, xs => do
    let callee ← c.modules[index]?
    match callee.outputs with
    | [pin] => do
      let o ← pin.index
      callee.meaning c.noise.at (answerWithin c depth) xs o
    | _ => none

/-- The answer to a call of module `index`. -/
def answer (c : Circuit) (index : Nat) (xs : List Float) : Option Float :=
  c.answerWithin c.modules.length index xs

/-- The values of the outputs of module `k`, in order, calls being answered by the circuit. -/
def outputMeanings (c : Circuit) (k : Nat) (values : List Float) : Option (List Float) := do
  let m ← c.modules[k]?
  m.outputMeanings c.noise.at c.answer values

variable {c : Circuit} {k : Nat} {m : Module} {values : List Float}

/-- From its rank in the call graph on, the depth does not matter to the answers of a module. -/
theorem answerWithin_eq_of_hasRank {r depth depth' : Nat}
    (h : HasRank (callGraph c.modules) k r) (hlt : r < depth) (hlt' : r < depth') :
    c.answerWithin depth k = c.answerWithin depth' k := by
  induction h generalizing depth depth' with
  | @above k rank _ ih =>
    obtain ⟨d, rfl⟩ := Nat.exists_eq_add_one_of_ne_zero (Nat.ne_zero_of_lt hlt)
    obtain ⟨d', rfl⟩ := Nat.exists_eq_add_one_of_ne_zero (Nat.ne_zero_of_lt hlt')
    funext xs
    rw [answerWithin, answerWithin]
    cases hk : c.modules[k]? with
    | none => rfl
    | some callee =>
      have hsame : callee.meaning c.noise.at (c.answerWithin d) xs =
          callee.meaning c.noise.at (c.answerWithin d') xs := by
        refine funext fun o => Module.meaningWithin_congr (fun index hindex => ?_) xs _ o
        have hnext : index ∈ callGraph c.modules k := mem_callGraph_iff.mpr ⟨callee, hk, hindex⟩
        have := lt_rankAbove (List.mem_map_of_mem (f := rank) hnext)
        exact ih index hnext (by omega) (by omega)
      simp only [Option.bind_eq_bind, Option.bind_some, hsame]

namespace WellFormed

theorem acyclic_argsOf (h : c.WellFormed) (hk : c.modules[k]? = some m) : Acyclic m.argsOf :=
  (h.normal m (List.mem_of_getElem? hk)).acyclic

/-- A callee has one output, which is bound. -/
theorem exists_output (h : c.WellFormed) {index : Nat} (hcall : index ∈ m.callees)
    (hm : m ∈ c.modules) : ∃ callee pin i, c.modules[index]? = some callee ∧
      callee.outputs = [pin] ∧ pin.index = some i ∧ i < callee.size := by
  obtain ⟨j, word, hop⟩ := Module.mem_callees_iff.mp hcall
  obtain ⟨hword, callee, hcallee, rfl, -⟩ := h.call m hm j word index hop
  have hmem := List.mem_of_getElem? hcallee
  obtain ⟨pin, hpin⟩ := List.length_eq_one_iff.mp (h.single callee hmem hword)
  obtain ⟨i, hi, hidx⟩ := (h.normal callee hmem).output pin (by rw [hpin]; exact List.mem_cons_self)
  exact ⟨callee, pin, i, hcallee, hpin, hidx, hi⟩

theorem within_callGraph (h : c.WellFormed) : Within (callGraph c.modules) c.modules.length := by
  intro k j hj
  obtain ⟨m, hm, hmem⟩ := mem_callGraph_iff.mp hj
  obtain ⟨callee, _, _, hcallee, -⟩ := h.exists_output hmem (List.mem_of_getElem? hm)
  exact ⟨(List.getElem?_eq_some_iff.mp hm).1, (List.getElem?_eq_some_iff.mp hcallee).1⟩

/-- The answer to a call is what the single output of the callee means over the same answers. -/
theorem answer_eq (h : c.WellFormed) (hk : c.modules[k]? = some m) {pin : Pin} {o : Nat}
    (hpin : m.outputs = [pin]) (hidx : pin.index = some o) (xs : List Float) :
    c.answer k xs = m.meaning c.noise.at c.answer xs o := by
  obtain ⟨r, hr⟩ := h.acyclic.exists_hasRank h.within_callGraph k
  have hlt := hr.lt_bound h.within_callGraph (List.getElem?_eq_some_iff.mp hk).1
  calc c.answer k xs
      = c.answerWithin (c.modules.length + 1) k xs := by
        rw [answer, answerWithin_eq_of_hasRank hr hlt (Nat.lt_succ_of_lt hlt)]
    _ = m.meaning c.noise.at c.answer xs o := by
        rw [answerWithin, hk]
        simp only [Option.bind_eq_bind, Option.bind_some, hpin, hidx]
        rfl

/-- Every node has a meaning. The induction is on the calls below the module: a node could fail at
a call only. -/
theorem meaning_ne_none (h : c.WellFormed) (hk : c.modules[k]? = some m) {i : Nat}
    (hi : i < m.size) : m.meaning c.noise.at c.answer values i ≠ none := by
  obtain ⟨r, hr⟩ := h.acyclic.exists_hasRank h.within_callGraph k
  induction hr generalizing m values i with
  | @above k rank _ ih =>
    have hmem := List.mem_of_getElem? hk
    have hm := (h.normal m hmem).toFormed
    intro hnone
    obtain ⟨j, -, hfails⟩ := (Module.meaning_eq_none_iff hm (h.acyclic_argsOf hk) hi).mp hnone
    rcases hfails with ⟨word, hop⟩ | ⟨word, index, xs, hop, -, hanswer⟩
    · exact h.resolved m hmem j word hop
    · have hcall : index ∈ m.callees := Module.mem_callees_iff.mpr ⟨j, word, hop⟩
      obtain ⟨callee, pin, o, hcallee, hpin, hidx, ho⟩ := h.exists_output hcall hmem
      have hnext : index ∈ callGraph c.modules k := mem_callGraph_iff.mpr ⟨m, hk, hcall⟩
      rw [h.answer_eq hcallee hpin hidx] at hanswer
      exact ih index hnext hcallee ho hanswer

end WellFormed

/-! ## Evaluation -/

theorem toOption_bind_firstOutput {result : Except Error (List Float)} {y : Option Float}
    (h : result.toOption = y.map ([·])) : (result.bind (firstOutput k)).toOption = y := by
  cases result with
  | error e =>
    cases y with
    | none => rfl
    | some y => cases h
  | ok ys =>
    cases y with
    | none => cases h
    | some y =>
      obtain rfl := Option.some.inj h
      rfl

/-- At the places of `S` the list holds the modules of the circuit, with other values stored. -/
def Intact (c : Circuit) (S : Nat → Prop) (ms : List Module) : Prop :=
  ∀ j, S j → ∀ m, c.modules[j]? = some m → ∃ m', ms[j]? = some m' ∧ m.SameFrame m'

namespace Intact

variable {S S' : Nat → Prop} {ms ms' : List Module}

theorem mono (h : c.Intact S ms) (hS : ∀ j, S' j → S j) : c.Intact S' ms :=
  fun j hj => h j (hS j hj)

theorem sameFrames (h : c.Intact S ms) (hframes : SameFrames ms ms') : c.Intact S ms' := by
  intro j hj m hm
  obtain ⟨m', hm', hframe⟩ := h j hj m hm
  obtain ⟨m'', hm'', hframe'⟩ := hframes.2 j m' hm'
  exact ⟨m'', hm'', hframe.trans hframe'⟩

/-- Another module may be put in a place outside `S`. -/
theorem set (h : c.Intact S ms) (hk : ¬ S k) (n : Module) : c.Intact S (ms.set k n) := by
  intro j hj m hm
  have hne : k ≠ j := by
    rintro rfl
    exact hk hj
  rw [List.getElem?_set_ne hne]
  exact h j hj m hm

end Intact

namespace WellFormed

/-- A module is evaluated to its meaning if the modules that it calls, also through others, are in
their places and calls of them are answered. No module on the way down is among them. -/
theorem evalAt_eq (h : c.WellFormed) {call : Nat → List Float → List Module → Answer Float}
    (hkeeps : ∀ index xs ms, SameFrames ms (call index xs ms).2) (hk : c.modules[k]? = some m)
    (hcall : ∀ index ∈ m.callees, ∀ xs ms, c.Intact (Reaches (callGraph c.modules) index) ms →
      (call index xs ms).1.toOption = c.answer index xs)
    {ms : List Module} (hms : c.Intact (Reaches (callGraph c.modules) k) ms)
    (values : List Float) :
    (evalAt c.noise call k values ms).1.toOption = c.outputMeanings k values := by
  obtain ⟨m', hm', hframe⟩ := hms k .refl m hk
  have hm := h.normal m (List.mem_of_getElem? hk)
  have hbelow : c.Intact (Precedes (callGraph c.modules) k) (ms.set k .empty) :=
    (hms.mono fun j hj => hj.to_reflTransGen).set (h.acyclic k) _
  have hanswers : ∀ index ∈ m'.callees,
      ({ noise := c.noise.at, call } : Context (List Module)).Answers c.answer
        (c.Intact (Precedes (callGraph c.modules) k)) index := by
    intro index hindex
    have hindex' := hframe.fits.mem_callees hindex
    have hnext : index ∈ callGraph c.modules k := mem_callGraph_iff.mpr ⟨m, hk, hindex'⟩
    refine ⟨fun xs ms' hms' => hcall index hindex' xs ms' (hms'.mono fun j hj => ?_),
      fun xs ms' hms' => hms'.sameFrames (hkeeps index xs ms')⟩
    exact .head' hnext hj
  have heval := (Module.eval_eq (hframe.formed hm.toFormed) (hframe.isSorted_iff.mpr hm.sorted)
    hanswers values hbelow).1
  rw [hframe.outputMeanings_eq hm.toFormed] at heval
  rw [outputMeanings, hk, Option.bind_eq_bind, Option.bind_some, ← heval]
  simp only [evalAt, hm']

/-- Calls may be nested as deep as the rank of the callee in the call graph. -/
theorem callWithin_eq (h : c.WellFormed) {depth r : Nat}
    (hr : HasRank (callGraph c.modules) k r) (hlt : r < depth) (hk : c.modules[k]? = some m)
    {pin : Pin} {o : Nat} (hpin : m.outputs = [pin]) (hidx : pin.index = some o)
    {ms : List Module} (hms : c.Intact (Reaches (callGraph c.modules) k) ms) (xs : List Float) :
    (callWithin c.noise depth k xs ms).1.toOption = c.answer k xs := by
  induction depth generalizing k m r pin o ms xs with
  | zero => omega
  | succ depth ih =>
    have heval : (evalAt c.noise (callWithin c.noise depth) k xs ms).1.toOption =
        c.outputMeanings k xs := by
      refine h.evalAt_eq (sameFrames_callWithin c.noise depth) hk
        (fun index hindex ys ms' hms' => ?_) hms xs
      have hnext : index ∈ callGraph c.modules k := mem_callGraph_iff.mpr ⟨m, hk, hindex⟩
      obtain ⟨s, hs⟩ := hr.exists_of_mem hnext
      obtain ⟨callee, pin', o', hcallee, hpin', hidx', -⟩ :=
        h.exists_output hindex (List.mem_of_getElem? hk)
      have hslt : s < r := hr.lt hnext hs
      exact ih hs (by omega) hcallee hpin' hidx' hms' ys
    have hsingle : c.outputMeanings k xs = (c.answer k xs).map ([·]) := by
      rw [outputMeanings, h.answer_eq hk hpin hidx, hk, Option.bind_eq_bind, Option.bind_some,
        Module.outputMeanings_singleton hpin hidx]
    rw [callWithin]
    exact toOption_bind_firstOutput (heval.trans hsingle)

/-- Whatever the modules of a well-formed circuit store, evaluating one of them gives the meanings
of its outputs. -/
theorem evalModule_eq (h : c.WellFormed) (hk : k < c.modules.length) {modules : List Module}
    (hframes : SameFrames c.modules modules) (values : List Float) :
    (({ c with modules } : Circuit).evalModule k values).1.toOption =
      c.outputMeanings k values := by
  obtain ⟨r, hr⟩ := h.acyclic.exists_hasRank h.within_callGraph k
  have hlt := hr.lt_bound h.within_callGraph hk
  have hget : c.modules[k]? = some c.modules[k] := List.getElem?_eq_getElem hk
  have hintact : ∀ S, c.Intact S modules := fun S j _ m hm => hframes.2 j m hm
  have hlen : modules.length = c.modules.length := hframes.1
  unfold Circuit.evalModule
  refine h.evalAt_eq (sameFrames_callWithin c.noise _) hget (fun index hindex xs ms hms => ?_)
    (hintact _) values
  have hnext : index ∈ callGraph c.modules k := mem_callGraph_iff.mpr ⟨_, hget, hindex⟩
  obtain ⟨s, hs⟩ := hr.exists_of_mem hnext
  obtain ⟨callee, pin, o, hcallee, hpin, hidx, -⟩ :=
    h.exists_output hindex (List.mem_of_getElem? hget)
  have hslt : s < r := hr.lt hnext hs
  exact h.callWithin_eq hs (show s < modules.length by omega) hcallee hpin hidx hms xs

theorem evalModule_of_meanings (h : c.WellFormed) (hk : k < c.modules.length)
    {modules : List Module} (hframes : SameFrames c.modules modules) {ys : List Float}
    (hys : c.outputMeanings k values = some ys) :
    (({ c with modules } : Circuit).evalModule k values).1 = .ok ys :=
  toOption_eq_some_iff.mp ((h.evalModule_eq hk hframes values).trans hys)

/-- The outputs of a well-formed circuit have values. -/
theorem exists_outputMeanings (h : c.WellFormed) (hk : k < c.modules.length)
    (values : List Float) : ∃ ys, c.outputMeanings k values = some ys := by
  have hget : c.modules[k]? = some c.modules[k] := List.getElem?_eq_getElem hk
  have hm := h.normal _ (List.mem_of_getElem? hget)
  rw [← Option.ne_none_iff_exists', outputMeanings, hget, Ne, Option.bind_eq_bind, Option.bind_some,
    Module.outputMeanings, mapM_eq_none_iff]
  rintro ⟨pin, hpin, hnone⟩
  obtain ⟨i, hi, hidx⟩ := hm.output pin hpin
  rw [hidx] at hnone
  exact h.meaning_ne_none hget hi hnone

end WellFormed

end Circuit

end ImageCircuit
