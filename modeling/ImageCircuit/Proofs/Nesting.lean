import ImageCircuit.Proofs.Asked
import ImageCircuit.Proofs.Eval
import ImageCircuit.Proofs.Reach

/-!
# Nested calls end

A call of a module makes the calls of that module first, and so on. Nothing bounds this but the
empty modules that stand in for those under evaluation: each call that goes deeper takes another
module out, and an empty one calls nothing. The bound on the depth is therefore never met, for
whatever modules the calls name, and a call into a module under evaluation finds no output.

* `Ends`: evaluation with all calls below it, to any depth
* `exists_ends`, `Ends.unique`: every evaluation ends, in one way
* `Nests`: the live calls that lead from a module to another
* `Circuit.evalModule_ends`: evaluation ends and damages nothing, and fails at a recursive call
-/

namespace ImageCircuit

/-! ## Evaluation to any depth -/

/-- The calls of modules that are evaluated to some answers. -/
def answering (answer : Nat → List Float → List Module → Answer (List Float)) :
    Nat → List Float → List Module → Answer Float :=
  fun index xs modules =>
    let (result, modules) := answer index xs modules
    (result.bind (firstOutput index), modules)

/-- Evaluating the module at a place ends with an answer. The calls it makes end with theirs, each
in the modules that it is made in. -/
inductive Ends (noise : Noise) :
    Nat → List Float → List Module → Answer (List Float) → Prop where
  | missing {index : Nat} {values : List Float} {modules : List Module}
      (h : modules[index]? = none) :
      Ends noise index values modules (.error (.noModule index), modules)
  | found {index : Nat} {values : List Float} {modules : List Module} {m : Module}
      (h : modules[index]? = some m)
      (answer : Nat → List Float → List Module → Answer (List Float))
      (calls : ∀ ask ∈ m.asked ⟨noise.at, answering answer⟩ values (modules.set index .empty),
        Ends noise ask.index ask.args ask.before (answer ask.index ask.args ask.before)) :
      Ends noise index values modules (evalAt noise (answering answer) index values modules)

section

variable {noise : Noise} {index : Nat} {values : List Float} {ms ms' : List Module}

/-- Evaluation ends in no more than one way. -/
theorem Ends.unique {a a' : Answer (List Float)} (h : Ends noise index values ms a)
    (h' : Ends noise index values ms a') : a' = a := by
  induction h generalizing a' with
  | missing hnone =>
    cases h' with
    | missing => rfl
    | found hm => cases hnone.symm.trans hm
  | @found index values ms m hm answer calls ih =>
    cases h' with
    | missing hnone => cases hnone.symm.trans hm
    | @found _ _ _ m' hm' answer' calls' =>
      obtain rfl := Option.some.inj (hm'.symm.trans hm)
      have hnoise : (⟨noise.at, answering answer'⟩ : Context (List Module)).noise =
          (⟨noise.at, answering answer⟩ : Context (List Module)).noise := rfl
      have heval : m'.eval ⟨noise.at, answering answer'⟩ values (ms.set index .empty) =
          m'.eval ⟨noise.at, answering answer⟩ values (ms.set index .empty) := by
        refine Module.eval_congr hnoise fun ask hask hask' => ?_
        have hsame := ih ask hask (calls' ask hask')
        simp only [Context.reply, answering, hsame]
      simp only [evalAt, hm, heval]

/-- The answer of the module at a place, calls being nested up to a depth. -/
def outputsWithin (noise : Noise) :
    (depth : Nat) → Nat → List Float → List Module → Answer (List Float)
  | 0, index, _, modules =>
    (.error (if index < modules.length then .noOutput index else .noModule index), modules)
  | depth + 1, index, values, modules =>
    evalAt noise (callWithin noise depth) index values modules

theorem callWithin_eq_answering (noise : Noise) (depth : Nat) :
    callWithin noise depth = answering (outputsWithin noise depth) := by
  cases depth <;> rfl

/-- How many modules are not under evaluation: those with nodes. -/
def filled (ms : List Module) : Nat :=
  ms.countP fun m => !m.nodes.isEmpty

/-- Taking out a module with nodes leaves fewer. -/
theorem filled_set_empty_lt {m : Module} (hm : ms[index]? = some m) (hnodes : m.nodes ≠ []) :
    filled (ms.set index .empty) < filled ms := by
  induction ms generalizing index with
  | nil => simp at hm
  | cons n rest ih =>
    cases index with
    | zero =>
      obtain rfl : n = m := by simpa using hm
      simp [filled, Module.empty, hnodes]
    | succ index =>
      have := ih (by simpa using hm)
      simp only [filled, List.set_cons_succ, List.countP_cons] at this ⊢
      omega

theorem SameFrames.tail {m m' : Module} (h : SameFrames (m :: ms) (m' :: ms')) :
    SameFrames ms ms' :=
  ⟨Nat.succ.inj h.1, fun k n hn => by simpa using h.2 (k + 1) n (by simpa using hn)⟩

theorem SameFrames.head {m m' : Module} (h : SameFrames (m :: ms) (m' :: ms')) :
    m.SameFrame m' := by
  simpa using h.2 0 m rfl

theorem SameFrames.filled_eq (h : SameFrames ms ms') : filled ms' = filled ms := by
  induction ms generalizing ms' with
  | nil => rw [List.length_eq_zero_iff.mp h.1]
  | cons m rest ih =>
    cases ms' with
    | nil => cases h.1
    | cons m' rest' =>
      have hempty : m'.nodes.isEmpty = m.nodes.isEmpty := by
        have hsize : m'.nodes.length = m.nodes.length := h.head.size
        rw [Bool.eq_iff_iff, List.isEmpty_iff_length_eq_zero, hsize,
          ← List.isEmpty_iff_length_eq_zero]
      have hrest := ih h.tail
      simp only [filled, List.countP_cons, hempty] at hrest ⊢
      rw [hrest]

/-- Where calls may be nested as deep as there are modules not under evaluation, the bound is never
met: the answer is that of evaluation to any depth. -/
theorem exists_ends {depth : Nat} (h : filled ms ≤ depth) :
    Ends noise index values ms (evalAt noise (callWithin noise depth) index values ms) := by
  induction depth using Nat.strongRecOn generalizing index values ms with
  | ind depth ih =>
    cases hm : ms[index]? with
    | none =>
      have heval : evalAt noise (callWithin noise depth) index values ms =
          (.error (.noModule index), ms) := by simp only [evalAt, hm]
      rw [heval]
      exact .missing hm
    | some m =>
      rw [callWithin_eq_answering]
      refine .found hm _ fun ask hask => ?_
      rw [← callWithin_eq_answering] at hask
      by_cases hnodes : m.nodes = []
      · rw [Module.asked_of_nodes_nil hnodes] at hask
        cases hask
      · have hframes : SameFrames (ms.set index .empty) ask.before :=
          Module.forall_asked (I := SameFrames (ms.set index .empty))
            (fun j xs ms' h' => h'.trans (sameFrames_callWithin noise depth j xs ms')) (.refl _)
            ask hask
        have hlt := filled_set_empty_lt hm hnodes
        have heq := hframes.filled_eq
        obtain ⟨d, rfl⟩ := Nat.exists_eq_add_one_of_ne_zero (show depth ≠ 0 by omega)
        exact ih d (Nat.lt_succ_self d) (by omega)

end

/-! ## How evaluation fails -/

namespace Module

variable {m m' : Module} {nodes : List Node} {live : List Bool} {i : Nat} {σ : Type}
  {ctx : Context σ} {I : σ → Prop} {values : List Float} {s : σ}

/-- All that the nodes and the pins name is there, and no primitive has more arguments than an
operator takes. What the calls name is left open. -/
structure Evaluable (m : Module) : Prop where
  args : m.argsInRange = true
  pins : m.pinsInRange = true
  arity : ∀ i op, m.opAt i = some (.prim op) → (m.argsOf i).length ≤ Operator.maxArity

theorem evaluable_empty : empty.Evaluable where
  args := rfl
  pins := rfl
  arity i op hop := by simp [opAt, empty] at hop

theorem Evaluable.within (hm : m.Evaluable) : Within m.argsOf m.size :=
  argsInRange_iff.mp hm.args

theorem Evaluable.sameFrame (hm : m.Evaluable) (h : m.SameFrame m') : m'.Evaluable where
  args := h.argsInRange hm.args
  pins := by
    rw [pinsInRange_iff, h.inputs, h.outputs, h.size]
    exact pinsInRange_iff.mp hm.pins
  arity := h.arity hm.arity

/-- Every call fails, if it fails, inside; and it keeps `I`. -/
structure FailsInside (ctx : Context σ) (I : σ → Prop) : Prop where
  keeps : ∀ index xs s, I s → I (ctx.call index xs s).2
  kind : ∀ index xs s, I s → ∀ e, (ctx.call index xs s).1 = .error e → e.kind = .internal

theorem kind_of_scan (hm : m.Evaluable) (hcall : FailsInside ctx I)
    (hframe : m.SameFrame { m with nodes }) (hs : I s) {e : Error}
    (h : (scan ctx live i nodes s).1 = .error e) : e.kind = .internal := by
  fun_induction scan ctx live i nodes s with
  | case1 => cases h
  | case2 i nodes s _ ih => exact ih hframe hs h
  | case3 i nodes s node _ _ ih => exact ih hframe hs h
  | case4 i nodes s node hnode _ e' s' heq =>
    obtain rfl := Except.error.inj h
    have harity : ∀ op, node.op = .prim op → node.args.length ≤ Operator.maxArity := by
      intro op hop
      rw [← hframe.argsOf_eq_args hnode]
      exact hm.arity i op (hop ▸ hframe.opAt_eq hnode)
    obtain ⟨word, -, rfl⟩ | ⟨word, index, -, href⟩ :=
      nodeValue_error_cases harity (congrArg Prod.fst heq)
    · rfl
    · exact hcall.kind _ _ _ hs _ href
  | case5 i nodes s node hnode _ value s' heq ih =>
    have hs' := nodeValue_keeps hcall.keeps nodes node hs
    rw [heq] at hs'
    exact ih (hframe.store fun hop _ => hframe.value_of_nodeValue hnode hop heq) hs' h

/-- The inputs of an evaluable module can be set. Nodes that no pin is bound to are then to be
computed. -/
theorem Evaluable.setInputs_eq (hm : m.Evaluable) (values : List Float) :
    ∃ nodes, m.setInputs values = .ok { m with nodes } ∧
      ∀ i, m.isInput i = false → computedAt nodes i = false := by
  refine ⟨_, setInputs_of_pinsInRange hm.pins values, fun i hi => ?_⟩
  have hunbound : ∀ pin ∈ m.inputs, pin.index ≠ some i := by
    intro pin hpin hidx
    rw [isInput_of_mem hpin hidx] at hi
    cases hi
  rw [computedAt, getElem?_storeInputs_of_unbound _ _ hunbound, List.getElem?_map]
  cases m.nodes[i]? <;> rfl

/-- The output values of an evaluable module can be read. -/
theorem Evaluable.outputValues_eq (hm : m.Evaluable) :
    ∃ ys, m.outputValues = .ok ys ∧ ys.length = m.outputs.length :=
  ⟨_, if_pos (List.all_eq_true.mpr fun pin hpin =>
    List.all_eq_true.mp hm.pins pin (List.mem_append_right _ hpin)), List.length_map _⟩

/-- Evaluation is the scan of the live nodes, once the inputs have been set. -/
theorem Evaluable.eval_eq (hm : m.Evaluable) (values : List Float) :
    ∃ nodes live, m.SameFrame { m with nodes } ∧
      (∀ i, m.isInput i = false → computedAt nodes i = false) ∧
      (∀ i, live.getD i false = true ↔
        ∃ o ∈ m.outputIndices, o < m.size ∧ Reaches m.argsOf o i) ∧
      ∀ (ctx : Context σ) (s : σ), m.eval ctx values s =
        match scan ctx live m.size nodes s with
        | (.error e, nodes, s) => (.error e, { m with nodes }, s)
        | (.ok (), nodes, s) =>
          (({ m with nodes } : Module).outputValues, { m with nodes }, s) := by
  obtain ⟨nodes, hset, huncomputed⟩ := hm.setInputs_eq values
  have hframe := sameFrame_setInputs hset
  obtain ⟨live, hlive, -, hmarked⟩ :=
    reachableFrom_eq (hm.sameFrame hframe).within ({ m with nodes } : Module).outputIndices
  refine ⟨nodes, live, hframe, huncomputed, fun i => ?_, fun ctx s => ?_⟩
  · rw [← marked_iff_getD, hmarked, hframe.outputIndices, hframe.size, hframe.argsOf_eq]
  · have heval := eval_of_scan hset hlive ctx s
    rw [hframe.size] at heval
    exact heval

/-- An evaluable module fails, if it fails, inside. -/
theorem Evaluable.kind_of_eval (hm : m.Evaluable) (hcall : FailsInside ctx I) (hs : I s)
    {e : Error} (h : (m.eval ctx values s).1 = .error e) : e.kind = .internal := by
  obtain ⟨nodes, live, hframe, -, -, heval⟩ := hm.eval_eq (σ := σ) values
  have hscan : m.SameFrame { m with nodes := (scan ctx live m.size nodes s).2.1 } :=
    sameFrame_scan live m.size nodes s hframe
  rw [heval] at h
  cases heq : scan ctx live m.size nodes s with
  | mk result rest =>
    rw [heq] at h hscan
    cases result with
    | error e' =>
      obtain rfl := Except.error.inj h
      exact kind_of_scan hm hcall hframe hs (congrArg Prod.fst heq)
    | ok =>
      obtain ⟨ys, hys, -⟩ := (hm.sameFrame hscan).outputValues_eq
      cases hys.symm.trans h

/-- An evaluable module that succeeds gives as many values as it has outputs. -/
theorem Evaluable.length_of_eval (hm : m.Evaluable) {ys : List Float}
    (h : (m.eval ctx values s).1 = .ok ys) : ys.length = m.outputs.length := by
  obtain ⟨nodes, live, hframe, -, -, heval⟩ := hm.eval_eq (σ := σ) values
  have hscan : m.SameFrame { m with nodes := (scan ctx live m.size nodes s).2.1 } :=
    sameFrame_scan live m.size nodes s hframe
  rw [heval] at h
  cases heq : scan ctx live m.size nodes s with
  | mk result rest =>
    rw [heq] at h hscan
    cases result with
    | error e => cases h
    | ok =>
      obtain ⟨zs, hzs, hlen⟩ := (hm.sameFrame hscan).outputValues_eq
      obtain rfl := Except.ok.inj (h.symm.trans hzs)
      exact hlen

/-- A scan that succeeds has made every call that was due below its start, and got an answer. -/
theorem exists_call_of_scan_ok (hkeeps : ∀ index xs s, I s → I (ctx.call index xs s).2) (hs : I s)
    (h : (scan ctx live i nodes s).1 = .ok ()) {j : Nat} (hj : j < i) {node : Node}
    (hnode : nodes[j]? = some node) (hlive : live.getD j false = true)
    (hnew : node.computed = false) {word : String} {index : Nat}
    (hop : node.op = .call word index) :
    ∃ xs s y, I s ∧ (ctx.call index xs s).1 = .ok y := by
  fun_induction scan ctx live i nodes s with
  | case1 => exact absurd hj (Nat.not_lt_zero j)
  | case2 i nodes s hnone ih =>
    refine ih hs h (Nat.lt_of_le_of_ne (Nat.le_of_lt_succ hj) ?_) hnode
    rintro rfl
    cases hnone.symm.trans hnode
  | case3 i nodes s node' hnode' hskip ih =>
    refine ih hs h (Nat.lt_of_le_of_ne (Nat.le_of_lt_succ hj) ?_) hnode
    rintro rfl
    obtain rfl := Option.some.inj (hnode.symm.trans hnode')
    simp only [hlive, hnew, Bool.not_true, Bool.or_self, Bool.false_eq_true] at hskip
  | case4 => cases h
  | case5 i nodes s node' hnode' hdue value s' heq ih =>
    have hs' := nodeValue_keeps hkeeps nodes node' hs
    rw [heq] at hs'
    rcases Nat.eq_or_lt_of_le (Nat.le_of_lt_succ hj) with rfl | hlt
    · obtain rfl := Option.some.inj (hnode.symm.trans hnode')
      refine ⟨node.args.map (valueAt nodes), s, value, hs, ?_⟩
      simpa only [nodeValue, hop] using congrArg Prod.fst heq
    · refine ih hs' h hlt ?_
      rw [getElem?_store, hnode, Option.map_some, if_neg (Nat.ne_of_gt hlt)]

/-- Evaluation comes to a call of module `index`: an output depends on the call, and no input pin
gives the node its value. -/
def LiveCall (m : Module) (index : Nat) : Prop :=
  ∃ i word, m.opAt i = some (.call word index) ∧ m.isInput i = false ∧
    ∃ o ∈ m.outputIndices, Reaches m.argsOf o i

theorem LiveCall.sameFrame {index : Nat} (h : m.LiveCall index) (hframe : m.SameFrame m') :
    m'.LiveCall index := by
  obtain ⟨i, word, hop, hin, o, ho, hreach⟩ := h
  refine ⟨i, word, by rwa [hframe.op], by rwa [hframe.isInput], o, ?_, ?_⟩
  · rwa [hframe.outputIndices]
  · rwa [hframe.argsOf_eq]

/-- An evaluation that succeeds has made every live call, and got an answer. -/
theorem Evaluable.exists_call_of_eval_ok (hm : m.Evaluable)
    (hkeeps : ∀ index xs s, I s → I (ctx.call index xs s).2) (hs : I s) {ys : List Float}
    (h : (m.eval ctx values s).1 = .ok ys) {index : Nat} (hcall : m.LiveCall index) :
    ∃ xs s y, I s ∧ (ctx.call index xs s).1 = .ok y := by
  obtain ⟨nodes, live, hframe, hnew, hlive, heval⟩ := hm.eval_eq (σ := σ) values
  obtain ⟨i, word, hop, hin, o, ho, hreach⟩ := hcall
  obtain ⟨node, hnode, hkind⟩ := opAt_eq_some_iff.mp ((hframe.op i).trans hop)
  have hscan : (scan ctx live m.size nodes s).1 = .ok () := by
    rw [heval] at h
    cases heq : scan ctx live m.size nodes s with
    | mk result rest =>
      rw [heq] at h
      cases result with
      | error e => cases h
      | ok => rfl
  refine exists_call_of_scan_ok hkeeps hs hscan (lt_of_opAt hop) hnode ?_ ?_ hkind
  · exact (hlive i).mpr ⟨o, ho, lt_of_mem_outputIndices hm.pins ho, hreach⟩
  · have := hnew i hin
    rwa [computedAt, hnode] at this

end Module

/-! ## Calls below a module -/

section

variable {noise : Noise} {depth index k : Nat} {values xs : List Float}
  {modules ms ms' : List Module} {m : Module} {stack : List Nat}

theorem SameFrames.evaluable (h : SameFrames ms ms') (hall : ∀ m ∈ ms, m.Evaluable) :
    ∀ m ∈ ms', m.Evaluable := by
  intro m' hm'
  obtain ⟨k, hk⟩ := List.mem_iff_getElem?.mp hm'
  have hlt : k < ms.length := h.1 ▸ (List.getElem?_eq_some_iff.mp hk).1
  obtain ⟨m'', hm'', hframe⟩ := h.2 k ms[k] (List.getElem?_eq_getElem hlt)
  obtain rfl := Option.some.inj (hk.symm.trans hm'')
  exact (hall _ (List.getElem_mem hlt)).sameFrame hframe

theorem SameFrames.set (h : SameFrames ms ms') (k : Nat) (n : Module) :
    SameFrames (ms.set k n) (ms'.set k n) := by
  refine ⟨by simp only [List.length_set, h.1], fun j m hm => ?_⟩
  rw [List.getElem?_set] at hm ⊢
  rw [h.1]
  by_cases hk : k = j
  · rw [if_pos hk] at hm ⊢
    exact ⟨m, hm, .refl m⟩
  · rw [if_neg hk] at hm ⊢
    exact h.2 j m hm

/-- Evaluable modules fail, if they fail, inside. -/
theorem kind_of_evalAt {call : Nat → List Float → List Module → Answer Float}
    (hcall : Module.FailsInside ⟨noise.at, call⟩ fun ms => ∀ m ∈ ms, m.Evaluable)
    (hms : ∀ m ∈ ms, m.Evaluable) {e : Error}
    (h : (evalAt noise call index values ms).1 = .error e) : e.kind = .internal := by
  unfold evalAt at h
  split at h
  · obtain rfl := Except.error.inj h
    rfl
  · next m hm =>
    refine (hms m (List.mem_of_getElem? hm)).kind_of_eval hcall (fun n hn => ?_) h
    rcases List.mem_or_eq_of_mem_set hn with hn | rfl
    · exact hms n hn
    · exact Module.evaluable_empty

theorem failsInside_callWithin (noise : Noise) (depth : Nat) :
    Module.FailsInside ⟨noise.at, callWithin noise depth⟩ fun ms => ∀ m ∈ ms, m.Evaluable where
  keeps index xs ms hms := (sameFrames_callWithin noise depth index xs ms).evaluable hms
  kind index xs ms hms e h := by
    induction depth generalizing index xs ms e with
    | zero =>
      obtain rfl := Except.error.inj h
      split <;> rfl
    | succ depth ih =>
      have hcall : Module.FailsInside ⟨noise.at, callWithin noise depth⟩
          fun ms => ∀ m ∈ ms, m.Evaluable :=
        ⟨fun j ys ms' hms' => (sameFrames_callWithin noise depth j ys ms').evaluable hms', ih⟩
      simp only [callWithin] at h
      cases heval : (evalAt noise (callWithin noise depth) index xs ms).1 with
      | error e' =>
        rw [heval] at h
        obtain rfl := Except.error.inj h
        exact kind_of_evalAt hcall hms heval
      | ok ys =>
        rw [heval] at h
        cases ys with
        | nil =>
          obtain rfl := Except.error.inj h
          rfl
        | cons y rest => cases h

/-- A call that is answered has evaluated a module with an output. -/
theorem exists_eval_of_call_ok (hms : ∀ m ∈ ms, m.Evaluable) {y : Float}
    (h : (callWithin noise depth index xs ms).1 = .ok y) :
    ∃ d m ys, ms[index]? = some m ∧ m.outputs ≠ [] ∧
      (evalAt noise (callWithin noise d) index xs ms).1 = .ok ys := by
  cases depth with
  | zero => cases h
  | succ d =>
    simp only [callWithin] at h
    cases heval : (evalAt noise (callWithin noise d) index xs ms).1 with
    | error e =>
      rw [heval] at h
      cases h
    | ok ys =>
      cases hm : ms[index]? with
      | none =>
        simp only [evalAt, hm] at heval
        cases heval
      | some m =>
        refine ⟨d, m, ys, rfl, fun hnil => ?_, heval⟩
        have hmeval := heval
        simp only [evalAt, hm] at hmeval
        have hlen := (hms m (List.mem_of_getElem? hm)).length_of_eval hmeval
        rw [hnil, List.length_nil, List.length_eq_zero_iff] at hlen
        rw [heval, hlen] at h
        cases h

/-- Module `k` makes a live call of module `index`. -/
def MakesCall (modules : List Module) (k index : Nat) : Prop :=
  ∃ m, modules[k]? = some m ∧ m.LiveCall index

/-- The modules under evaluation, the latest first, when evaluation of module `k` has followed live
calls. -/
inductive Nests (modules : List Module) (k : Nat) : List Nat → Prop where
  | start : Nests modules k [k]
  | call {caller index : Nat} {stack : List Nat} (h : Nests modules k (caller :: stack))
      (hcall : MakesCall modules caller index) : Nests modules k (index :: caller :: stack)

/-- Some modules, with empty ones in the places of those under evaluation. -/
def heldOut (modules : List Module) : List Nat → List Module
  | [] => modules
  | k :: stack => (heldOut modules stack).set k .empty

theorem length_heldOut (modules : List Module) (stack : List Nat) :
    (heldOut modules stack).length = modules.length := by
  induction stack with
  | nil => rfl
  | cons k stack ih => rw [heldOut, List.length_set, ih]

theorem getElem?_heldOut_of_not_mem (h : index ∉ stack) :
    (heldOut modules stack)[index]? = modules[index]? := by
  induction stack with
  | nil => rfl
  | cons k stack ih =>
    rw [List.mem_cons, not_or] at h
    rw [heldOut, List.getElem?_set_ne (Ne.symm h.1), ih h.2]

theorem getElem?_heldOut_of_mem (h : index ∈ stack) (hlt : index < modules.length) :
    (heldOut modules stack)[index]? = some .empty := by
  induction stack with
  | nil => cases h
  | cons k stack ih =>
    rw [heldOut]
    by_cases hk : k = index
    · subst hk
      exact List.getElem?_set_self (by rwa [length_heldOut])
    · rw [List.getElem?_set_ne hk]
      exact ih ((List.mem_cons.mp h).resolve_left (Ne.symm hk))

theorem evaluable_heldOut (hall : ∀ m ∈ modules, m.Evaluable) (stack : List Nat) :
    ∀ m ∈ heldOut modules stack, m.Evaluable := by
  induction stack with
  | nil => exact hall
  | cons k stack ih =>
    intro m hm
    rcases List.mem_or_eq_of_mem_set hm with hm | rfl
    · exact ih m hm
    · exact Module.evaluable_empty

/-- If a call is answered while some modules are under evaluation, it is not one of them, and it is
there. -/
theorem not_mem_of_call_ok (hall : ∀ m ∈ modules, m.Evaluable)
    (hms : SameFrames (heldOut modules stack) ms) {y : Float}
    (h : (callWithin noise depth index xs ms).1 = .ok y) :
    index ∉ stack ∧ index < modules.length ∧
      ∃ d ys, (evalAt noise (callWithin noise d) index xs ms).1 = .ok ys := by
  have hevaluable := hms.evaluable (evaluable_heldOut hall stack)
  obtain ⟨d, m, ys, hm, houtputs, heval⟩ := exists_eval_of_call_ok hevaluable h
  have hlt : index < modules.length := by
    have := (List.getElem?_eq_some_iff.mp hm).1
    rwa [hms.1, length_heldOut] at this
  refine ⟨fun hmem => houtputs ?_, hlt, d, ys, heval⟩
  obtain ⟨m', hm', hframe⟩ := hms.2 index _ (getElem?_heldOut_of_mem hmem hlt)
  obtain rfl := Option.some.inj (hm.symm.trans hm')
  exact hframe.outputs

/-- An evaluation that succeeds has made every live call of its module, and got an answer, while the
module was under evaluation as well. -/
theorem exists_call_of_evalAt_ok (hall : ∀ m ∈ modules, m.Evaluable)
    (hms : SameFrames (heldOut modules stack) ms) (hk : k ∉ stack) {ys : List Float}
    (h : (evalAt noise (callWithin noise depth) k values ms).1 = .ok ys)
    (hcall : MakesCall modules k index) :
    ∃ xs ms' y, SameFrames (heldOut modules (k :: stack)) ms' ∧
      (callWithin noise depth index xs ms').1 = .ok y := by
  obtain ⟨m, hm, hlive⟩ := hcall
  obtain ⟨m', hm', hframe⟩ := hms.2 k m ((getElem?_heldOut_of_not_mem hk).trans hm)
  have hevaluable := (hall m (List.mem_of_getElem? hm)).sameFrame hframe
  simp only [evalAt, hm'] at h
  exact hevaluable.exists_call_of_eval_ok (I := SameFrames (heldOut modules (k :: stack)))
    (fun j ys ms' h' => h'.trans (sameFrames_callWithin noise depth j ys ms')) (hms.set k .empty) h
    (hlive.sameFrame hframe)

/-- If an evaluation succeeds, so does that of every module that live calls lead to, made while the
modules on the way are under evaluation. It is not among them. -/
theorem Nests.eval_ok (hall : ∀ m ∈ modules, m.Evaluable) {ys : List Float}
    (hroot : (evalAt noise (callWithin noise depth) k values modules).1 = .ok ys)
    (h : Nests modules k (index :: stack)) :
    index ∉ stack ∧ ∃ d xs ms zs, SameFrames (heldOut modules stack) ms ∧
      (evalAt noise (callWithin noise d) index xs ms).1 = .ok zs := by
  generalize hl : index :: stack = l at h
  induction h generalizing index stack with
  | start =>
    obtain ⟨rfl, rfl⟩ := List.cons.inj hl
    exact ⟨List.not_mem_nil, depth, values, modules, ys, .refl modules, hroot⟩
  | @call caller _ rest _ hcall ih =>
    obtain ⟨rfl, rfl⟩ := List.cons.inj hl
    obtain ⟨hnew, d, xs, ms, zs, hms, heval⟩ := ih rfl
    obtain ⟨args, ms', y, hms', hok⟩ := exists_call_of_evalAt_ok hall hms hnew heval hcall
    obtain ⟨hnew', -, d', ws, heval'⟩ := not_mem_of_call_ok hall hms' hok
    exact ⟨hnew', d', args, ms', ws, hms', heval'⟩

/-- If live calls lead to a call of a module under evaluation, or of none, evaluation fails. -/
theorem Nests.exists_error (hall : ∀ m ∈ modules, m.Evaluable)
    (h : Nests modules k stack) {caller : Nat} (hhead : stack.head? = some caller)
    (hcall : MakesCall modules caller index) (hbad : index ∈ stack ∨ modules.length ≤ index) :
    ∃ e, (evalAt noise (callWithin noise depth) k values modules).1 = .error e := by
  cases hroot : (evalAt noise (callWithin noise depth) k values modules).1 with
  | error e => exact ⟨e, rfl⟩
  | ok ys =>
    obtain ⟨rest, rfl⟩ := List.head?_eq_some_iff.mp hhead
    obtain ⟨hnew, d, xs, ms, zs, hms, heval⟩ := h.eval_ok hall hroot
    obtain ⟨args, ms', y, hms', hok⟩ := exists_call_of_evalAt_ok hall hms hnew heval hcall
    obtain ⟨hnew', hlt, -⟩ := not_mem_of_call_ok hall hms' hok
    exact absurd hbad (not_or.mpr ⟨hnew', Nat.not_le.mpr hlt⟩)

end

/-! ## Evaluation of a circuit -/

namespace Circuit

/-- Whatever modules the calls of a circuit name, and whatever module of it is evaluated, evaluation
ends. It ends with every module in its place, unchanged but for the values found, also where it
fails; and it fails inside if live calls lead to a call of a module under evaluation, or of none. -/
theorem evalModule_ends (c : Circuit) (hall : ∀ m ∈ c.modules, m.Evaluable) (k : Nat)
    (values : List Float) :
    ∃ result modules, c.evalModule k values = (result, { c with modules }) ∧
      (∀ answer, Ends c.noise k values c.modules answer ↔ answer = (result, modules)) ∧
      SameFrames c.modules modules ∧
      (∀ e, result = .error e → e.kind = .internal) ∧
      ∀ caller stack index, Nests c.modules k (caller :: stack) → MakesCall c.modules caller index →
        index ∈ caller :: stack ∨ c.modules[index]? = none →
        ∃ e, result = .error e ∧ e.kind = .internal := by
  have hends : Ends c.noise k values c.modules
      (evalAt c.noise (callWithin c.noise c.modules.length) k values c.modules) :=
    exists_ends List.countP_le_length
  have hkind : ∀ e, (evalAt c.noise (callWithin c.noise c.modules.length) k values c.modules).1 =
      .error e → e.kind = .internal :=
    fun e => kind_of_evalAt (failsInside_callWithin c.noise c.modules.length) hall
  refine ⟨_, _, rfl, fun answer => ⟨fun h => hends.unique h, ?_⟩,
    sameFrames_evalAt c.noise _ k values c.modules, hkind,
    fun caller stack index h hcall hbad => ?_⟩
  · rintro rfl
    exact hends
  · rw [List.getElem?_eq_none_iff] at hbad
    obtain ⟨e, he⟩ := h.exists_error hall rfl hcall hbad
    exact ⟨e, he, hkind e he⟩

/-- Two modules that call each other. -/
def mutualCalls : Circuit where
  modules := [
    { name := ""
      nodes := [.ofOp (.call "f" 1) [1], .ofOp (.input 'x') []]
      inputs := [⟨'x', some 1⟩]
      outputs := [⟨'r', some 0⟩, ⟨'g', some 0⟩, ⟨'b', some 0⟩] },
    { name := "f"
      nodes := [.ofOp (.prim .add) [1, 2], .constant 0.5, .ofOp (.call "" 0) [3],
        .ofOp (.input 'x') []]
      inputs := [⟨'x', some 3⟩]
      outputs := [⟨'y', some 0⟩] }]
  names := ["", "f"]
  noise := .standard

/-- The entry calls `f`, and the sum in `f` waits for the entry. -/
theorem evalModule_ends_mutualCalls :
    (∀ m ∈ mutualCalls.modules, m.Evaluable) ∧
      ∃ e modules, mutualCalls.evalModule 0 [0.5] = (.error e, { mutualCalls with modules }) ∧
        (∀ answer, Ends mutualCalls.noise 0 [0.5] mutualCalls.modules answer ↔
          answer = (.error e, modules)) ∧
        SameFrames mutualCalls.modules modules ∧ e.kind = .internal := by
  have hall : ∀ m ∈ mutualCalls.modules, m.Evaluable := by
    intro m hm
    rcases List.mem_pair.mp hm with rfl | rfl
    · refine ⟨rfl, rfl, fun i op hop => ?_⟩
      rcases i with _ | _ | i <;> cases hop
    · refine ⟨rfl, rfl, fun i op hop => ?_⟩
      rcases i with _ | _ | _ | _ | i <;> cases hop <;> decide
  obtain ⟨result, modules, heval, hends, hframes, -, hbad⟩ :=
    evalModule_ends mutualCalls hall 0 [0.5]
  have hentry : MakesCall mutualCalls.modules 0 1 := ⟨_, rfl, 0, "f", rfl, rfl, 0, by decide, .refl⟩
  have hback : MakesCall mutualCalls.modules 1 0 :=
    ⟨_, rfl, 2, "", rfl, rfl, 0, by decide, .single (by decide)⟩
  obtain ⟨e, rfl, hkind⟩ := hbad 1 [0] 0 (.call .start hentry) hback (.inl (by decide))
  exact ⟨hall, e, modules, heval, hends, hframes, hkind⟩

end Circuit

end ImageCircuit
