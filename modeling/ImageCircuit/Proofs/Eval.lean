import ImageCircuit.Proofs.Frame
import ImageCircuit.Proofs.Meaning

/-!
# Evaluation finds meanings

In a sorted module the scan from the last node to the first has found the meaning of every
argument when it comes to its user. A node without meaning ends the scan, and then some output
that depends on the node has no meaning either.

* `Module.getElem?_storeInputs`: an input node stores the value of the pin bound to it
* `Module.Found.scan`: the scan finds the meanings of the live nodes, or fails at one without
* `Module.eval_eq`: evaluation finds the meanings of the outputs, whatever the nodes stored before
-/

namespace ImageCircuit

/-- The calls of some modules have answers that depend on nothing but their arguments, as long as
the surroundings satisfy `I`, which they go on doing. -/
structure Context.Answers {σ : Type} (ctx : Context σ)
    (answer : Nat → List Float → Option Float) (I : σ → Prop) (index : Nat) : Prop where
  value : ∀ xs s, I s → (ctx.call index xs s).1.toOption = answer index xs
  keeps : ∀ xs s, I s → I (ctx.call index xs s).2

namespace Module

/-- Whether node `i` has been computed since the inputs were set. -/
def computedAt (nodes : List Node) (i : Nat) : Bool :=
  (nodes[i]?.map (·.computed)).getD false

/-! ## Input values -/

theorem getElem?_storeInputs_of_unbound {pins : List Pin} {i : Nat} (values : List Float)
    (nodes : List Node) (h : ∀ pin ∈ pins, pin.index ≠ some i) :
    (storeInputs nodes pins values)[i]? = nodes[i]? := by
  induction pins generalizing nodes values with
  | nil => rfl
  | cons pin rest ih =>
    rw [storeInputs, ih _ _ fun pin hpin => h pin (List.mem_cons_of_mem _ hpin)]
    cases hj : pin.index with
    | none => rfl
    | some j =>
      have hne : j ≠ i := fun e => h pin List.mem_cons_self (e ▸ hj)
      simp [getElem?_store, hne]

/-- The node that one pin is bound to stores the value at the position of the pin. -/
theorem getElem?_storeInputs {pins : List Pin} {i : Nat} (values : List Float)
    (nodes : List Node) (h : pins.countP (fun pin => pin.index = some i) = 1) :
    ∃ value, pinValue? pins values i = some value ∧
      (storeInputs nodes pins values)[i]? =
        nodes[i]?.map fun node => { node with value, computed := true } := by
  induction pins generalizing nodes values with
  | nil => simp at h
  | cons pin rest ih =>
    by_cases hi : pin.index = some i
    · have hrest : ∀ pin ∈ rest, pin.index ≠ some i := by
        rw [List.countP_cons_of_pos (by simpa using hi), Nat.add_eq_right] at h
        simpa using List.countP_eq_zero.mp h
      refine ⟨values.headD 0, ?_, ?_⟩
      · rw [pinValue?, List.findIdx?_cons, if_pos (by simpa using hi)]
        cases values <;> rfl
      · rw [storeInputs, getElem?_storeInputs_of_unbound _ _ hrest, hi]
        simp [getElem?_store]
    · rw [List.countP_cons_of_neg (by simpa using hi)] at h
      have hfind : pinValue? (pin :: rest) values i = pinValue? rest values.tail i := by
        rw [pinValue?, List.findIdx?_cons, if_neg (by simpa using hi), Option.map_map, pinValue?]
        congr 1
        funext p
        cases values <;> rfl
      rw [storeInputs, hfind]
      cases hj : pin.index with
      | none => exact ih _ _ h
      | some j =>
        have hne : j ≠ i := fun e => hi (e ▸ hj)
        obtain ⟨value, hvalue, hget⟩ := ih values.tail (store nodes j (values.headD 0)) h
        exact ⟨value, hvalue, by simp only [hget, getElem?_store, hne, if_false, Option.map_id']⟩

/-! ## The scan -/

section

variable {σ : Type} {m : Module} {ctx : Context σ} {answer : Nat → List Float → Option Float}
  {I : σ → Prop} {values : List Float} {live : List Bool} {i : Nat} {nodes : List Node} {s : σ}

/-- What the scan has found when it comes to position `i` from above. -/
structure Found (m : Module) (noise : Float → Float → Float)
    (answer : Nat → List Float → Option Float) (values : List Float) (live : List Bool) (i : Nat)
    (nodes : List Node) : Prop where
  frame : m.SameFrame { m with nodes }
  input : ∀ j name, m.opAt j = some (.input name) → computedAt nodes j = true
  computed : ∀ j < m.size, computedAt nodes j = true →
    m.meaning noise answer values j = some (valueAt nodes j)
  scanned : ∀ j < m.size, i ≤ j → live.getD j false = true →
    m.meaning noise answer values j = some (valueAt nodes j)

namespace Found

/-- The value found for a live node is its meaning, and none is found where it has none. -/
theorem nodeValue_eq (hm : m.Formed) (hsorted : m.isSorted = true)
    (hcall : ∀ index ∈ m.callees, ctx.Answers answer I index)
    (hlive : ∀ j, live.getD j false = true → ∀ k ∈ m.argsOf j, live.getD k false = true)
    (h : m.Found ctx.noise answer values live (i + 1) nodes) {node : Node}
    (hi : nodes[i]? = some node) (hli : live.getD i false = true) (hnew : node.computed = false)
    (hs : I s) :
    (nodeValue ctx nodes node s).1.toOption = m.meaning ctx.noise answer values i ∧
      I (nodeValue ctx nodes node s).2 := by
  obtain ⟨old, hold, hop, hargs⟩ := h.frame.getElem? hi
  have hfound : old.args.mapM (m.meaning ctx.noise answer values) =
      some (node.args.map (valueAt nodes)) := by
    rw [hargs]
    refine mapM_eq_some fun j hj => ?_
    have hj' : j ∈ m.argsOf i := by rw [argsOf_eq hold, hargs]; exact hj
    exact h.scanned j (hm.within i j hj').2 (isSorted_iff.mp hsorted i j hj') (hlive i hli j hj')
  have hopAt : m.opAt i = some node.op := opAt_eq_some_iff.mpr ⟨old, hold, hop⟩
  rw [meaning_eq hm.within (acyclic_of_isSorted hm.within hsorted) hold, hfound, Option.bind_some]
  cases hkind : node.op with
  | prim op =>
    rw [hkind] at hop hopAt
    by_cases hconst : op = .const
    · -- The literal of a constant is still there, since no input pin is bound to it.
      subst hconst
      have hliteral : node.value = old.value := h.frame.value_eq hm hold hi hop
      simp only [nodeValue, opMeaning, hkind, hop, hliteral]
      exact ⟨rfl, hs⟩
    · have hlen : node.args.length ≤ Operator.maxArity := by
        have := hm.arity i op hopAt
        rw [argsOf_eq hold, hargs] at this
        rw [this]
        exact op.arity_le_maxArity
      simp only [nodeValue, opMeaning, hkind, hop, hlen, if_true]
      exact ⟨rfl, hs⟩
  | input name =>
    -- Input nodes are computed from the start.
    have := h.input i name (hkind ▸ hopAt)
    rw [computedAt, hi, Option.map_some, Option.getD_some, hnew] at this
    cases this
  | symbol name =>
    simp only [nodeValue, opMeaning, hkind, hop]
    exact ⟨rfl, hs⟩
  | call name index =>
    have hmem : index ∈ m.callees :=
      List.mem_filterMap.mpr ⟨old, List.mem_of_getElem? hold, by rw [hop, hkind]; rfl⟩
    simp only [nodeValue, opMeaning, hkind, hop]
    exact ⟨(hcall index hmem).value _ _ hs, (hcall index hmem).keeps _ _ hs⟩

theorem computedAt_store {value : Float} (j : Nat) :
    computedAt (store nodes i value) j =
      (computedAt nodes j || (decide (i = j) && decide (i < nodes.length))) := by
  rw [computedAt, getElem?_store, computedAt, Option.map_map]
  by_cases hij : i = j
  · subst hij
    by_cases hlt : i < nodes.length <;> simp [hlt]
  · cases nodes[j]? <;> simp [hij]

/-- Nothing is to be found for a node that is not live, and nothing more for a computed one. -/
theorem skip {noise : Float → Float → Float} (h : m.Found noise answer values live (i + 1) nodes)
    (hi : i < m.size → live.getD i false = true → computedAt nodes i = true) :
    m.Found noise answer values live i nodes where
  frame := h.frame
  input := h.input
  computed := h.computed
  scanned j hj hij hlj := by
    rcases Nat.eq_or_lt_of_le hij with rfl | hlt
    · exact h.computed i hj (hi hj hlj)
    · exact h.scanned j hj hlt hlj

/-- A node that stores its meaning is found. -/
theorem store {noise : Float → Float → Float} {value : Float}
    (h : m.Found noise answer values live (i + 1) nodes)
    (hvalue : m.meaning noise answer values i = some value)
    (hlit : m.opAt i = some (.prim .const) → value = valueAt nodes i) :
    m.Found noise answer values live i (Module.store nodes i value) := by
  have hstored : i < m.size → valueAt (Module.store nodes i value) i = value := by
    intro hi
    refine valueAt_store nodes ?_ value
    have : ({ m with nodes } : Module).size = m.size := h.frame.size
    rwa [← this] at hi
  refine ⟨h.frame.store fun hop _ => hlit hop, fun j name hj => ?_, fun j hj hcomp => ?_,
    fun j hj hij hlj => ?_⟩
  · rw [computedAt_store, h.input j name hj]
    rfl
  · by_cases hij : i = j
    · subst hij
      rw [hstored hj, hvalue]
    · rw [computedAt_store] at hcomp
      rw [valueAt_store_of_ne nodes hij]
      exact h.computed j hj (by simpa [hij] using hcomp)
  · by_cases hji : i = j
    · subst hji
      rw [hstored hj, hvalue]
    · rw [valueAt_store_of_ne nodes hji]
      exact h.scanned j hj (by omega) hlj

/-- The scan finds the meanings of all live nodes, or it fails at one that has none. -/
theorem scan (hm : m.Formed) (hsorted : m.isSorted = true)
    (hcall : ∀ index ∈ m.callees, ctx.Answers answer I index)
    (hlive : ∀ j, live.getD j false = true → ∀ k ∈ m.argsOf j, live.getD k false = true)
    (h : m.Found ctx.noise answer values live i nodes) (hs : I s) :
    ∃ result nodes' s', Module.scan ctx live i nodes s = (result, nodes', s') ∧ I s' ∧
      ((result = .ok () ∧ m.Found ctx.noise answer values live 0 nodes') ∨
        ∃ e j, result = .error e ∧ live.getD j false = true ∧
          m.meaning ctx.noise answer values j = none) := by
  fun_induction Module.scan ctx live i nodes s with
  | case1 nodes s => exact ⟨_, _, _, rfl, hs, .inl ⟨rfl, h⟩⟩
  | case2 i nodes s hnone ih =>
    refine ih (h.skip fun hi _ => ?_) hs
    have hsize : nodes.length = m.size := h.frame.size
    rw [List.getElem?_eq_none_iff, hsize] at hnone
    omega
  | case3 i nodes s node hnode hskip ih =>
    refine ih (h.skip fun _ hli => ?_) hs
    rw [hli, Bool.not_true, Bool.false_or] at hskip
    rw [computedAt, hnode]
    exact hskip
  | case4 i nodes s node hnode hlive' e s' heq =>
    rw [Bool.or_eq_true, not_or, Bool.not_eq_true', Bool.not_eq_false, Bool.not_eq_true] at hlive'
    have := nodeValue_eq hm hsorted hcall hlive h hnode hlive'.1 hlive'.2 hs
    rw [heq] at this
    exact ⟨_, _, _, rfl, this.2, .inr ⟨e, i, rfl, hlive'.1, this.1.symm⟩⟩
  | case5 i nodes s node hnode hlive' value s' heq ih =>
    rw [Bool.or_eq_true, not_or, Bool.not_eq_true', Bool.not_eq_false, Bool.not_eq_true] at hlive'
    have := nodeValue_eq hm hsorted hcall hlive h hnode hlive'.1 hlive'.2 hs
    rw [heq] at this
    exact ih (h.store this.1.symm fun hop => h.frame.value_of_nodeValue hnode hop heq) this.2

end Found

/-! ## A whole evaluation -/

/-- With the inputs set, exactly the input nodes are computed. -/
theorem setInputs_eq (hm : m.Formed) (hac : Acyclic m.argsOf) (noise : Float → Float → Float)
    (answer : Nat → List Float → Option Float) (values : List Float) :
    ∃ nodes, m.setInputs values = .ok { m with nodes } ∧
      ∀ live, m.Found noise answer values live m.size nodes := by
  refine ⟨_, setInputs_of_pinsInRange hm.pinsInRange values, fun live =>
    ⟨?_, fun i name hop => ?_, fun i hi hcomp => ?_,
      fun i hi hle => absurd hi (Nat.not_lt.mpr hle)⟩⟩
  · exact sameFrame_storeInputs m.inputs values (sameFrame_uncompute m)
      fun pin hpin i hi => isInput_of_mem hpin hi
  · obtain ⟨value, -, hget⟩ := getElem?_storeInputs values
      (m.nodes.map fun node => { node with computed := false }) (hm.input_node i name hop)
    obtain ⟨node, hnode, -⟩ := opAt_eq_some_iff.mp hop
    rw [computedAt, hget, List.getElem?_map, hnode]
    rfl
  · by_cases hbound : ∃ pin ∈ m.inputs, pin.index = some i
    · obtain ⟨pin, hpin, hidx⟩ := hbound
      have hop := hm.input_pin pin hpin i hidx
      obtain ⟨value, hvalue, hget⟩ := getElem?_storeInputs values
        (m.nodes.map fun node => { node with computed := false }) (hm.input_node i _ hop)
      obtain ⟨node, hnode, hkind⟩ := opAt_eq_some_iff.mp hop
      have hargs : node.args = [] := by
        rw [← argsOf_eq hnode]
        exact hm.input_args i _ hop
      rw [meaning_eq hm.within hac hnode, hargs, valueAt, hget, List.getElem?_map, hnode]
      show m.opMeaning noise answer values i node [] = some value
      simp only [opMeaning, hkind, hvalue]
    · simp only [not_exists, not_and] at hbound
      rw [computedAt, getElem?_storeInputs_of_unbound _ _ hbound, List.getElem?_map] at hcomp
      cases hnode : m.nodes[i]? <;> simp [hnode] at hcomp

/-- Evaluation finds the meanings of the outputs if all of them have one, and otherwise fails. -/
theorem eval_eq (hm : m.Formed) (hsorted : m.isSorted = true)
    (hcall : ∀ index ∈ m.callees, ctx.Answers answer I index) (values : List Float) (hs : I s) :
    (m.eval ctx values s).1.toOption = m.outputMeanings ctx.noise answer values ∧
      I (m.eval ctx values s).2.2 := by
  have hac := acyclic_of_isSorted hm.within hsorted
  obtain ⟨nodes, hset, hfound⟩ := setInputs_eq hm hac ctx.noise answer values
  have hframe : m.SameFrame { m with nodes } := (hfound []).frame
  have hm' := hframe.formed hm
  obtain ⟨live, hreach, -, hlive⟩ := reachableFrom_eq hm'.within m.outputIndices
  rw [hframe.argsOf_eq, hframe.size] at hlive
  have hclosed : ∀ j, live.getD j false = true → ∀ k ∈ m.argsOf j, live.getD k false = true := by
    intro j hj k hk
    rw [← marked_iff_getD] at hj ⊢
    obtain ⟨o, ho, hlt, hoj⟩ := (hlive j).mp hj
    exact (hlive k).mpr ⟨o, ho, hlt, hoj.tail hk⟩
  obtain ⟨result, nodes', s', hscan, hs', hresult⟩ :=
    (hfound live).scan hm hsorted hcall hclosed hs
  have heval : ({ m with nodes } : Module).evalNodes ctx m.outputIndices s =
      (result, { m with nodes := nodes' }, s') := by
    have hsize : ({ m with nodes } : Module).size = m.size := hframe.size
    rw [evalNodes, hreach, hsize]
    simp only [hscan]
  have hout : ({ m with nodes } : Module).outputIndices = m.outputIndices := rfl
  simp only [eval, hset, hout, heval]
  rcases hresult with ⟨rfl, hall⟩ | ⟨e, j, rfl, hj, hnone⟩
  · refine ⟨?_, hs'⟩
    have hbound : ({ m with nodes := nodes' } : Module).outputValues =
        .ok (m.outputs.map fun pin => (pin.index.map (valueAt nodes')).getD 0) := by
      refine if_pos (List.all_eq_true.mpr fun pin hpin => ?_)
      obtain ⟨i, hi, hidx⟩ := hm.output pin hpin
      rw [hidx, hall.frame.size]
      exact decide_eq_true hi
    simp only [hbound]
    refine (mapM_eq_some fun pin hpin => ?_).symm
    obtain ⟨i, hi, hidx⟩ := hm.output pin hpin
    simp only [hidx, Option.map_some, Option.getD_some]
    refine hall.scanned i hi (Nat.zero_le i) (marked_iff_getD.mp ((hlive i).mpr ⟨i, ?_, hi, .refl⟩))
    exact mem_outputIndices_iff.mpr ⟨pin, hpin, hidx⟩
  · refine ⟨?_, hs'⟩
    obtain ⟨o, ho, -, hoj⟩ := (hlive j).mp (marked_iff_getD.mpr hj)
    obtain ⟨pin, hpin, hidx⟩ := mem_outputIndices_iff.mp ho
    refine (mapM_eq_none_iff.mpr ⟨pin, hpin, ?_⟩).symm
    simp only [hidx]
    exact meaning_eq_none_of_reaches hm.within hac hoj hnone

end

end Module

end ImageCircuit
