import ImageCircuit.Proofs.CircuitEval
import ImageCircuit.Proofs.VisibleMutation

/-!
# What a mutation cannot reach

An operator change replaces the operation of one node, and a connection swap the arguments of two.
What does not depend on these nodes reads the same nodes as before, and the sort after a swap moves
nodes without changing what they mean. The positions in an outcome are those before the sort.

* `Module.meaning_eq_of_below`: what stands below a node decides what it means
* `Module.OperatorStep.outputMeaning_eq`, `Module.ConnectionStep.outputMeaning_eq`: the outputs
  that a step cannot reach keep their meaning
* `Circuit.WellFormed.answer_withEntry`: calls are answered alike, whatever the entry is
* `Circuit.Reachable.spared_outputs`: these outputs evaluate to the same values
-/

namespace ImageCircuit

/-- The nodes whose operation or arguments a mutation changed. -/
def Outcome.owners : Outcome → List Nat
  | operatorChanged node _ _ => [node]
  | connectionSwapped first second => [first.node, second.node]
  | notApplicable _ => []

namespace Module

variable {m m' : Module} {noise : Float → Float → Float}
  {answer answer' : Nat → List Float → Option Float} {values : List Float} {i k o : Nat} {pin : Pin}

/-! ## Below a node -/

/-- A node means the same in every module that has the same inputs and, below the node, the same
nodes. -/
theorem meaningWithin_eq_of_below (hinputs : m'.inputs = m.inputs)
    (h : ∀ j, Reaches m.argsOf i j → m'.nodes[j]? = m.nodes[j]?) (depth : Nat) :
    m'.meaningWithin noise answer values depth i = m.meaningWithin noise answer values depth i := by
  refine meaningWithin_eq_of_sameAt (S := Reaches m.argsOf i) (fun _ hij _ hk => hij.tail hk)
    (fun j hij => ?_) depth .refl
  rw [SameAt, h j hij]
  cases m.nodes[j]? with
  | none => exact .none
  | some node => exact .some ⟨rfl, funext fun xs => by rw [opMeaning, opMeaning, hinputs]⟩

theorem meaning_eq_of_below (hinputs : m'.inputs = m.inputs) (hsize : m'.size = m.size)
    (h : ∀ j, Reaches m.argsOf i j → m'.nodes[j]? = m.nodes[j]?) :
    m'.meaning noise answer values i = m.meaning noise answer values i := by
  rw [meaning, meaning, hsize]
  exact meaningWithin_eq_of_below hinputs h m.size

/-- An operator change is not seen from where its node cannot be reached. -/
theorem meaning_setOp (op : Op) (ho : ¬ Reaches m.argsOf o i) :
    (m.setOp i op).meaning noise answer values o = m.meaning noise answer values o := by
  refine meaning_eq_of_below rfl (size_setOp op) fun j hj => ?_
  have hij : i ≠ j := by
    rintro rfl
    exact ho hj
  simp [getElem?_setOp, hij]

/-- An exchange is not seen from where neither of its nodes can be reached. -/
theorem meaning_swapTargets {a b : Link} (hne : a.node ≠ b.node)
    (ha : ¬ Reaches m.argsOf o a.node) (hb : ¬ Reaches m.argsOf o b.node) :
    (m.swapTargets a b).meaning noise answer values o = m.meaning noise answer values o := by
  refine meaning_eq_of_below rfl size_swapTargets fun j hj => ?_
  have hja : j ≠ a.node := by
    rintro rfl
    exact ha hj
  have hjb : j ≠ b.node := by
    rintro rfl
    exact hb hj
  rw [getElem?_swapTargets hne, exchangedArgs_other hja hjb]
  cases hnode : m.nodes[j]? with
  | none => rfl
  | some node => rw [Option.map_some, argsOf_eq hnode]

/-! ## Outputs -/

/-- The value of output `k`; an unbound output reads 0. -/
def outputMeaning (m : Module) (noise : Float → Float → Float)
    (answer : Nat → List Float → Option Float) (values : List Float) (k : Nat) : Option Float :=
  m.outputs[k]?.bind fun pin =>
    match pin.index with
    | some i => m.meaning noise answer values i
    | none => some 0

theorem outputMeaning_eq (hpin : m.outputs[k]? = some pin) (hidx : pin.index = some o) :
    m.outputMeaning noise answer values k = m.meaning noise answer values o := by
  simp only [outputMeaning, hpin, hidx, Option.bind_some]

theorem exists_of_outputMeanings {ys : List Float}
    (h : m.outputMeanings noise answer values = some ys) (hpin : m.outputs[k]? = some pin) :
    ∃ y, ys[k]? = some y ∧ m.outputMeaning noise answer values k = some y := by
  obtain ⟨y, hy, hmeaning⟩ := exists_getElem?_of_forall₂ (forall₂_of_mapM_eq_some h).flip hpin
  refine ⟨y, hy, ?_⟩
  rw [outputMeaning, hpin]
  exact hmeaning

/-- An output of a relayout means what it meant before, if its node is kept. -/
theorem outputMeaning_relayout {order : List Nat} (hn : Within m.argsOf m.size)
    (hac : Acyclic m.argsOf) (h : m.IsLayout order) (hpin : m.outputs[k]? = some pin)
    (hidx : pin.index = some o) (ho : o ∈ order) :
    (m.relayout order).outputMeaning noise answer values k = m.meaning noise answer values o := by
  have hpin' : (m.relayout order).outputs[k]? = some (movePin order pin) := by
    rw [outputs_relayout, List.getElem?_map, hpin, Option.map_some]
  rw [outputMeaning_eq hpin' ((index_movePin_newPosition h ho pin).mpr hidx),
    meaning_relayout hn hac h ho]

/-- Only the answers to the calls of a module matter. -/
theorem outputMeanings_congr (h : ∀ index ∈ m.callees, answer index = answer' index) :
    m.outputMeanings noise answer values = m.outputMeanings noise answer' values := by
  have hmeaning : m.meaning noise answer values = m.meaning noise answer' values :=
    funext fun i => meaningWithin_congr h values m.size i
  rw [outputMeanings, outputMeanings, hmeaning]

/-! ## Steps -/

variable {applied : List Outcome}

theorem OperatorStep.outputMeaning_eq (h : m.OperatorStep applied m')
    (hpin : m.outputs[k]? = some pin) (hidx : pin.index = some o)
    (ho : ∀ outcome ∈ applied, ∀ i ∈ outcome.owners, ¬ Reaches m.argsOf o i) :
    m'.outputMeaning noise answer values k = m.outputMeaning noise answer values k := by
  rw [Module.outputMeaning_eq hpin hidx]
  cases h with
  | skip => exact Module.outputMeaning_eq hpin hidx
  | change =>
    have hnode := ho _ List.mem_cons_self _ List.mem_cons_self
    rw [Module.outputMeaning_eq (by rwa [outputs_setOp]) hidx, meaning_setOp _ hnode]

theorem ConnectionStep.outputMeaning_eq (h : m.ConnectionStep applied m') (hm : m.Normal)
    (hpin : m.outputs[k]? = some pin) (hidx : pin.index = some o)
    (ho : ∀ outcome ∈ applied, ∀ i ∈ outcome.owners, ¬ Reaches m.argsOf o i) :
    m'.outputMeaning noise answer values k = m.outputMeaning noise answer values k := by
  rw [Module.outputMeaning_eq hpin hidx]
  cases h with
  | skip => exact Module.outputMeaning_eq hpin hidx
  | @swap first second _ hswap hsort =>
    have howners := ho _ List.mem_cons_self
    have hfirst := howners first.node List.mem_cons_self
    have hsecond := howners second.node (List.mem_cons_of_mem _ List.mem_cons_self)
    have hn := hswap.within hm.within
    have hac := acyclic_of_topologicalSort hn hsort
    obtain ⟨order, rfl, hlayout, hall⟩ := exists_layout_of_topologicalSort hn hsort
    -- The exchange is not seen from the output, and the sort after it keeps all nodes.
    have hmem : o ∈ order := by
      rw [hall, size_swapTargets]
      exact hm.outputIndices_lt o (mem_outputIndices_iff.mpr ⟨pin, List.mem_of_getElem? hpin, hidx⟩)
    rw [outputMeaning_relayout hn hac hlayout (by rwa [outputs_swapTargets]) hidx hmem,
      meaning_swapTargets hswap.ne hfirst hsecond]

end Module

namespace Circuit

variable {c : Circuit} {m : Module} {k : Nat}

/-! ## Calls -/

namespace WellFormed

/-- No call leads to the entry. -/
theorem ne_entryIndex (h : c.WellFormed) (hm : m ∈ c.modules) (hk : k ∈ m.callees) :
    k ≠ c.entryIndex := by
  rintro rfl
  obtain ⟨i, word, hop⟩ := Module.mem_callees_iff.mp hk
  obtain ⟨hword, callee, hcallee, hname, -⟩ := h.call m hm i word _ hop
  obtain ⟨entry, hentry, hempty, -⟩ := h.entry
  obtain rfl := Option.some.inj (hcallee.symm.trans hentry)
  exact hword (hname.symm.trans hempty)

/-- Another entry answers no calls differently. -/
theorem answer_withEntry (h : c.WellFormed) (m : Module) (hk : k ≠ c.entryIndex) :
    (c.withEntry m).answer k = c.answer k := by
  have hwithin : ∀ depth k, k ≠ c.entryIndex →
      (c.withEntry m).answerWithin depth k = c.answerWithin depth k := by
    intro depth
    induction depth with
    | zero => exact fun _ _ => rfl
    | succ depth ih =>
      intro k hk
      funext xs
      have hget : (c.withEntry m).modules[k]? = c.modules[k]? := List.getElem?_set_ne hk.symm
      rw [answerWithin, answerWithin, hget]
      cases hcallee : c.modules[k]? with
      | none => rfl
      | some callee =>
        have hsame :
            callee.meaning (c.withEntry m).noise.at ((c.withEntry m).answerWithin depth) xs =
              callee.meaning c.noise.at (c.answerWithin depth) xs := by
          refine funext fun o => Module.meaningWithin_congr (fun index hindex => ?_) xs _ o
          exact ih index (h.ne_entryIndex (List.mem_of_getElem? hcallee) hindex)
        simp only [Option.bind_eq_bind, Option.bind_some, hsame]
  have hlen : (c.withEntry m).modules.length = c.modules.length := List.length_set
  funext xs
  rw [answer, answer, hlen, hwithin _ k hk]

/-- The outputs of a new entry, whose calls are answered as before. -/
theorem outputMeanings_withEntry (h : c.WellFormed) (hfits : c.entry.Fits m) (values : List Float) :
    (c.withEntry m).outputMeanings c.entryIndex values =
      m.outputMeanings c.noise.at c.answer values := by
  have hget : (c.withEntry m).modules[c.entryIndex]? = some m :=
    List.getElem?_set_self h.entryIndex_lt
  rw [Circuit.outputMeanings, hget]
  refine Module.outputMeanings_congr fun index hindex => h.answer_withEntry m ?_
  exact h.ne_entryIndex (List.mem_of_getElem? h.getElem?_entryIndex) (hfits.mem_callees hindex)

/-- Outputs that mean the same before and after a change of the entry have the same values. -/
theorem eval_withEntry (h : c.WellFormed) (hm : m.Normal) (hfits : c.entry.Fits m)
    (values : List Float) :
    ∃ ys ys', (c.eval values).1 = .ok ys ∧ ((c.withEntry m).eval values).1 = .ok ys' ∧
      ∀ (k : Nat) (pin : Pin), c.entry.outputs[k]? = some pin →
        m.outputMeaning c.noise.at c.answer values k =
          c.entry.outputMeaning c.noise.at c.answer values k →
        ∃ y, ys[k]? = some y ∧ ys'[k]? = some y := by
  have h' := h.withEntry hm hfits
  obtain ⟨ys, hys⟩ := h.exists_outputMeanings h.entryIndex_lt values
  obtain ⟨ys', hys'⟩ := h'.exists_outputMeanings h'.entryIndex_lt values
  refine ⟨ys, ys', h.evalModule_of_meanings h.entryIndex_lt (.refl _) hys,
    h'.evalModule_of_meanings h'.entryIndex_lt (.refl _) hys', fun k pin hpin hsame => ?_⟩
  have hmeanings : c.entry.outputMeanings c.noise.at c.answer values = some ys := by
    rw [← hys, Circuit.outputMeanings, h.getElem?_entryIndex]
    rfl
  have hmeanings' : m.outputMeanings c.noise.at c.answer values = some ys' :=
    (h.outputMeanings_withEntry hfits values).symm.trans hys'
  obtain ⟨pin', hpin', -⟩ := hfits.exists_output hpin
  obtain ⟨y, hy, hvalue⟩ := Module.exists_of_outputMeanings hmeanings hpin
  obtain ⟨y', hy', hvalue'⟩ := Module.exists_of_outputMeanings hmeanings' hpin'
  rw [hvalue, hvalue'] at hsame
  obtain rfl := Option.some.inj hsame
  exact ⟨_, hy, hy'⟩

end WellFormed

/-- Take a circuit that is read or drawn at random, and then evaluated and mutated any number of
times. An operator change of its entry, or a connection swap, leaves the value of every output that
depends neither on the changed node nor on one of the two owners of the swapped links, whatever the
inputs are. -/
theorem Reachable.spared_outputs {σ : Type} [Source σ] {s : σ} {outcome : Outcome} {m' : Module}
    (h : c.Reachable) (hstep : (c.entry.mutateOperator s).1 = (outcome, m') ∨
      ∃ attempts, (c.entry.mutateConnection attempts s).1 = (.ok outcome, m'))
    (values : List Float) :
    ∃ ys ys', (c.eval values).1 = .ok ys ∧ ((c.withEntry m').eval values).1 = .ok ys' ∧
      ∀ (k : Nat) (pin : Pin) (o : Nat), c.entry.outputs[k]? = some pin → pin.index = some o →
        (∀ i ∈ outcome.owners, ¬ Reaches c.entry.argsOf o i) →
          ∃ y, ys[k]? = some y ∧ ys'[k]? = some y := by
  have hwf := h.wellFormed
  have hm := hwf.entry_normal
  -- The steps list what has been applied: the outcome, or nothing.
  have happlied : ∀ {P : Outcome → Prop}, P outcome →
      ∀ other ∈ [outcome].filter (·.isApplied), P other := by
    intro P hP other hother
    obtain rfl := List.mem_singleton.mp (List.mem_of_mem_filter hother)
    exact hP
  rcases hstep with hrun | ⟨attempts, hrun⟩
  · have hstep := Module.always_mutateOperator_step (m := c.entry) s
    rw [hrun] at hstep
    obtain ⟨ys, ys', hys, hys', hsame⟩ := hwf.eval_withEntry (hstep.normal hm) hstep.fits values
    exact ⟨ys, ys', hys, hys', fun k pin o hpin hidx ho =>
      hsame k pin hpin (hstep.outputMeaning_eq hpin hidx (happlied ho))⟩
  · obtain ⟨outcome', hok, hstep⟩ := Module.always_mutateConnection_step hm attempts s
    rw [hrun] at hok hstep
    obtain rfl := Except.ok.inj hok
    obtain ⟨hm', hfits⟩ := hstep.normal_and_fits hm
    obtain ⟨ys, ys', hys, hys', hsame⟩ := hwf.eval_withEntry hm' hfits values
    exact ⟨ys, ys', hys, hys', fun k pin o hpin hidx ho =>
      hsame k pin hpin (hstep.outputMeaning_eq hm hpin hidx (happlied ho))⟩

theorem mutateOperator_sinCosCircuit :
    (sinCosCircuit.entry.mutateOperator (ChaCha.ofSeed 2)).1.1 = .operatorChanged 0 .sin .bw := by
  decide +kernel

theorem not_reaches_sinCos : ¬ Reaches Module.sinCos.argsOf 1 0 := by
  intro h
  have hle : ∀ j, 1 ≤ j → ∀ k ∈ Module.sinCos.argsOf j, 1 ≤ k := fun j hj k hk =>
    Nat.le_trans hj (Nat.le_of_lt (Module.isSorted_iff.mp Module.normal_sinCos.sorted j k hk))
  exact absurd (h.mem_of_closed (S := (1 ≤ ·)) hle (Nat.le_refl 1)) (by decide)

/-- The sine is replaced, and the two outputs of the cosine keep their value. -/
theorem spared_outputs_sinCosCircuit :
    sinCosCircuit.Reachable ∧ ∃ m', (sinCosCircuit.entry.mutateOperator (ChaCha.ofSeed 2)).1 =
      (.operatorChanged 0 .sin .bw, m') ∧
      ∃ ys ys', (sinCosCircuit.eval [0.25]).1 = .ok ys ∧
        ((sinCosCircuit.withEntry m').eval [0.25]).1 = .ok ys' ∧
        (∃ y, ys[1]? = some y ∧ ys'[1]? = some y) ∧ ∃ y, ys[2]? = some y ∧ ys'[2]? = some y := by
  obtain ⟨m', hrun⟩ : ∃ m', (sinCosCircuit.entry.mutateOperator (ChaCha.ofSeed 2)).1 =
      (.operatorChanged 0 .sin .bw, m') := ⟨_, Prod.ext mutateOperator_sinCosCircuit rfl⟩
  obtain ⟨ys, ys', hys, hys', hsame⟩ :=
    reachable_sinCosCircuit.spared_outputs (.inl hrun) [0.25]
  have howners : ∀ i ∈ (Outcome.operatorChanged 0 .sin .bw).owners,
      ¬ Reaches sinCosCircuit.entry.argsOf 1 i := by
    intro i hi
    obtain rfl := List.mem_singleton.mp hi
    exact not_reaches_sinCos
  exact ⟨reachable_sinCosCircuit, m', hrun, ys, ys', hys, hys',
    hsame 1 ⟨'g', some 1⟩ 1 rfl rfl howners, hsame 2 ⟨'b', some 1⟩ 1 rfl rfl howners⟩

end Circuit

end ImageCircuit
