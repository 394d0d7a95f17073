import ImageCircuit.Module.Eval
import ImageCircuit.Proofs.Formed

/-!
# What the nodes of a module mean

The meaning of a node is given by recursion on its arguments, whatever the nodes store and in
whatever order they stand: first the values of all arguments, then that of the operation. There is
none where the recursion does not end, at a word that names no module, and at a call without an
answer. As no path without a cycle passes more nodes than there are, the recursion need not go
deeper than that.

* `Module.meaningWithin_eq_of_sameAt`: what decides the meaning of a node stands at it and below it
* `Module.meaning_eq`: the meaning of a node from the meanings of its arguments
* `Module.meaning_eq_none_of_reaches`: meaning is strict, so what fails below a node fails it
* `Module.meaning_eq_none_iff`: nothing else fails a node
* `Module.meaning_relayout`: a relayout keeps the meaning of the nodes it keeps
-/

namespace ImageCircuit

/-! ## Evaluating a list of arguments -/

theorem mapM_congr_left {α β : Type} {f g : α → Option β} {xs : List α}
    (h : ∀ x ∈ xs, f x = g x) : xs.mapM f = xs.mapM g := by
  induction xs with
  | nil => rfl
  | cons x rest ih =>
    rw [List.mapM_cons, List.mapM_cons, h x List.mem_cons_self,
      ih fun x hx => h x (List.mem_cons_of_mem _ hx)]

theorem mapM_eq_some {α β : Type} {f : α → Option β} {g : α → β} {xs : List α}
    (h : ∀ x ∈ xs, f x = some (g x)) : xs.mapM f = some (xs.map g) := by
  induction xs with
  | nil => rfl
  | cons x rest ih =>
    rw [List.mapM_cons, h x List.mem_cons_self, ih fun x hx => h x (List.mem_cons_of_mem _ hx)]
    rfl

theorem mapM_eq_none_iff {α β : Type} {f : α → Option β} {xs : List α} :
    xs.mapM f = none ↔ ∃ x ∈ xs, f x = none := by
  induction xs with
  | nil => simp
  | cons x rest ih =>
    rw [List.mapM_cons]
    cases hx : f x with
    | none => simp [hx]
    | some y => cases hrest : rest.mapM f <;> simp [hx, hrest, ← ih]

theorem forall₂_of_mapM_eq_some {α β : Type} {f : α → Option β} {xs : List α} {ys : List β}
    (h : xs.mapM f = some ys) : List.Forall₂ (fun x y => f x = some y) xs ys := by
  induction xs generalizing ys with
  | nil =>
    obtain rfl := Option.some.inj h
    exact .nil
  | cons x rest ih =>
    rw [List.mapM_cons] at h
    obtain ⟨y, hy, h⟩ := Option.bind_eq_some_iff.mp h
    obtain ⟨zs, hzs, h⟩ := Option.bind_eq_some_iff.mp h
    obtain rfl := Option.some.inj h
    exact .cons hy (ih hzs)

/-! ## Meaning -/

/-- The value passed at the position of the first pin bound to node `i`, 0 when none is passed. -/
def pinValue? (pins : List Pin) (values : List Float) (i : Nat) : Option Float :=
  (pins.findIdx? (·.index = some i)).map fun p => values.getD p 0

namespace Module

/-- The value of a node whose arguments have the values `xs`. -/
def opMeaning (m : Module) (noise : Float → Float → Float)
    (answer : Nat → List Float → Option Float) (values : List Float) (i : Nat) (node : Node)
    (xs : List Float) : Option Float :=
  match node.op with
  | .prim .const => some node.value
  | .prim op => some (op.apply noise xs)
  | .input _ => pinValue? m.inputs values i
  | .symbol _ => none
  | .call _ index => answer index xs

/-- The value of node `i` for some values of the inputs, calls being answered by `answer`, if no
path from the node passes more than `depth` nodes. -/
def meaningWithin (m : Module) (noise : Float → Float → Float)
    (answer : Nat → List Float → Option Float) (values : List Float) :
    (depth i : Nat) → Option Float
  | 0, _ => none
  | depth + 1, i => do
    let node ← m.nodes[i]?
    let xs ← node.args.mapM (meaningWithin m noise answer values depth)
    m.opMeaning noise answer values i node xs

/-- The value of node `i` for some values of the inputs, calls being answered by `answer`. -/
def meaning (m : Module) (noise : Float → Float → Float)
    (answer : Nat → List Float → Option Float) (values : List Float) (i : Nat) : Option Float :=
  m.meaningWithin noise answer values m.size i

/-- The values of the outputs, in order; an unbound output reads 0. -/
def outputMeanings (m : Module) (noise : Float → Float → Float)
    (answer : Nat → List Float → Option Float) (values : List Float) : Option (List Float) :=
  m.outputs.mapM fun pin =>
    match pin.index with
    | some i => m.meaning noise answer values i
    | none => some 0

variable {m : Module} {noise : Float → Float → Float} {answer : Nat → List Float → Option Float}
  {values : List Float} {order : List Nat} {i j : Nat}

theorem meaningWithin_of_none (h : m.nodes[i]? = none) (depth : Nat) :
    m.meaningWithin noise answer values depth i = none := by
  cases depth with
  | zero => rfl
  | succ depth =>
    rw [meaningWithin, h]
    rfl

theorem meaningWithin_succ {node : Node} (h : m.nodes[i]? = some node) (depth : Nat) :
    m.meaningWithin noise answer values (depth + 1) i =
      (node.args.mapM (m.meaningWithin noise answer values depth)).bind
        (m.opMeaning noise answer values i node) := by
  rw [meaningWithin, h]
  rfl

/-- Both modules have no node `i`, or their nodes read the same positions and compute the same. -/
def SameAt (m m' : Module) (noise : Float → Float → Float)
    (answer answer' : Nat → List Float → Option Float) (values : List Float) (i : Nat) : Prop :=
  Option.Rel (fun node node' => node'.args = node.args ∧
    m'.opMeaning noise answer' values i node' = m.opMeaning noise answer values i node)
    m.nodes[i]? m'.nodes[i]?

/-- Two modules mean the same at positions that hold with a node its arguments if their nodes there
are the same. -/
theorem meaningWithin_eq_of_sameAt {m' : Module} {answer' : Nat → List Float → Option Float}
    {S : Nat → Prop} (hS : ∀ i, S i → ∀ j ∈ m.argsOf i, S j)
    (hsame : ∀ i, S i → m.SameAt m' noise answer answer' values i) (depth : Nat) (hi : S i) :
    m'.meaningWithin noise answer' values depth i =
      m.meaningWithin noise answer values depth i := by
  induction depth generalizing i with
  | zero => rfl
  | succ depth ih =>
    have hrel := hsame i hi
    unfold SameAt at hrel
    generalize hnode : m.nodes[i]? = found, hnode' : m'.nodes[i]? = found' at hrel
    cases hrel with
    | none => rw [meaningWithin_of_none hnode, meaningWithin_of_none hnode']
    | some h =>
      rw [meaningWithin_succ hnode, meaningWithin_succ hnode', h.1, h.2]
      congr 1
      refine mapM_congr_left fun j hj => ih ?_
      exact hS i hi j (mem_argsOf_iff.mpr ⟨_, hnode, hj⟩)

theorem meaningWithin_eq_of_forall_sameAt {m' : Module}
    {answer' : Nat → List Float → Option Float}
    (hsame : ∀ i, m.SameAt m' noise answer answer' values i) (depth i : Nat) :
    m'.meaningWithin noise answer' values depth i = m.meaningWithin noise answer values depth i :=
  meaningWithin_eq_of_sameAt (S := fun _ => True) (fun _ _ _ _ => trivial) (fun i _ => hsame i)
    depth trivial

/-- From its rank on, the depth does not matter to a node. -/
theorem meaningWithin_eq_of_hasRank {r depth depth' : Nat} (h : HasRank m.argsOf i r)
    (hlt : r < depth) (hlt' : r < depth') :
    m.meaningWithin noise answer values depth i = m.meaningWithin noise answer values depth' i := by
  induction h generalizing depth depth' with
  | @above i rank _ ih =>
    obtain ⟨d, rfl⟩ := Nat.exists_eq_add_one_of_ne_zero (Nat.ne_zero_of_lt hlt)
    obtain ⟨d', rfl⟩ := Nat.exists_eq_add_one_of_ne_zero (Nat.ne_zero_of_lt hlt')
    cases hi : m.nodes[i]? with
    | none => rw [meaningWithin_of_none hi, meaningWithin_of_none hi]
    | some node =>
      rw [meaningWithin_succ hi, meaningWithin_succ hi]
      congr 1
      refine mapM_congr_left fun j hj => ?_
      have hj' : j ∈ m.argsOf i := by rwa [argsOf_eq hi]
      have := lt_rankAbove (List.mem_map_of_mem (f := rank) hj')
      exact ih j hj' (by omega) (by omega)

/-- The meaning of a node is that of its operation for the meanings of its arguments. -/
theorem meaning_eq (hn : Within m.argsOf m.size) (hac : Acyclic m.argsOf) {node : Node}
    (h : m.nodes[i]? = some node) :
    m.meaning noise answer values i =
      (node.args.mapM (m.meaning noise answer values)).bind
        (m.opMeaning noise answer values i node) := by
  obtain ⟨r, hr⟩ := hac.exists_hasRank hn i
  have hlt : r < m.size := hr.lt_bound hn (List.getElem?_eq_some_iff.mp h).1
  calc m.meaning noise answer values i
      = m.meaningWithin noise answer values (m.size + 1) i :=
        meaningWithin_eq_of_hasRank hr hlt (Nat.lt_succ_of_lt hlt)
    _ = _ := meaningWithin_succ h m.size

theorem outputMeanings_singleton {pin : Pin} (hpin : m.outputs = [pin])
    (hi : pin.index = some i) :
    m.outputMeanings noise answer values = (m.meaning noise answer values i).map ([·]) := by
  rw [outputMeanings, hpin, List.mapM_cons, List.mapM_nil]
  simp only [hi]
  cases m.meaning noise answer values i <;> rfl

/-- Meaning is strict: a node has none if what it depends on has none. -/
theorem meaning_eq_none_of_reaches (hn : Within m.argsOf m.size) (hac : Acyclic m.argsOf)
    (h : Reaches m.argsOf i j)
    (hj : m.meaning noise answer values j = none) : m.meaning noise answer values i = none := by
  induction h using Relation.ReflTransGen.head_induction_on with
  | refl => exact hj
  | @head a b hb _ ih =>
    obtain ⟨node, hnode, hmem⟩ := mem_argsOf_iff.mp hb
    rw [meaning_eq hn hac hnode, mapM_eq_none_iff.mpr ⟨b, hmem, ih⟩]
    rfl

/-! ## Failures -/

/-- Node `i` has no meaning of its own making: it is a word that has not been looked up, or a call
without an answer for arguments that have values. -/
def Fails (m : Module) (noise : Float → Float → Float)
    (answer : Nat → List Float → Option Float) (values : List Float) (i : Nat) : Prop :=
  (∃ word, m.opAt i = some (.symbol word)) ∨
    ∃ word index xs, m.opAt i = some (.call word index) ∧
      (m.argsOf i).mapM (m.meaning noise answer values) = some xs ∧ answer index xs = none

theorem Fails.meaning_eq_none (hn : Within m.argsOf m.size) (hac : Acyclic m.argsOf)
    (h : m.Fails noise answer values i) :
    m.meaning noise answer values i = none := by
  rcases h with ⟨word, hop⟩ | ⟨word, index, xs, hop, hargs, hnone⟩
  · obtain ⟨node, hnode, hkind⟩ := opAt_eq_some_iff.mp hop
    rw [meaning_eq hn hac hnode]
    cases node.args.mapM (m.meaning noise answer values) with
    | none => rfl
    | some xs => simp only [Option.bind_some, opMeaning, hkind]
  · obtain ⟨node, hnode, hkind⟩ := opAt_eq_some_iff.mp hop
    rw [argsOf_eq hnode] at hargs
    rw [meaning_eq hn hac hnode, hargs]
    simp only [Option.bind_some, opMeaning, hkind, hnone]

/-- A node of a formed module without cycles has no meaning exactly if it depends on one that
fails. -/
theorem meaning_eq_none_iff (hm : m.Formed) (hac : Acyclic m.argsOf) (hi : i < m.size) :
    m.meaning noise answer values i = none ↔
      ∃ j, Reaches m.argsOf i j ∧ m.Fails noise answer values j := by
  refine ⟨fun h => ?_, fun ⟨j, hij, hj⟩ => ?_⟩
  case refine_2 =>
    exact meaning_eq_none_of_reaches hm.within hac hij (hj.meaning_eq_none hm.within hac)
  obtain ⟨r, hr⟩ := hac.exists_hasRank hm.within i
  induction hr with
  | @above i rank _ ih =>
    obtain ⟨node, hnode⟩ : ∃ node, m.nodes[i]? = some node := ⟨_, List.getElem?_eq_getElem hi⟩
    rw [meaning_eq hm.within hac hnode, Option.bind_eq_none_iff] at h
    cases hargs : node.args.mapM (m.meaning noise answer values) with
    | none =>
      obtain ⟨k, hk, hnone⟩ := mapM_eq_none_iff.mp hargs
      have hk' : k ∈ m.argsOf i := by rwa [argsOf_eq hnode]
      obtain ⟨j, hkj, hj⟩ := ih k hk' (hm.within i k hk').2 hnone
      exact ⟨j, .head hk' hkj, hj⟩
    | some xs =>
      have hnone := h xs hargs
      refine ⟨i, .refl, ?_⟩
      have hopAt : m.opAt i = some node.op := opAt_eq_some_iff.mpr ⟨node, hnode, rfl⟩
      unfold opMeaning at hnone
      split at hnone
      · cases hnone
      · cases hnone
      · next name hinput =>
        -- An input node has a pin bound to it, so it has a value.
        have hcount := hm.input_node i name (hinput ▸ hopAt)
        rw [pinValue?, Option.map_eq_none_iff, List.findIdx?_eq_none_iff] at hnone
        rw [List.countP_eq_zero.mpr fun pin hpin => by simpa using hnone pin hpin] at hcount
        cases hcount
      · next word hword => exact .inl ⟨word, hword ▸ hopAt⟩
      · next word index hcall =>
        exact .inr ⟨word, index, xs, hcall ▸ hopAt, by rw [argsOf_eq hnode, hargs], hnone⟩

/-! ## Under a layout -/

theorem pinValue?_map_movePin (h : m.IsLayout order) (hi : i ∈ order) (pins : List Pin) :
    pinValue? (pins.map (movePin order)) values (newPosition order i) =
      pinValue? pins values i := by
  rw [pinValue?, List.findIdx?_map, bound_movePin h hi]
  rfl

/-- Wherever the nodes of a module stand, they mean the same. The induction is on their ranks, as
all arguments have smaller ones. -/
theorem meaning_relayout (hn : Within m.argsOf m.size) (hac : Acyclic m.argsOf)
    (h : m.IsLayout order) (hi : i ∈ order) :
    (m.relayout order).meaning noise answer values (newPosition order i) =
      m.meaning noise answer values i := by
  obtain ⟨r, hr⟩ := hac.exists_hasRank hn i
  induction hr with
  | @above i rank _ ih =>
    obtain ⟨node, hnode⟩ : ∃ node, m.nodes[i]? = some node :=
      ⟨_, List.getElem?_eq_getElem (h.lt i hi)⟩
    have hmoved := getElem?_relayout_newPosition h hi
    rw [hnode, Option.map_some] at hmoved
    have hargs : (moveArgs order node).args.mapM ((m.relayout order).meaning noise answer values) =
        node.args.mapM (m.meaning noise answer values) := by
      rw [moveArgs_eq, List.mapM_map]
      refine mapM_congr_left fun j hj => ?_
      have hj' : j ∈ m.argsOf i := mem_argsOf_iff.mpr ⟨node, hnode, hj⟩
      exact ih j hj' (h.args i hi j hj')
    have hop : (m.relayout order).opMeaning noise answer values (newPosition order i)
        (moveArgs order node) = m.opMeaning noise answer values i node := by
      funext xs
      simp only [opMeaning, moveArgs_eq, inputs_relayout, pinValue?_map_movePin h hi]
    rw [meaning_eq (within_relayout h) (acyclic_relayout h hac) hmoved,
      meaning_eq hn hac hnode, hargs, hop]

theorem outputMeanings_relayout (hm : m.Formed) (hac : Acyclic m.argsOf) (h : m.IsLayout order)
    (hout : ∀ o ∈ m.outputIndices, o ∈ order) :
    (m.relayout order).outputMeanings noise answer values =
      m.outputMeanings noise answer values := by
  rw [outputMeanings, outputMeanings, outputs_relayout, List.mapM_map]
  refine mapM_congr_left fun pin hpin => ?_
  obtain ⟨i, -, hidx⟩ := hm.output pin hpin
  have hi : i ∈ order := hout i (mem_outputIndices_iff.mpr ⟨pin, hpin, hidx⟩)
  simp only [Function.comp_apply, (index_movePin_newPosition h hi pin).mpr hidx, hidx]
  exact meaning_relayout hm.within hac h hi

end Module

end ImageCircuit
