import ImageCircuit.Mutation
import ImageCircuit.Proofs.Draws
import ImageCircuit.Proofs.Order
import ImageCircuit.Random.ChaCha

/-!
# Swapping connections

* `Module.crossed_swapTargets`: an exchange of targets deals the arguments of two nodes anew
* `Module.swapTargets_swapTargets`: a second exchange puts them back
* `Module.Swappable.topologicalSort_eq`: between nodes that do not depend on each other it closes
  no cycle, so the module can be sorted again
* `Module.always_mutateConnection`: a swap draws such nodes or leaves the module as it is
* `Module.mutateConnection_exchanges`: it never fails, and does exactly what it reports
-/

namespace ImageCircuit

open Relation

theorem mem_set_or_eq {α : Type} {x v : α} {xs : List α} {i : Nat} (hx : x ∈ xs) :
    x ∈ xs.set i v ∨ xs[i]? = some x := by
  obtain ⟨k, hk⟩ := List.mem_iff_getElem?.mp hx
  by_cases hik : i = k
  · exact .inr (hik ▸ hk)
  · exact .inl (List.mem_of_getElem? ((List.getElem?_set_ne hik).trans hk))

/-- Two lists that exchange a member have the same members together. -/
theorem mem_set_or_mem_set_iff {α : Type} {x a b : α} {xs ys : List α} {i j : Nat}
    (ha : xs[i]? = some a) (hb : ys[j]? = some b) :
    (x ∈ xs.set i b ∨ x ∈ ys.set j a) ↔ (x ∈ xs ∨ x ∈ ys) := by
  have hi := (List.getElem?_eq_some_iff.mp ha).1
  have hj := (List.getElem?_eq_some_iff.mp hb).1
  constructor
  · rintro (hx | hx)
    · rcases List.mem_or_eq_of_mem_set hx with hx | rfl
      · exact .inl hx
      · exact .inr (List.mem_of_getElem? hb)
    · rcases List.mem_or_eq_of_mem_set hx with hx | rfl
      · exact .inr hx
      · exact .inl (List.mem_of_getElem? ha)
  · rintro (hx | hx)
    · rcases mem_set_or_eq (i := i) (v := b) hx with hx | hx
      · exact .inl hx
      · obtain rfl := Option.some.inj (ha.symm.trans hx)
        exact .inr (List.mem_set hj _)
    · rcases mem_set_or_eq (i := j) (v := a) hx with hx | hx
      · exact .inr hx
      · obtain rfl := Option.some.inj (hb.symm.trans hx)
        exact .inl (List.mem_set hi _)

namespace Module

variable {m : Module} {a b : Link} {i : Nat}

/-! ## The exchange -/

/-- The arguments of node `i` after an exchange: the slots of both links hold each other's
targets. -/
def exchangedArgs (m : Module) (first second : Link) (i : Nat) : List Nat :=
  (m.argsOf i).mapIdx fun slot arg =>
    if (⟨i, slot⟩ : Link) = first then m.target second
    else if (⟨i, slot⟩ : Link) = second then m.target first
    else arg

theorem exchangedArgs_first (hne : a.node ≠ b.node) :
    m.exchangedArgs a b a.node = (m.argsOf a.node).set a.slot (m.target b) := by
  obtain ⟨n, s⟩ := a
  apply List.ext_getElem?
  intro k
  rw [exchangedArgs, List.getElem?_mapIdx, List.getElem?_set]
  by_cases hk : s = k
  · subst hk
    by_cases hlt : s < (m.argsOf n).length <;> simp [hlt]
  · have hb : (⟨n, k⟩ : Link) ≠ b := by
      rintro rfl
      exact hne rfl
    simp [hk, Ne.symm hk, hb]

theorem exchangedArgs_second (hne : a.node ≠ b.node) :
    m.exchangedArgs a b b.node = (m.argsOf b.node).set b.slot (m.target a) := by
  obtain ⟨n, s⟩ := b
  apply List.ext_getElem?
  intro k
  rw [exchangedArgs, List.getElem?_mapIdx, List.getElem?_set]
  have ha : (⟨n, k⟩ : Link) ≠ a := by
    rintro rfl
    exact hne rfl
  by_cases hk : s = k
  · subst hk
    by_cases hlt : s < (m.argsOf n).length <;> simp [hlt, ha]
  · simp [hk, Ne.symm hk, ha]

theorem exchangedArgs_other (ha : i ≠ a.node) (hb : i ≠ b.node) :
    m.exchangedArgs a b i = m.argsOf i := by
  have hlink : ∀ slot, (⟨i, slot⟩ : Link) ≠ a ∧ (⟨i, slot⟩ : Link) ≠ b :=
    fun _ => ⟨fun e => ha (congrArg Link.node e), fun e => hb (congrArg Link.node e)⟩
  apply List.ext_getElem?
  intro k
  simp [exchangedArgs, hlink]

theorem getElem?_setTarget (l : Link) (t i : Nat) :
    (m.setTarget l t).nodes[i]? =
      m.nodes[i]?.map fun node =>
        if l.node = i then { node with args := node.args.set l.slot t } else node := by
  simp only [setTarget, List.getElem?_modify]
  by_cases h : l.node = i <;> simp [h]

/-- An exchange of the targets of two nodes changes nothing but their arguments. -/
theorem getElem?_swapTargets (hne : a.node ≠ b.node) (i : Nat) :
    (m.swapTargets a b).nodes[i]? =
      m.nodes[i]?.map fun node => { node with args := m.exchangedArgs a b i } := by
  rw [swapTargets, getElem?_setTarget, getElem?_setTarget, Option.map_map]
  cases hi : m.nodes[i]? with
  | none => rfl
  | some node =>
    have hargs := argsOf_eq hi
    by_cases ha : i = a.node
    · subst ha
      simp [Ne.symm hne, exchangedArgs_first hne, hargs]
    · by_cases hb : i = b.node
      · subst hb
        simp [hne, exchangedArgs_second hne, hargs]
      · simp [Ne.symm ha, Ne.symm hb, exchangedArgs_other ha hb, hargs]

@[simp] theorem outputs_swapTargets : (m.swapTargets a b).outputs = m.outputs := rfl

@[simp] theorem size_swapTargets : (m.swapTargets a b).size = m.size := by
  simp [swapTargets, setTarget, size]

theorem pinsInRange_swapTargets (hp : m.pinsInRange = true) :
    (m.swapTargets a b).pinsInRange = true := by
  have := pinsInRange_iff.mp hp
  rwa [pinsInRange_iff, size_swapTargets]

theorem argsOf_swapTargets (hne : a.node ≠ b.node) (i : Nat) :
    (m.swapTargets a b).argsOf i = m.exchangedArgs a b i := by
  rw [argsOf, getElem?_swapTargets hne]
  cases hi : m.nodes[i]? with
  | none => simp [exchangedArgs, argsOf, hi]
  | some node => rfl

/-! ## Links -/

theorem mem_links_iff {keep : Nat → Bool} {l : Link} :
    l ∈ m.links keep ↔ keep l.node = true ∧ l.slot < (m.argsOf l.node).length := by
  obtain ⟨n, s⟩ := l
  simp only [links, List.mem_flatMap, List.mem_range]
  constructor
  · rintro ⟨i, -, hl⟩
    split at hl
    · next hkeep =>
      obtain ⟨t, ht, heq⟩ := List.mem_map.mp hl
      cases heq
      exact ⟨hkeep, List.mem_range.mp ht⟩
    · cases hl
  · rintro ⟨hkeep, hs⟩
    refine ⟨n, lt_of_mem_argsOf (List.getElem_mem hs), ?_⟩
    rw [if_pos hkeep]
    exact List.mem_map.mpr ⟨s, List.mem_range.mpr hs, rfl⟩

theorem getElem?_target {l : Link} (h : l ∈ m.links fun _ => true) :
    (m.argsOf l.node)[l.slot]? = some (m.target l) := by
  have hs := (mem_links_iff.mp h).2
  simp [target, hs]

theorem set_target {l : Link} (h : l ∈ m.links fun _ => true) :
    (m.argsOf l.node).set l.slot (m.target l) = m.argsOf l.node := by
  obtain ⟨hs, hget⟩ := List.getElem?_eq_some_iff.mp (getElem?_target h)
  rw [← hget, List.set_getElem_self]

theorem node_lt_of_mem_links {keep : Nat → Bool} {l : Link} (h : l ∈ m.links keep) :
    l.node < m.size :=
  lt_of_mem_argsOf (List.getElem_mem (mem_links_iff.mp h).2)

theorem target_swapTargets_first (ha : a ∈ m.links fun _ => true) (hne : a.node ≠ b.node) :
    (m.swapTargets a b).target a = m.target b := by
  have hs := (mem_links_iff.mp ha).2
  rw [target, argsOf_swapTargets hne, exchangedArgs_first hne]
  simp [hs]

theorem target_swapTargets_second (hb : b ∈ m.links fun _ => true) (hne : a.node ≠ b.node) :
    (m.swapTargets a b).target b = m.target a := by
  have hs := (mem_links_iff.mp hb).2
  rw [target, argsOf_swapTargets hne, exchangedArgs_second hne]
  simp [hs]

/-- A second exchange puts the targets back. -/
theorem swapTargets_swapTargets (ha : a ∈ m.links fun _ => true) (hb : b ∈ m.links fun _ => true)
    (hne : a.node ≠ b.node) : (m.swapTargets a b).swapTargets a b = m := by
  have hargs : ∀ i, (m.swapTargets a b).exchangedArgs a b i = m.argsOf i := by
    intro i
    by_cases hia : i = a.node
    · subst hia
      rw [exchangedArgs_first hne, argsOf_swapTargets hne, exchangedArgs_first hne,
        target_swapTargets_second hb hne, List.set_set, set_target ha]
    · by_cases hib : i = b.node
      · subst hib
        rw [exchangedArgs_second hne, argsOf_swapTargets hne, exchangedArgs_second hne,
          target_swapTargets_first ha hne, List.set_set, set_target hb]
      · rw [exchangedArgs_other hia hib, argsOf_swapTargets hne, exchangedArgs_other hia hib]
  have hnodes : ((m.swapTargets a b).swapTargets a b).nodes = m.nodes := by
    apply List.ext_getElem?
    intro i
    rw [getElem?_swapTargets hne, getElem?_swapTargets hne, Option.map_map, hargs]
    cases hi : m.nodes[i]? with
    | none => rfl
    | some node => simp [argsOf_eq hi]
  calc (m.swapTargets a b).swapTargets a b
      = { m with nodes := ((m.swapTargets a b).swapTargets a b).nodes } := rfl
    _ = m := by rw [hnodes]

/-- The arguments of the two nodes are dealt anew among them. -/
theorem crossed_swapTargets (ha : a ∈ m.links fun _ => true) (hb : b ∈ m.links fun _ => true)
    (hne : a.node ≠ b.node) :
    Crossed m.argsOf (m.swapTargets a b).argsOf a.node b.node where
  other x hxa hxb := by rw [argsOf_swapTargets hne, exchangedArgs_other hxa hxb]
  dealt x := by
    rw [argsOf_swapTargets hne, argsOf_swapTargets hne, exchangedArgs_first hne,
      exchangedArgs_second hne]
    exact mem_set_or_mem_set_iff (getElem?_target ha) (getElem?_target hb)

/-- The strangers of a node are the links of the nodes that it neither depends on nor is an
argument of, even through other nodes. -/
theorem strangers_eq (hn : Within m.argsOf m.size) (hi : i < m.size) :
    ∃ links, m.strangers i = .ok links ∧ ∀ l, l ∈ links ↔
      l ∈ m.links (fun _ => true) ∧ ¬ Reaches m.argsOf i l.node ∧ ¬ Reaches m.argsOf l.node i := by
  obtain ⟨below, hbelow, -, hbelow_iff⟩ := reachableFrom_eq hn [i]
  obtain ⟨above, habove, -, habove_iff⟩ := dependentsOf_eq hn i
  refine ⟨m.links fun i => !below.getD i false && !above.getD i false, ?_, fun l => ?_⟩
  · simp [strangers, hbelow, habove, bind, Except.bind, pure, Except.pure]
  · have hdown : Marked below l.node ↔ Reaches m.argsOf i l.node := by simp [hbelow_iff, hi]
    have hup : Marked above l.node ↔ Reaches m.argsOf l.node i := by simp [habove_iff, hi]
    rw [mem_links_iff, mem_links_iff, Bool.and_eq_true, Bool.not_eq_true', Bool.not_eq_true',
      ← Bool.not_eq_true, ← Bool.not_eq_true, ← marked_iff_getD, ← marked_iff_getD, hdown, hup]
    tauto

/-! ## The swap -/

/-- Two links whose nodes do not depend on each other. -/
structure Swappable (m : Module) (first second : Link) : Prop where
  first_mem : first ∈ m.links fun _ => true
  second_mem : second ∈ m.links fun _ => true
  not_below : ¬ Reaches m.argsOf first.node second.node
  not_above : ¬ Reaches m.argsOf second.node first.node

namespace Swappable

theorem ne (h : m.Swappable a b) : a.node ≠ b.node :=
  fun e => h.not_below (e ▸ .refl)

theorem crossed (h : m.Swappable a b) :
    Crossed m.argsOf (m.swapTargets a b).argsOf a.node b.node :=
  crossed_swapTargets h.first_mem h.second_mem h.ne

theorem within (h : m.Swappable a b) (hn : Within m.argsOf m.size) :
    Within (m.swapTargets a b).argsOf (m.swapTargets a b).size := by
  rw [size_swapTargets]
  exact h.crossed.within hn (node_lt_of_mem_links h.first_mem) (node_lt_of_mem_links h.second_mem)

end Swappable

/-- An exchange between nodes that do not depend on each other leaves the module sortable. -/
theorem Swappable.topologicalSort_eq (h : m.Swappable a b) (hn : Within m.argsOf m.size)
    (hp : m.pinsInRange = true) (hac : Acyclic m.argsOf) :
    ∃ order, (m.swapTargets a b).topologicalSort = .ok ((m.swapTargets a b).relayout order) ∧
      (m.swapTargets a b).IsLayout order ∧ (∀ i, i ∈ order ↔ i < m.size) ∧
      ((m.swapTargets a b).relayout order).isSorted = true ∧
      ((m.swapTargets a b).relayout order).RankSorted := by
  obtain ⟨order, hsort, hlayout, hall, hsorted, hranked⟩ := Module.topologicalSort_eq (h.within hn)
    (pinsInRange_swapTargets hp) (h.crossed.acyclic hac h.not_below h.not_above)
  exact ⟨order, hsort, hlayout, by simpa using hall, hsorted, hranked⟩

/-- An exchange answers as the sort after it does. What a failed sort leaves, the exchanged module,
is exchanged once more. -/
theorem swapSorted_eq (m : Module) (a b : Link) :
    m.swapSorted a b = match (m.swapTargets a b).topologicalSort with
      | .ok sorted => (.ok (.connectionSwapped a b), sorted)
      | .error e => (.error (swapFailure a b e), (m.swapTargets a b).swapTargets a b) := by
  let undo (e : Error) : ExceptT Error (StateM Module) Unit := do
    modify (·.swapTargets a b)
    throw (swapFailure a b e)
  show StateT.run (tryCatch sortInPlace undo >>= fun _ => pure (.connectionSwapped a b) :
    ExceptT Error (StateM Module) Outcome).run (m.swapTargets a b) = _
  have hsort : sortInPlace.run.run (m.swapTargets a b) = _ := run_sortInPlace (m.swapTargets a b)
  rw [ExceptT.run_bind, ExceptT.run_tryCatch, StateT.run_bind, StateT.run_bind, hsort]
  cases (m.swapTargets a b).topologicalSort <;> rfl

theorem swapSorted_of_topologicalSort {m' : Module}
    (h : (m.swapTargets a b).topologicalSort = .ok m') :
    m.swapSorted a b = (.ok (.connectionSwapped a b), m') := by
  rw [swapSorted_eq, h]

/-- An exchange that cannot be sorted is undone. -/
theorem Swappable.swapSorted_of_error (h : m.Swappable a b) {e : Error}
    (hsort : (m.swapTargets a b).topologicalSort = .error e) :
    m.swapSorted a b = (.error (swapFailure a b e), m) := by
  rw [swapSorted_eq, hsort, swapTargets_swapTargets h.first_mem h.second_mem h.ne]

variable {σ : Type} [Source σ]

/-- Whatever is drawn, two swappable links exchange their targets, or nothing happens. -/
theorem always_swapWithin (hn : Within m.argsOf m.size) {links : List Link}
    (hlinks : ∀ l ∈ links, l ∈ m.links fun _ => true) (attempts : Nat) :
    Draw.Always (m.swapWithin links attempts : Draw σ _) fun r =>
      (∃ obstacle, r = (.ok (.notApplicable obstacle), m)) ∨
        ∃ first second, m.Swappable first second ∧ r = m.swapSorted first second := by
  induction attempts with
  | zero => exact .pure (.inl ⟨_, rfl⟩)
  | succ attempts ih =>
    rw [swapWithin]
    refine .bind (Draw.always_choose links) fun r hr => ?_
    cases r with
    | none => exact .pure (.inl ⟨_, rfl⟩)
    | some first =>
      have hfirst := hlinks first (hr first rfl)
      obtain ⟨others, hothers, hmem⟩ := strangers_eq hn (node_lt_of_mem_links hfirst)
      simp only [hothers]
      refine .bind (Draw.always_choose others) fun r hr => ?_
      cases r with
      | none => exact ih
      | some second =>
        obtain ⟨hsecond, hbelow, habove⟩ := (hmem second).mp (hr second rfl)
        exact .pure (.inr ⟨first, second, ⟨hfirst, hsecond, hbelow, habove⟩, rfl⟩)

theorem always_mutateConnection (hn : Within m.argsOf m.size) (attempts : Nat) :
    Draw.Always (m.mutateConnection attempts : Draw σ _) fun r =>
      (∃ obstacle, r = (.ok (.notApplicable obstacle), m)) ∨
        ∃ first second, m.Swappable first second ∧ r = m.swapSorted first second := by
  unfold mutateConnection
  dsimp only
  split
  · exact .pure (.inl ⟨_, rfl⟩)
  · exact always_swapWithin hn (fun _ h => h) attempts

/-- If each link can be exchanged with another, the first attempt finds two. -/
theorem always_mutateConnection_swaps (hn : Within m.argsOf m.size)
    (hne : m.links (fun _ => true) ≠ [])
    (hother : ∀ l ∈ m.links fun _ => true, ∃ other, m.Swappable l other) (attempts : Nat) :
    Draw.Always (m.mutateConnection (attempts + 1) : Draw σ _) fun r =>
      ∃ first second, m.Swappable first second ∧ r = m.swapSorted first second := by
  unfold mutateConnection
  dsimp only
  rw [if_neg (by simpa using hne), swapWithin]
  refine .bind (Draw.always_choose_of_ne_nil hne) ?_
  rintro _ ⟨first, hfirst, rfl⟩
  obtain ⟨others, hothers, hmem⟩ := strangers_eq hn (node_lt_of_mem_links hfirst)
  have hothersNe : others ≠ [] := by
    obtain ⟨other, hswap⟩ := hother first hfirst
    exact List.ne_nil_of_mem
      ((hmem other).mpr ⟨hswap.second_mem, hswap.not_below, hswap.not_above⟩)
  simp only [hothers]
  refine .bind (Draw.always_choose_of_ne_nil hothersNe) ?_
  rintro _ ⟨second, hsecond, rfl⟩
  obtain ⟨hsecond, hbelow, habove⟩ := (hmem second).mp hsecond
  exact .pure ⟨first, second, ⟨hfirst, hsecond, hbelow, habove⟩, rfl⟩

/-! ## What a swap reports -/

/-- The module `m'` is `m` with the targets of two links exchanged and its nodes renumbered. -/
structure Exchanged (m m' : Module) (first second : Link) : Prop where
  /-- The links start at different nodes that do not depend on each other. -/
  swappable : m.Swappable first second
  sorted : m'.isSorted = true
  name : m'.name = m.name
  /-- A bijection of the positions takes each node to itself, its arguments exchanged and
  renumbered, and each pin along with its node. -/
  renumbered : ∃ f : Nat → Nat, Set.BijOn f (Set.Iio m.size) (Set.Iio m'.size) ∧
    (∀ i node, m.nodes[i]? = some node →
      m'.nodes[f i]? = some { node with args := (m.exchangedArgs first second i).map f }) ∧
    m'.inputs = m.inputs.map (fun pin => { pin with index := pin.index.map f }) ∧
    m'.outputs = m.outputs.map fun pin => { pin with index := pin.index.map f }

theorem exchanged_swapSorted (hn : Within m.argsOf m.size) (hp : m.pinsInRange = true)
    (hac : Acyclic m.argsOf) (h : m.Swappable a b) :
    ∃ m', m.swapSorted a b = (.ok (.connectionSwapped a b), m') ∧ m.Exchanged m' a b := by
  obtain ⟨order, hsort, hlayout, hall, hsorted, -⟩ := h.topologicalSort_eq hn hp hac
  have hren := renumbered_relayout (pinsInRange_swapTargets hp) hlayout (by simpa using hall)
  have hbij := hren.bijOn
  rw [size_swapTargets] at hbij
  refine ⟨_, swapSorted_of_topologicalSort hsort, h, hsorted, rfl, newPosition order, hbij,
    fun i node hi => ?_, hren.inputs, hren.outputs⟩
  exact hren.nodes i { node with args := m.exchangedArgs a b i } (by
    rw [getElem?_swapTargets h.ne, hi]
    rfl)

/-- In a module without cycles whose arguments and pins name nodes, a connection swap never fails.
What it reports as swapped is exchanged; otherwise it reports an obstacle and changes nothing. -/
theorem mutateConnection_exchanges (hargs : m.argsInRange = true) (hpins : m.pinsInRange = true)
    (hac : Acyclic m.argsOf) (attempts : Nat) (s : σ) :
    ∃ outcome m', (m.mutateConnection attempts s).1 = (.ok outcome, m') ∧
      ((∃ first second, outcome = .connectionSwapped first second ∧ m.Exchanged m' first second) ∨
        ∃ obstacle, outcome = .notApplicable obstacle ∧ m' = m) := by
  have hn := argsInRange_iff.mp hargs
  rcases always_mutateConnection hn attempts s with ⟨obstacle, h⟩ | ⟨first, second, hswap, h⟩
  · exact ⟨_, _, h, .inr ⟨obstacle, rfl, rfl⟩⟩
  · obtain ⟨m', heq, hex⟩ := exchanged_swapSorted hn hpins hac hswap
    exact ⟨_, _, h.trans heq, .inl ⟨first, second, rfl, hex⟩⟩

/-- Two sums over four inputs. -/
def twoSums : Module where
  name := ""
  nodes := [.ofOp (.prim .add) [2, 3], .ofOp (.prim .add) [4, 5], .ofOp (.input 'x') [],
    .ofOp (.input 'y') [], .ofOp (.input 'z') [], .ofOp (.input 'w') []]
  inputs := [⟨'x', some 2⟩, ⟨'y', some 3⟩, ⟨'z', some 4⟩, ⟨'w', some 5⟩]
  outputs := [⟨'r', some 0⟩, ⟨'g', some 1⟩, ⟨'b', some 0⟩]

theorem acyclic_twoSums : Acyclic twoSums.argsOf :=
  acyclic_of_isSorted (argsInRange_iff.mp rfl) rfl

theorem mutateConnection_exchanges_twoSums :
    twoSums.argsInRange = true ∧ twoSums.pinsInRange = true ∧ Acyclic twoSums.argsOf ∧
      ∃ outcome m', (twoSums.mutateConnection 3 (ChaCha.ofSeed 0)).1 = (.ok outcome, m') ∧
        ((∃ first second, outcome = .connectionSwapped first second ∧
            twoSums.Exchanged m' first second) ∨
          ∃ obstacle, outcome = .notApplicable obstacle ∧ m' = twoSums) :=
  ⟨rfl, rfl, acyclic_twoSums,
    mutateConnection_exchanges rfl rfl acyclic_twoSums 3 (ChaCha.ofSeed 0)⟩

end Module

end ImageCircuit
