import ImageCircuit.Proofs.Stable

/-!
# Sorting and shaking

Both are relayouts, and both keep every path between the nodes they keep.

* `Module.topologicalSort_eq`: without a cycle sorting succeeds, keeps all nodes and sorts
* `Module.acyclic_of_topologicalSort`: sorting succeeds only without a cycle
* `Module.run_sortInPlace`: sorting in place leaves the sorted module, or the module as it was
* `Module.treeShakeFrom_eq`: shaking keeps exactly what the roots reach, in its old order
* `Module.normalize_eq`: both together
* `Module.RankSorted.normalize_eq`: what they leave as it is
-/

namespace ImageCircuit

open Relation

namespace Module

variable {m : Module} {order ranks : List Nat} {i j k : Nat}

theorem isSorted_iff : m.isSorted = true ↔ ∀ i, ∀ j ∈ m.argsOf i, i < j := by
  simp only [isSorted, List.all_eq_true, List.mem_range, decide_eq_true_eq]
  exact ⟨fun h i j hj => h i (lt_of_mem_argsOf hj) j hj, fun h i _ j hj => h i j hj⟩

/-- A sorted module has no cycle: along a path the positions grow. -/
theorem acyclic_of_isSorted (hn : Within m.argsOf m.size) (hs : m.isSorted = true) :
    Acyclic m.argsOf := by
  refine acyclic_of_lt (fun i => m.size - i) fun i j hj => ?_
  have := isSorted_iff.mp hs i j hj
  have := hn i j hj
  omega

/-! ## The order of ranks -/

/-- In an order of ranks, a position of greater rank stands first. -/
theorem newPosition_lt_of_rank_lt (hi : i ∈ rankOrder ranks) (hj : j ∈ rankOrder ranks)
    (h : ranks.getD j 0 < ranks.getD i 0) :
    newPosition (rankOrder ranks) i < newPosition (rankOrder ranks) j := by
  refine newPosition_lt_of_pairwise (pairwise_rankOrder ranks) hi hj ?_ (by omega)
  rintro rfl
  exact Nat.lt_irrefl _ h

/-! ## Sorting -/

section

variable (hn : Within m.argsOf m.size) (hlen : ranks.length = m.size)
  (hrank : ∀ i (hi : i < ranks.length), HasRank m.argsOf i ranks[i])

include hn hlen hrank

/-- The order of the ranks of all nodes holds all nodes. -/
theorem mem_rankOrder_iff_lt (i : Nat) : i ∈ rankOrder ranks ↔ i < m.size := by
  rw [mem_rankOrder_iff]
  constructor
  · rintro ⟨r, hr, -⟩
    have := (List.getElem?_eq_some_iff.mp hr).1
    omega
  · intro hi
    have hi' : i < ranks.length := by omega
    exact ⟨ranks[i], List.getElem?_eq_getElem hi', hlen ▸ (hrank i hi').lt_bound hn hi⟩

theorem isLayout_rankOrder : m.IsLayout (rankOrder ranks) where
  nodup := nodup_rankOrder ranks
  lt i hi := (mem_rankOrder_iff_lt hn hlen hrank i).mp hi
  args i _ j hj := (mem_rankOrder_iff_lt hn hlen hrank j).mpr (hn i j hj).2

theorem isSorted_relayout_rankOrder : (m.relayout (rankOrder ranks)).isSorted = true := by
  have hlayout := isLayout_rankOrder hn hlen hrank
  rw [isSorted_iff]
  intro k l hl
  obtain ⟨i, hi, rfl⟩ := exists_of_lt_size_relayout hlayout (lt_of_mem_argsOf hl)
  obtain ⟨j, hj, rfl⟩ := (mem_argsOf_relayout_iff hlayout hi).mp hl
  have hi' : i < ranks.length := by have := hlayout.lt i hi; omega
  have hj' : j < ranks.length := by have := (hn i j hj).2; omega
  refine newPosition_lt_of_rank_lt hi (hlayout.args i hi j hj) ?_
  simpa [hi', hj'] using (hrank i hi').lt hj (hrank j hj')

theorem rankSorted_relayout_rankOrder : (m.relayout (rankOrder ranks)).RankSorted := by
  have hlayout := isLayout_rankOrder hn hlen hrank
  have hget : ∀ i ∈ rankOrder ranks, HasRank m.argsOf i (ranks.getD i 0) := by
    intro i hi
    have hi' : i < ranks.length := by have := hlayout.lt i hi; omega
    simpa [hi'] using hrank i hi'
  refine rankSorted_relayout hlayout (fun i hi => ⟨_, hget i hi⟩) ?_
  refine (pairwise_rankOrder ranks).imp_of_mem fun hi hj h r s hr hs => ?_
  rw [hr.unique (hget _ hi), hs.unique (hget _ hj)]
  omega

end

theorem topologicalSort_of_ranks (hranks : m.ranks = .ok ranks) (hp : m.pinsInRange = true) :
    m.topologicalSort = .ok (m.relayout (rankOrder ranks)) := by
  simp [topologicalSort, hranks, hp, bind, Except.bind, pure, Except.pure]

/-- Without a cycle sorting succeeds: all nodes stand by descending rank, hence every argument
after its users. -/
theorem topologicalSort_eq (hn : Within m.argsOf m.size) (hp : m.pinsInRange = true)
    (hac : Acyclic m.argsOf) :
    ∃ order, m.topologicalSort = .ok (m.relayout order) ∧ m.IsLayout order ∧
      (∀ i, i ∈ order ↔ i < m.size) ∧ (m.relayout order).isSorted = true ∧
      (m.relayout order).RankSorted := by
  obtain ⟨ranks, hranks, hlen, hrank⟩ := ranks_eq hn hac
  exact ⟨rankOrder ranks, topologicalSort_of_ranks hranks hp, isLayout_rankOrder hn hlen hrank,
    mem_rankOrder_iff_lt hn hlen hrank, isSorted_relayout_rankOrder hn hlen hrank,
    rankSorted_relayout_rankOrder hn hlen hrank⟩

/-- Sorting leaves a rank-sorted module as it is. -/
theorem RankSorted.topologicalSort_eq (hm : m.RankSorted) (hn : Within m.argsOf m.size)
    (hp : m.pinsInRange = true) (hac : Acyclic m.argsOf) : m.topologicalSort = .ok m := by
  obtain ⟨ranks, hranks, hlen, hrank⟩ := ranks_eq hn hac
  have horder : rankOrder ranks = List.range m.size := by
    rw [← hlen]
    refine rankOrder_eq_range (fun r hr => ?_)
      (List.pairwise_iff_getElem.mpr fun i j hi hj hij => ?_)
    · obtain ⟨i, hi, rfl⟩ := List.getElem_of_mem hr
      exact hlen ▸ (hrank i hi).lt_bound hn (hlen ▸ hi)
    · exact hm i j hij (hlen ▸ hj) _ _ (hrank i hi) (hrank j hj)
  rw [topologicalSort_of_ranks hranks hp, horder, relayout_range hn hp]

theorem acyclic_of_topologicalSort (hn : Within m.argsOf m.size) {m' : Module}
    (h : m.topologicalSort = .ok m') : Acyclic m.argsOf := by
  cases hranks : m.ranks with
  | error e => simp [topologicalSort, hranks, bind, Except.bind] at h
  | ok ranks => exact acyclic_of_ranks hn hranks

theorem pinsInRange_of_topologicalSort {m' : Module} (h : m.topologicalSort = .ok m') :
    m.pinsInRange = true := by
  unfold topologicalSort at h
  cases hranks : m.ranks with
  | error e => simp [hranks, bind, Except.bind] at h
  | ok ranks =>
    by_contra hp
    simp [hranks, hp, bind, Except.bind, throw, throwThe, MonadExceptOf.throw] at h

/-- A sorted module is a layout of all nodes. -/
theorem exists_layout_of_topologicalSort (hn : Within m.argsOf m.size) {m' : Module}
    (h : m.topologicalSort = .ok m') :
    ∃ order, m' = m.relayout order ∧ m.IsLayout order ∧ ∀ i, i ∈ order ↔ i < m.size := by
  obtain ⟨order, hsort, hlayout, hall, -⟩ := topologicalSort_eq hn
    (pinsInRange_of_topologicalSort h) (acyclic_of_topologicalSort hn h)
  exact ⟨order, Except.ok.inj (h.symm.trans hsort), hlayout, hall⟩

/-- Sorting in place leaves the sorted module, or the module as it was. -/
theorem run_sortInPlace (m : Module) :
    sortInPlace.run m = match m.topologicalSort with
      | .ok sorted => (.ok (), sorted)
      | .error e => (.error e, m) := by
  show (do
    let ranks ← MonadExcept.ofExcept m.ranks
    if m.pinsInRange then set (m.relayout (rankOrder ranks)) else throw .badIndex :
      ExceptT Error (StateM Module) Unit).run m = _
  rw [topologicalSort]
  cases m.ranks with
  | error e => rfl
  | ok ranks =>
    by_cases hp : m.pinsInRange = true
    · simp [hp]
      rfl
    · simp [hp]
      rfl

/-! ## Shaking -/

/-- Without nodes all pins in range are unbound, so nothing is left to renumber. -/
theorem relayout_nil (hnodes : m.nodes = []) (hp : m.pinsInRange = true) : m.relayout [] = m := by
  have hpin : ∀ pin ∈ m.inputs ++ m.outputs, movePin [] pin = pin := by
    rintro ⟨name, index⟩ hpin
    cases index with
    | none => rfl
    | some i =>
      have := pinsInRange_iff.mp hp _ hpin i rfl
      simp [size, hnodes] at this
  have hin : m.inputs.map (movePin []) = m.inputs.map id :=
    List.map_congr_left fun pin h => hpin pin (List.mem_append_left _ h)
  have hout : m.outputs.map (movePin []) = m.outputs.map id :=
    List.map_congr_left fun pin h => hpin pin (List.mem_append_right _ h)
  rw [relayout, hin, hout, List.map_id, List.map_id, List.filterMap_nil, ← hnodes]

/-- Shaking keeps the nodes that the roots in range reach, in their old order. -/
theorem treeShakeFrom_eq (hn : Within m.argsOf m.size) (hp : m.pinsInRange = true)
    (roots : List Nat) :
    ∃ order, m.treeShakeFrom roots = .ok (m.relayout order) ∧ m.IsLayout order ∧
      (∀ j, j ∈ order ↔ ∃ r ∈ roots, r < m.size ∧ Reaches m.argsOf r j) ∧
      order.Pairwise (· < ·) := by
  by_cases hnodes : m.nodes = []
  · refine ⟨[], ?_, ⟨List.nodup_nil, by simp, by simp⟩, ?_, .nil⟩
    · simp [treeShakeFrom, hnodes, relayout_nil hnodes hp]
    · simp [size, hnodes]
  · obtain ⟨marks, hok, hlen, hiff⟩ := reachableFrom_eq hn roots
    have hmem : ∀ j, j ∈ (List.range m.size).filter (fun i => marks.getD i false) ↔
        ∃ r ∈ roots, r < m.size ∧ Reaches m.argsOf r j := by
      intro j
      rw [List.mem_filter, List.mem_range, ← marked_iff_getD, hiff]
      refine and_iff_right_of_imp ?_
      rintro ⟨r, -, hr, hrj⟩
      exact hn.reaches_lt hr hrj
    refine ⟨_, ?_, ⟨List.nodup_range.filter _, ?_, ?_⟩, hmem, List.pairwise_lt_range.filter _⟩
    · simp [treeShakeFrom, hnodes, hok, hp, bind, Except.bind, pure, Except.pure]
    · intro i hi
      exact List.mem_range.mp (List.mem_filter.mp hi).1
    · intro i hi j hj
      obtain ⟨r, hr, hlt, hri⟩ := (hmem i).mp hi
      exact (hmem j).mpr ⟨r, hr, hlt, hri.tail hj⟩

/-- A module of which some roots reach all nodes is left as it is. -/
theorem treeShakeFrom_eq_self (hn : Within m.argsOf m.size) (hp : m.pinsInRange = true)
    {roots : List Nat} (h : ∀ i < m.size, ∃ r ∈ roots, r < m.size ∧ Reaches m.argsOf r i) :
    m.treeShakeFrom roots = .ok m := by
  obtain ⟨order, hshake, hlayout, hmem, hasc⟩ := treeShakeFrom_eq hn hp roots
  have horder : order = List.range m.size :=
    eq_range_of_pairwise_lt hasc fun i => ⟨hlayout.lt i, fun hi => (hmem i).mpr (h i hi)⟩
  rw [hshake, horder, relayout_range hn hp]

/-- A layout that keeps the order keeps a module sorted. -/
theorem isSorted_relayout (h : m.IsLayout order) (hasc : order.Pairwise (· < ·))
    (hs : m.isSorted = true) : (m.relayout order).isSorted = true := by
  rw [isSorted_iff] at hs ⊢
  intro k l hl
  obtain ⟨i, hi, rfl⟩ := exists_of_lt_size_relayout h (lt_of_mem_argsOf hl)
  obtain ⟨j, hj, rfl⟩ := (mem_argsOf_relayout_iff h hi).mp hl
  have hlt := hs i j hj
  exact newPosition_lt_of_pairwise hasc hi (h.args i hi j hj) hlt.ne (Nat.lt_asymm hlt)

/-! ## Both -/

theorem mem_outputIndices_iff : i ∈ m.outputIndices ↔ ∃ pin ∈ m.outputs, pin.index = some i := by
  simp [outputIndices]

/-- A kept output names the new position of the node that it named. -/
theorem mem_outputIndices_relayout_iff (h : m.IsLayout order) (hi : i ∈ order) :
    newPosition order i ∈ (m.relayout order).outputIndices ↔ i ∈ m.outputIndices := by
  simp only [mem_outputIndices_iff, outputs_relayout, List.mem_map]
  constructor
  · rintro ⟨_, ⟨pin, hpin, rfl⟩, hidx⟩
    obtain ⟨j, hj, hget⟩ := (index_movePin h.nodup pin _).mp hidx
    rw [getElem?_newPosition hi] at hget
    exact ⟨pin, hpin, Option.some.inj hget ▸ hj⟩
  · rintro ⟨pin, hpin, hidx⟩
    exact ⟨_, ⟨pin, hpin, rfl⟩,
      (index_movePin h.nodup pin _).mpr ⟨i, hidx, getElem?_newPosition hi⟩⟩

/-- A layout of the kept nodes that keeps what the kept outputs depend on keeps what the outputs
depended on before. -/
theorem mem_comp_iff_reaches {o₁ o₂ : List Nat} (h₁ : m.IsLayout o₁)
    (hout : ∀ o ∈ m.outputIndices, o ∈ o₁)
    (hmem : ∀ k, k ∈ o₂ ↔ ∃ o ∈ (m.relayout o₁).outputIndices, o < (m.relayout o₁).size ∧
      Reaches (m.relayout o₁).argsOf o k) (j : Nat) :
    j ∈ o₂.filterMap (o₁[·]?) ↔ ∃ o ∈ m.outputIndices, Reaches m.argsOf o j := by
  rw [h₁.mem_comp_iff]
  constructor
  · rintro ⟨hj, hnew⟩
    obtain ⟨k, hk, hlt, hkj⟩ := (hmem _).mp hnew
    obtain ⟨o, ho, rfl⟩ := exists_of_lt_size_relayout h₁ hlt
    exact ⟨o, (mem_outputIndices_relayout_iff h₁ ho).mp hk,
      (reaches_relayout_iff h₁ ho hj).mp hkj⟩
  · rintro ⟨o, ho, hoj⟩
    have hj := h₁.reaches_mem (hout o ho) hoj
    refine ⟨hj, (hmem _).mpr ⟨newPosition o₁ o, ?_, ?_, reaches_relayout h₁ (hout o ho) hoj⟩⟩
    · exact (mem_outputIndices_relayout_iff h₁ (hout o ho)).mpr ho
    · rw [size_relayout h₁.lt]
      exact newPosition_lt (hout o ho)

/-- A layout of what the outputs depend on keeps nothing else. -/
theorem exists_reaches_of_lt_size_relayout (h : m.IsLayout order)
    (hmem : ∀ j, j ∈ order ↔ ∃ o ∈ m.outputIndices, Reaches m.argsOf o j)
    (hk : k < (m.relayout order).size) :
    ∃ o ∈ (m.relayout order).outputIndices, Reaches (m.relayout order).argsOf o k := by
  obtain ⟨i, hi, rfl⟩ := exists_of_lt_size_relayout h hk
  obtain ⟨o, ho, hoi⟩ := (hmem i).mp hi
  have ho' := (hmem o).mpr ⟨o, ho, .refl⟩
  exact ⟨_, (mem_outputIndices_relayout_iff h ho').mpr ho, reaches_relayout h ho' hoi⟩

theorem lt_of_mem_outputIndices (hp : m.pinsInRange = true) (hi : i ∈ m.outputIndices) :
    i < m.size := by
  obtain ⟨pin, hpin, hidx⟩ := mem_outputIndices_iff.mp hi
  exact pinsInRange_iff.mp hp pin (List.mem_append_right _ hpin) i hidx

/-- Without a cycle normalization succeeds. It keeps what the outputs depend on and sorts it. -/
theorem normalize_eq (hn : Within m.argsOf m.size) (hp : m.pinsInRange = true)
    (hac : Acyclic m.argsOf) :
    ∃ order, m.normalize = .ok (m.relayout order) ∧ m.IsLayout order ∧
      (∀ j, j ∈ order ↔ ∃ o ∈ m.outputIndices, Reaches m.argsOf o j) ∧
      (m.relayout order).isSorted = true ∧ (m.relayout order).RankSorted := by
  obtain ⟨o₁, hsort, h₁, hall, hsorted, hranked⟩ := topologicalSort_eq hn hp hac
  obtain ⟨o₂, hshake, h₂, hmem, hasc⟩ := treeShakeFrom_eq (within_relayout h₁)
    (pinsInRange_relayout h₁) (m.relayout o₁).outputIndices
  have hout : ∀ o ∈ m.outputIndices, o ∈ o₁ := fun o ho =>
    (hall o).mpr (lt_of_mem_outputIndices hp ho)
  refine ⟨o₂.filterMap (o₁[·]?), ?_, h₁.comp h₂, mem_comp_iff_reaches h₁ hout hmem, ?_, ?_⟩
  · rw [← relayout_relayout h₁ h₂]
    simp [normalize, hsort, treeShake, hshake, bind, Except.bind]
  · rw [← relayout_relayout h₁ h₂]
    exact isSorted_relayout h₂ hasc hsorted
  · rw [← relayout_relayout h₁ h₂]
    have hac₁ := acyclic_relayout h₁ hac
    exact hranked.relayout h₂ (fun k _ => hac₁.exists_hasRank (within_relayout h₁) k) hasc

/-- Normalization leaves a rank-sorted module as it is if the outputs depend on all its nodes. -/
theorem RankSorted.normalize_eq (hm : m.RankSorted) (hn : Within m.argsOf m.size)
    (hp : m.pinsInRange = true) (hac : Acyclic m.argsOf)
    (hconnected : ∀ i < m.size, ∃ o ∈ m.outputIndices, Reaches m.argsOf o i) :
    m.normalize = .ok m := by
  have hshake : m.treeShakeFrom m.outputIndices = .ok m :=
    treeShakeFrom_eq_self hn hp fun i hi => by
      obtain ⟨o, ho, hoi⟩ := hconnected i hi
      exact ⟨o, ho, lt_of_mem_outputIndices hp ho, hoi⟩
  rw [normalize, hm.topologicalSort_eq hn hp hac]
  exact hshake

end Module

end ImageCircuit
