import ImageCircuit.Proofs.Rank
import ImageCircuit.Proofs.Relayout

/-!
# The order that sorting keeps

Sorting puts nodes by descending rank and leaves nodes of equal rank as they stand. So nodes that
stand by descending rank stay where they are, and a layout that drops some of them keeps the rest by
descending rank.

* `Module.RankSorted`: nodes stand by descending rank
* `Module.rankSorted_relayout`: a layout by descending rank makes a module rank-sorted
* `Module.rankOrder_eq_range`: the order of descending ranks leaves all nodes where they are
-/

namespace ImageCircuit.Module

variable {m : Module} {order ranks : List Nat} {i j k r : Nat}

/-- Nodes stand by descending rank. -/
def RankSorted (m : Module) : Prop :=
  ∀ i j, i < j → j < m.size → ∀ r s, HasRank m.argsOf i r → HasRank m.argsOf j s → s ≤ r

/-! ## Ranks under a layout -/

/-- A kept node has its rank still. -/
theorem hasRank_relayout (h : m.IsLayout order) (hi : i ∈ order) (hr : HasRank m.argsOf i r) :
    HasRank (m.relayout order).argsOf (newPosition order i) r := by
  induction hr with
  | @above i rank _ ih =>
    -- The rank of a new position is that of the node that is there now.
    let rank' k := rank (order.getD k 0)
    have hrank' : ∀ b ∈ order, rank' (newPosition order b) = rank b := by
      intro b hb
      simp only [rank', List.getD_eq_getElem?_getD, getElem?_newPosition hb, Option.getD_some]
    have hmap : ((m.relayout order).argsOf (newPosition order i)).map rank' =
        (m.argsOf i).map rank := by
      rw [argsOf_relayout h hi, List.map_map]
      exact List.map_congr_left fun b hb => hrank' b (h.args i hi b hb)
    rw [← hmap]
    refine .above rank' fun k hk => ?_
    obtain ⟨b, hb, rfl⟩ := (mem_argsOf_relayout_iff h hi).mp hk
    have hb' := h.args i hi b hb
    rw [hrank' b hb']
    exact ih b hb hb'

/-- A layout by descending rank makes a module rank-sorted. -/
theorem rankSorted_relayout (h : m.IsLayout order)
    (hranks : ∀ i ∈ order, ∃ r, HasRank m.argsOf i r)
    (hdesc : order.Pairwise fun i j =>
      ∀ r s, HasRank m.argsOf i r → HasRank m.argsOf j s → s ≤ r) :
    (m.relayout order).RankSorted := by
  intro k l hkl hl r s hr hs
  rw [size_relayout h.lt] at hl
  have hk : k < order.length := Nat.lt_trans hkl hl
  have hold : ∀ k (hk : k < order.length) r, HasRank (m.relayout order).argsOf k r →
      HasRank m.argsOf order[k] r := by
    intro k hk r hr
    obtain ⟨r', hr'⟩ := hranks _ (List.getElem_mem hk)
    have hnew := hasRank_relayout h (List.getElem_mem hk) hr'
    rw [newPosition_eq h.nodup (List.getElem?_eq_getElem hk)] at hnew
    exact hr.unique hnew ▸ hr'
  exact List.pairwise_iff_getElem.mp hdesc k l hk hl hkl r s (hold k hk r hr) (hold l hl s hs)

/-- A layout that keeps the order keeps a module rank-sorted. -/
theorem RankSorted.relayout (hm : m.RankSorted) (h : m.IsLayout order)
    (hranks : ∀ i ∈ order, ∃ r, HasRank m.argsOf i r) (hasc : order.Pairwise (· < ·)) :
    (m.relayout order).RankSorted :=
  rankSorted_relayout h hranks <|
    hasc.imp_of_mem fun {i j} _ hj hlt => hm i j hlt (h.lt j hj)

/-! ## The order of ranks -/

theorem mem_rankOrder_iff : i ∈ rankOrder ranks ↔ ∃ r, ranks[i]? = some r ∧ r < ranks.length := by
  simp only [rankOrder, List.mem_flatMap, List.mem_reverse, List.mem_range, List.mem_map,
    List.mem_filter, decide_eq_true_eq]
  constructor
  · rintro ⟨r, hr, ⟨s, k⟩, ⟨hmem, rfl⟩, rfl⟩
    exact ⟨s, List.mem_zipIdx_iff_getElem?.mp hmem, hr⟩
  · rintro ⟨r, hget, hr⟩
    exact ⟨r, hr, (r, i), ⟨List.mem_zipIdx_iff_getElem?.mpr hget, rfl⟩, rfl⟩

/-- By descending rank, and by position among equal ranks. -/
theorem pairwise_rankOrder (ranks : List Nat) :
    (rankOrder ranks).Pairwise fun i j =>
      ranks.getD j 0 < ranks.getD i 0 ∨ ranks.getD i 0 = ranks.getD j 0 ∧ i < j := by
  have hget : ∀ {r i : Nat},
      i ∈ (ranks.zipIdx.filter fun p => p.1 = r).map (·.2) → ranks.getD i 0 = r := by
    intro r i hi
    obtain ⟨⟨s, k⟩, hmem, rfl⟩ := List.mem_map.mp hi
    obtain ⟨hmem, hs⟩ := List.mem_filter.mp hmem
    have := List.mem_zipIdx_iff_getElem?.mp hmem
    simp only [decide_eq_true_eq] at hs this
    simp [List.getD_eq_getElem?_getD, this, hs]
  rw [rankOrder, List.pairwise_flatMap]
  constructor
  · intro r _
    have hsorted : ((ranks.zipIdx.filter fun p => p.1 = r).map (·.2)).Pairwise (· < ·) := by
      refine List.Pairwise.map _ (fun _ _ h => h) (List.Pairwise.filter _ ?_)
      rw [← List.pairwise_map (f := Prod.snd) (R := (· < ·)), List.zipIdx_map_snd]
      exact List.pairwise_lt_range'
    exact hsorted.imp_of_mem fun hi hj hlt => .inr ⟨(hget hi).trans (hget hj).symm, hlt⟩
  · have hdesc : (List.range ranks.length).reverse.Pairwise (· > ·) := by
      rw [List.pairwise_reverse]
      exact List.pairwise_lt_range
    exact hdesc.imp fun hlt i hi j hj => .inl (by rw [hget hi, hget hj]; exact hlt)

theorem nodup_rankOrder (ranks : List Nat) : (rankOrder ranks).Nodup :=
  (pairwise_rankOrder ranks).imp fun h e => by subst e; omega

/-- All numbers below a bound, each once. -/
theorem perm_range {n : Nat} (hnodup : order.Nodup) (hmem : ∀ i, i ∈ order ↔ i < n) :
    order.Perm (List.range n) :=
  (List.perm_ext_iff_of_nodup hnodup List.nodup_range).mpr fun i => by rw [hmem, List.mem_range]

/-- All numbers below a bound in ascending order. -/
theorem eq_range_of_pairwise_lt {n : Nat} (hasc : order.Pairwise (· < ·))
    (hmem : ∀ i, i ∈ order ↔ i < n) : order = List.range n := by
  refine (perm_range (hasc.imp Nat.ne_of_lt) hmem).eq_of_pairwise (fun i j _ _ hij hji => ?_) hasc
    List.pairwise_lt_range
  omega

/-- The order of descending ranks leaves all positions where they are. -/
theorem rankOrder_eq_range (hlt : ∀ r ∈ ranks, r < ranks.length) (hdesc : ranks.Pairwise (· ≥ ·)) :
    rankOrder ranks = List.range ranks.length := by
  have hmem : ∀ i, i ∈ rankOrder ranks ↔ i < ranks.length := by
    intro i
    rw [mem_rankOrder_iff]
    constructor
    · rintro ⟨r, hr, -⟩
      exact (List.getElem?_eq_some_iff.mp hr).1
    · intro hi
      exact ⟨ranks[i], List.getElem?_eq_getElem hi, hlt _ (List.getElem_mem hi)⟩
  have hasc : (rankOrder ranks).Pairwise (· < ·) := by
    refine (pairwise_rankOrder ranks).imp_of_mem fun {i j} hi hj h => ?_
    have hi' := (hmem i).mp hi
    have hj' := (hmem j).mp hj
    simp only [List.getD_eq_getElem?_getD, List.getElem?_eq_getElem hi',
      List.getElem?_eq_getElem hj', Option.getD_some] at h
    rcases Nat.lt_trichotomy i j with hij | rfl | hji
    · exact hij
    · omega
    · have := List.pairwise_iff_getElem.mp hdesc j i hj' hi' hji
      omega
  exact eq_range_of_pairwise_lt hasc hmem

/-- Nothing moves in a layout of all nodes in their order. -/
theorem relayout_range (hn : Within m.argsOf m.size) (hp : m.pinsInRange = true) :
    m.relayout (List.range m.size) = m := by
  have hnew : ∀ i < m.size, newPosition (List.range m.size) i = i :=
    fun i hi => newPosition_eq List.nodup_range (List.getElem?_range hi)
  have hnodes : (m.relayout (List.range m.size)).nodes = m.nodes := by
    apply List.ext_getElem?
    intro k
    rw [getElem?_nodes_relayout fun i hi => List.mem_range.mp hi]
    by_cases hk : k < m.size
    · have hnode := List.getElem?_eq_getElem hk
      have hargs : m.nodes[k].args.map (newPosition (List.range m.size)) = m.nodes[k].args := by
        refine (List.map_congr_left fun j hj => ?_).trans (List.map_id _)
        exact hnew j (hn k j (mem_argsOf_iff.mpr ⟨_, hnode, hj⟩)).2
      rw [List.getElem?_range hk, Option.bind_some, hnode, Option.map_some, moveArgs_eq, hargs]
    · rw [List.getElem?_eq_none (by simpa using hk), List.getElem?_eq_none (Nat.le_of_not_lt hk)]
      rfl
  have hpins : ∀ pins : List Pin, (∀ pin ∈ pins, pin ∈ m.inputs ++ m.outputs) →
      pins.map (movePin (List.range m.size)) = pins := by
    intro pins hpins
    refine (List.map_congr_left fun pin hpin => ?_).trans (List.map_id _)
    obtain ⟨name, index⟩ := pin
    cases index with
    | none => rfl
    | some i =>
      have hi := pinsInRange_iff.mp hp _ (hpins _ hpin) i rfl
      show Pin.mk name ((List.range m.size).idxOf? i) = ⟨name, some i⟩
      rw [idxOf?_eq_newPosition (List.mem_range.mpr hi), hnew i hi]
  calc m.relayout (List.range m.size)
      = ⟨m.name, (m.relayout (List.range m.size)).nodes,
          m.inputs.map (movePin (List.range m.size)),
          m.outputs.map (movePin (List.range m.size))⟩ := rfl
    _ = m := by
      rw [hnodes, hpins _ fun _ h => List.mem_append_left _ h,
        hpins _ fun _ h => List.mem_append_right _ h]

end ImageCircuit.Module
