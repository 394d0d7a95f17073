import ImageCircuit.Proofs.LongestPath
import ImageCircuit.Proofs.Swap
import Mathlib.Data.Set.Card

/-!
# What sorting does

Sorting puts nodes by descending rank, those of equal rank as they stand, and renumbers arguments
and pins with them. It fails exactly if there is a cycle, and then counts the nodes from which one
can be reached.

* `Module.GoesBefore`: the order in which sorting puts two nodes
* `Module.topologicalSort_order`: without a cycle sorting succeeds and puts all nodes in that order
* `Module.ranks_error`: with a cycle it fails and counts
* `Module.topologicalSort_iff_acyclic`: both cases, for sorting in place too
-/

namespace ImageCircuit.Module

variable {m m' : Module} {order order' : List Nat} {i j : Nat}

/-! ## The order -/

/-- Sorting puts node `i` before node `j`: its rank is greater, or the ranks are equal and it
stands before the other already. -/
def GoesBefore (m : Module) (i j : Nat) : Prop :=
  ∃ r s, HasRank m.argsOf i r ∧ HasRank m.argsOf j s ∧ (s < r ∨ s = r ∧ i < j)

theorem GoesBefore.asymm (h : m.GoesBefore i j) : ¬ m.GoesBefore j i := by
  obtain ⟨r, s, hi, hj, hlt⟩ := h
  rintro ⟨s', r', hj', hi', hlt'⟩
  have := hi.unique hi'
  have := hj.unique hj'
  omega

/-- Of two nodes with ranks one goes first. -/
theorem goesBefore_or_eq_or_goesBefore {r s : Nat} (hi : HasRank m.argsOf i r)
    (hj : HasRank m.argsOf j s) : m.GoesBefore i j ∨ i = j ∨ m.GoesBefore j i := by
  by_cases hij : i = j
  · exact .inr (.inl hij)
  · rcases (by omega : (s < r ∨ s = r ∧ i < j) ∨ (r < s ∨ r = s ∧ j < i)) with h | h
    · exact .inl ⟨r, s, hi, hj, h⟩
    · exact .inr (.inr ⟨s, r, hj, hi, h⟩)

/-- The order of some nodes is determined. -/
theorem eq_of_pairwise_goesBefore (h : order.Pairwise m.GoesBefore)
    (h' : order'.Pairwise m.GoesBefore) (hmem : ∀ i, i ∈ order ↔ i ∈ order') : order = order' := by
  have hnodup : ∀ {order : List Nat}, order.Pairwise m.GoesBefore → order.Nodup := by
    intro order h
    refine h.imp fun hij e => ?_
    subst e
    exact hij.asymm hij
  have hperm := (List.perm_ext_iff_of_nodup (hnodup h) (hnodup h')).mpr hmem
  exact hperm.eq_of_pairwise (fun i j _ _ hij hji => absurd hji hij.asymm) h h'

/-- New positions follow the order. -/
theorem newPosition_lt_of_goesBefore (h : order.Pairwise m.GoesBefore) (hi : i ∈ order)
    (hj : j ∈ order) (hij : m.GoesBefore i j) : newPosition order i < newPosition order j := by
  refine newPosition_lt_of_pairwise h hi hj ?_ hij.asymm
  rintro rfl
  exact hij.asymm hij

/-- Without a cycle sorting succeeds and puts all nodes in their order. -/
theorem topologicalSort_order (hn : Within m.argsOf m.size) (hp : m.pinsInRange = true)
    (hac : Acyclic m.argsOf) :
    ∃ order, m.topologicalSort = .ok (m.relayout order) ∧ m.IsLayout order ∧
      (∀ i, i ∈ order ↔ i < m.size) ∧ order.Pairwise m.GoesBefore := by
  obtain ⟨ranks, hranks, hlen, hrank⟩ := ranks_eq hn hac
  have hmem := mem_rankOrder_iff_lt hn hlen hrank
  have hget : ∀ i ∈ rankOrder ranks, HasRank m.argsOf i (ranks.getD i 0) := by
    intro i hi
    have hi' : i < ranks.length := hlen ▸ (hmem i).mp hi
    simpa [hi'] using hrank i hi'
  refine ⟨rankOrder ranks, topologicalSort_of_ranks hranks hp, isLayout_rankOrder hn hlen hrank,
    hmem, ?_⟩
  refine (pairwise_rankOrder ranks).imp_of_mem fun hi hj h => ⟨_, _, hget _ hi, hget _ hj, ?_⟩
  omega

/-! ## Failure -/

/-- The nodes without a rank are those from which a cycle can be reached. -/
theorem count_none_finalRanks (hn : Within m.argsOf m.size) :
    m.finalRanks.count none = {i | i < m.size ∧ ReachesCycle m.argsOf i}.ncard := by
  have hlist : m.finalRanks.toList = (List.range m.size).map (rankAt m.finalRanks) := by
    apply List.ext_getElem?
    intro i
    rw [List.getElem?_map, Array.getElem?_toList]
    by_cases hi : i < m.size
    · simp [hi, rankAt]
    · simp [hi]
  have hnone : ∀ i < m.size, rankAt m.finalRanks i = none ↔ ReachesCycle m.argsOf i := by
    intro i hi
    rw [reachesCycle_iff hn, Option.eq_none_iff_forall_ne_some]
    simp [rankAt_finalRanks hn, hi]
  have hset : {i | i < m.size ∧ ReachesCycle m.argsOf i} =
      ↑((List.range m.size).filter fun i => rankAt m.finalRanks i == none).toFinset := by
    ext i
    simpa using fun hi => (hnone i hi).symm
  rw [hset, Set.ncard_coe_finset, List.toFinset_card_of_nodup (List.nodup_range.filter _),
    ← List.countP_eq_length_filter, ← Array.count_toList, hlist, List.count, List.countP_map]
  rfl

/-- With a cycle ranking fails and counts the nodes from which one can be reached. -/
theorem ranks_error (hn : Within m.argsOf m.size) (hac : ¬ Acyclic m.argsOf) :
    m.ranks = .error (.cycle m.name {i | i < m.size ∧ ReachesCycle m.argsOf i}.ncard) := by
  have hnone : none ∈ m.finalRanks := by
    by_contra hno
    refine hac (acyclic_of_hasRank hn fun i hi => ?_)
    by_contra hi'
    exact hno ((none_mem_finalRanks_iff hn).mpr ⟨i, hi, fun r hr => hi' ⟨r, hr⟩⟩)
  rw [← count_none_finalRanks hn]
  simp [Module.ranks, meetsBadIndex_eq_false hn, hnone]

theorem topologicalSort_error (hn : Within m.argsOf m.size) (hac : ¬ Acyclic m.argsOf) :
    m.topologicalSort =
      .error (.cycle m.name {i | i < m.size ∧ ReachesCycle m.argsOf i}.ncard) := by
  rw [topologicalSort, ranks_error hn hac]
  rfl

/-! ## Both -/

/-- New positions are by descending length of the longest path of arguments below, those of nodes of
equal length as these stand. -/
def Descending (m : Module) (f : Nat → Nat) : Prop :=
  ∀ i < m.size, ∀ j < m.size, ∀ r s, IsLongest m.argsOf i r → IsLongest m.argsOf j s →
    (f i < f j ↔ s < r ∨ s = r ∧ i < j)

/-- The module `m'` is `m` with its nodes by descending length of the longest path of arguments
below them, those of equal length in their old order. -/
structure SortsTo (m m' : Module) : Prop where
  /-- Every node has a longest path below it. -/
  longest : ∀ i < m.size, ∃ r, IsLongest m.argsOf i r
  renumbered : ∃ f, m.Renumbered m' f ∧ m.Descending f
  /-- Every argument stands after its users. -/
  sorted : ∀ i, ∀ j ∈ m'.argsOf i, i < j

theorem sortsTo_relayout (hn : Within m.argsOf m.size) (hp : m.pinsInRange = true)
    (hac : Acyclic m.argsOf) (h : m.IsLayout order) (hall : ∀ i, i ∈ order ↔ i < m.size)
    (hpair : order.Pairwise m.GoesBefore) : m.SortsTo (m.relayout order) := by
  have hrank : ∀ i < m.size, ∃ r, HasRank m.argsOf i r := fun i _ => hac.exists_hasRank hn i
  have hfirst : ∀ i < m.size, ∀ j < m.size,
      (newPosition order i < newPosition order j ↔ m.GoesBefore i j) := by
    intro i hi j hj
    have hlt := fun {i j} hi hj =>
      newPosition_lt_of_goesBefore (i := i) (j := j) hpair ((hall i).mpr hi) ((hall j).mpr hj)
    refine ⟨fun hij => ?_, hlt hi hj⟩
    obtain ⟨r, hr⟩ := hrank i hi
    obtain ⟨s, hs⟩ := hrank j hj
    rcases goesBefore_or_eq_or_goesBefore hr hs with h | rfl | h
    · exact h
    · exact absurd hij (Nat.lt_irrefl _)
    · exact absurd (hlt hj hi h) (Nat.lt_asymm hij)
  refine ⟨fun i hi => ?_, ⟨_, renumbered_relayout hp h hall, fun i hi j hj r s hr hs => ?_⟩, ?_⟩
  · obtain ⟨r, hr⟩ := hrank i hi
    exact ⟨r, hr.isLongest⟩
  · rw [hfirst i hi j hj]
    constructor
    · rintro ⟨r', s', hr', hs', hlt⟩
      rwa [hr.unique hr'.isLongest, hs.unique hs'.isLongest]
    · intro hlt
      obtain ⟨r', hr'⟩ := hrank i hi
      obtain ⟨s', hs'⟩ := hrank j hj
      rw [hr.unique hr'.isLongest, hs.unique hs'.isLongest] at hlt
      exact ⟨r', s', hr', hs', hlt⟩
  · intro k l hl
    obtain ⟨i, hi, rfl⟩ := exists_of_lt_size_relayout h (lt_of_mem_argsOf hl)
    obtain ⟨j, hj, rfl⟩ := (mem_argsOf_relayout_iff h hi).mp hl
    obtain ⟨r, hr⟩ := hrank i ((hall i).mp hi)
    obtain ⟨s, hs⟩ := hrank j (hn i j hj).2
    exact newPosition_lt_of_goesBefore hpair hi (h.args i hi j hj)
      ⟨r, s, hr, hs, .inl (hr.lt hj hs)⟩

theorem sortsTo_of_topologicalSort (hn : Within m.argsOf m.size) (hp : m.pinsInRange = true)
    (h : m.topologicalSort = .ok m') : m.SortsTo m' := by
  have hac := acyclic_of_topologicalSort hn h
  obtain ⟨order, hsort, hlayout, hall, hpair⟩ := topologicalSort_order hn hp hac
  obtain rfl := Except.ok.inj (h.symm.trans hsort)
  exact sortsTo_relayout hn hp hac hlayout hall hpair

/-- If all arguments and pins of a module name nodes, sorting succeeds exactly if no path of
arguments closes. It then brings the nodes in their order; otherwise it reports how many nodes a
cycle can be reached from, and leaves the module as it is. -/
theorem topologicalSort_iff_acyclic (hargs : m.argsInRange = true) (hpins : m.pinsInRange = true) :
    ((∃ m', m.topologicalSort = .ok m') ↔ Acyclic m.argsOf) ∧
      (∀ m', m.topologicalSort = .ok m' → m.SortsTo m' ∧ sortInPlace.run m = (.ok (), m')) ∧
      (¬ Acyclic m.argsOf →
        ∃ unranked, unranked = {i | i < m.size ∧ ReachesCycle m.argsOf i}.ncard ∧
          m.topologicalSort = .error (.cycle m.name unranked) ∧
          sortInPlace.run m = (.error (.cycle m.name unranked), m)) := by
  have hn := argsInRange_iff.mp hargs
  refine ⟨⟨fun ⟨m', hm'⟩ => acyclic_of_topologicalSort hn hm', fun hac => ?_⟩,
    fun m' hm' => ?_, fun hac => ?_⟩
  · obtain ⟨order, hsort, -⟩ := topologicalSort_order hn hpins hac
    exact ⟨_, hsort⟩
  · refine ⟨sortsTo_of_topologicalSort hn hpins hm', ?_⟩
    rw [run_sortInPlace, hm']
  · have herror := topologicalSort_error hn hac
    refine ⟨_, rfl, herror, ?_⟩
    rw [run_sortInPlace, herror]

/-- Two nodes that read each other, a node that reads one of them, and two inputs. -/
def looped : Module where
  name := "m"
  nodes := [.ofOp (.prim .inv) [1], .ofOp (.prim .add) [2, 3], .ofOp (.prim .inv) [1],
    .ofOp (.input 'x') [], .ofOp (.input 'y') []]
  inputs := [⟨'x', some 3⟩, ⟨'y', some 4⟩]
  outputs := [⟨'a', some 0⟩]

theorem not_acyclic_looped : ¬ Acyclic looped.argsOf :=
  fun h => h 1 (.tail (b := 2) (.single (by decide)) (by decide))

/-- The node that only reads the cycle is counted, too. -/
theorem topologicalSort_iff_acyclic_looped :
    looped.argsInRange = true ∧ looped.pinsInRange = true ∧ ¬ Acyclic looped.argsOf ∧
      {i | i < looped.size ∧ ReachesCycle looped.argsOf i}.ncard = 3 ∧
      looped.topologicalSort = .error (.cycle "m" 3) ∧
      sortInPlace.run looped = (.error (.cycle "m" 3), looped) := by
  obtain ⟨unranked, hcount, hsort, hplace⟩ :=
    (topologicalSort_iff_acyclic (m := looped) rfl rfl).2.2 not_acyclic_looped
  have hthree : looped.finalRanks.count none = 3 := by decide
  have hn : Within looped.argsOf looped.size := argsInRange_iff.mp rfl
  obtain rfl : unranked = 3 := hcount.trans ((count_none_finalRanks hn).symm.trans hthree)
  exact ⟨rfl, rfl, not_acyclic_looped, hcount.symm, hsort, hplace⟩

end ImageCircuit.Module
