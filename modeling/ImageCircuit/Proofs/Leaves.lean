import ImageCircuit.Proofs.Formed
import ImageCircuit.Proofs.Sorting

/-!
# Leaves stand last

No path leads on from a node without arguments. In a normal form such nodes stand behind all others,
and sorting does not move them from there.

* `Module.Normal.exists_innerBefore`: inner nodes stand before leaves
* `Module.Renumbered.leaf_eq`: sorting leaves leaves that stand last where they are
-/

namespace ImageCircuit

/-- A bijection that keeps what is before a position keeps the position. -/
theorem eq_self_of_bijOn {f : Nat → Nat} {n i : Nat} (hf : Set.BijOn f (Set.Iio n) (Set.Iio n))
    (hi : i < n) (h : ∀ j < n, f j < f i ↔ j < i) : f i = i := by
  have hfi : f i < n := hf.mapsTo hi
  have hbij : Set.BijOn f (Finset.range i) (Finset.range (f i)) := by
    simp only [Finset.coe_range]
    refine ⟨fun j hj => (h j (Nat.lt_trans hj hi)).mpr hj,
      hf.injOn.mono fun j hj => Nat.lt_trans hj hi, fun k hk => ?_⟩
    obtain ⟨j, hj, rfl⟩ := hf.surjOn (Nat.lt_trans hk hfi)
    exact ⟨j, (h j hj).mp hk, rfl⟩
  simpa using (Finset.card_nbij f hbij.mapsTo hbij.injOn hbij.surjOn).symm

namespace Module

variable {m m' : Module} {f : Nat → Nat} {i p : Nat}

/-- The nodes before position `p` have arguments, the others have none. -/
def InnerBefore (m : Module) (p : Nat) : Prop :=
  ∀ i, m.argsOf i ≠ [] ↔ i < p

theorem InnerBefore.le_size (h : m.InnerBefore p) : p ≤ m.size := by
  by_contra hlt
  exact (h m.size).mpr (Nat.lt_of_not_le hlt) (argsOf_eq_nil (Nat.le_refl _))

/-- In a normal form the inner nodes stand before the leaves, of which there are some. -/
theorem Normal.exists_innerBefore (hm : m.Normal) (hpos : 0 < m.size) :
    ∃ p < m.size, m.InnerBefore p := by
  have hleaf : ∃ i, m.argsOf i = [] := ⟨m.size, argsOf_eq_nil (Nat.le_refl _)⟩
  have hlast : m.argsOf (m.size - 1) = [] := by
    refine List.eq_nil_iff_forall_not_mem.mpr fun j hj => ?_
    have := isSorted_iff.mp hm.sorted _ j hj
    have := (hm.within _ j hj).2
    omega
  refine ⟨Nat.find hleaf, ?_, fun i => ⟨fun hi => ?_, fun hi => Nat.find_min hleaf hi⟩⟩
  · have := Nat.find_min' hleaf hlast
    omega
  · by_contra hge
    have hlt : Nat.find hleaf < i :=
      Nat.lt_of_le_of_ne (Nat.le_of_not_lt hge) fun e => hi (e ▸ Nat.find_spec hleaf)
    have hsize : i < m.size := by
      by_contra hge'
      exact hi (argsOf_eq_nil (Nat.le_of_not_lt hge'))
    obtain ⟨r, hr⟩ := hm.acyclic.exists_hasRank hm.within (Nat.find hleaf)
    obtain ⟨s, hs⟩ := hm.acyclic.exists_hasRank hm.within i
    have hle := hm.ranked _ i hlt hsize r s hr hs
    rw [hr.isLongest.unique (isLongest_zero (Nat.find_spec hleaf))] at hle
    exact absurd (hs.isLongest.pos hi) (Nat.not_lt.mpr hle)

/-! ## Renumbered nodes -/

theorem Renumbered.argsOf_eq (hf : m.Renumbered m' f) (hi : i < m.size) :
    m'.argsOf (f i) = (m.argsOf i).map f := by
  obtain ⟨node, hnode⟩ : ∃ node, m.nodes[i]? = some node := ⟨_, List.getElem?_eq_getElem hi⟩
  rw [Module.argsOf_eq (hf.nodes i node hnode), Module.argsOf_eq hnode]

theorem Renumbered.opAt_eq (hf : m.Renumbered m' f) (hi : i < m.size) :
    m'.opAt (f i) = m.opAt i := by
  obtain ⟨node, hnode⟩ : ∃ node, m.nodes[i]? = some node := ⟨_, List.getElem?_eq_getElem hi⟩
  rw [opAt, opAt, hf.nodes i node hnode, hnode]
  rfl

/-- Sorting leaves leaves that stand last where they are. -/
theorem Renumbered.leaf_eq (hf : m.Renumbered m' f) (hdesc : m.Descending f)
    (hlongest : ∀ i < m.size, ∃ r, IsLongest m.argsOf i r) (hinner : m.InnerBefore p)
    (hi : i < m.size) (hp : ¬ i < p) : f i = i := by
  have hleaf : ∀ {j}, ¬ j < p → IsLongest m.argsOf j 0 := fun hj =>
    isLongest_zero (by_contra fun hne => hj ((hinner _).mp hne))
  refine eq_self_of_bijOn (hf.size ▸ hf.bijOn) hi fun j hj => ?_
  obtain ⟨r, hr⟩ := hlongest j hj
  rw [hdesc j hj i hi r 0 hr (hleaf hp)]
  by_cases hjp : j < p
  · have := hr.pos ((hinner j).mpr hjp)
    omega
  · obtain rfl := hr.unique (hleaf hjp)
    omega

/-- Inner nodes that stand before the leaves do so after sorting. -/
theorem Renumbered.innerBefore (hf : m.Renumbered m' f) (hdesc : m.Descending f)
    (hlongest : ∀ i < m.size, ∃ r, IsLongest m.argsOf i r) (hinner : m.InnerBefore p) :
    m'.InnerBefore p := by
  intro k
  by_cases hk : k < m.size
  · obtain ⟨i, hi, rfl⟩ := hf.bijOn.surjOn (hf.size ▸ hk : k < m'.size)
    rw [hf.argsOf_eq hi, Ne, List.map_eq_nil_iff, ← Ne, hinner i]
    -- Leaves stay, so a node that comes to stand among the inner ones has been one.
    constructor
    · intro hip
      by_contra hfp
      have hfix := hf.leaf_eq hdesc hlongest hinner hk hfp
      exact hfp ((hf.bijOn.injOn (hf.size ▸ hk) hi hfix).symm ▸ hip)
    · intro hfp
      by_contra hip
      exact hip (hf.leaf_eq hdesc hlongest hinner hi hip ▸ hfp)
  · have hk' : ¬ k < m'.size := hf.size ▸ hk
    rw [argsOf_eq_nil (Nat.le_of_not_lt hk'), ← hinner k, argsOf_eq_nil (Nat.le_of_not_lt hk)]

end Module

end ImageCircuit
