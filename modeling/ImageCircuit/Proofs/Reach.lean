import ImageCircuit.Module.Reach
import ImageCircuit.Proofs.Path

/-!
# What the worklist marks

* `closure_eq`: a closure marks exactly what its roots below the bound reach
* `Module.reachableFrom_eq`, `Module.dependentsOf_eq`: the two directions of dependence
* `Module.marked_below_iff_marked_above`: they are converse to each other

Between two steps of the worklist every successor of a marked position is marked or waits in the
list. A path that leaves the marked positions therefore passes through the list.
-/

namespace ImageCircuit

open Relation

/-- Whether position `i` is marked. -/
def Marked (marks : List Bool) (i : Nat) : Prop := marks[i]? = some true

instance (marks : List Bool) (i : Nat) : Decidable (Marked marks i) :=
  inferInstanceAs (Decidable (_ = _))

theorem marked_iff_getD {marks : List Bool} {i : Nat} :
    Marked marks i ↔ marks.getD i false = true := by
  rw [Marked, List.getD_eq_getElem?_getD]
  cases marks[i]? <;> simp

theorem Marked.lt {marks : List Bool} {i : Nat} (h : Marked marks i) : i < marks.length := by
  by_contra hi
  rw [Marked, List.getElem?_eq_none (Nat.le_of_not_lt hi)] at h
  cases h

theorem marked_set {marks : List Bool} {i j : Nat} (hi : i < marks.length) :
    Marked (marks.set i true) j ↔ j = i ∨ Marked marks j := by
  unfold Marked
  rw [List.getElem?_set]
  by_cases hij : i = j
  · simp [hij, hij ▸ hi]
  · simp [hij, Ne.symm hij]

@[simp] theorem not_marked_replicate {n i : Nat} : ¬ Marked (List.replicate n false) i := by
  intro h
  have := h.lt
  simp [Marked, List.getElem?_replicate] at h

/-- Every successor of a marked position is marked or waits in the worklist. -/
def ClosedUpTo (next : Nat → List Nat) (marks : List Bool) (work : List Nat) : Prop :=
  ∀ i, Marked marks i → ∀ j ∈ next i, Marked marks j ∨ j ∈ work

/-- A path from a marked position stays among the marked ones, or it passes through the list. -/
theorem ClosedUpTo.reaches {next : Nat → List Nat} {marks : List Bool} {work : List Nat}
    (h : ClosedUpTo next marks work) {i j : Nat} (hi : Marked marks i) (hij : Reaches next i j) :
    Marked marks j ∨ ∃ w ∈ work, Reaches next w j := by
  induction hij with
  | refl => exact .inl hi
  | tail _ hk ih =>
    rcases ih with ih | ⟨w, hw, hwj⟩
    · exact (h _ ih _ hk).imp_right fun hw => ⟨_, hw, .refl⟩
    · exact .inr ⟨w, hw, hwj.tail hk⟩

/-- A marked position may leave the list. -/
theorem ClosedUpTo.pop {next : Nat → List Nat} {marks : List Bool} {i : Nat} {work : List Nat}
    (h : ClosedUpTo next marks (i :: work)) (hi : Marked marks i) : ClosedUpTo next marks work := by
  intro a ha b hb
  rcases h a ha b hb with hb | hb
  · exact .inl hb
  · rcases List.mem_cons.mp hb with rfl | hb
    · exact .inl hi
    · exact .inr hb

/-- Any position is marked when its successors take its place in the list. -/
theorem ClosedUpTo.mark {next : Nat → List Nat} {marks : List Bool} {i : Nat} {work : List Nat}
    (h : ClosedUpTo next marks (i :: work)) (hi : i < marks.length) :
    ClosedUpTo next (marks.set i true) (next i ++ work) := by
  intro a ha b hb
  rw [marked_set hi] at ha ⊢
  rcases ha with rfl | ha
  · exact .inr (List.mem_append_left _ hb)
  · rcases h a ha b hb with hb | hb
    · exact .inl (.inr hb)
    · rcases List.mem_cons.mp hb with hb | hb
      · exact .inl (.inl hb)
      · exact .inr (List.mem_append_right _ hb)

/-- What the positions of a list reach, its first one replaced by its successors. -/
theorem exists_reaches_cons {next : Nat → List Nat} {i j : Nat} {work : List Nat} :
    (∃ w ∈ i :: work, Reaches next w j) ↔ j = i ∨ ∃ w ∈ next i ++ work, Reaches next w j := by
  constructor
  · rintro ⟨w, hw, hwj⟩
    rcases List.mem_cons.mp hw with rfl | hw
    · rcases ReflTransGen.cases_head hwj with rfl | ⟨k, hk, hkj⟩
      · exact .inl rfl
      · exact .inr ⟨k, List.mem_append_left _ hk, hkj⟩
    · exact .inr ⟨w, List.mem_append_right _ hw, hwj⟩
  · rintro (rfl | ⟨w, hw, hwj⟩)
    · exact ⟨j, List.mem_cons_self, .refl⟩
    · rcases List.mem_append.mp hw with hw | hw
      · exact ⟨i, List.mem_cons_self, .head hw hwj⟩
      · exact ⟨w, List.mem_cons_of_mem _ hw, hwj⟩

theorem mark_eq {next : Nat → List Nat} {n : Nat} (hn : Within next n) (marks : List Bool)
    (work : List Nat) (hlen : marks.length = n) (hwork : ∀ w ∈ work, w < n)
    (hclosed : ClosedUpTo next marks work) :
    ∃ marks', mark next marks work = .ok marks' ∧ marks'.length = n ∧
      ∀ j, Marked marks' j ↔ Marked marks j ∨ ∃ w ∈ work, Reaches next w j := by
  fun_induction mark next marks work with
  | case1 marks => exact ⟨marks, rfl, hlen, by simp⟩
  | case2 marks i work hi =>
    have := hwork i List.mem_cons_self
    rw [List.getElem?_eq_getElem (by omega)] at hi
    cases hi
  | case3 marks i work hi ih =>
    have hrest := hclosed.pop hi
    obtain ⟨marks', hok, hlen', hiff⟩ :=
      ih hlen (fun w hw => hwork w (List.mem_cons_of_mem _ hw)) hrest
    refine ⟨marks', hok, hlen', fun j => ?_⟩
    rw [hiff]
    constructor
    · rintro (hj | ⟨w, hw, hwj⟩)
      · exact .inl hj
      · exact .inr ⟨w, List.mem_cons_of_mem _ hw, hwj⟩
    · rintro (hj | ⟨w, hw, hwj⟩)
      · exact .inl hj
      · rcases List.mem_cons.mp hw with rfl | hw
        · exact hrest.reaches hi hwj
        · exact .inr ⟨w, hw, hwj⟩
  | case4 marks i work hi ih =>
    have hlt : i < marks.length := hlen ▸ hwork i List.mem_cons_self
    have hwork' : ∀ w ∈ next i ++ work, w < n := by
      intro w hw
      rcases List.mem_append.mp hw with hw | hw
      · exact (hn i w hw).2
      · exact hwork w (List.mem_cons_of_mem _ hw)
    obtain ⟨marks', hok, hlen', hiff⟩ := ih (by simpa using hlen) hwork' (hclosed.mark hlt)
    refine ⟨marks', hok, hlen', fun j => ?_⟩
    rw [hiff, marked_set hlt, exists_reaches_cons, or_left_comm, or_assoc]

/-- A closure marks exactly the positions that some root below the bound reaches. -/
theorem closure_eq {next : Nat → List Nat} {n : Nat} (hn : Within next n) (roots : List Nat) :
    ∃ marks, closure next n roots = .ok marks ∧ marks.length = n ∧
      ∀ j, Marked marks j ↔ ∃ r ∈ roots, r < n ∧ Reaches next r j := by
  have hwork : ∀ w ∈ roots.filter (· < n), w < n := by
    intro w hw
    simpa using (List.mem_filter.mp hw).2
  obtain ⟨marks, hok, hlen, hiff⟩ := mark_eq hn (List.replicate n false) (roots.filter (· < n))
    (by simp) hwork (fun i hi => absurd hi not_marked_replicate)
  refine ⟨marks, hok, hlen, fun j => ?_⟩
  simp [hiff, and_assoc]

namespace Module

variable {m : Module}

theorem argsOf_eq_nil {i : Nat} (hi : m.size ≤ i) : m.argsOf i = [] := by
  simp [argsOf, List.getElem?_eq_none hi]

theorem argsOf_eq {i : Nat} {node : Node} (h : m.nodes[i]? = some node) :
    m.argsOf i = node.args := by
  simp [argsOf, h]

theorem lt_of_mem_argsOf {i j : Nat} (h : j ∈ m.argsOf i) : i < m.size := by
  by_contra hi
  rw [argsOf_eq_nil (Nat.le_of_not_lt hi)] at h
  cases h

theorem mem_argsOf_iff {i j : Nat} :
    j ∈ m.argsOf i ↔ ∃ node, m.nodes[i]? = some node ∧ j ∈ node.args := by
  unfold argsOf
  cases m.nodes[i]? <;> simp

theorem argsInRange_iff : m.argsInRange = true ↔ Within m.argsOf m.size := by
  simp only [argsInRange, allArgs, List.all_eq_true, List.mem_flatMap, decide_eq_true_eq]
  constructor
  · intro h i j hj
    obtain ⟨node, hnode, hmem⟩ := mem_argsOf_iff.mp hj
    exact ⟨lt_of_mem_argsOf hj, h j ⟨node, List.mem_of_getElem? hnode, hmem⟩⟩
  · rintro h j ⟨node, hnode, hj⟩
    obtain ⟨i, hi⟩ := List.mem_iff_getElem?.mp hnode
    exact (h i j (mem_argsOf_iff.mpr ⟨node, hi, hj⟩)).2

theorem mem_usersOf_iff {i j : Nat} : j ∈ m.usersOf i ↔ i ∈ m.argsOf j := by
  simp only [usersOf, List.mem_map, List.mem_filter, decide_eq_true_eq, mem_argsOf_iff]
  constructor
  · rintro ⟨⟨node, k⟩, ⟨hnode, hi⟩, rfl⟩
    exact ⟨node, List.mem_zipIdx_iff_getElem?.mp hnode, hi⟩
  · rintro ⟨node, hnode, hi⟩
    exact ⟨(node, j), ⟨List.mem_zipIdx_iff_getElem?.mpr hnode, hi⟩, rfl⟩

/-- The users of a node are what depends on it: paths over users are paths over arguments read
backwards. -/
theorem reaches_usersOf_iff {i j : Nat} : Reaches m.usersOf i j ↔ Reaches m.argsOf j i := by
  have : StepsTo m.usersOf = Function.swap (StepsTo m.argsOf) := by
    funext a b
    exact propext mem_usersOf_iff
  rw [Reaches, this]
  exact reflTransGen_swap

/-- Reachability marks exactly what some root in range depends on. -/
theorem reachableFrom_eq (h : Within m.argsOf m.size) (roots : List Nat) :
    ∃ marks, m.reachableFrom roots = .ok marks ∧ marks.length = m.size ∧
      ∀ j, Marked marks j ↔ ∃ r ∈ roots, r < m.size ∧ Reaches m.argsOf r j :=
  closure_eq h roots

/-- Dependence marks exactly what depends on a node in range, and nothing for another one. -/
theorem dependentsOf_eq (h : Within m.argsOf m.size) (n : Nat) :
    ∃ marks, m.dependentsOf n = .ok marks ∧ marks.length = m.size ∧
      ∀ j, Marked marks j ↔ n < m.size ∧ Reaches m.argsOf j n := by
  have hw : Within m.usersOf m.size := by
    intro i j hj
    have := h j i (mem_usersOf_iff.mp hj)
    exact ⟨this.2, this.1⟩
  obtain ⟨marks, hok, hlen, hiff⟩ := closure_eq hw [n]
  refine ⟨marks, ?_, hlen, fun j => ?_⟩
  · rw [dependentsOf, if_pos (argsInRange_iff.mpr h), hok]
  · simp [hiff, reaches_usersOf_iff]

/-- In a module whose arguments name nodes, whether or not they form a cycle, both directions of
dependence are computed exactly: one marks what the roots in range reach, the other what reaches a
node in range. So a node is marked among those below another exactly if that one is marked among
those above it. -/
theorem marked_below_iff_marked_above (h : m.argsInRange = true) :
    (∀ roots, ∃ below, m.reachableFrom roots = .ok below ∧ below.length = m.size ∧
      ∀ j, Marked below j ↔ ∃ r ∈ roots, r < m.size ∧ Reaches m.argsOf r j) ∧
    (∀ n, ∃ above, m.dependentsOf n = .ok above ∧ above.length = m.size ∧
      ∀ i, Marked above i ↔ n < m.size ∧ Reaches m.argsOf i n) ∧
    ∀ i j, ∃ below above, m.reachableFrom [i] = .ok below ∧ m.dependentsOf j = .ok above ∧
      (Marked below j ↔ Marked above i) := by
  have hn : Within m.argsOf m.size := argsInRange_iff.mp h
  refine ⟨reachableFrom_eq hn, dependentsOf_eq hn, fun i j => ?_⟩
  obtain ⟨below, hbelow, -, hbelow_iff⟩ := reachableFrom_eq hn [i]
  obtain ⟨above, habove, -, habove_iff⟩ := dependentsOf_eq hn j
  refine ⟨below, above, hbelow, habove, ?_⟩
  -- A path between the two nodes has either both ends in range or none.
  have hrange : Reaches m.argsOf i j → (i < m.size ↔ j < m.size) := by
    intro hij
    rcases ReflTransGen.cases_head hij with rfl | ⟨k, hk, hkj⟩
    · exact Iff.rfl
    · exact iff_of_true (hn i k hk).1 (hn.reaches_lt (hn i k hk).2 hkj)
  simp only [hbelow_iff, habove_iff, List.mem_singleton, exists_eq_left]
  exact and_congr_left hrange

/-- Two nodes that are arguments of each other, and an input that both read. -/
def entwined : Module where
  name := ""
  nodes := [.ofOp (.prim .add) [1, 2], .ofOp (.prim .mul) [2, 0], .ofOp (.input 'x') []]
  inputs := [⟨'x', some 2⟩]
  outputs := [⟨'y', some 0⟩]

/-- From the loop the input is reached, but not the other way round. -/
theorem marked_below_iff_marked_above_entwined :
    entwined.argsInRange = true ∧
      (∃ below above, entwined.reachableFrom [1] = .ok below ∧ entwined.dependentsOf 2 = .ok above ∧
        (Marked below 2 ↔ Marked above 1) ∧ Marked above 1) ∧
      ∃ above, entwined.dependentsOf 0 = .ok above ∧ ¬ Marked above 2 := by
  have hrange : entwined.argsInRange = true := by decide
  obtain ⟨-, hdependents, hconverse⟩ := marked_below_iff_marked_above hrange
  refine ⟨hrange, ?_, ?_⟩
  · obtain ⟨below, above, hbelow, habove, hiff⟩ := hconverse 1 2
    obtain ⟨above', habove', -, hmarked⟩ := hdependents 2
    obtain rfl := Except.ok.inj (habove.symm.trans habove')
    exact ⟨below, above, hbelow, habove, hiff, (hmarked 1).mpr ⟨by decide, .single (by decide)⟩⟩
  · obtain ⟨above, habove, -, hmarked⟩ := hdependents 0
    refine ⟨above, habove, fun h => ?_⟩
    -- The input reads no node.
    rcases ReflTransGen.cases_head ((hmarked 2).mp h).2 with hself | ⟨k, hk, -⟩
    · cases hself
    · exact absurd hk List.not_mem_nil

end Module

end ImageCircuit
