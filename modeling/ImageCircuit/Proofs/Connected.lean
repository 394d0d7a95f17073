import ImageCircuit.Proofs.Mutation

/-!
# Swaps strand no node

A connection swap sorts the module again but never shakes it. It need not: if the outputs depend on
all nodes of a module without a cycle, they do so after any swap. Each of the two nodes is still
below some output, since the path to it passes through neither, and what hung below one of them
hangs below the other.

* `Module.always_mutateConnection_cases`: what a swap may leave of any module
* `Module.mutateConnection_connected`: nothing is left for shaking to drop
-/

namespace ImageCircuit.Module

variable {m m' : Module} {a b : Link} {σ : Type} [Source σ]

/-- In a module with an argument past the end, the links that a link may be exchanged with are not
found. -/
theorem strangers_error (h : m.argsInRange = false) (i : Nat) : ∃ e, m.strangers i = .error e := by
  cases hbelow : m.reachableFrom [i] with
  | error e => exact ⟨e, by simp [strangers, hbelow, bind, Except.bind]⟩
  | ok below => exact ⟨.badIndex, by simp [strangers, hbelow, dependentsOf, h, bind, Except.bind]⟩

theorem always_swapWithin_of_not_argsInRange (h : m.argsInRange = false) (links : List Link)
    (attempts : Nat) :
    Draw.Always (m.swapWithin links attempts : Draw σ _) fun r => r.2 = m := by
  cases attempts with
  | zero => exact .pure rfl
  | succ attempts =>
    rw [swapWithin]
    refine .bind_any fun r => ?_
    cases r with
    | none => exact .pure rfl
    | some first =>
      obtain ⟨e, he⟩ := strangers_error h first.node
      simp only [he]
      exact .pure rfl

/-- An exchange leaves the sorted module, or the module as it was. -/
theorem Swappable.swapSorted_cases (h : m.Swappable a b) :
    (m.swapSorted a b).2 = m ∨ (m.swapTargets a b).topologicalSort = .ok (m.swapSorted a b).2 := by
  cases hsort : (m.swapTargets a b).topologicalSort with
  | ok sorted => exact .inr (by rw [swapSorted_of_topologicalSort hsort])
  | error e => exact .inl (by rw [h.swapSorted_of_error hsort])

/-- Whatever is drawn, a swap leaves any module as it is, or exchanges the targets of two swappable
links and sorts. -/
theorem always_mutateConnection_cases (m : Module) (attempts : Nat) :
    Draw.Always (m.mutateConnection attempts : Draw σ _) fun r => r.2 = m ∨
      m.argsInRange = true ∧ ∃ first second, m.Swappable first second ∧
        (m.swapTargets first second).topologicalSort = .ok r.2 := by
  by_cases hargs : m.argsInRange = true
  · refine (always_mutateConnection (argsInRange_iff.mp hargs) attempts).mono ?_
    rintro _ (⟨obstacle, rfl⟩ | ⟨first, second, hswap, rfl⟩)
    · exact .inl rfl
    · exact hswap.swapSorted_cases.imp_right fun hsort =>
        ⟨hargs, first, second, hswap, hsort⟩
  · unfold mutateConnection
    dsimp only
    split
    · exact .pure (.inl rfl)
    · exact (always_swapWithin_of_not_argsInRange (by simpa using hargs) _ attempts).mono
        fun _ => .inl

/-- Sorting after an exchange loses no node, and the outputs depend on all nodes as before. -/
theorem Swappable.connected_of_topologicalSort (h : m.Swappable a b)
    (hargs : m.argsInRange = true) (hac : Acyclic m.argsOf) (hm : m.Connected)
    (hsort : (m.swapTargets a b).topologicalSort = .ok m') :
    m'.Connected ∧ m'.size = m.size ∧ Within m'.argsOf m'.size ∧ m'.pinsInRange = true := by
  have hp := pinsInRange_of_topologicalSort hsort
  obtain ⟨order, rfl, hlayout, hall⟩ :=
    exists_layout_of_topologicalSort (h.within (argsInRange_iff.mp hargs)) hsort
  refine ⟨?_, ?_, within_relayout hlayout, pinsInRange_relayout hlayout⟩
  · exact (connected_swapTargets hac hm h).relayout hlayout hall
      fun _ ho => lt_of_mem_outputIndices hp ho
  · rw [size_relayout hlayout.lt, (perm_range hlayout.nodup hall).length_eq, List.length_range,
      size_swapTargets]

/-- Shaking leaves a module as it is if the outputs depend on all its nodes. -/
theorem Connected.treeShake_eq (hm : m.Connected) (hn : Within m.argsOf m.size)
    (hp : m.pinsInRange = true) : m.treeShake = .ok m :=
  treeShakeFrom_eq_self hn hp fun i hi => by
    obtain ⟨o, ho, hoi⟩ := hm i hi
    exact ⟨o, ho, lt_of_mem_outputIndices hp ho, hoi⟩

/-- If the outputs depend on every node of a module without a cycle, they depend on every node after
a connection swap, whatever is drawn, and no node is lost. If all arguments and pins name nodes, the
swap succeeds, and shaking after it changes nothing. -/
theorem mutateConnection_connected (hac : Acyclic m.argsOf) (hm : m.Connected) (attempts : Nat)
    (s : σ) :
    ∃ result m', (m.mutateConnection attempts s).1 = (result, m') ∧
      m'.Connected ∧ m'.size = m.size ∧
      (m.argsInRange = true → m.pinsInRange = true →
        (∃ outcome, result = .ok outcome) ∧ m'.treeShake = .ok m') := by
  refine ⟨_, _, rfl, ?_⟩
  have hok : m.argsInRange = true → m.pinsInRange = true →
      ∃ outcome, (m.mutateConnection attempts s).1.1 = .ok outcome := by
    intro hargs hpins
    rcases always_mutateConnection (argsInRange_iff.mp hargs) attempts s with
      ⟨obstacle, hr⟩ | ⟨first, second, hswap, hr⟩
    · exact ⟨_, congrArg Prod.fst hr⟩
    · obtain ⟨m', heq, -⟩ := exchanged_swapSorted (argsInRange_iff.mp hargs) hpins hac hswap
      exact ⟨_, congrArg Prod.fst (hr.trans heq)⟩
  rcases always_mutateConnection_cases m attempts s with
    hsame | ⟨hargs, first, second, hswap, hsort⟩
  · rw [hsame]
    exact ⟨hm, rfl, fun hargs hpins =>
      ⟨hok hargs hpins, hm.treeShake_eq (argsInRange_iff.mp hargs) hpins⟩⟩
  · obtain ⟨hm', hsize, hn, hp⟩ := hswap.connected_of_topologicalSort hargs hac hm hsort
    exact ⟨hm', hsize, fun hargs hpins => ⟨hok hargs hpins, hm'.treeShake_eq hn hp⟩⟩

/-- Two outputs over nodes that they share, one of which is read twice by the same node. -/
def sharing : Module where
  name := ""
  nodes := [.ofOp (.prim .add) [2, 3], .ofOp (.prim .mul) [3, 3], .ofOp (.prim .inv) [4],
    .ofOp (.prim .noise) [4, 5], .ofOp (.input 'x') [], .ofOp (.input 'y') []]
  inputs := [⟨'x', some 4⟩, ⟨'y', some 5⟩]
  outputs := [⟨'r', some 0⟩, ⟨'g', some 1⟩, ⟨'b', some 0⟩]

theorem acyclic_sharing : Acyclic sharing.argsOf :=
  acyclic_of_isSorted (argsInRange_iff.mp rfl) rfl

theorem connected_sharing : sharing.Connected := by
  have hstep : ∀ i < sharing.size, i ∈ sharing.outputIndices ∨
      ∃ o ∈ sharing.outputIndices, ∃ j, j ∈ sharing.argsOf o ∧ (i = j ∨ i ∈ sharing.argsOf j) := by
    decide
  intro i hi
  rcases hstep i hi with ho | ⟨o, ho, j, hj, rfl | hij⟩
  · exact ⟨i, ho, .refl⟩
  · exact ⟨o, ho, .single hj⟩
  · exact ⟨o, ho, .head hj (.single hij)⟩

theorem mutateConnection_connected_sharing :
    Acyclic sharing.argsOf ∧ sharing.Connected ∧
      ∃ result m', (sharing.mutateConnection 3 (ChaCha.ofSeed 0)).1 = (result, m') ∧
        m'.Connected ∧ m'.size = sharing.size ∧
        (sharing.argsInRange = true → sharing.pinsInRange = true →
          (∃ outcome, result = .ok outcome) ∧ m'.treeShake = .ok m') :=
  ⟨acyclic_sharing, connected_sharing,
    mutateConnection_connected acyclic_sharing connected_sharing 3 (ChaCha.ofSeed 0)⟩

end ImageCircuit.Module
