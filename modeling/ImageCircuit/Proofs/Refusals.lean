import ImageCircuit.Circuit.Read
import ImageCircuit.Proofs.Recursion
import ImageCircuit.Proofs.WellFormed

/-!
# Refusals

Reading a program fails only with errors that its text is to blame for. In particular no position
past an end is followed: the reader checks all arguments, and pins and calls lead to what is there.

* `UserErrors`: a computation that fails only so, with a rule for each way to compose them
* `Module.Formed.normalize_error`: a module that has been read is refused for its cycles only
* `Circuit.userErrors_readPart`, `Circuit.userErrors_compose`: the two steps of reading a program
-/

namespace ImageCircuit

/-- All errors of a computation are errors of the user. -/
def UserErrors {α : Type} (x : Except Error α) : Prop :=
  ∀ e, x = .error e → e.isUserError = true

namespace UserErrors

variable {α β : Type}

theorem ok (a : α) : UserErrors (.ok a) := nofun

theorem error {e : Error} (h : e.isUserError = true) : UserErrors (.error e : Except Error α) :=
  fun _ he => Except.error.inj he ▸ h

theorem bind {x : Except Error α} {f : α → Except Error β} (hx : UserErrors x)
    (hf : ∀ a, x = .ok a → UserErrors (f a)) : UserErrors (x >>= f) := by
  cases x with
  | error e => exact error (hx e rfl)
  | ok a => exact hf a rfl

theorem mapM {f : α → Except Error β} {xs : List α} (h : ∀ x ∈ xs, UserErrors (f x)) :
    UserErrors (xs.mapM f) := by
  induction xs with
  | nil => exact ok []
  | cons x rest ih =>
    obtain ⟨hx, hrest⟩ := List.forall_mem_cons.mp h
    rw [List.mapM_cons]
    exact hx.bind fun _ _ => (ih hrest).bind fun _ _ => ok _

theorem foldlM {f : β → α → Except Error β} {xs : List α} (h : ∀ b a, UserErrors (f b a)) (b : β) :
    UserErrors (xs.foldlM f b) := by
  induction xs generalizing b with
  | nil => exact ok b
  | cons x rest ih =>
    rw [List.foldlM_cons]
    exact (h b x).bind fun b' _ => ih b'

end UserErrors

/-! ## Reading a module -/

theorem userErrors_readArgs (i : Nat) (args : List (List Char)) : UserErrors (readArgs i args) := by
  refine .mapM fun word _ => ?_
  split
  · exact .ok _
  · exact .error rfl

theorem userErrors_splitLabels (i : Nat) (segment : List Char) :
    UserErrors (splitLabels i segment) := by
  unfold splitLabels
  split
  · exact .ok _
  · exact .ok _
  · exact .error rfl

theorem userErrors_expectEnd (i : Nat) (words : List (List Char)) :
    UserErrors (expectEnd i words) := by
  cases words with
  | nil => exact .ok ()
  | cons => exact .error rfl

namespace Module

variable {m : Module}

theorem userErrors_bindOutput (i : Nat) (m : Module) (name : Char) :
    UserErrors (bindOutput i m name) := by
  unfold bindOutput
  split
  · exact .error rfl
  · split
    · exact .error rfl
    · exact .ok _

theorem userErrors_readNode (m : Module) (i : Nat) (words : List (List Char)) :
    UserErrors (m.readNode i words) := by
  unfold readNode
  split
  · exact .error rfl
  next word args =>
  split
  · split
    · exact .error rfl
    · split
      · exact .error rfl
      · exact (userErrors_expectEnd i _).bind fun _ _ => .ok _
  · refine (userErrors_readArgs i args).bind fun ns _ => ?_
    split
    · exact .ok _
    · exact .error rfl
  · split
    · split
      · exact .error rfl
      · exact (userErrors_expectEnd i _).bind fun _ _ => .ok _
    · exact (userErrors_readArgs i args).bind fun _ _ => .ok _

theorem userErrors_addSegment (m : Module) (segment : List Char) :
    UserErrors (m.addSegment segment) := by
  refine (userErrors_splitLabels _ _).bind fun ⟨labels, body⟩ _ => ?_
  refine (UserErrors.foldlM (userErrors_bindOutput _) m).bind fun m' _ => ?_
  exact (userErrors_readNode m' _ _).bind fun _ _ => .ok _

theorem userErrors_checkComplete (m : Module) : UserErrors m.checkComplete := by
  unfold checkComplete
  split
  · exact .error rfl
  split
  · exact .error rfl
  split
  · exact .error rfl
  · exact .ok ()

theorem userErrors_parseChars (text : List Char) : UserErrors (parseChars text) := by
  unfold parseChars
  dsimp only
  split
  · exact .error rfl
  split
  · split
    · exact .error rfl
    split
    · exact .error rfl
    · exact (UserErrors.foldlM userErrors_addSegment _).bind fun m _ =>
        (userErrors_checkComplete m).bind fun _ _ => .ok m
  · exact .error rfl

/-! ## Normal forms -/

/-- A formed module with a cycle is refused for it. -/
theorem Formed.normalize_error (hm : m.Formed) (hcycle : ¬ Acyclic m.argsOf) :
    ∃ n, m.normalize = .error (.cycle m.name n) := by
  have hnone : none ∈ m.finalRanks := by
    by_contra hall
    have hranks : m.ranks = .ok (m.finalRanks.toList.filterMap id) := by
      simp [ranks, meetsBadIndex_eq_false hm.within, hall]
    exact hcycle (acyclic_of_ranks hm.within hranks)
  have hranks : m.ranks = .error (.cycle m.name (m.finalRanks.count none)) := by
    simp [ranks, meetsBadIndex_eq_false hm.within, hnone]
  refine ⟨m.finalRanks.count none, ?_⟩
  rw [Module.normalize, topologicalSort, hranks]
  rfl

theorem Formed.userErrors_normalize (hm : m.Formed) : UserErrors m.normalize := by
  by_cases hac : Acyclic m.argsOf
  · obtain ⟨m', hnorm, -⟩ := hm.normalize hac
    exact hnorm ▸ .ok m'
  · obtain ⟨n, hnorm⟩ := hm.normalize_error hac
    exact hnorm ▸ .error rfl

end Module

/-! ## Composing modules -/

theorem userErrors_resolveCalls (modules : List Module) : UserErrors (resolveCalls modules) := by
  refine .mapM fun m _ => .bind (.mapM fun node _ => ?_) fun _ _ => .ok _
  unfold resolveNode
  split
  · split
    · exact .error rfl
    · dsimp only
      split
      · exact .ok _
      · exact .error rfl
  · exact .ok _

namespace Circuit

variable {modules : List Module}

theorem userErrors_checkEntry (modules : List Module) : UserErrors (checkEntry modules) := by
  unfold checkEntry
  split
  · exact .error rfl
  · split
    · exact .ok ()
    · exact .error rfl

theorem userErrors_checkOutputs (modules : List Module) : UserErrors (checkOutputs modules) := by
  unfold checkOutputs
  split
  · exact .error rfl
  · exact .ok ()

theorem userErrors_compose (hwritten : ∀ m ∈ modules, m.Written) :
    UserErrors (compose modules) := by
  unfold compose
  dsimp only
  split
  · exact .error rfl
  refine (userErrors_checkEntry modules).bind fun _ _ => ?_
  refine (userErrors_checkOutputs modules).bind fun _ _ => ?_
  refine (userErrors_resolveCalls modules).bind fun modules' hresolve => ?_
  refine UserErrors.bind (fun e he => ?_) fun _ _ => .ok _
  obtain ⟨k, m, -, rfl, -⟩ :=
    namesCycle_of_checkCallGraph (within_callGraph_of_resolveCalls hwritten hresolve) he
  rfl

theorem userErrors_readPart (part : List Char) : UserErrors (readPart part) :=
  (Module.userErrors_parseChars part).bind fun _ hparse =>
    (Module.formed_of_parseChars hparse).1.userErrors_normalize

end Circuit

end ImageCircuit
