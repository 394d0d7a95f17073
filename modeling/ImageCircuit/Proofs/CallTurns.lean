import ImageCircuit.Proofs.Recursion
import Mathlib.Algebra.BigOperators.Group.Finset.Basic
import Mathlib.Algebra.GroupWithZero.Nat
import Mathlib.Algebra.Order.BigOperators.Group.Finset

/-!
# The search of the call graph takes linear time

The search is a loop. A turn of it starts from a module, leaves one, or follows a call, and none of
this happens twice: a module that has been visited is not entered again, and its calls are followed
one after the other. So the loop ends, whatever calls there are, after at most two turns for each
module and one for each call.

* `CallSearch.turn`: one turn of the loop
* `CallSearch.turn_cases`: a turn keeps what the search answers, and lowers the turns left
* `checkCallGraph_decides`: the search ends, and tells exactly whether a module reaches itself
-/

namespace ImageCircuit

variable {modules : List Module} {visits : List Visit} {k n : Nat} {v : Visit}

/-- The search of a call graph between two turns. -/
structure CallSearch where
  visits : List Visit
  stack : List Frame
  /-- The modules that the search has still to start from. -/
  starts : List Nat

namespace CallSearch

/-- One turn: the end of the search with its answer, or its next state. -/
def turn (modules : List Module) : CallSearch → Except Error Unit ⊕ CallSearch
  | ⟨_, [], []⟩ => .inl (.ok ())
  | ⟨visits, [], start :: starts⟩ =>
    if visits[start]? = some .new then
      .inr ⟨visits.set start .active, [(start, callGraph modules start)], starts⟩
    else .inr ⟨visits, [], starts⟩
  | ⟨visits, (m, []) :: stack, starts⟩ => .inr ⟨visits.set m .done, stack, starts⟩
  | ⟨visits, (m, callee :: rest) :: stack, starts⟩ =>
    match visits[callee]? with
    | none => .inl (.error .badIndex)
    | some .active => .inl (.error (.recursiveCall ((modules[callee]?.map (·.name)).getD "")))
    | some .new =>
      .inr ⟨visits.set callee .active, (callee, callGraph modules callee) :: (m, rest) :: stack,
        starts⟩
    | some .done => .inr ⟨visits, (m, rest) :: stack, starts⟩

/-- The search after some turns, or its answer if it has ended. -/
def after (modules : List Module) : (turns : Nat) → CallSearch → Except Error Unit ⊕ CallSearch
  | 0, s => .inr s
  | turns + 1, s =>
    match s.turn modules with
    | .inl answer => .inl answer
    | .inr s => after modules turns s

/-- The search before its first turn: all modules are new, and each is to be started from. -/
def first (modules : List Module) : CallSearch where
  visits := .replicate modules.length .new
  stack := []
  starts := .range modules.length

/-- What the search has still to answer. -/
def answer (modules : List Module) : CallSearch → Except Error Unit
  | ⟨visits, stack, starts⟩ => do
    let visits ← search modules visits stack
    let _ ← starts.foldlM (searchFrom modules) visits
    return ()

theorem answer_nil (modules : List Module) (visits : List Visit) (starts : List Nat) :
    answer modules ⟨visits, [], starts⟩ =
      (do let _ ← starts.foldlM (searchFrom modules) visits
          return ()) := by
  rw [answer, search]
  rfl

theorem answer_start (modules : List Module) (visits : List Visit) (start : Nat)
    (starts : List Nat) :
    answer modules ⟨visits, [], start :: starts⟩ =
      (do let visits ← searchFrom modules visits start
          let _ ← starts.foldlM (searchFrom modules) visits
          return ()) := by
  rw [answer_nil, List.foldlM_cons]
  cases searchFrom modules visits start <;> rfl

theorem answer_first (modules : List Module) :
    (first modules).answer modules = checkCallGraph modules :=
  answer_nil modules _ _

end CallSearch

/-! ## Turns left -/

/-- The turns that the modules not visited yet take: one to leave each of them, and one for each of
its calls. -/
def newTurns (modules : List Module) (visits : List Visit) : Nat :=
  ∑ k ∈ Finset.range visits.length,
    if visits[k]? = some .new then (callGraph modules k).length + 1 else 0

theorem newTurns_set_le (modules : List Module) (visits : List Visit) (k : Nat) (hv : v ≠ .new) :
    newTurns modules (visits.set k v) ≤ newTurns modules visits := by
  rw [newTurns, newTurns, List.length_set]
  refine Finset.sum_le_sum fun j hj => ?_
  by_cases hkj : k = j
  · subst hkj
    rw [List.getElem?_set_self (Finset.mem_range.mp hj), if_neg fun h => hv (Option.some.inj h)]
    exact Nat.zero_le _
  · rw [List.getElem?_set_ne hkj]

/-- Visiting a new module moves its turns to the stack. -/
theorem newTurns_set (modules : List Module) (hnew : visits[k]? = some .new) (hv : v ≠ .new) :
    newTurns modules (visits.set k v) + ((callGraph modules k).length + 1) =
      newTurns modules visits := by
  have hlt : k < visits.length := (List.getElem?_eq_some_iff.mp hnew).1
  have hk : k ∈ Finset.range visits.length := Finset.mem_range.mpr hlt
  have hother : ∀ j ∈ (Finset.range visits.length).erase k,
      (if (visits.set k v)[j]? = some .new then (callGraph modules j).length + 1 else 0) =
        if visits[j]? = some .new then (callGraph modules j).length + 1 else 0 := by
    intro j hj
    rw [List.getElem?_set_ne (Finset.ne_of_mem_erase hj).symm]
  rw [newTurns, newTurns, List.length_set, ← Finset.add_sum_erase _ _ hk,
    ← Finset.add_sum_erase _ _ hk, Finset.sum_congr rfl hother, if_pos hnew,
    List.getElem?_set_self hlt, if_neg fun h => hv (Option.some.inj h)]
  omega

/-- How many calls the modules make. -/
def callCount (modules : List Module) : Nat :=
  (modules.map (·.callees.length)).sum

theorem sum_length_callGraph (modules : List Module) :
    ∑ k ∈ Finset.range modules.length, (callGraph modules k).length = callCount modules := by
  induction modules with
  | nil => rfl
  | cons m rest ih =>
    have hrest : ∑ k ∈ Finset.range rest.length, (callGraph (m :: rest) (k + 1)).length =
        callCount rest := ih
    rw [List.length_cons, Finset.sum_range_succ', hrest, Nat.add_comm]
    rfl

theorem newTurns_replicate (modules : List Module) :
    newTurns modules (.replicate modules.length .new) = callCount modules + modules.length := by
  have hall : ∀ k ∈ Finset.range modules.length,
      (if (List.replicate modules.length Visit.new)[k]? = some .new then
        (callGraph modules k).length + 1 else 0) = (callGraph modules k).length + 1 := by
    intro k hk
    rw [if_pos (List.getElem?_replicate_of_lt (Finset.mem_range.mp hk))]
  rw [newTurns, List.length_replicate, Finset.sum_congr rfl hall, Finset.sum_add_distrib,
    sum_length_callGraph, ← Finset.card_eq_sum_ones, Finset.card_range]

namespace CallSearch

/-- A bound on the turns that the search still takes. -/
def turnsLeft (modules : List Module) (s : CallSearch) : Nat :=
  s.starts.length + stackSize s.stack + newTurns modules s.visits

/-- A turn ends the search with its answer, or it keeps the answer and uses up one of the turns that
are left. -/
theorem turn_cases (modules : List Module) (s : CallSearch) :
    s.turn modules = .inl (s.answer modules) ∨
      ∃ s', s.turn modules = .inr s' ∧ s'.answer modules = s.answer modules ∧
        s'.turnsLeft modules < s.turnsLeft modules := by
  obtain ⟨visits, stack, starts⟩ := s
  rcases stack with _ | ⟨⟨m, _ | ⟨callee, rest⟩⟩, stack⟩
  · rcases starts with _ | ⟨start, starts⟩
    · left
      rw [answer_nil]
      rfl
    · right
      by_cases hnew : visits[start]? = some .new
      · refine ⟨⟨visits.set start .active, [(start, callGraph modules start)], starts⟩,
          by rw [turn, if_pos hnew], ?_, ?_⟩
        · rw [answer_start, searchFrom, if_pos hnew]
          rfl
        · have := newTurns_set modules hnew (show Visit.active ≠ .new by decide)
          simp only [turnsLeft, stackSize, List.length_cons]
          omega
      · refine ⟨⟨visits, [], starts⟩, by rw [turn, if_neg hnew], ?_, ?_⟩
        · rw [answer_start, searchFrom, if_neg hnew, answer_nil]
          rfl
        · simp [turnsLeft]
  · right
    refine ⟨⟨visits.set m .done, stack, starts⟩, rfl, by rw [answer, answer, search.eq_2], ?_⟩
    have := newTurns_set_le modules visits m (show Visit.done ≠ .new by decide)
    simp only [turnsLeft, stackSize, List.length_nil]
    omega
  · rcases hvisit : visits[callee]? with _ | visit
    · left
      rw [turn, hvisit, answer, search, hvisit]
      rfl
    · cases visit with
      | active =>
        left
        rw [turn, hvisit, answer, search, hvisit]
        rfl
      | new =>
        right
        refine ⟨⟨visits.set callee .active,
          (callee, callGraph modules callee) :: (m, rest) :: stack, starts⟩,
          by rw [turn, hvisit], ?_, ?_⟩
        · rw [answer, answer, search.eq_3, hvisit]
          rfl
        · have := newTurns_set modules hvisit (show Visit.active ≠ .new by decide)
          simp only [turnsLeft, stackSize, List.length_cons]
          omega
      | done =>
        right
        refine ⟨⟨visits, (m, rest) :: stack, starts⟩, by rw [turn, hvisit], ?_, ?_⟩
        · rw [answer, answer, search.eq_3, hvisit]
        · simp only [turnsLeft, stackSize, List.length_cons]
          omega

theorem after_eq {s : CallSearch} (h : s.turnsLeft modules < n) :
    s.after modules n = .inl (s.answer modules) := by
  induction n generalizing s with
  | zero => exact absurd h (Nat.not_lt_zero _)
  | succ n ih =>
    rw [after]
    rcases turn_cases modules s with hend | ⟨s', hnext, hanswer, hlt⟩
    · rw [hend]
    · rw [hnext, ← hanswer]
      exact ih (by omega)

theorem turnsLeft_first (modules : List Module) :
    (first modules).turnsLeft modules = 2 * modules.length + callCount modules := by
  simp only [turnsLeft, first, stackSize, newTurns_replicate, List.length_range]
  omega

end CallSearch

/-! ## The check -/

/-- Where all calls are of modules that there are, the search ends within two turns for each module
and one for each call. It accepts the modules exactly if none of them reaches itself through calls,
and otherwise the error names a module that does. -/
theorem checkCallGraph_decides (hcalls : ∀ m ∈ modules, ∀ k ∈ m.callees, k < modules.length) :
    (CallSearch.first modules).after modules (2 * modules.length + callCount modules + 1) =
        .inl (checkCallGraph modules) ∧
      (checkCallGraph modules = .ok () ↔ Acyclic (callGraph modules)) ∧
      ∀ e, checkCallGraph modules = .error e → NamesCycle modules e := by
  have hwithin : Within (callGraph modules) modules.length := by
    intro k j hj
    obtain ⟨m, hm, hj⟩ := mem_callGraph_iff.mp hj
    exact ⟨(List.getElem?_eq_some_iff.mp hm).1, hcalls m (List.mem_of_getElem? hm) j hj⟩
  refine ⟨?_, checkCallGraph_eq_ok_iff hwithin, fun e => namesCycle_of_checkCallGraph hwithin⟩
  rw [← CallSearch.answer_first]
  exact CallSearch.after_eq (by rw [CallSearch.turnsLeft_first]; omega)

/-- A module that makes some calls. -/
def Module.making (name : String) (calls : List (String × Nat)) : Module where
  name
  nodes := calls.map fun (word, index) => .ofOp (.call word index) []
  inputs := []
  outputs := []

/-- An entry that calls `a` twice, and `b`, which `a` calls, too; and `c` and `d`, which call each
other. -/
def sharedAndMutual : List Module :=
  [.making "" [("a", 1), ("b", 2), ("a", 1)], .making "a" [("b", 2)], .making "b" [],
    .making "c" [("b", 2), ("d", 4)], .making "d" [("c", 3)]]

/-- What is shared is no recursion; the calls between `c` and `d` are. -/
theorem checkCallGraph_decides_sharedAndMutual :
    (∀ m ∈ sharedAndMutual, ∀ k ∈ m.callees, k < sharedAndMutual.length) ∧
      ∃ e, (CallSearch.first sharedAndMutual).after sharedAndMutual 18 = .inl (.error e) ∧
        NamesCycle sharedAndMutual e := by
  have hcalls : ∀ m ∈ sharedAndMutual, ∀ k ∈ m.callees, k < sharedAndMutual.length := by decide
  obtain ⟨hends, haccepted, hnamed⟩ := checkCallGraph_decides hcalls
  have hcycle : Precedes (callGraph sharedAndMutual) 3 3 :=
    .tail (.single (by decide : 4 ∈ callGraph sharedAndMutual 3)) (by decide)
  cases hcheck : checkCallGraph sharedAndMutual with
  | ok => exact absurd hcycle (haccepted.mp hcheck 3)
  | error e =>
    rw [hcheck] at hends
    exact ⟨hcalls, e, hends, hnamed e hcheck⟩

end ImageCircuit
