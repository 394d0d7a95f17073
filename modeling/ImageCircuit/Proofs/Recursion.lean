import ImageCircuit.Proofs.Calls

/-!
# Recursive calls

The modules on the stack of a search call each other from the bottom to the top. So a call of one of
them from the top closes a cycle, and the search refuses nothing else.

* `Stacked`: what the frames on the stack have to do with each other
* `namesCycle_of_checkCallGraph`: a refused call graph has a cycle through the module that is named
* `checkCallGraph_eq_ok_iff`: a call graph is accepted exactly if it has no cycle
-/

namespace ImageCircuit

open Relation

/-- The callees of each frame are those of its module, and lower modules reach higher ones. -/
structure Stacked (modules : List Module) (stack : List Frame) : Prop where
  callees : ∀ frame ∈ stack, ∀ k ∈ frame.2, k ∈ callGraph modules frame.1
  upward : stack.Pairwise fun upper lower => Precedes (callGraph modules) lower.1 upper.1

/-- An error that names a module on a cycle of calls. -/
def NamesCycle (modules : List Module) (e : Error) : Prop :=
  ∃ k m, modules[k]? = some m ∧ e = .recursiveCall m.name ∧ Precedes (callGraph modules) k k

variable {modules : List Module} {visits : List Visit} {stack : List Frame} {e : Error}

namespace Stacked

theorem pop {frame : Frame} (h : Stacked modules (frame :: stack)) : Stacked modules stack :=
  ⟨fun f hf => h.callees f (List.mem_cons_of_mem _ hf), h.upward.of_cons⟩

/-- A callee of the top is taken from its frame. -/
theorem next {m callee : Nat} {rest : List Nat}
    (h : Stacked modules ((m, callee :: rest) :: stack)) :
    callee ∈ callGraph modules m ∧ Stacked modules ((m, rest) :: stack) := by
  obtain ⟨htop, hrest⟩ := List.forall_mem_cons.mp h.callees
  obtain ⟨habove, hupward⟩ := List.pairwise_cons.mp h.upward
  refine ⟨htop callee List.mem_cons_self, ⟨?_, List.pairwise_cons.mpr ⟨habove, hupward⟩⟩⟩
  exact List.forall_mem_cons.mpr ⟨fun k hk => htop k (List.mem_cons_of_mem _ hk), hrest⟩

theorem push {m callee : Nat} {rest : List Nat} (h : Stacked modules ((m, rest) :: stack))
    (hcallee : callee ∈ callGraph modules m) :
    Stacked modules ((callee, callGraph modules callee) :: (m, rest) :: stack) := by
  refine ⟨List.forall_mem_cons.mpr ⟨fun _ hk => hk, h.callees⟩,
    List.pairwise_cons.mpr ⟨fun lower hlower => ?_, h.upward⟩⟩
  rcases List.mem_cons.mp hlower with rfl | hlower
  · exact .single hcallee
  · exact ((List.pairwise_cons.mp h.upward).1 lower hlower).tail hcallee

/-- A call from the top back to the stack closes a cycle. -/
theorem precedes_self {m callee : Nat} {rest : List Nat} (h : Stacked modules ((m, rest) :: stack))
    (hcallee : callee ∈ callGraph modules m)
    (hactive : callee ∈ ((m, rest) :: stack).map (·.1)) :
    Precedes (callGraph modules) callee callee := by
  obtain ⟨lower, hlower, rfl⟩ := List.mem_map.mp hactive
  rcases List.mem_cons.mp hlower with rfl | hlower
  · exact .single hcallee
  · exact ((List.pairwise_cons.mp h.upward).1 lower hlower).tail hcallee

end Stacked

namespace Searching

/-- The search stops only at a call that closes a cycle. -/
theorem namesCycle_of_search (hn : Within (callGraph modules) modules.length)
    (h : Searching modules visits none stack) (hstack : Stacked modules stack)
    (herr : ImageCircuit.search modules visits stack = .error e) : NamesCycle modules e := by
  fun_induction ImageCircuit.search modules visits stack with
  | case1 => cases herr
  | case2 visits m stack ih => exact ih h.pop hstack.pop herr
  | case3 visits m callee rest stack hnone =>
    have hlt := (hn m callee hstack.next.1).2
    rw [← h.length] at hlt
    exact absurd hlt (Nat.not_lt.mpr (List.getElem?_eq_none_iff.mp hnone))
  | case4 visits m callee rest stack hactive =>
    obtain ⟨hcallee, hstack⟩ := hstack.next
    have hlt := (hn m callee hcallee).2
    refine ⟨callee, _, List.getElem?_eq_getElem hlt, ?_,
      hstack.precedes_self hcallee (h.next.active callee hactive)⟩
    rw [List.getElem?_eq_getElem hlt] at herr
    exact (Except.error.inj herr).symm
  | case5 visits m callee rest stack hnew _ ih =>
    obtain ⟨hcallee, hstack⟩ := hstack.next
    exact ih (h.next.push hnew) (hstack.push hcallee) herr
  | case6 visits m callee rest stack hdone ih => exact ih (h.next.skip hdone) hstack.next.2 herr

theorem namesCycle_of_searchFrom (hn : Within (callGraph modules) modules.length)
    (h : Searching modules visits none []) {start : Nat}
    (herr : ImageCircuit.searchFrom modules visits start = .error e) : NamesCycle modules e := by
  unfold ImageCircuit.searchFrom at herr
  split at herr
  · next hnew =>
    have hbegin : Searching modules visits (some start) [] :=
      ⟨h.length, h.done, h.active, h.range, trivial⟩
    refine (hbegin.push hnew).namesCycle_of_search hn ⟨?_, List.pairwise_singleton _ _⟩ herr
    exact List.forall_mem_singleton.mpr fun _ hk => hk
  · cases herr

theorem namesCycle_of_searchAll (hn : Within (callGraph modules) modules.length)
    (h : Searching modules visits none []) {starts : List Nat}
    (hstarts : ∀ k ∈ starts, k < modules.length)
    (herr : starts.foldlM (ImageCircuit.searchFrom modules) visits = .error e) :
    NamesCycle modules e := by
  induction starts generalizing visits with
  | nil => cases herr
  | cons start rest ih =>
    obtain ⟨hstart, hrest⟩ := List.forall_mem_cons.mp hstarts
    rw [List.foldlM_cons] at herr
    cases hfirst : ImageCircuit.searchFrom modules visits start with
    | error e' =>
      rw [hfirst] at herr
      obtain rfl := Except.error.inj herr
      exact h.namesCycle_of_searchFrom hn hfirst
    | ok visits₁ =>
      rw [hfirst] at herr
      exact ih (h.searchFrom hstart hfirst).1 hrest herr

end Searching

/-- A refused call graph has a cycle through the module that is named. -/
theorem namesCycle_of_checkCallGraph (hn : Within (callGraph modules) modules.length)
    (herr : checkCallGraph modules = .error e) : NamesCycle modules e := by
  refine (searching_start modules).namesCycle_of_searchAll hn
    (fun k hk => List.mem_range.mp hk) ?_
  cases hsearch : (List.range modules.length).foldlM (searchFrom modules)
      (List.replicate modules.length .new) with
  | error e' =>
    rw [checkCallGraph, hsearch] at herr
    exact congrArg Except.error (Except.error.inj herr)
  | ok visits =>
    rw [checkCallGraph, hsearch] at herr
    cases herr

/-- A call graph is accepted exactly if no module reaches itself. -/
theorem checkCallGraph_eq_ok_iff (hn : Within (callGraph modules) modules.length) :
    checkCallGraph modules = .ok () ↔ Acyclic (callGraph modules) := by
  refine ⟨acyclic_of_checkCallGraph hn, fun hac => ?_⟩
  cases hcheck : checkCallGraph modules with
  | ok => rfl
  | error e =>
    obtain ⟨k, m, -, -, hcycle⟩ := namesCycle_of_checkCallGraph hn hcheck
    exact absurd hcycle (hac k)

end ImageCircuit
