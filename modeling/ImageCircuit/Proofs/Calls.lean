import ImageCircuit.Circuit.Calls
import ImageCircuit.Proofs.Formed
import ImageCircuit.Proofs.Success

/-!
# Calls

Looking words up changes operations only. The search of the call graph finds every module done
whose callees are done, so if it ends without an error, no module reaches itself through calls.

* `Module.Resolves`: some words of a module have become calls
* `resolves_of_resolveModule`: then none is left, and each call fits its callee
* `Searching`: what the search keeps
* `acyclic_of_checkCallGraph`: what has passed the check has no cycle
-/

namespace ImageCircuit

/-! ## Resolving words -/

/-- The node `node'` is `node`, or its word has become a call. -/
def Node.Resolves (node node' : Node) : Prop :=
  node' = node ∨ ∃ word index, node.op = .symbol word ∧ node' = { node with op := .call word index }

namespace Module

/-- The module `m'` is `m` with some words turned into calls. -/
structure Resolves (m m' : Module) : Prop where
  name : m'.name = m.name
  inputs : m'.inputs = m.inputs
  outputs : m'.outputs = m.outputs
  nodes : List.Forall₂ Node.Resolves m.nodes m'.nodes

namespace Resolves

variable {m m' : Module} {i : Nat}

theorem size (h : m.Resolves m') : m'.size = m.size :=
  h.nodes.length_eq.symm

theorem args (h : m.Resolves m') (i : Nat) : m'.argsOf i = m.argsOf i := by
  cases hi : m'.nodes[i]? with
  | none =>
    rw [List.getElem?_eq_none_iff] at hi
    rw [argsOf_eq_nil hi, argsOf_eq_nil]
    rw [← h.size]
    exact hi
  | some node' =>
    obtain ⟨node, hnode, hres⟩ := exists_getElem?_of_forall₂ h.nodes hi
    rw [argsOf_eq hi, argsOf_eq hnode]
    rcases hres with rfl | ⟨word, index, -, rfl⟩ <;> rfl

theorem argsOf_eq (h : m.Resolves m') : m'.argsOf = m.argsOf :=
  funext h.args

theorem outputIndices (h : m.Resolves m') : m'.outputIndices = m.outputIndices := by
  rw [Module.outputIndices, Module.outputIndices, h.outputs]

/-- Primitives and inputs stay, and nothing else becomes one. -/
theorem opAt_iff (h : m.Resolves m') {op : Op} (hword : ∀ word, op ≠ .symbol word)
    (hcall : ∀ word index, op ≠ .call word index) :
    m'.opAt i = some op ↔ m.opAt i = some op := by
  cases hi : m'.nodes[i]? with
  | none =>
    have : m.nodes[i]? = none := by
      rw [List.getElem?_eq_none_iff] at hi ⊢
      exact h.nodes.length_eq ▸ hi
    rw [opAt, opAt, hi, this]
  | some node' =>
    obtain ⟨node, hnode, hres⟩ := exists_getElem?_of_forall₂ h.nodes hi
    rw [opAt, opAt, hi, hnode]
    rcases hres with rfl | ⟨word, index, hop, rfl⟩
    · rfl
    · simp only [Option.map_some, Option.some.injEq, hop]
      exact ⟨fun e => absurd e.symm (hcall word index), fun e => absurd e.symm (hword word)⟩

theorem formed (h : m.Resolves m') (hm : m.Formed) : m'.Formed where
  within := by
    rw [h.argsOf_eq, h.size]
    exact hm.within
  arity i op hop := by
    rw [h.args]
    exact hm.arity i op ((h.opAt_iff (by simp) (by simp)).mp hop)
  input_args i name hop := by
    rw [h.args]
    exact hm.input_args i name ((h.opAt_iff (by simp) (by simp)).mp hop)
  input_pin := by
    rw [h.inputs]
    intro pin hpin i hi
    exact (h.opAt_iff (by simp) (by simp)).mpr (hm.input_pin pin hpin i hi)
  input_node i name hop := by
    rw [h.inputs]
    exact hm.input_node i name ((h.opAt_iff (by simp) (by simp)).mp hop)
  output := by
    rw [h.outputs, h.size]
    exact hm.output

end Resolves

end Module

/-- A resolved node is no word, and a call that it has become fits its callee. -/
theorem resolveNode_cases {names : List String} {counts : List Nat} {node node' : Node}
    (h : resolveNode names counts node = .ok node') :
    node.Resolves node' ∧ (∀ word, node'.op ≠ .symbol word) ∧
      ∀ word index, node'.op = .call word index → node.op = .call word index ∨
        node.op = .symbol word ∧ names.idxOf? word = some index ∧
          counts.getD index 0 = node'.args.length := by
  unfold resolveNode at h
  split at h
  · next name hop =>
    split at h
    · cases h
    · next index hindex =>
      dsimp only at h
      split at h
      · next hlen =>
        cases h
        refine ⟨.inr ⟨name, index, hop, rfl⟩, fun word e => (by cases e), fun word i e => ?_⟩
        cases e
        exact .inr ⟨hop, hindex, hlen⟩
      · cases h
  · next hnot =>
    cases h
    exact ⟨.inl rfl, hnot, fun word index e => .inl e⟩

/-- With its words looked up, a module that was written as text keeps no word, and its calls name
modules of their names with as many inputs as they have arguments. -/
theorem resolves_of_resolveModule {names : List String} {counts : List Nat} {m m' : Module}
    (h : resolveModule names counts m = .ok m') :
    m.Resolves m' ∧ (∀ i word, m'.opAt i ≠ some (.symbol word)) ∧
      ∀ i word index, m'.opAt i = some (.call word index) →
        m.opAt i = some (.call word index) ∨
        m.opAt i = some (.symbol word) ∧ names.idxOf? word = some index ∧
          counts.getD index 0 = (m'.argsOf i).length := by
  obtain ⟨nodes, hnodes, h⟩ := exists_of_bind_eq_ok h
  obtain rfl := Except.ok.inj h
  have hall := forall₂_of_mapM_eq_ok hnodes
  have hres : m.Resolves { m with nodes } :=
    ⟨rfl, rfl, rfl, hall.imp fun _ _ h => (resolveNode_cases h).1⟩
  refine ⟨hres, fun i word hop => ?_, fun i word index hop => ?_⟩
  · obtain ⟨node', hnode', hop⟩ := Module.opAt_eq_some_iff.mp hop
    obtain ⟨node, -, hok⟩ := exists_getElem?_of_forall₂ hall hnode'
    exact (resolveNode_cases hok).2.1 word hop
  · obtain ⟨node', hnode', hop⟩ := Module.opAt_eq_some_iff.mp hop
    obtain ⟨node, hnode, hok⟩ := exists_getElem?_of_forall₂ hall hnode'
    rw [Module.opAt, hnode, Option.map_some, Option.some.injEq, Option.some.injEq,
      Module.argsOf_eq hnode']
    exact (resolveNode_cases hok).2.2 word index hop

/-! ## The call graph -/

/-- The modules that the module at a place calls. -/
def callGraph (modules : List Module) (k : Nat) : List Nat :=
  (modules[k]?.map Module.callees).getD []

theorem mem_callGraph_iff {modules : List Module} {k j : Nat} :
    j ∈ callGraph modules k ↔ ∃ m, modules[k]? = some m ∧ j ∈ m.callees := by
  unfold callGraph
  cases modules[k]? <;> simp

theorem Module.mem_callees_iff {m : Module} {j : Nat} :
    j ∈ m.callees ↔ ∃ i word, m.opAt i = some (.call word j) := by
  simp only [callees, List.mem_filterMap, opAt_eq_some_iff]
  constructor
  · rintro ⟨node, hnode, hj⟩
    obtain ⟨i, hi⟩ := List.mem_iff_getElem?.mp hnode
    cases hop : node.op with
    | call word k =>
      rw [hop] at hj
      obtain rfl := Option.some.inj hj
      exact ⟨i, word, node, hi, hop⟩
    | _ =>
      rw [hop] at hj
      cases hj
  · rintro ⟨i, word, node, hi, hop⟩
    exact ⟨node, List.mem_of_getElem? hi, by rw [hop]; rfl⟩

/-- On a stack the callees of each module are done, are still to visit, or stand right above it. -/
def Pending (modules : List Module) (visits : List Visit) : Option Nat → List Frame → Prop
  | _, [] => True
  | above, (m, rest) :: stack =>
    (∀ k ∈ callGraph modules m, visits[k]? = some .done ∨ k ∈ rest ∨ above = some k) ∧
      Pending modules visits (some m) stack

/-- What the search keeps, `above` being the callee it is about to visit. Modules that are done
have ranks, so they are on no cycle. -/
structure Searching (modules : List Module) (visits : List Visit) (above : Option Nat)
    (stack : List Frame) : Prop where
  length : visits.length = modules.length
  done : ∀ k : Nat, visits[k]? = some .done → ∃ r, HasRank (callGraph modules) k r
  active : ∀ k : Nat, visits[k]? = some .active → k ∈ stack.map (·.1)
  range : ∀ k ∈ stack.map (·.1), k < visits.length
  pending : Pending modules visits above stack

namespace Searching

variable {modules : List Module} {visits visits' : List Visit} {stack : List Frame}

/-- More modules done, what is pending is pending still. -/
theorem pending_mono {above above' : Option Nat} (h : Pending modules visits above stack)
    (hdone : ∀ k : Nat, visits[k]? = some .done → visits'[k]? = some .done)
    (habove : ∀ k : Nat, above = some k → visits'[k]? = some .done ∨ above' = some k) :
    Pending modules visits' above' stack := by
  induction stack generalizing above above' with
  | nil => trivial
  | cons frame stack ih =>
    obtain ⟨m, rest⟩ := frame
    refine ⟨fun k hk => ?_, ih h.2 fun k hk => .inr hk⟩
    rcases h.1 k hk with hk | hk | hk
    · exact .inl (hdone k hk)
    · exact .inr (.inl hk)
    · rcases habove k hk with hk | hk
      · exact .inl hk
      · exact .inr (.inr hk)

/-- A module is done when all its callees are. -/
theorem pop {m : Nat} (h : Searching modules visits none ((m, []) :: stack)) :
    Searching modules (visits.set m .done) none stack := by
  have hm : m < visits.length := h.range m (List.mem_cons_self ..)
  have hself : (visits.set m .done)[m]? = some .done := List.getElem?_set_self hm
  have hother : ∀ k, m ≠ k → (visits.set m .done)[k]? = visits[k]? :=
    fun k hk => List.getElem?_set_ne hk
  have hmono : ∀ k : Nat, visits[k]? = some .done → (visits.set m .done)[k]? = some .done := by
    intro k hk
    by_cases hmk : m = k
    · exact hmk ▸ hself
    · rw [hother k hmk, hk]
  refine ⟨by rw [List.length_set, h.length], fun k hk => ?_, fun k hk => ?_, fun k hk => ?_, ?_⟩
  · by_cases hmk : m = k
    · subst hmk
      refine HasRank.exists_of_forall fun j hj => h.done j ?_
      rcases h.pending.1 j hj with hj | hj | hj
      · exact hj
      · cases hj
      · cases hj
    · exact h.done k (hother k hmk ▸ hk)
  · by_cases hmk : m = k
    · subst hmk
      rw [hself] at hk
      cases hk
    · rcases List.mem_cons.mp (h.active k (hother k hmk ▸ hk)) with rfl | hk
      · exact absurd rfl hmk
      · exact hk
  · rw [List.length_set]
    exact h.range k (List.mem_cons_of_mem _ hk)
  · refine pending_mono h.pending.2 hmono fun k hk => .inl ?_
    obtain rfl := Option.some.inj hk
    exact hself

/-- The next callee is taken from the top of the stack. -/
theorem next {m callee : Nat} {rest : List Nat}
    (h : Searching modules visits none ((m, callee :: rest) :: stack)) :
    Searching modules visits (some callee) ((m, rest) :: stack) := by
  refine ⟨h.length, h.done, h.active, h.range, fun k hk => ?_, h.pending.2⟩
  rcases h.pending.1 k hk with hk | hk | hk
  · exact .inl hk
  · rcases List.mem_cons.mp hk with rfl | hk
    · exact .inr (.inr rfl)
    · exact .inr (.inl hk)
  · cases hk

/-- A new callee is put on the stack. -/
theorem push {callee : Nat} (h : Searching modules visits (some callee) stack)
    (hnew : visits[callee]? = some .new) :
    Searching modules (visits.set callee .active) none
      ((callee, callGraph modules callee) :: stack) := by
  have hlt : callee < visits.length := (List.getElem?_eq_some_iff.mp hnew).1
  have hself : (visits.set callee .active)[callee]? = some .active := List.getElem?_set_self hlt
  have hother : ∀ k, callee ≠ k → (visits.set callee .active)[k]? = visits[k]? :=
    fun k hk => List.getElem?_set_ne hk
  have hmono : ∀ k : Nat, visits[k]? = some .done →
      (visits.set callee .active)[k]? = some .done := by
    intro k hk
    have hne : callee ≠ k := by
      rintro rfl
      rw [hnew] at hk
      cases hk
    rw [hother k hne, hk]
  refine ⟨by rw [List.length_set, h.length], fun k hk => ?_, fun k hk => ?_, fun k hk => ?_,
    fun k hk => .inr (.inl hk), ?_⟩
  · by_cases hck : callee = k
    · subst hck
      rw [hself] at hk
      cases hk
    · exact h.done k (hother k hck ▸ hk)
  · by_cases hck : callee = k
    · exact hck ▸ List.mem_cons_self
    · exact List.mem_cons_of_mem _ (h.active k (hother k hck ▸ hk))
  · rw [List.length_set]
    rcases List.mem_cons.mp hk with rfl | hk
    · exact hlt
    · exact h.range k hk
  · exact pending_mono h.pending hmono fun k hk => .inr hk

/-- A callee that is done need not be visited. -/
theorem skip {callee : Nat} (h : Searching modules visits (some callee) stack)
    (hdone : visits[callee]? = some .done) : Searching modules visits none stack := by
  refine ⟨h.length, h.done, h.active, h.range,
    pending_mono h.pending (fun _ hk => hk) fun k hk => .inl ?_⟩
  exact Option.some.inj hk ▸ hdone

end Searching

/-- Whether the search has come to the module at a place. -/
def Visited (visits : List Visit) (k : Nat) : Prop :=
  visits[k]? = some .active ∨ visits[k]? = some .done

theorem Visited.set {visits : List Visit} {i k : Nat} {v : Visit} (hv : v ≠ .new)
    (h : Visited visits k) : Visited (visits.set i v) k := by
  by_cases hik : i = k
  · subst hik
    have hlt : i < visits.length := by
      rcases h with h | h <;> exact (List.getElem?_eq_some_iff.mp h).1
    rw [Visited, List.getElem?_set_self hlt]
    cases v
    · exact absurd rfl hv
    · exact .inl rfl
    · exact .inr rfl
  · rwa [Visited, List.getElem?_set_ne hik]

/-- The search ends with an empty stack, having visited all that it had before. -/
theorem Searching.search {modules : List Module} {visits visits' : List Visit}
    {stack : List Frame} (h : Searching modules visits none stack)
    (hok : ImageCircuit.search modules visits stack = .ok visits') :
    Searching modules visits' none [] ∧ ∀ k, Visited visits k → Visited visits' k := by
  fun_induction ImageCircuit.search modules visits stack with
  | case1 visits => exact Except.ok.inj hok ▸ ⟨h, fun _ hk => hk⟩
  | case2 visits m stack ih =>
    obtain ⟨h', hvisited⟩ := ih h.pop hok
    exact ⟨h', fun k hk => hvisited k (hk.set (by decide))⟩
  | case3 => cases hok
  | case4 => cases hok
  | case5 visits m callee rest stack hnew _ ih =>
    obtain ⟨h', hvisited⟩ := ih (h.next.push hnew) hok
    exact ⟨h', fun k hk => hvisited k (hk.set (by decide))⟩
  | case6 visits m callee rest stack hdone ih => exact ih (h.next.skip hdone) hok

/-- A search from a module visits it. -/
theorem Searching.searchFrom {modules : List Module} {visits visits' : List Visit} {start : Nat}
    (h : Searching modules visits none []) (hstart : start < modules.length)
    (hok : ImageCircuit.searchFrom modules visits start = .ok visits') :
    Searching modules visits' none [] ∧ Visited visits' start ∧
      ∀ k, Visited visits k → Visited visits' k := by
  rw [← h.length] at hstart
  unfold ImageCircuit.searchFrom at hok
  split at hok
  · next hnew =>
    have hbegin : Searching modules visits (some start) [] :=
      ⟨h.length, h.done, h.active, h.range, trivial⟩
    obtain ⟨h', hvisited⟩ := (hbegin.push hnew).search hok
    refine ⟨h', hvisited start (.inl (List.getElem?_set_self hstart)), fun k hk => ?_⟩
    exact hvisited k (hk.set (by decide))
  · next hold =>
    obtain rfl := Except.ok.inj hok
    refine ⟨h, ?_, fun _ hk => hk⟩
    rw [List.getElem?_eq_getElem hstart, Option.some.injEq] at hold
    rw [Visited, List.getElem?_eq_getElem hstart, Option.some.injEq, Option.some.injEq]
    cases hv : visits[start] with
    | new => exact absurd hv hold
    | active => exact .inl rfl
    | done => exact .inr rfl

/-- Searches from one module after another visit them all. -/
theorem Searching.searchAll {modules : List Module} {visits visits' : List Visit}
    {starts : List Nat} (h : Searching modules visits none [])
    (hstarts : ∀ k ∈ starts, k < modules.length)
    (hok : starts.foldlM (ImageCircuit.searchFrom modules) visits = .ok visits') :
    Searching modules visits' none [] ∧ (∀ k ∈ starts, Visited visits' k) ∧
      ∀ k, Visited visits k → Visited visits' k := by
  induction starts generalizing visits with
  | nil =>
    obtain rfl := Except.ok.inj hok
    exact ⟨h, by simp, fun _ hk => hk⟩
  | cons start rest ih =>
    rw [List.foldlM_cons] at hok
    obtain ⟨visits₁, hfirst, hok⟩ := exists_of_bind_eq_ok hok
    obtain ⟨h₁, hstart, hkept⟩ := h.searchFrom (hstarts start List.mem_cons_self) hfirst
    obtain ⟨h₂, hrest, hkept'⟩ := ih h₁ (fun k hk => hstarts k (List.mem_cons_of_mem _ hk)) hok
    refine ⟨h₂, fun k hk => ?_, fun k hk => hkept' k (hkept k hk)⟩
    rcases List.mem_cons.mp hk with rfl | hk
    · exact hkept' k hstart
    · exact hrest k hk

/-- The search starts with all modules new. -/
theorem searching_start (modules : List Module) :
    Searching modules (List.replicate modules.length .new) none [] := by
  have hnew : ∀ k : Nat, ∀ v, (List.replicate modules.length Visit.new)[k]? = some v →
      v = .new := fun k v hv => List.eq_of_mem_replicate (List.mem_of_getElem? hv)
  exact ⟨List.length_replicate, fun k hk => absurd (hnew k _ hk) (by decide),
    fun k hk => absurd (hnew k _ hk) (by decide), by simp, trivial⟩

/-- In modules that have passed the check none reaches itself through calls. -/
theorem acyclic_of_checkCallGraph {modules : List Module}
    (hn : Within (callGraph modules) modules.length) (hok : checkCallGraph modules = .ok ()) :
    Acyclic (callGraph modules) := by
  obtain ⟨visits, hsearch, -⟩ := exists_of_bind_eq_ok hok
  obtain ⟨h, hall, -⟩ :=
    (searching_start modules).searchAll (fun k hk => List.mem_range.mp hk) hsearch
  refine acyclic_of_hasRank hn fun k hk => ?_
  rcases hall k (List.mem_range.mpr hk) with hactive | hdone
  · exact absurd (h.active k hactive) (by simp)
  · exact h.done k hdone

end ImageCircuit
