import ImageCircuit.Proofs.Frame

/-!
# The calls that evaluation makes

Surroundings can keep a record of what they are asked. This changes nothing else, and the record
settles how calls are answered: surroundings that answer the recorded calls alike evaluate alike.

* `Context.logged`: surroundings with a record
* `Module.scan_logged`: the record does not disturb evaluation
* `Module.eval_congr`: only the calls that are made matter
* `Module.forall_asked`: what all calls keep holds at each of them
-/

namespace ImageCircuit

/-- A call that has been made: of which module, with which arguments, in which surroundings. -/
structure Ask (σ : Type) where
  index : Nat
  args : List Float
  before : σ

section

variable {σ : Type}

/-- What surroundings do with a call. -/
def Context.reply (ctx : Context σ) (ask : Ask σ) : Except Error Float × σ :=
  ctx.call ask.index ask.args ask.before

/-- Surroundings with a record of the calls made in them, in order. -/
def Context.logged (ctx : Context σ) : Context (σ × List (Ask σ)) where
  noise := ctx.noise
  call index args s :=
    let (result, after) := ctx.call index args s.1
    (result, after, s.2 ++ [⟨index, args, s.1⟩])

namespace Module

variable {ctx ctx' : Context σ} {live : List Bool} {m : Module}

/-- The call that finding the value of a node takes, if it is a call. -/
def askOf (nodes : List Node) (node : Node) (s : σ) : List (Ask σ) :=
  match node.op with
  | .call _ index => [⟨index, node.args.map (valueAt nodes), s⟩]
  | _ => []

theorem nodeValue_logged (nodes : List Node) (node : Node) (s : σ) (log : List (Ask σ)) :
    nodeValue ctx.logged nodes node (s, log) =
      ((nodeValue ctx nodes node s).1, (nodeValue ctx nodes node s).2,
        log ++ askOf nodes node s) := by
  unfold nodeValue askOf
  cases node.op with
  | prim op =>
    by_cases hlen : node.args.length ≤ Operator.maxArity
    · cases op <;> simp [hlen, Context.logged]
    · cases op <;> simp [hlen]
  | input name => simp
  | symbol name => simp
  | call name index => rfl

/-- The value of a node is not found if the node is a word, or a call that is refused. -/
theorem nodeValue_error_cases {nodes : List Node} {node : Node} {s : σ} {e : Error}
    (harity : ∀ op, node.op = .prim op → node.args.length ≤ Operator.maxArity)
    (h : (nodeValue ctx nodes node s).1 = .error e) :
    (∃ word, node.op = .symbol word ∧ e = .unresolved word) ∨
      ∃ word index, node.op = .call word index ∧
        (ctx.reply ⟨index, node.args.map (valueAt nodes), s⟩).1 = .error e := by
  unfold nodeValue at h
  split at h
  · cases h
  · cases h
  · next op _ hop =>
    rw [if_pos (harity op hop)] at h
    cases h
  · next word hop => exact .inl ⟨word, hop, (Except.error.inj h).symm⟩
  · next word index hop => exact .inr ⟨word, index, hop, h⟩

/-! ## The scan -/

section

variable {i : Nat} {nodes : List Node} {node : Node} {s : σ}

theorem scan_of_none (h : nodes[i]? = none) :
    scan ctx live (i + 1) nodes s = scan ctx live i nodes s := by
  simp only [scan, h]

theorem scan_of_skip (h : nodes[i]? = some node)
    (hskip : (!live.getD i false || node.computed) = true) :
    scan ctx live (i + 1) nodes s = scan ctx live i nodes s := by
  simp only [scan, h, hskip, if_true]

theorem scan_of_due (h : nodes[i]? = some node)
    (hdue : ¬ (!live.getD i false || node.computed) = true) :
    scan ctx live (i + 1) nodes s =
      match nodeValue ctx nodes node s with
      | (.error e, s) => (.error e, nodes, s)
      | (.ok value, s) => scan ctx live i (store nodes i value) s := by
  rw [scan, h]
  exact if_neg hdue

end

/-- The calls that a scan makes. -/
def scanAsked (ctx : Context σ) (live : List Bool) (i : Nat) (nodes : List Node) (s : σ) :
    List (Ask σ) :=
  (scan ctx.logged live i nodes (s, [])).2.2.2

/-- The record grows by the calls of the scan, and the scan is the same. -/
theorem scan_logged (live : List Bool) (i : Nat) (nodes : List Node) (s : σ) (log : List (Ask σ)) :
    scan ctx.logged live i nodes (s, log) =
      ((scan ctx live i nodes s).1, (scan ctx live i nodes s).2.1, (scan ctx live i nodes s).2.2,
        log ++ scanAsked ctx live i nodes s) := by
  unfold scanAsked
  fun_induction scan ctx live i nodes s generalizing log with
  | case1 nodes s => simp [scan]
  | case2 i nodes s hnone ih => simpa only [scan_of_none hnone] using ih log
  | case3 i nodes s node hnode hskip ih => simpa only [scan_of_skip hnode hskip] using ih log
  | case4 i nodes s node hnode hdue e s' heq =>
    simp [scan_of_due hnode hdue, nodeValue_logged, heq]
  | case5 i nodes s node hnode hdue value s' heq ih =>
    simp only [scan_of_due hnode hdue, nodeValue_logged, heq, List.nil_append]
    rw [ih, ih (askOf nodes node s), List.append_assoc]

/-- A scan asks for the node it comes to first, and then for those below. -/
theorem scanAsked_of_due {i : Nat} {nodes : List Node} {node : Node} {s : σ}
    (h : nodes[i]? = some node) (hdue : ¬ (!live.getD i false || node.computed) = true) :
    scanAsked ctx live (i + 1) nodes s = askOf nodes node s ++
      match nodeValue ctx nodes node s with
      | (.error _, _) => []
      | (.ok value, s) => scanAsked ctx live i (store nodes i value) s := by
  rw [scanAsked, scan_of_due h hdue, nodeValue_logged]
  cases nodeValue ctx nodes node s with
  | mk result s' =>
    cases result with
    | error e => simp
    | ok value => simp only [scan_logged, List.nil_append]

theorem nodeValue_congr (hnoise : ctx'.noise = ctx.noise) {nodes : List Node} {node : Node} {s : σ}
    (h : ∀ ask ∈ askOf nodes node s, ctx'.reply ask = ctx.reply ask) :
    nodeValue ctx' nodes node s = nodeValue ctx nodes node s := by
  unfold askOf at h
  unfold nodeValue
  rw [hnoise]
  cases hop : node.op with
  | call name index =>
    rw [hop] at h
    exact h _ List.mem_cons_self
  | prim op => cases op <;> rfl
  | input name => rfl
  | symbol name => rfl

/-- Surroundings that answer alike what both of them are asked evaluate alike. -/
theorem scan_congr (hnoise : ctx'.noise = ctx.noise) {i : Nat} {nodes : List Node} {s : σ}
    (h : ∀ ask ∈ scanAsked ctx live i nodes s, ask ∈ scanAsked ctx' live i nodes s →
      ctx'.reply ask = ctx.reply ask) :
    scan ctx' live i nodes s = scan ctx live i nodes s := by
  have hfirst : ∀ {i nodes node s}, nodes[i]? = some node →
      ¬ (!live.getD i false || node.computed) = true →
      (∀ ask ∈ scanAsked ctx live (i + 1) nodes s, ask ∈ scanAsked ctx' live (i + 1) nodes s →
        ctx'.reply ask = ctx.reply ask) →
      nodeValue ctx' nodes node s = nodeValue ctx nodes node s := by
    intro i nodes node s hnode hdue h
    refine nodeValue_congr hnoise fun ask hask => h ask ?_ ?_
    · exact scanAsked_of_due hnode hdue ▸ List.mem_append_left _ hask
    · exact scanAsked_of_due hnode hdue ▸ List.mem_append_left _ hask
  fun_induction scan ctx live i nodes s with
  | case1 nodes s => rfl
  | case2 i nodes s hnone ih =>
    rw [scan_of_none hnone]
    exact ih (by simpa only [scanAsked, scan_of_none hnone] using h)
  | case3 i nodes s node hnode hskip ih =>
    rw [scan_of_skip hnode hskip]
    exact ih (by simpa only [scanAsked, scan_of_skip hnode hskip] using h)
  | case4 i nodes s node hnode hdue e s' heq =>
    simp only [scan_of_due hnode hdue, hfirst hnode hdue h, heq]
  | case5 i nodes s node hnode hdue value s' heq ih =>
    have hsame := hfirst hnode hdue h
    simp only [scan_of_due hnode hdue, hsame, heq]
    refine ih fun ask hask hask' => h ask ?_ ?_
    · simp only [scanAsked_of_due hnode hdue, heq]
      exact List.mem_append_right _ hask
    · simp only [scanAsked_of_due hnode hdue, hsame, heq]
      exact List.mem_append_right _ hask'

/-! ## Whole evaluations -/

/-- The calls that an evaluation makes. -/
def asked (m : Module) (ctx : Context σ) (values : List Float) (s : σ) : List (Ask σ) :=
  (m.eval ctx.logged values (s, [])).2.2.2

/-- What an evaluation does when its inputs have been set and its live nodes marked. -/
theorem eval_of_scan {m m' : Module} {values : List Float} (hset : m.setInputs values = .ok m')
    {live : List Bool} (hlive : m'.reachableFrom m'.outputIndices = .ok live) (ctx : Context σ)
    (s : σ) :
    m.eval ctx values s =
      match scan ctx live m'.size m'.nodes s with
      | (.error e, nodes, s) => (.error e, { m' with nodes }, s)
      | (.ok (), nodes, s) => ({ m' with nodes }.outputValues, { m' with nodes }, s) := by
  simp only [eval, hset, evalNodes, hlive]
  rcases scan ctx live m'.size m'.nodes s with ⟨_ | _, nodes, s'⟩ <;> rfl

theorem asked_of_scan {m m' : Module} {values : List Float} (hset : m.setInputs values = .ok m')
    {live : List Bool} (hlive : m'.reachableFrom m'.outputIndices = .ok live) (ctx : Context σ)
    (s : σ) : m.asked ctx values s = scanAsked ctx live m'.size m'.nodes s := by
  rw [asked, eval_of_scan hset hlive, scanAsked]
  rcases scan ctx.logged live m'.size m'.nodes (s, []) with ⟨_ | _, nodes, s'⟩ <;> rfl

/-- Surroundings that answer alike what both of them are asked evaluate alike. -/
theorem eval_congr (hnoise : ctx'.noise = ctx.noise) {values : List Float} {s : σ}
    (h : ∀ ask ∈ m.asked ctx values s, ask ∈ m.asked ctx' values s →
      ctx'.reply ask = ctx.reply ask) :
    m.eval ctx' values s = m.eval ctx values s := by
  cases hset : m.setInputs values with
  | error e => simp only [eval, hset]
  | ok m' =>
    cases hlive : m'.reachableFrom m'.outputIndices with
    | error e => simp only [eval, hset, evalNodes, hlive]
    | ok live =>
      rw [asked_of_scan hset hlive, asked_of_scan hset hlive] at h
      rw [eval_of_scan hset hlive, eval_of_scan hset hlive, scan_congr hnoise h]

/-- What all calls keep of the surroundings holds at each call that is made. -/
theorem forall_asked {I : σ → Prop} (hcall : ∀ index xs s, I s → I (ctx.call index xs s).2)
    {values : List Float} {s : σ} (hs : I s) : ∀ ask ∈ m.asked ctx values s, I ask.before := by
  have hkeeps : ∀ index xs (s : σ × List (Ask σ)), (I s.1 ∧ ∀ ask ∈ s.2, I ask.before) →
      I (ctx.logged.call index xs s).2.1 ∧ ∀ ask ∈ (ctx.logged.call index xs s).2.2,
        I ask.before := by
    rintro index xs ⟨s, log⟩ ⟨hs, hlog⟩
    refine ⟨hcall index xs s hs, fun ask hask => ?_⟩
    rcases List.mem_append.mp hask with hask | hask
    · exact hlog ask hask
    · obtain rfl := List.mem_singleton.mp hask
      exact hs
  exact (eval_keeps hkeeps values (s, []) ⟨hs, by simp⟩).2

/-- A module without nodes makes no calls. -/
theorem asked_of_nodes_nil (hnodes : m.nodes = []) (values : List Float) (s : σ) :
    m.asked ctx values s = [] := by
  cases hset : m.setInputs values with
  | error e => simp only [asked, eval, hset]
  | ok m' =>
    have hsize : m'.size = 0 := by
      rw [(sameFrame_setInputs hset).size, size, hnodes, List.length_nil]
    cases hlive : m'.reachableFrom m'.outputIndices with
    | error e => simp only [asked, eval, hset, evalNodes, hlive]
    | ok live =>
      rw [asked_of_scan hset hlive, hsize]
      rfl

end Module

end

end ImageCircuit
