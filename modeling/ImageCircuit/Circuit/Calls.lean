import ImageCircuit.Module.Basic
import ImageCircuit.Repeated

/-!
# Calls between modules

* `resolveCalls`: the words that name modules become calls
* `checkCallGraph`: no module reaches itself through calls

The call graph is searched depth first with an explicit stack. Each frame holds a module and the
callees it has still to visit; the modules on the stack are active, and a call of an active module
is recursive.
-/

namespace ImageCircuit

/-! ## Resolving words -/

/-- Turns a word into a call of the module it names, which must have as many inputs as the node
has arguments. -/
def resolveNode (names : List String) (inputCounts : List Nat) (node : Node) :
    Except Error Node :=
  match node.op with
  | .symbol name =>
    match names.idxOf? name with
    | none => .error (.missingModule name)
    | some i =>
      let inputs := inputCounts.getD i 0
      if inputs = node.args.length then .ok { node with op := .call name i }
      else .error (.callArity name inputs node.args.length)
  | _ => .ok node

/-- Resolves the words of a module. -/
def resolveModule (names : List String) (inputCounts : List Nat) (m : Module) :
    Except Error Module := do
  let nodes ← m.nodes.mapM (resolveNode names inputCounts)
  return { m with nodes }

/-- Resolves the words of all modules. -/
def resolveCalls (modules : List Module) : Except Error (List Module) :=
  modules.mapM <| resolveModule (modules.map (·.name)) (modules.map (·.inputs.length))

/-! ## The call graph -/

/-- The modules that a module calls, in the order of its nodes. -/
def Module.callees (m : Module) : List Nat :=
  m.nodes.filterMap (·.op.callee?)

/-- How far the search of a module has come. -/
inductive Visit where
  | new
  | active
  | done
  deriving DecidableEq, Repr

/-- A module on the stack and the callees it has still to visit. -/
abbrev Frame := Nat × List Nat

/-- The steps that a stack takes if it does not grow. -/
def stackSize : List Frame → Nat
  | [] => 0
  | (_, callees) :: stack => callees.length + 1 + stackSize stack

private theorem count_new_set_le {visits : List Visit} {i : Nat} {v : Visit} (hv : v ≠ .new) :
    (visits.set i v).count .new ≤ visits.count .new := by
  induction visits generalizing i with
  | nil => simp
  | cons w rest ih =>
    cases i with
    | zero => simp [List.count_cons, hv]
    | succ i => simp [List.count_cons, ih]

private theorem count_new_set_lt {visits : List Visit} {i : Nat} {v : Visit} (hv : v ≠ .new)
    (h : visits[i]? = some .new) : (visits.set i v).count .new < visits.count .new := by
  induction visits generalizing i with
  | nil => simp at h
  | cons w rest ih =>
    cases i with
    | zero =>
      simp at h
      simp [h, hv]
    | succ i =>
      simp at h
      simp [List.count_cons, ih h]

/-- Runs the search until the stack is empty. -/
def search (modules : List Module) (visits : List Visit) :
    List Frame → Except Error (List Visit)
  | [] => .ok visits
  | (m, []) :: stack => search modules (visits.set m .done) stack
  | (m, callee :: rest) :: stack =>
    match _h : visits[callee]? with
    | none => .error .badIndex
    | some .active => .error (.recursiveCall ((modules[callee]?.map (·.name)).getD ""))
    | some .new =>
      let callees := (modules[callee]?.map (·.callees)).getD []
      search modules (visits.set callee .active) ((callee, callees) :: (m, rest) :: stack)
    | some .done => search modules visits ((m, rest) :: stack)
  termination_by stack => (visits.count .new, stackSize stack)
  decreasing_by
    · have hle : (visits.set m .done).count .new ≤ visits.count .new :=
        count_new_set_le (by decide)
      rcases Nat.lt_or_eq_of_le hle with hlt | heq
      · exact Prod.Lex.left _ _ hlt
      · rw [heq]
        exact Prod.Lex.right _ (by simp [stackSize])
    · exact Prod.Lex.left _ _ (count_new_set_lt (by decide) _h)
    · exact Prod.Lex.right _ (by simp [stackSize])

/-- Searches from a module that has not been visited. -/
def searchFrom (modules : List Module) (visits : List Visit) (start : Nat) :
    Except Error (List Visit) :=
  if visits[start]? = some .new then
    let callees := (modules[start]?.map (·.callees)).getD []
    search modules (visits.set start .active) [(start, callees)]
  else .ok visits

/-- Refuses modules of which one reaches itself through calls. -/
def checkCallGraph (modules : List Module) : Except Error Unit := do
  let start := List.replicate modules.length Visit.new
  let _ ← (List.range modules.length).foldlM (searchFrom modules) start
  return ()

end ImageCircuit
