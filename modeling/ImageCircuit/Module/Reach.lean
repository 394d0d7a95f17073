import ImageCircuit.Module.Basic

/-!
# Reachability

* `Module.reachableFrom`: the nodes that some roots depend on
* `Module.dependentsOf`: the nodes that depend on a node

Both are closures of a list of roots under a successor function. A node is marked when it leaves
the worklist, so every step either marks a node or shortens the worklist.
-/

namespace ImageCircuit

private theorem count_set_lt {marks : List Bool} {i : Nat} (h : marks[i]? = some false) :
    (marks.set i true).count false < marks.count false := by
  induction marks generalizing i with
  | nil => simp at h
  | cons b rest ih =>
    cases i with
    | zero =>
      simp at h
      simp [h]
    | succ i =>
      simp at h
      simp [List.count_cons, ih h]

/-- Marks all that the worklist reaches. A successor past the end of the marks is refused. -/
def mark (next : Nat → List Nat) (marks : List Bool) : List Nat → Except Error (List Bool)
  | [] => .ok marks
  | i :: work =>
    match _h : marks[i]? with
    | none => .error .badIndex
    | some true => mark next marks work
    | some false => mark next (marks.set i true) (next i ++ work)
  termination_by work => (marks.count false, work.length)
  decreasing_by
    · exact Prod.Lex.right _ (by simp)
    · exact Prod.Lex.left _ _ (count_set_lt _h)

/-- The marks of all that the roots below `n` reach. -/
def closure (next : Nat → List Nat) (n : Nat) (roots : List Nat) : Except Error (List Bool) :=
  mark next (List.replicate n false) (roots.filter (· < n))

namespace Module

/-- The nodes that read node `i`. -/
def usersOf (m : Module) (i : Nat) : List Nat :=
  (m.nodes.zipIdx.filter fun (node, _) => i ∈ node.args).map (·.2)

/-- Marks the nodes that some root depends on, the roots included. -/
def reachableFrom (m : Module) (roots : List Nat) : Except Error (List Bool) :=
  closure m.argsOf m.size roots

/-- Marks the nodes that depend on node `n`, itself included. -/
def dependentsOf (m : Module) (n : Nat) : Except Error (List Bool) :=
  if m.argsInRange then closure m.usersOf m.size [n] else .error .badIndex

end Module

end ImageCircuit
