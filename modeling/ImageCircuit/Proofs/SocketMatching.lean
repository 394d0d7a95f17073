import ImageCircuit.Proofs.PostHoc

/-!
# Modules wired with the inputs last

Each node is plugged into slots of nodes before it, so arguments stand after their users. A slot
that stays open is filled with a later node; there is one, because the last node has no slots.

* `Module.always_drawOperators`: without inputs the last operator is a constant
* `Module.Draft.Plugs`, `Module.Draft.Run`: what one node's turn may do, and all turns up to a node
* `Module.Draft.Open.plugs`: plugging points slots at later nodes
* `Module.yields_close`: then no slot of the last node is open
* `Module.drawSocketMatching_cases`: a draft is plugged, closed and brought into normal form
* `Module.yields_drawSocketMatching`: the module drawn is in normal form
-/

namespace ImageCircuit

theorem TryDraw.yields_mapM {σ : Type} {α β : Type} {E : Error → Prop} {f : α → TryDraw σ β}
    {P : α → β → Prop} {xs : List α} (h : ∀ a ∈ xs, Yields (f a) E (P a)) :
    Yields (xs.mapM f) E fun ys => List.Forall₂ P xs ys := by
  induction xs with
  | nil => exact .pure .nil
  | cons a rest ih =>
    rw [List.mapM_cons]
    refine .bind (h a List.mem_cons_self) fun b hb => ?_
    refine .bind (ih fun a ha => h a (List.mem_cons_of_mem _ ha)) fun bs hbs => ?_
    exact .pure (.cons hb hbs)

namespace Module

variable {σ : Type} [Source σ] {m : Module} {i : Nat}

/-! ## Operators -/

/-- A drawn operator without its arguments. -/
def IsOperator (drawn : Node × Operator) : Prop :=
  drawn.1.op = .prim drawn.2 ∧ drawn.1.args = []

theorem always_drawOperator_some (op : Operator) :
    Draw.Always (drawOperator (some op) : Draw σ (Node × Operator)) fun drawn =>
      IsOperator drawn ∧ drawn.2 = op := by
  refine .bind (P := (· = op)) (.pure rfl) ?_
  rintro op rfl
  dsimp only
  split
  · exact .bind_any fun value => .pure ⟨⟨rfl, rfl⟩, rfl⟩
  · exact .bind_any fun value => .pure ⟨⟨rfl, rfl⟩, rfl⟩

theorem always_drawOperator (fixed : Option Operator) :
    Draw.Always (drawOperator fixed : Draw σ (Node × Operator)) fun drawn =>
      IsOperator drawn ∧ ∀ op, fixed = some op → drawn.2 = op := by
  cases fixed with
  | some op =>
    refine (always_drawOperator_some op).mono fun drawn h => ⟨h.1, fun op' hop => ?_⟩
    exact h.2.trans (Option.some.inj hop)
  | none =>
    show Draw.Always (Draw.choose Operator.all >>= fun r => drawOperator (some (r.getD .const))) _
    refine .bind_any fun r => (always_drawOperator_some _).mono fun drawn h => ⟨h.1, ?_⟩
    simp

/-- There are as many operators as asked for, and without inputs the last one is a constant. -/
theorem always_drawOperators (hasInputs : Bool) (count : Nat) :
    Draw.Always (drawOperators hasInputs count : Draw σ (List (Node × Operator))) fun operators =>
      operators.length = count ∧ (∀ drawn ∈ operators, IsOperator drawn) ∧
        (hasInputs = false → ∀ drawn, operators.getLast? = some drawn → drawn.2 = .const) := by
  induction count with
  | zero => exact .pure ⟨rfl, by simp, by simp⟩
  | succ count ih =>
    refine .bind (always_drawOperator _) fun first hfirst => ?_
    refine .bind ih fun rest hrest => .pure ⟨by simp [hrest.1], fun drawn hdrawn => ?_, ?_⟩
    · rcases List.mem_cons.mp hdrawn with rfl | hdrawn
      · exact hfirst.1
      · exact hrest.2.1 drawn hdrawn
    · intro hno drawn hlast
      cases rest with
      | nil =>
        obtain rfl := Option.some.inj hlast
        have hcount : count = 0 := hrest.1.symm
        exact hfirst.2 .const (by simp [hno, hcount])
      | cons second rest =>
        rw [List.getLast?_cons_cons] at hlast
        exact hrest.2.2 hno drawn hlast

/-! ## Plugging -/

namespace Draft

variable {d d' d'' : Draft} {k n : Nat} {l : Link}

theorem mem_sockets_iff : l ∈ d.sockets n ↔
    l.node < n ∧ ∃ slots, d.slots[l.node]? = some slots ∧ slots[l.slot]? = some none := by
  simp only [sockets, List.mem_flatMap, List.mem_range, List.mem_map, List.mem_filter,
    decide_eq_true_eq, List.getD_eq_getElem?_getD]
  constructor
  · rintro ⟨node, hnode, slot, ⟨-, hslot⟩, rfl⟩
    cases hslots : d.slots[node]? with
    | none =>
      rw [hslots] at hslot
      cases hslot
    | some slots => exact ⟨hnode, slots, rfl, by rwa [hslots] at hslot⟩
  · rintro ⟨hnode, slots, hslots, hslot⟩
    refine ⟨l.node, hnode, l.slot, ?_, rfl⟩
    rw [hslots]
    exact ⟨(List.getElem?_eq_some_iff.mp hslot).1, hslot⟩

theorem mem_freeOutputs_iff :
    k ∈ d.freeOutputs ↔ ∃ pin, d.outputs[k]? = some pin ∧ pin.index = none := by
  simp only [freeOutputs, List.mem_filter, List.mem_range, Option.isNone_iff_eq_none]
  constructor
  · rintro ⟨hk, hnone⟩
    rw [List.getElem?_eq_getElem hk, Option.bind_some] at hnone
    exact ⟨_, List.getElem?_eq_getElem hk, hnone⟩
  · rintro ⟨pin, hpin, hnone⟩
    refine ⟨(List.getElem?_eq_some_iff.mp hpin).1, ?_⟩
    rw [hpin, Option.bind_some, hnone]

theorem getElem?_slots_fill (d : Draft) (l : Link) (i k : Nat) :
    (d.fill l i).slots[k]? = d.slots[k]?.map fun slots =>
      if l.node = k then slots.set l.slot (some i) else slots := by
  rw [fill, List.getElem?_modify]
  rfl

theorem outputs_bind {pin : Pin} (hpin : d.outputs[k]? = some pin) (i : Nat) :
    (d.bind k i).outputs = d.outputs.set k { pin with index := some i } := by
  rw [Draft.bind, List.modify_eq_set_getElem?, hpin]
  rfl

/-- What plugging a node may do. -/
inductive Plugs (d : Draft) (i : Nat) : Draft → Prop where
  | none (hsockets : d.sockets i = []) (hfree : d.freeOutputs = []) : Plugs d i d
  | fill {l : Link} (hl : l ∈ d.sockets i) : Plugs d i (d.fill l i)
  | bind {k : Nat} (hk : k ∈ d.freeOutputs) : Plugs d i (d.bind k i)

theorem always_plug (d : Draft) (i : Nat) : Draw.Always (d.plug i : Draw σ Draft) (Plugs d i) := by
  unfold plug
  dsimp only
  split
  · next hnone =>
    obtain ⟨hsockets, hfree⟩ := Nat.add_eq_zero_iff.mp hnone
    exact .pure (.none (List.length_eq_zero_iff.mp hsockets) (List.length_eq_zero_iff.mp hfree))
  · next choices hchoices =>
    refine .bind_any fun r => ?_
    split
    · next l hl => exact .pure (.fill (List.mem_of_getElem? hl))
    · next hnone =>
      have hle := List.getElem?_eq_none_iff.mp hnone
      have hlt : r.val - (d.sockets i).length < d.freeOutputs.length := by
        have := r.isLt
        omega
      refine .pure (.bind ?_)
      rw [List.getD_eq_getElem?_getD, List.getElem?_eq_getElem hlt]
      exact List.getElem_mem hlt

/-- A draft after the nodes before `i` have had their turn. -/
inductive Run (d : Draft) : Nat → Draft → Prop where
  | start : Run d 0 d
  | turn {i : Nat} {d' d'' : Draft} (h : Run d i d') (hplug : d'.Plugs i d'') : Run d (i + 1) d''

theorem always_run (d : Draft) (n : Nat) :
    Draw.Always ((List.range n).foldlM plug d : Draw σ Draft) (d.Run n) :=
  Draw.always_foldlM_range .start fun i _ d' h => (always_plug d' i).mono fun _ => h.turn

end Draft

/-- What holds of a draft: the slots are as many as at first, those that are not open point at
later nodes, and bound outputs name nodes. -/
structure Draft.Open (d : Draft) (nodes : List Node) (arities : List Nat) (names : List Char) :
    Prop where
  same : d.nodes = nodes
  lengths : d.slots.map List.length = arities
  later : ∀ (i : Nat) (slots : List (Option Nat)), d.slots[i]? = some slots →
    ∀ j, some j ∈ slots → i < j ∧ j < nodes.length
  outputs : ∀ pin ∈ d.outputs, ∀ i, pin.index = some i → i < nodes.length
  names : d.outputs.map (·.name) = names

namespace Draft.Open

variable {d : Draft} {nodes : List Node} {arities : List Nat} {names : List Char}

theorem fill (h : d.Open nodes arities names) {l : Link} (hl : l.node < i) (hi : i < nodes.length) :
    (d.fill l i).Open nodes arities names where
  same := h.same
  lengths := by
    rw [← h.lengths]
    apply List.ext_getElem?
    intro k
    simp only [Draft.fill, List.getElem?_map, List.getElem?_modify]
    by_cases hk : l.node = k <;> cases d.slots[k]? <;> simp [hk]
  later k slots hk j hj := by
    simp only [Draft.fill, List.getElem?_modify] at hk
    obtain ⟨old, hold, rfl⟩ := Option.map_eq_some_iff.mp hk
    split at hj
    · next hlk =>
      rcases List.mem_or_eq_of_mem_set hj with hj | hj
      · exact h.later k old hold j hj
      · obtain rfl := Option.some.inj hj
        exact ⟨hlk ▸ hl, hi⟩
    · exact h.later k old hold j hj
  outputs := h.outputs
  names := h.names

theorem bind (h : d.Open nodes arities names) (k : Nat) (hi : i < nodes.length) :
    (d.bind k i).Open nodes arities names where
  same := h.same
  lengths := h.lengths
  later := h.later
  outputs pin hpin j hj := by
    rcases mem_bindPin hpin with hpin | ⟨old, -, rfl⟩
    · exact h.outputs pin hpin j hj
    · exact Option.some.inj hj ▸ hi
  names := by
    rw [← h.names]
    apply List.ext_getElem?
    intro j
    simp only [Draft.bind, List.getElem?_map, List.getElem?_modify]
    by_cases hk : k = j <;> simp [hk, Function.comp_def]

/-- A node is plugged into a slot of a node before it, or into an output. -/
theorem plugs (h : d.Open nodes arities names) (hi : i < nodes.length) {d' : Draft}
    (hplug : d.Plugs i d') : d'.Open nodes arities names := by
  cases hplug with
  | none => exact h
  | fill hl => exact h.fill (mem_sockets_iff.mp hl).1 hi
  | bind => exact h.bind _ hi

theorem run (h : d.Open nodes arities names) {n : Nat} (hn : n ≤ nodes.length) {d' : Draft}
    (hrun : d.Run n d') : d'.Open nodes arities names := by
  induction hrun with
  | start => exact h
  | turn _ hplug ih => exact (ih (Nat.le_of_succ_le hn)).plugs hn hplug

end Draft.Open

/-! ## Closing -/

/-- The arguments of a node stand where its slots were filled with them. -/
def KeepsSlots (slots : List (Option Nat)) (args : List Nat) : Prop :=
  List.Forall₂ (fun slot arg => ∀ j, slot = some j → arg = j) slots args

/-- Open slots are filled with later nodes. -/
theorem yields_fillSlots {E : Error → Prop} {size : Nat} {slots : List (Option Nat)}
    (hlater : ∀ j, some j ∈ slots → i < j ∧ j < size) (hopen : none ∈ slots → i + 1 < size) :
    TryDraw.Yields (fillSlots size i slots : TryDraw σ (List Nat)) E fun args =>
      KeepsSlots slots args ∧ ∀ j ∈ args, i < j ∧ j < size := by
  induction slots with
  | nil => exact .pure ⟨.nil, by simp⟩
  | cons slot rest ih =>
    have hrest := ih (fun j hj => hlater j (List.mem_cons_of_mem _ hj))
      fun hnone => hopen (List.mem_cons_of_mem _ hnone)
    cases slot with
    | some k =>
      refine .bind hrest fun args hargs => .pure
        ⟨.cons (fun j hj => Option.some.inj hj) hargs.1, fun j hj => ?_⟩
      rcases List.mem_cons.mp hj with rfl | hj
      · exact hlater j List.mem_cons_self
      · exact hargs.2 j hj
    | none =>
      have hlt := hopen List.mem_cons_self
      rw [fillSlots, if_neg (Nat.not_le.mpr hlt)]
      refine .bind (.lift (always_drawBelow (Nat.sub_pos_of_lt hlt))) fun k hk => ?_
      refine .bind hrest fun args hargs => .pure
        ⟨.cons (fun j hj => by cases hj) hargs.1, fun j hj => ?_⟩
      rcases List.mem_cons.mp hj with rfl | hj
      · omega
      · exact hargs.2 j hj

/-- The nodes of a draft with arguments that keep their slots, all of them later nodes. -/
structure Draft.Closed (d : Draft) (nodes : List Node) : Prop where
  length : nodes.length = d.nodes.length
  node : ∀ (i : Nat) (node : Node), nodes[i]? = some node → ∃ old slots, d.nodes[i]? = some old ∧
    d.slots[i]? = some slots ∧ node = { old with args := node.args } ∧ KeepsSlots slots node.args
  after : ∀ (i : Nat) (node : Node), nodes[i]? = some node →
    ∀ j ∈ node.args, i < j ∧ j < nodes.length

/-- A node of a closed draft is the one created, with as many arguments as it had slots. -/
theorem Draft.Closed.created {d : Draft} {nodes created : List Node} {arities : List Nat}
    {names : List Char} (h : d.Closed nodes) (hopen : d.Open created arities names) {node : Node}
    (hi : nodes[i]? = some node) : ∃ old, created[i]? = some old ∧
      node = { old with args := node.args } ∧ arities[i]? = some node.args.length := by
  obtain ⟨old, slots, hold, hslots, heq, hkept⟩ := h.node i node hi
  refine ⟨old, hopen.same ▸ hold, heq, ?_⟩
  rw [← hopen.lengths, List.getElem?_map, hslots, Option.map_some, hkept.length_eq]

/-- Unless the last node has slots, all slots of a draft can be filled. -/
theorem yields_close {E : Error → Prop} {d : Draft} {nodes : List Node} {arities : List Nat}
    {names : List Char} (h : d.Open nodes arities names) (hlen : arities.length = nodes.length)
    (hopen : ∀ (i arity : Nat), arities[i]? = some arity → 0 < arity → i + 1 < nodes.length) :
    TryDraw.Yields (d.close nodes.length : TryDraw σ (List Node)) E d.Closed := by
  refine .bind (TryDraw.yields_mapM (P := fun x args => KeepsSlots x.1 args ∧
    ∀ j ∈ args, x.2 < j ∧ j < nodes.length) fun x hx => ?_) fun args hargs => .pure ?_
  · have hi := List.mem_zipIdx_iff_getElem?.mp hx
    refine yields_fillSlots (h.later x.2 x.1 hi) fun hnone => ?_
    refine hopen x.2 x.1.length ?_ (List.length_pos_of_mem hnone)
    rw [← h.lengths, List.getElem?_map, hi, Option.map_some]
  · have hlength : (d.nodes.zipWith (fun node args => { node with args }) args).length =
        nodes.length := by
      have hd : d.slots.length = nodes.length := by
        rw [← hlen, ← h.lengths, List.length_map]
      rw [List.length_zipWith, ← hargs.length_eq, List.length_zipIdx, h.same, hd, Nat.min_self]
    have hget : ∀ (i : Nat) (node : Node),
        (d.nodes.zipWith (fun node args => { node with args }) args)[i]? = some node →
        ∃ old slots args, d.nodes[i]? = some old ∧ d.slots[i]? = some slots ∧
          node = { old with args } ∧ KeepsSlots slots args ∧
          ∀ j ∈ args, i < j ∧ j < nodes.length := by
      intro i node hi
      obtain ⟨old, args', hold, hargs', rfl⟩ := List.getElem?_zipWith_eq_some.mp hi
      obtain ⟨⟨slots, k⟩, hx, hkept, hmem⟩ := exists_getElem?_of_forall₂ hargs hargs'
      rw [List.getElem?_zipIdx] at hx
      obtain ⟨slots', hslots', heq⟩ := Option.map_eq_some_iff.mp hx
      simp only [Nat.zero_add, Prod.mk.injEq] at heq
      obtain ⟨rfl, rfl⟩ := heq
      exact ⟨old, slots', args', hold, hslots', rfl, hkept, hmem⟩
    refine ⟨hlength.trans (congrArg List.length h.same).symm, fun i node hi => ?_,
      fun i node hi j hj => ?_⟩
    · obtain ⟨old, slots, args', hold, hslots, rfl, hkept, -⟩ := hget i node hi
      exact ⟨old, slots, hold, hslots, rfl, hkept⟩
    · obtain ⟨old, slots, args', -, -, rfl, -, hmem⟩ := hget i node hi
      rw [hlength]
      exact hmem j hj

/-! ## The module -/

/-- The nodes of a draft: operators, then the inputs. -/
def draftNodes (operators : List (Node × Operator)) (inputs : List Char) : List Node :=
  operators.map (·.1) ++ inputs.map fun name => .ofOp (.input name) []

/-- How many slots the nodes of a draft have. -/
def draftArities (operators : List (Node × Operator)) (inputs : List Char) : List Nat :=
  operators.map (·.2.arity) ++ inputs.map fun _ => 0

section

variable {operators : List (Node × Operator)} {inputs : List Char}

theorem length_draftNodes :
    (draftNodes operators inputs).length = operators.length + inputs.length := by
  simp [draftNodes]

theorem length_draftArities :
    (draftArities operators inputs).length = (draftNodes operators inputs).length := by
  simp [draftNodes, draftArities]

/-- The node at a position is an operator or, past these, an input. -/
theorem draftNodes_cases (hop : ∀ drawn ∈ operators, IsOperator drawn) {node : Node} {arity : Nat}
    (hnode : (draftNodes operators inputs)[i]? = some node)
    (harity : (draftArities operators inputs)[i]? = some arity) :
    (∃ drawn, operators[i]? = some drawn ∧ node.op = .prim drawn.2 ∧ arity = drawn.2.arity) ∨
      ∃ k name, i = operators.length + k ∧ inputs[k]? = some name ∧ node.op = .input name ∧
        arity = 0 := by
  by_cases hi : i < operators.length
  · left
    rw [draftNodes, List.getElem?_append_left (by simpa using hi), List.getElem?_map] at hnode
    rw [draftArities, List.getElem?_append_left (by simpa using hi), List.getElem?_map] at harity
    obtain ⟨drawn, hdrawn, rfl⟩ := Option.map_eq_some_iff.mp hnode
    rw [hdrawn] at harity
    obtain rfl := Option.some.inj harity
    exact ⟨drawn, hdrawn, (hop drawn (List.mem_of_getElem? hdrawn)).1, rfl⟩
  · right
    have hle := Nat.le_of_not_lt hi
    rw [draftNodes, List.getElem?_append_right (by simpa using hle), List.length_map,
      List.getElem?_map] at hnode
    rw [draftArities, List.getElem?_append_right (by simpa using hle), List.length_map,
      List.getElem?_map] at harity
    obtain ⟨name, hname, rfl⟩ := Option.map_eq_some_iff.mp hnode
    rw [hname] at harity
    obtain rfl := Option.some.inj harity
    exact ⟨i - operators.length, name, by omega, hname, rfl, rfl⟩

/-- The last node has no slots. -/
theorem succ_lt_of_arity_pos (hop : ∀ drawn ∈ operators, IsOperator drawn)
    (hlast : inputs = [] → ∀ drawn, operators.getLast? = some drawn → drawn.2 = .const)
    {arity : Nat} (harity : (draftArities operators inputs)[i]? = some arity) (hpos : 0 < arity) :
    i + 1 < (draftNodes operators inputs).length := by
  have hi : i < (draftNodes operators inputs).length :=
    length_draftArities ▸ (List.getElem?_eq_some_iff.mp harity).1
  rcases draftNodes_cases hop (List.getElem?_eq_getElem hi) harity with
    ⟨drawn, hdrawn, -, rfl⟩ | ⟨-, -, -, -, -, rfl⟩
  · by_contra hge
    rw [length_draftNodes] at hge
    have hlt := (List.getElem?_eq_some_iff.mp hdrawn).1
    have hnil : inputs = [] := List.length_eq_zero_iff.mp (by omega)
    have hend : operators.getLast? = some drawn := by
      rw [List.getLast?_eq_getElem?, ← hdrawn]
      congr 1
      omega
    rw [hlast hnil drawn hend] at hpos
    cases hpos
  · cases hpos

/-- The pins of the inputs, bound to the nodes after the operators. -/
def numberedPins (count : Nat) (pins : List Pin) : List Pin :=
  pins.zipIdx.map fun (pin, k) => { pin with index := some (count + k) }

theorem mem_numberedPins {count : Nat} {pins : List Pin} {pin : Pin}
    (h : pin ∈ numberedPins count pins) :
    ∃ (k : Nat) (old : Pin), pins[k]? = some old ∧
      pin = { old with index := some (count + k) } := by
  obtain ⟨⟨old, k⟩, hold, rfl⟩ := List.mem_map.mp h
  exact ⟨k, old, List.mem_zipIdx_iff_getElem?.mp hold, rfl⟩

theorem names_numberedPins (count : Nat) (pins : List Pin) :
    (numberedPins count pins).map (·.name) = pins.map (·.name) := by
  conv_rhs => rw [← List.zipIdx_map_fst 0 pins, List.map_map]
  rw [numberedPins, List.map_map]
  rfl

/-- Each number is that of one pin. -/
theorem countP_numberedPins {count k : Nat} {pins : List Pin} (hk : k < pins.length) :
    (numberedPins count pins).countP (fun pin => pin.index = some (count + k)) = 1 := by
  have hmap : (numberedPins count pins).map (·.index) =
      (List.range' 0 pins.length).map fun k => some (count + k) := by
    rw [numberedPins, List.map_map, ← List.zipIdx_map_snd, List.map_map]
    rfl
  have hnodup : ((List.range' 0 pins.length).map fun k => some (count + k)).Nodup := by
    refine List.Nodup.map (fun a b hab => ?_) (List.nodup_range' ..)
    have := Option.some.inj hab
    omega
  have hmem : some (count + k) ∈ (List.range' 0 pins.length).map fun k => some (count + k) :=
    List.mem_map.mpr ⟨k, by simpa using hk, rfl⟩
  rw [← List.count_eq_one_of_mem hnodup hmem, ← hmap, List.count, List.countP_map]
  congr 1
  funext pin
  rw [Bool.eq_iff_iff]
  simp

section

variable {d : Draft} {names : List Char} {nodes : List Node}
  (hop : ∀ drawn ∈ operators, IsOperator drawn)
  (hopen : d.Open (draftNodes operators inputs) (draftArities operators inputs) names)
  (h : d.Closed nodes)
include hop hopen h

/-- The nodes of a closed draft are the operators that were drawn and, past these, the inputs. -/
theorem closed_cases {node : Node} (hi : nodes[i]? = some node) :
    (i < operators.length ∧ ∃ op, node.op = .prim op ∧ node.args.length = op.arity) ∨
      ∃ k name, i = operators.length + k ∧ inputs[k]? = some name ∧ node.op = .input name ∧
        node.args = [] := by
  obtain ⟨old, hold, heq, harity⟩ := h.created hopen hi
  have hsame : node.op = old.op := by rw [heq]
  rcases draftNodes_cases hop hold harity with
    ⟨drawn, hdrawn, hkind, hlen⟩ | ⟨k, name, hk, hname, hkind, hlen⟩
  · exact .inl ⟨(List.getElem?_eq_some_iff.mp hdrawn).1, drawn.2, hsame.trans hkind, hlen⟩
  · exact .inr ⟨k, name, hk, hname, hsame.trans hkind, List.length_eq_zero_iff.mp hlen⟩

theorem drawn_of_closed : ∀ node ∈ nodes, node.Drawn := by
  intro node hnode
  obtain ⟨i, hi⟩ := List.mem_iff_getElem?.mp hnode
  rcases closed_cases hop hopen h hi with ⟨-, hprim⟩ | ⟨-, name, -, -, hinput⟩
  · exact .inl hprim
  · exact .inr ⟨name, hinput⟩

/-- A draft whose slots are filled makes a formed module. -/
theorem formed_of_closed {name : String} {pins outputs : List Pin}
    (hpins : pins.map (·.name) = inputs)
    (houtputs : ∀ pin ∈ outputs, ∃ i < nodes.length, pin.index = some i) :
    ({ name, nodes, inputs := numberedPins operators.length pins, outputs } : Module).Formed := by
  have hlen : inputs.length = pins.length := by rw [← hpins, List.length_map]
  refine formed_of_drawn (drawn_of_closed hop hopen h) (fun i j hj => ?_) (fun pin hpin i hi => ?_)
    (fun i name hi => ?_) houtputs
  · obtain ⟨node, hnode, hj'⟩ := mem_argsOf_iff.mp hj
    exact ⟨lt_of_mem_argsOf hj, (h.after i node hnode j hj').2⟩
  · obtain ⟨k, old, hold, rfl⟩ := mem_numberedPins hpin
    obtain rfl := Option.some.inj hi
    have hk := (List.getElem?_eq_some_iff.mp hold).1
    have hlt : operators.length + k < nodes.length := by
      rw [h.length, hopen.same, length_draftNodes, hlen]
      omega
    obtain ⟨node, hnode⟩ : ∃ node, nodes[operators.length + k]? = some node :=
      ⟨_, List.getElem?_eq_getElem hlt⟩
    refine opAt_eq_some_iff.mpr ⟨node, hnode, ?_⟩
    rcases closed_cases hop hopen h hnode with ⟨hlt, -⟩ | ⟨k', name, hk', hname, hinput, -⟩
    · omega
    · obtain rfl : k = k' := by omega
      rw [hinput]
      rw [← hpins, List.getElem?_map, hold] at hname
      exact congrArg Op.input (Option.some.inj hname).symm
  · obtain ⟨node, hnode, hkind⟩ := opAt_eq_some_iff.mp hi
    rcases closed_cases hop hopen h hnode with ⟨-, op', hop', -⟩ | ⟨k, _, rfl, hname, -⟩
    · rw [hkind] at hop'
      cases hop'
    · exact countP_numberedPins (hlen ▸ (List.getElem?_eq_some_iff.mp hname).1)

end

theorem acyclic_of_closed {d : Draft} (h : d.Closed m.nodes) : Acyclic m.argsOf := by
  have hafter : ∀ i, ∀ j ∈ m.argsOf i, i < j ∧ j < m.size := by
    intro i j hj
    obtain ⟨node, hnode, hj'⟩ := mem_argsOf_iff.mp hj
    exact h.after i node hnode j hj'
  exact acyclic_of_isSorted (fun i j hj => ⟨lt_of_mem_argsOf hj, (hafter i j hj).2⟩)
    (isSorted_iff.mpr fun i j hj => (hafter i j hj).1)

end

/-- A free pin is bound, and a bound one is left alone. -/
theorem always_drawFreePin {size : Nat} (hsize : 0 < size) {pin : Pin}
    (hpin : ∀ i, pin.index = some i → i < size) :
    Draw.Always (drawFreePin size pin : Draw σ Pin) fun pin' =>
      pin'.name = pin.name ∧ (∃ i < size, pin'.index = some i) ∧
        ∀ i, pin.index = some i → pin'.index = some i := by
  unfold drawFreePin
  split
  · next hbound =>
    obtain ⟨i, hi⟩ := Option.isSome_iff_exists.mp hbound
    exact .pure ⟨rfl, ⟨i, hpin i hi, hi⟩, fun j hj => hj⟩
  · next hfree =>
    refine (always_drawPin hsize pin).mono fun pin' h => ⟨h.1, h.2, fun i hi => absurd ?_ hfree⟩
    rw [hi]
    rfl

/-- A draft of some operators and inputs, in which nothing has been plugged. -/
def Draft.first (operators : List (Node × Operator)) (inputs outputs : String) : Draft where
  nodes := draftNodes operators inputs.toList
  slots := operators.map (fun (_, op) => List.replicate op.arity none) ++
    (inputs.toList.map fun name => Node.ofOp (.input name) []).map fun _ => []
  outputs := (ofPins "" inputs outputs).outputs

section

variable {operators : List (Node × Operator)} {inputs outputs : String}

theorem Draft.eq_none_of_first {slots : List (Option Nat)}
    (hslots : slots ∈ (first operators inputs outputs).slots) : ∀ slot ∈ slots, slot = none := by
  intro slot hslot
  rcases List.mem_append.mp hslots with hmem | hmem
  · obtain ⟨drawn, -, rfl⟩ := List.mem_map.mp hmem
    exact List.eq_of_mem_replicate hslot
  · obtain ⟨node, -, rfl⟩ := List.mem_map.mp hmem
    cases hslot

theorem Draft.unbound_of_first {pin : Pin} (hpin : pin ∈ (first operators inputs outputs).outputs) :
    pin.index = none := by
  obtain ⟨name, -, rfl⟩ := List.mem_map.mp hpin
  rfl

/-- The slots of a draft are all open at first. -/
theorem Draft.open_first (operators : List (Node × Operator)) (inputs outputs : String) :
    (first operators inputs outputs).Open (draftNodes operators inputs.toList)
      (draftArities operators inputs.toList) outputs.toList where
  same := rfl
  lengths := by simp [first, draftArities, Function.comp_def]
  later i slots hi j hj := by
    cases eq_none_of_first (List.mem_of_getElem? hi) _ hj
  outputs pin hpin i hi := by
    cases (unbound_of_first hpin).symm.trans hi
  names := names_ofPins_outputs "" inputs outputs

/-- A draft of some operators in which all nodes have had their turn, and the module that it is
closed to. -/
structure Matched (operators : List (Node × Operator)) (inputs outputs : String) (d : Draft)
    (m : Module) : Prop where
  run : (Draft.first operators inputs outputs).Run (draftNodes operators inputs.toList).length d
  opened : d.Open (draftNodes operators inputs.toList) (draftArities operators inputs.toList)
    outputs.toList
  closed : d.Closed m.nodes
  bound : List.Forall₂ (fun pin pin' : Pin => ∀ i, pin.index = some i → pin'.index = some i)
    d.outputs m.outputs
  wired : m.Wired inputs.toList outputs.toList

end

/-- Wiring with the inputs last fails only if there is nothing to wire. Otherwise the operators are
drawn first, and what is plugged and closed is brought into normal form. -/
theorem drawSocketMatching_cases (inputs outputs : String) (numNodes : Nat) (s : σ) :
    (∀ m', ((drawSocketMatching inputs outputs numNodes : TryDraw σ Module).run s).1 = .ok m' →
      0 < inputs.toList.length + numNodes ∧ ∃ d m,
        Matched (drawOperators (inputs ≠ "") numNodes s).1 inputs outputs d m ∧
          m.normalize = .ok m') ∧
    ∀ e, ((drawSocketMatching inputs outputs numNodes : TryDraw σ Module).run s).1 = .error e →
      e = .nothingToGenerate ∧ inputs.toList.length + numNodes = 0 := by
  obtain ⟨hcount, hop, hlast⟩ := always_drawOperators (inputs ≠ "") numNodes s
  refine TryDraw.Yields.of_lift_bind (E := fun e => e = .nothingToGenerate ∧
    inputs.toList.length + numNodes = 0) (R := fun m' => 0 < inputs.toList.length + numNodes ∧
      ∃ d m, Matched (drawOperators (inputs ≠ "") numNodes s).1 inputs outputs d m ∧
        m.normalize = .ok m') ?_
  generalize (drawOperators (inputs ≠ "") numNodes s).1 = operators at hcount hop hlast ⊢
  have hlen : (draftNodes operators inputs.toList).length = inputs.toList.length + numNodes := by
    rw [length_draftNodes, hcount, Nat.add_comm]
  dsimp only
  split
  · next hnil =>
    rw [List.isEmpty_iff] at hnil
    refine .bind (.throw (P := fun _ => False) ⟨rfl, ?_⟩) fun _ h => h.elim
    rw [← hlen]
    exact List.length_eq_zero_iff.mpr hnil
  next hne =>
  have hsize : 0 < (draftNodes operators inputs.toList).length := by
    rw [List.isEmpty_iff] at hne
    exact List.length_pos_iff.mpr hne
  have hlast' : inputs.toList = [] → ∀ drawn, operators.getLast? = some drawn →
      drawn.2 = .const := fun hnil => hlast (by simpa using hnil)
  refine .bind (.lift (Draft.always_run (.first operators inputs outputs)
    (draftNodes operators inputs.toList).length)) fun d hrun => ?_
  have hopen := (Draft.open_first operators inputs outputs).run (Nat.le_refl _) hrun
  refine .bind (yields_close hopen length_draftArities
    fun i arity => succ_lt_of_arity_pos hop hlast') fun nodes hclosed => ?_
  have hlength : nodes.length = (draftNodes operators inputs.toList).length :=
    hclosed.length.trans (congrArg List.length hopen.same)
  have hlt : ∀ pin ∈ d.outputs, ∀ i, pin.index = some i → i < nodes.length :=
    hlength ▸ hopen.outputs
  refine .bind (.lift (Draw.always_mapM fun pin hpin =>
    always_drawFreePin (hlength ▸ hsize) (hlt pin hpin))) fun bound hbound => ?_
  have houtputs : ∀ pin ∈ bound, ∃ i < nodes.length, pin.index = some i := by
    intro pin hpin
    obtain ⟨-, -, -, hidx, -⟩ := exists_mem_of_forall₂ hbound hpin
    exact hidx
  have hpins := names_ofPins_inputs "" inputs outputs
  have hwired : Wired inputs.toList outputs.toList
      { name := "", nodes, inputs := numberedPins numNodes (ofPins "" inputs outputs).inputs
        outputs := bound } :=
    hcount ▸ ⟨formed_of_closed hop hopen hclosed hpins houtputs, acyclic_of_closed hclosed,
      drawn_of_closed hop hopen hclosed, (names_numberedPins _ _).trans hpins,
      (names_of_drawPin hbound).trans hopen.names⟩
  obtain ⟨order, hnorm, -⟩ := hwired.normalize_eq
  exact .of_eq_ok hnorm ⟨hlen ▸ hsize, d, _, ⟨hrun, hopen, hclosed,
    hbound.imp fun _ _ h => h.2.2, hwired⟩, hnorm⟩

/-- Wiring with the inputs last fails only if there is nothing to wire, and gives a normal form. -/
theorem yields_drawSocketMatching (inputs outputs : String) (numNodes : Nat) :
    TryDraw.Yields (drawSocketMatching inputs outputs numNodes : TryDraw σ Module)
      (fun e => e = .nothingToGenerate ∧ inputs.toList.length + numNodes = 0)
      fun m => NormalDrawn inputs.toList outputs.toList (inputs.toList.length + numNodes) m ∧
        0 < inputs.toList.length + numNodes := by
  intro s
  obtain ⟨hcount, -, -⟩ := always_drawOperators (inputs ≠ "") numNodes s
  obtain ⟨hok, herror⟩ := drawSocketMatching_cases inputs outputs numNodes s
  cases hresult : ((drawSocketMatching inputs outputs numNodes : TryDraw σ Module).run s).1 with
  | error e => exact herror e hresult
  | ok m' =>
    obtain ⟨hpos, d, m, hmatched, hnorm⟩ := hok m' hresult
    obtain ⟨order, hnorm', -, -, hdrawn⟩ := hmatched.wired.normalize_eq
    obtain rfl := Except.ok.inj (hnorm.symm.trans hnorm')
    have hsize : m.size = inputs.toList.length + numNodes := by
      rw [size, hmatched.closed.length, hmatched.opened.same, length_draftNodes, hcount,
        Nat.add_comm]
    exact ⟨hsize ▸ hdrawn, hpos⟩

end Module

end ImageCircuit
