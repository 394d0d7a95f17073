import Mathlib.Algebra.GroupWithZero.Nat
import ImageCircuit.Proofs.SocketMatching
import ImageCircuit.Proofs.Stable

/-!
# How many nodes socket matching keeps

Sockets are the open slots of the nodes before the next one and the free outputs. Every node that is
plugged takes one of them and brings its own slots, so how many sockets there are depends on the
arities alone. The outputs depend on all nodes that have been plugged so far. When the sockets run
out, the slots of these nodes all point at nodes among them, and no later node is ever needed.

* `Module.keptCount`: where the sockets run out
* `Module.Draft.Growing.plug`, `Module.Draft.Sealed.plug`: one node, before and after that
* `Module.Matched.reaches_iff`: the outputs depend on what has been plugged before
* `Module.drawSocketMatching_keeps`: the module drawn has these nodes and no other
-/

namespace ImageCircuit

/-- Replacing a member that is counted by one that is not leaves one less. -/
theorem countP_set_add_one {α : Type} {p : α → Bool} {xs : List α} {k : Nat} {old new : α}
    (hold : xs[k]? = some old) (hp : p old = true) (hnew : p new = false) :
    (xs.set k new).countP p + 1 = xs.countP p := by
  obtain ⟨hk, rfl⟩ := List.getElem?_eq_some_iff.mp hold
  have hpos : 0 < xs.countP p := List.countP_pos_iff.mpr ⟨_, List.getElem_mem hk, hp⟩
  rw [List.countP_set hk, hp, hnew, if_pos rfl, if_neg Bool.false_ne_true]
  omega

theorem length_filter_range {α : Type} (p : Option α → Bool) (xs : List α) :
    ((List.range xs.length).filter fun k => p xs[k]?).length = xs.countP fun x => p (some x) := by
  induction xs with
  | nil => rfl
  | cons x rest ih =>
    rw [List.length_cons, List.range_succ_eq_map, List.filter_cons, List.filter_map,
      List.countP_cons, ← ih]
    cases h : p (some x) <;> simp [h, Function.comp_def]

namespace Module

/-! ## Where the sockets run out -/

/-- How many nodes are plugged before there is no socket, if the outputs are the first sockets and
each node brings as many as its arity: the first number of nodes that makes up for the outputs and
the arities of these nodes, or else all nodes. -/
def keptCount (outputs : Nat) (arities : List Nat) : Nat :=
  ((List.range arities.length).find? fun i => outputs + (arities.take i).sum = i).getD
    arities.length

theorem keptCount_cases (outputs : Nat) (arities : List Nat) :
    (keptCount outputs arities < arities.length ∧
      outputs + (arities.take (keptCount outputs arities)).sum = keptCount outputs arities ∨
      keptCount outputs arities = arities.length) ∧
    ∀ i < keptCount outputs arities, outputs + (arities.take i).sum ≠ i := by
  unfold keptCount
  cases hfind : (List.range arities.length).find? fun i => outputs + (arities.take i).sum = i with
  | none =>
    refine ⟨.inr rfl, fun i hi => ?_⟩
    simpa using List.find?_range_eq_none.mp hfind i hi
  | some p =>
    obtain ⟨hp, hmem, hfirst⟩ := List.find?_range_eq_some.mp hfind
    refine ⟨.inl ⟨List.mem_range.mp hmem, of_decide_eq_true hp⟩, fun i hi => ?_⟩
    simpa using hfirst i hi

theorem keptCount_le (outputs : Nat) (arities : List Nat) :
    keptCount outputs arities ≤ arities.length :=
  (keptCount_cases outputs arities).1.elim (fun h => Nat.le_of_lt h.1) Nat.le_of_eq

example : keptCount 1 [2, 0, 1, 0, 2] = 4 := by decide

/-! ## Sockets -/

namespace Draft

variable {d : Draft} {i k n : Nat} {l : Link}

/-- The number of open slots of a node. -/
def openSlots (d : Draft) (node : Nat) : Nat :=
  (d.slots.getD node []).countP (·.isNone)

theorem length_sockets_succ (d : Draft) (n : Nat) :
    (d.sockets (n + 1)).length = (d.sockets n).length + d.openSlots n := by
  rw [sockets, List.range_succ, List.flatMap_append, List.length_append, ← sockets,
    List.flatMap_singleton, List.length_map]
  congr 1
  refine (length_filter_range (fun slot => decide (slot = some none)) _).trans ?_
  rw [openSlots]
  congr 1
  funext slot
  cases slot <;> rfl

theorem length_freeOutputs (d : Draft) :
    d.freeOutputs.length = d.outputs.countP (·.index.isNone) := by
  rw [freeOutputs, length_filter_range (fun pin : Option Pin => (pin.bind (·.index)).isNone)]
  rfl

theorem openSlots_eq {slots : List (Option Nat)} (h : d.slots[k]? = some slots) :
    d.openSlots k = slots.countP (·.isNone) := by
  rw [openSlots, List.getD_eq_getElem?_getD, h, Option.getD_some]

theorem openSlots_fill_of_ne (hk : l.node ≠ k) (i : Nat) :
    (d.fill l i).openSlots k = d.openSlots k := by
  rw [openSlots, openSlots, List.getD_eq_getElem?_getD, List.getD_eq_getElem?_getD,
    getElem?_slots_fill]
  simp only [if_neg hk, Option.map_id']

/-- Filling a socket leaves one less. -/
theorem length_sockets_fill {slots : List (Option Nat)} (hslots : d.slots[l.node]? = some slots)
    (hopen : slots[l.slot]? = some none) (i n : Nat) :
    ((d.fill l i).sockets n).length + (if l.node < n then 1 else 0) = (d.sockets n).length := by
  induction n with
  | zero => rfl
  | succ n ih =>
    rw [length_sockets_succ, length_sockets_succ]
    by_cases hn : l.node = n
    · subst hn
      have hfilled : (d.fill l i).slots[l.node]? = some (slots.set l.slot (some i)) := by
        rw [getElem?_slots_fill, hslots, Option.map_some, if_pos rfl]
      have hset : (slots.set l.slot (some i)).countP (·.isNone) + 1 = slots.countP (·.isNone) :=
        countP_set_add_one hopen rfl rfl
      rw [if_neg (Nat.lt_irrefl _)] at ih
      rw [openSlots_eq hfilled, openSlots_eq hslots, if_pos (Nat.lt_succ_self _)]
      omega
    · rw [openSlots_fill_of_ne hn]
      split at ih <;> split <;> omega

theorem length_freeOutputs_bind (hk : k ∈ d.freeOutputs) (i : Nat) :
    (d.bind k i).freeOutputs.length + 1 = d.freeOutputs.length := by
  obtain ⟨pin, hpin, hnone⟩ := mem_freeOutputs_iff.mp hk
  rw [length_freeOutputs, length_freeOutputs, outputs_bind hpin]
  exact countP_set_add_one hpin (by rw [hnone]; rfl) rfl

/-! ## Plugged nodes -/

variable {d' : Draft} {outputs p j : Nat} {arities : List Nat}

/-- Node `j` has been plugged into an output or a slot. -/
def Plugged (d : Draft) (j : Nat) : Prop :=
  (∃ pin ∈ d.outputs, pin.index = some j) ∨
    ∃ (k : Nat) (slots : List (Option Nat)), d.slots[k]? = some slots ∧ some j ∈ slots

theorem mem_set_of_ne {α : Type} {xs : List α} {k : Nat} {x old new : α} (hx : x ∈ xs)
    (hold : xs[k]? = some old) (hne : x ≠ old) : x ∈ xs.set k new := by
  obtain ⟨q, hq⟩ := List.mem_iff_getElem?.mp hx
  refine List.mem_iff_getElem?.mpr ⟨q, ?_⟩
  rw [List.getElem?_set_ne, hq]
  rintro rfl
  exact hne (Option.some.inj (hq.symm.trans hold))

/-- What has been plugged stays plugged. -/
theorem Plugged.plugs (h : d.Plugged j) (hplug : d.Plugs i d') : d'.Plugged j := by
  cases hplug with
  | none => exact h
  | @fill l hl =>
    obtain ⟨-, old, hold, hopen⟩ := mem_sockets_iff.mp hl
    refine h.imp_right fun ⟨k, slots, hk, hj⟩ => ?_
    have hget := getElem?_slots_fill d l i k
    rw [hk, Option.map_some] at hget
    refine ⟨k, _, hget, ?_⟩
    split
    · next hlk =>
      obtain rfl : old = slots := Option.some.inj (hold.symm.trans (hlk ▸ hk))
      exact mem_set_of_ne hj hopen (Option.some_ne_none j)
    · exact hj
  | @bind k hk =>
    obtain ⟨free, hfree, hnone⟩ := mem_freeOutputs_iff.mp hk
    refine h.imp_left fun ⟨pin, hpin, hj⟩ => ⟨pin, ?_, hj⟩
    rw [outputs_bind hfree]
    refine mem_set_of_ne hpin hfree ?_
    rintro rfl
    cases hj.symm.trans hnone

/-! ## While there are sockets -/

/-- A draft before node `i` is plugged, as long as all nodes before have been. There are as many
sockets as outputs and slots of the nodes before, less one for each of these nodes. -/
structure Growing (d : Draft) (outputs : Nat) (arities : List Nat) (i : Nat) : Prop where
  count : (d.sockets i).length + d.freeOutputs.length + i = outputs + (arities.take i).sum
  untouched : ∀ (k : Nat) (slots : List (Option Nat)), i ≤ k → d.slots[k]? = some slots →
    ∀ slot ∈ slots, slot = none
  below : ∀ (k : Nat) (slots : List (Option Nat)), d.slots[k]? = some slots →
    ∀ j, some j ∈ slots → j < i
  bound : ∀ pin ∈ d.outputs, ∀ j, pin.index = some j → j < i
  plugged : ∀ j < i, d.Plugged j

namespace Growing

variable (h : d.Growing outputs arities i) (hlengths : d.slots.map List.length = arities)
  (hi : i < arities.length)
include h hlengths hi

/-- The next node brings as many sockets as its arity. -/
theorem sum_take_succ :
    outputs + (arities.take (i + 1)).sum = outputs + (arities.take i).sum + d.openSlots i := by
  obtain ⟨slots, hslots⟩ : ∃ slots, d.slots[i]? = some slots := by
    refine ⟨_, List.getElem?_eq_getElem ?_⟩
    rwa [← hlengths, List.length_map] at hi
  have harity : arities[i]? = some slots.length := by
    rw [← hlengths, List.getElem?_map, hslots, Option.map_some]
  have hopen : d.openSlots i = slots.length := by
    rw [openSlots_eq hslots, List.countP_eq_length]
    intro slot hslot
    rw [h.untouched i slots (Nat.le_refl i) hslots slot hslot]
    rfl
  rw [List.take_add_one, List.sum_append, harity, hopen, Nat.add_assoc]
  rfl

theorem fill {l : Link} (hl : l ∈ d.sockets i) :
    (d.fill l i).Growing outputs arities (i + 1) := by
  obtain ⟨hlt, old, hold, hopen⟩ := mem_sockets_iff.mp hl
  have hget := getElem?_slots_fill d l i
  refine ⟨?_, fun k slots hk hslots => ?_, fun k slots hslots j hj => ?_,
    fun pin hpin j hj => Nat.lt_succ_of_lt (h.bound pin hpin j hj), fun j hj => ?_⟩
  · have hcount := h.count
    have hfill := length_sockets_fill hold hopen i i
    have hfree : (d.fill l i).freeOutputs = d.freeOutputs := rfl
    rw [if_pos hlt] at hfill
    rw [length_sockets_succ, openSlots_fill_of_ne (Nat.ne_of_lt hlt), hfree,
      h.sum_take_succ hlengths hi]
    omega
  · have hlk : l.node ≠ k := by omega
    rw [hget] at hslots
    simp only [if_neg hlk, Option.map_id'] at hslots
    exact h.untouched k slots (by omega) hslots
  · rw [hget] at hslots
    obtain ⟨before, hbefore, rfl⟩ := Option.map_eq_some_iff.mp hslots
    split at hj
    · rcases List.mem_or_eq_of_mem_set hj with hj | hj
      · exact Nat.lt_succ_of_lt (h.below k before hbefore j hj)
      · obtain rfl := Option.some.inj hj
        exact Nat.lt_succ_self j
    · exact Nat.lt_succ_of_lt (h.below k before hbefore j hj)
  · rcases Nat.lt_succ_iff_lt_or_eq.mp hj with hj | rfl
    · exact (h.plugged j hj).plugs (.fill hl)
    · refine .inr ⟨l.node, old.set l.slot (some j), ?_, ?_⟩
      · rw [hget, hold, Option.map_some, if_pos rfl]
      · exact List.mem_set (List.getElem?_eq_some_iff.mp hopen).1 _

theorem bind (hk : k ∈ d.freeOutputs) : (d.bind k i).Growing outputs arities (i + 1) := by
  obtain ⟨free, hfree, -⟩ := mem_freeOutputs_iff.mp hk
  refine ⟨?_, fun k slots hk => h.untouched k slots (Nat.le_of_succ_le hk),
    fun k slots hslots j hj => Nat.lt_succ_of_lt (h.below k slots hslots j hj),
    fun pin hpin j hj => ?_, fun j hj => ?_⟩
  · have hcount := h.count
    have hbind := length_freeOutputs_bind hk i
    have hsockets : (d.bind k i).sockets = d.sockets := rfl
    have hopen : (d.bind k i).openSlots = d.openSlots := rfl
    rw [length_sockets_succ, hsockets, hopen, h.sum_take_succ hlengths hi]
    omega
  · rw [outputs_bind hfree] at hpin
    rcases List.mem_or_eq_of_mem_set hpin with hpin | rfl
    · exact Nat.lt_succ_of_lt (h.bound pin hpin j hj)
    · obtain rfl := Option.some.inj hj
      exact Nat.lt_succ_self i
  · rcases Nat.lt_succ_iff_lt_or_eq.mp hj with hj | rfl
    · exact (h.plugged j hj).plugs (.bind hk)
    · refine .inl ⟨{ free with index := some j }, ?_, rfl⟩
      rw [outputs_bind hfree]
      exact List.mem_set (List.getElem?_eq_some_iff.mp hfree).1 _

/-- A node is plugged if outputs and slots of the nodes before are more than these nodes. -/
theorem plug (hne : outputs + (arities.take i).sum ≠ i) (hplug : d.Plugs i d') :
    d'.Growing outputs arities (i + 1) := by
  cases hplug with
  | none hsockets hfree =>
    have hcount := h.count
    rw [hsockets, hfree] at hcount
    exact absurd hcount.symm (by simpa using hne)
  | fill hl => exact h.fill hlengths hi hl
  | bind hk => exact h.bind hlengths hi hk

end Growing

/-! ## When the sockets have run out -/

/-- A draft without sockets before its node `p`: the nodes before and the outputs name none but
these nodes. -/
structure Sealed (d : Draft) (p : Nat) : Prop where
  slots : ∀ (k : Nat) (slots : List (Option Nat)), k < p → d.slots[k]? = some slots →
    ∀ slot ∈ slots, ∃ j < p, slot = some j
  outputs : ∀ pin ∈ d.outputs, ∃ j < p, pin.index = some j
  plugged : ∀ j < p, d.Plugged j

/-- If outputs and slots are no more than the nodes that have been plugged, no socket is left. -/
theorem Growing.sealed (h : d.Growing outputs arities p)
    (hp : outputs + (arities.take p).sum = p) : d.Sealed p := by
  have hcount := h.count
  have hsockets : d.sockets p = [] := List.length_eq_zero_iff.mp (by omega)
  have hfree : d.freeOutputs = [] := List.length_eq_zero_iff.mp (by omega)
  refine ⟨fun k slots hk hslots slot hslot => ?_, fun pin hpin => ?_, h.plugged⟩
  · cases slot with
    | some j => exact ⟨j, h.below k slots hslots j hslot, rfl⟩
    | none =>
      obtain ⟨q, hq⟩ := List.mem_iff_getElem?.mp hslot
      have : (⟨k, q⟩ : Link) ∈ d.sockets p := mem_sockets_iff.mpr ⟨hk, slots, hslots, hq⟩
      rw [hsockets] at this
      cases this
  · cases hidx : pin.index with
    | some j => exact ⟨j, h.bound pin hpin j hidx, rfl⟩
    | none =>
      obtain ⟨q, hq⟩ := List.mem_iff_getElem?.mp hpin
      have := mem_freeOutputs_iff.mpr ⟨pin, hq, hidx⟩
      rw [hfree] at this
      cases this

/-- Later nodes are plugged, if at all, into slots of later nodes. -/
theorem Sealed.plug (h : d.Sealed p) (hplug : d.Plugs i d') : d'.Sealed p := by
  refine ⟨?_, ?_, fun j hj => (h.plugged j hj).plugs hplug⟩
  · cases hplug with
    | none => exact h.slots
    | bind => exact h.slots
    | @fill l hl =>
      obtain ⟨-, old, hold, hopen⟩ := mem_sockets_iff.mp hl
      intro k slots hk hslots
      have hlk : l.node ≠ k := by
        rintro rfl
        obtain ⟨j, -, hj⟩ := h.slots l.node old hk hold _ (List.mem_of_getElem? hopen)
        cases hj
      rw [getElem?_slots_fill] at hslots
      simp only [if_neg hlk, Option.map_id'] at hslots
      exact h.slots k slots hk hslots
  · cases hplug with
    | none => exact h.outputs
    | fill => exact h.outputs
    | @bind k hk =>
      obtain ⟨free, hfree, hnone⟩ := mem_freeOutputs_iff.mp hk
      obtain ⟨j, -, hj⟩ := h.outputs free (List.mem_of_getElem? hfree)
      cases hj.symm.trans hnone

/-! ## The whole loop -/

/-- A draft whose nodes have all had their turn: those before `p` have been plugged, and if these
are not all, they name each other only. -/
structure Settled (d : Draft) (p : Nat) : Prop where
  plugged : ∀ j < p, d.Plugged j
  closed : p < d.slots.length → d.Sealed p

/-- Nodes have been plugged as long as there are sockets. -/
theorem Run.growing_or_sealed {created : List Node} {names : List Char}
    (hopen : d.Open created arities names) (hfirst : d.Growing outputs arities 0)
    (hlen : arities.length = created.length) (hn : n ≤ arities.length) (hrun : d.Run n d') :
    n ≤ keptCount outputs arities ∧ d'.Growing outputs arities n ∨
      keptCount outputs arities < n ∧ d'.Sealed (keptCount outputs arities) := by
  obtain ⟨hp, hbefore⟩ := keptCount_cases outputs arities
  induction hrun with
  | start => exact .inl ⟨Nat.zero_le _, hfirst⟩
  | @turn i d' d'' hrun hplug ih =>
    have hlengths := (hopen.run (hlen ▸ Nat.le_of_succ_le hn) hrun).lengths
    rcases ih (Nat.le_of_succ_le hn) with ⟨hip, hgrowing⟩ | ⟨hip, hsealed⟩
    · rcases Nat.lt_or_eq_of_le hip with hlt | rfl
      · exact .inl ⟨hlt, hgrowing.plug hlengths hn (hbefore i hlt) hplug⟩
      · have hend := hp.resolve_right (Nat.ne_of_lt hn)
        exact .inr ⟨Nat.lt_succ_self _, (hgrowing.sealed hend.2).plug hplug⟩
    · exact .inr ⟨Nat.lt_succ_of_lt hip, hsealed.plug hplug⟩

theorem Run.settled {created : List Node} {names : List Char}
    (hopen : d.Open created arities names) (hfirst : d.Growing outputs arities 0)
    (hlen : arities.length = created.length) (hrun : d.Run created.length d') :
    d'.Settled (keptCount outputs arities) := by
  have hslots : d'.slots.length = arities.length := by
    rw [← (hopen.run (Nat.le_refl _) hrun).lengths, List.length_map]
  have hle := keptCount_le outputs arities
  rcases hrun.growing_or_sealed hopen hfirst hlen (Nat.le_of_eq hlen.symm) with
    ⟨hip, hgrowing⟩ | ⟨-, hsealed⟩
  · exact ⟨fun j hj => hgrowing.plugged j (by omega), fun hlt => by omega⟩
  · exact ⟨hsealed.plugged, fun _ => hsealed⟩

/-- At first the free outputs are all sockets there are. -/
theorem growing_first (operators : List (Node × Operator)) (inputs outputs : String) :
    (first operators inputs outputs).Growing outputs.length (draftArities operators inputs.toList)
      0 where
  count := by
    have hfree : ∀ pin ∈ (first operators inputs outputs).outputs, pin.index.isNone = true := by
      intro pin hpin
      rw [unbound_of_first hpin]
      rfl
    have hlength : (first operators inputs outputs).outputs.length = outputs.length := by
      rw [← String.length_toList, ← (open_first operators inputs outputs).names, List.length_map]
    rw [length_freeOutputs, List.countP_eq_length.mpr hfree, hlength]
    simp [sockets]
  untouched k slots _ hk := eq_none_of_first (List.mem_of_getElem? hk)
  below k slots hk j hj := by
    cases eq_none_of_first (List.mem_of_getElem? hk) _ hj
  bound pin hpin j hj := by
    cases (unbound_of_first hpin).symm.trans hj
  plugged j hj := absurd hj (Nat.not_lt_zero j)

end Draft

/-! ## What the outputs depend on -/

section

variable {operators : List (Node × Operator)} {inputs outputs : String} {d : Draft} {m : Module}
  {p : Nat}

namespace Matched

theorem settled (h : Matched operators inputs outputs d m) :
    d.Settled (keptCount outputs.length (draftArities operators inputs.toList)) :=
  h.run.settled (Draft.open_first operators inputs outputs)
    (Draft.growing_first operators inputs outputs) length_draftArities

theorem size_eq (h : Matched operators inputs outputs d m) : m.size = d.slots.length := by
  rw [size, h.closed.length, h.opened.same, ← length_draftArities, ← h.opened.lengths,
    List.length_map]

theorem after (h : Matched operators inputs outputs d m) {k j : Nat} (hj : j ∈ m.argsOf k) :
    k < j ∧ j < m.size := by
  obtain ⟨node, hnode, hj'⟩ := mem_argsOf_iff.mp hj
  exact h.closed.after k node hnode j hj'

theorem keepsSlots (h : Matched operators inputs outputs d m) {k : Nat} {slots : List (Option Nat)}
    (hk : d.slots[k]? = some slots) : KeepsSlots slots (m.argsOf k) := by
  have hlt := (List.getElem?_eq_some_iff.mp hk).1
  rw [← h.size_eq] at hlt
  have hnode : m.nodes[k]? = some m.nodes[k] := List.getElem?_eq_getElem hlt
  obtain ⟨-, slots', -, hslots', -, hkept⟩ := h.closed.node k _ hnode
  obtain rfl := Option.some.inj (hk.symm.trans hslots')
  rwa [argsOf_eq hnode]

/-- The first nodes of a settled draft have arguments among each other. -/
theorem args_lt (h : Matched operators inputs outputs d m) (hd : d.Settled p) {k j : Nat}
    (hk : k < p) (hj : j ∈ m.argsOf k) : j < p := by
  by_cases hp : p < d.slots.length
  · have hget := List.getElem?_eq_getElem (Nat.lt_trans hk hp)
    obtain ⟨slot, hslot, hkept⟩ := exists_mem_of_forall₂ (h.keepsSlots hget) hj
    obtain ⟨j', hj', rfl⟩ := (hd.closed hp).slots k _ hk hget slot hslot
    rwa [hkept j' rfl]
  · have := (h.after hj).2
    rw [h.size_eq] at this
    omega

theorem output_lt (h : Matched operators inputs outputs d m) (hd : d.Settled p) {o : Nat}
    (ho : o ∈ m.outputIndices) : o < p := by
  by_cases hp : p < d.slots.length
  · obtain ⟨pin, hpin, hidx⟩ := mem_outputIndices_iff.mp ho
    obtain ⟨old, hold, hkept⟩ := exists_mem_of_forall₂ h.bound hpin
    obtain ⟨j, hj, hold'⟩ := (hd.closed hp).outputs old hold
    obtain rfl := Option.some.inj (hidx.symm.trans (hkept j hold'))
    exact hj
  · have := lt_of_mem_outputIndices h.wired.formed.pinsInRange ho
    rw [h.size_eq] at this
    omega

/-- The outputs depend on the nodes that have been plugged while there were sockets: each hangs in
an output, or in a node that was plugged before it. -/
theorem reaches_iff (h : Matched operators inputs outputs d m) (hd : d.Settled p) (i : Nat) :
    (∃ o ∈ m.outputIndices, Reaches m.argsOf o i) ↔ i < p := by
  constructor
  · rintro ⟨o, ho, hreach⟩
    exact hreach.mem_of_closed (S := (· < p)) (fun k hk j hj => h.args_lt hd hk hj)
      (h.output_lt hd ho)
  · intro hi
    induction i using Nat.strongRecOn with
    | ind i ih =>
      rcases hd.plugged i hi with ⟨pin, hpin, hidx⟩ | ⟨k, slots, hk, hslot⟩
      · obtain ⟨pin', hpin', hkept⟩ := exists_mem_of_forall₂ h.bound.flip hpin
        exact ⟨i, mem_outputIndices_iff.mpr ⟨pin', hpin', hkept i hidx⟩, .refl⟩
      · obtain ⟨j, hj, hkept⟩ := exists_mem_of_forall₂ (h.keepsSlots hk).flip hslot
        obtain rfl := hkept i rfl
        have hlt := (h.after hj).1
        obtain ⟨o, ho, hreach⟩ := ih k hlt (Nat.lt_trans hlt hi)
        exact ⟨o, ho, hreach.tail hj⟩

end Matched

end

end Module

/-- How many arguments the operator of a node takes. -/
def Node.arity (node : Node) : Nat :=
  match node.op with
  | .prim op => op.arity
  | _ => 0

namespace Module

variable {σ : Type} [Source σ]

/-- The nodes that socket matching creates from a state of the source, in order: the operators that
it draws, then the inputs. -/
def createdNodes (inputs : String) (numNodes : Nat) (s : σ) : List Node :=
  draftNodes (drawOperators (inputs ≠ "") numNodes s).1 inputs.toList

/-- The module consists of the first `p` nodes of a list, in some order. The arguments that they
have been given are among them, and follow them to their new positions. -/
def HasFirst (m : Module) (p : Nat) (created : List Node) : Prop :=
  ∃ (order : List Nat) (args : Nat → List Nat), order.Perm (List.range p) ∧ m.size = p ∧
    (∀ i < p, ∀ j ∈ args i, i < j ∧ j < p) ∧
    ∀ k i : Nat, order[k]? = some i → ∃ node, created[i]? = some node ∧
      (args i).length = node.arity ∧
      m.nodes[k]? = some { node with args := (args i).map (newPosition order) }

omit [Source σ] in
theorem draftArities_eq {operators : List (Node × Operator)} {inputs : List Char}
    (hop : ∀ drawn ∈ operators, IsOperator drawn) :
    draftArities operators inputs = (draftNodes operators inputs).map Node.arity := by
  rw [draftArities, draftNodes, List.map_append, List.map_map, List.map_map]
  congr 1
  refine List.map_congr_left fun drawn hdrawn => ?_
  rw [Function.comp_apply, Node.arity, (hop drawn hdrawn).1]

/-- The module drawn with the inputs last has the nodes that are created before these make up for
the outputs and for their own arities, and no other. Which sockets they are plugged into makes no
difference. -/
theorem drawSocketMatching_keeps {inputs outputs : String} {numNodes : Nat} {s s' : σ} {m : Module}
    (h : (drawSocketMatching inputs outputs numNodes : TryDraw σ Module).run s = (.ok m, s')) :
    m.HasFirst (keptCount outputs.length ((createdNodes inputs numNodes s).map Node.arity))
      (createdNodes inputs numNodes s) := by
  obtain ⟨-, hop, -⟩ := always_drawOperators (inputs ≠ "") numNodes s
  obtain ⟨-, d, W, hmatched, hnorm⟩ :=
    (drawSocketMatching_cases inputs outputs numNodes s).1 m (congrArg Prod.fst h)
  rw [createdNodes]
  generalize (drawOperators (inputs ≠ "") numNodes s).1 = operators at hop hmatched ⊢
  obtain ⟨order, hnorm', hlayout, hmem, -⟩ := hmatched.wired.normalize_eq
  obtain rfl := Except.ok.inj (hnorm.symm.trans hnorm')
  rw [← draftArities_eq hop]
  have hsettled := hmatched.settled
  have hkept := fun i => (hmem i).trans (hmatched.reaches_iff hsettled i)
  have hperm := perm_range hlayout.nodup hkept
  refine ⟨order, W.argsOf, hperm, ?_, fun i hi j hj => ?_, fun k i hk => ?_⟩
  · rw [size_relayout hlayout.lt, hperm.length_eq, List.length_range]
  · exact ⟨(hmatched.after hj).1, hmatched.args_lt hsettled hi hj⟩
  · obtain ⟨node, hnode⟩ : ∃ node, W.nodes[i]? = some node :=
      ⟨_, List.getElem?_eq_getElem (hlayout.lt i (List.mem_of_getElem? hk))⟩
    obtain ⟨old, hold, heq, harity⟩ := hmatched.closed.created hmatched.opened hnode
    refine ⟨old, hold, ?_, ?_⟩
    · rw [draftArities_eq hop, List.getElem?_map, hold, Option.map_some] at harity
      rw [argsOf_eq hnode]
      exact (Option.some.inj harity).symm
    · rw [getElem?_relayout hlayout hk, hnode, Option.map_some, moveArgs_eq, argsOf_eq hnode, heq]

/-- A source that plays back some numbers, and 0 after them. -/
structure Tape where
  numbers : List Nat

instance : Source Tape where
  unit t := (0.5, t)
  upTo n t := (⟨t.numbers.headD 0 % (n + 1), Nat.mod_lt _ n.succ_pos⟩, ⟨t.numbers.tail⟩)
  wideUpTo n t := (⟨t.numbers.headD 0 % (n + 1), Nat.mod_lt _ n.succ_pos⟩, ⟨t.numbers.tail⟩)

/-- There is a module whenever there is something to wire. -/
theorem exists_drawSocketMatching (inputs outputs : String) (numNodes : Nat)
    (hpos : 0 < inputs.toList.length + numNodes) (s : σ) :
    ∃ m s',
      (drawSocketMatching inputs outputs numNodes : TryDraw σ Module).run s = (.ok m, s') := by
  have hend := yields_drawSocketMatching inputs outputs numNodes s
  cases hrun : (drawSocketMatching inputs outputs numNodes : TryDraw σ Module).run s with
  | mk result s' =>
    rw [hrun] at hend
    cases result with
    | error e => exact absurd hend.2 (Nat.ne_of_gt hpos)
    | ok m => exact ⟨m, s', rfl⟩

/-- A sum, two constants and another sum are drawn, and there is an input. The sockets run out after
the constants. -/
theorem drawSocketMatching_keeps_three :
    (createdNodes "x" 4 (⟨[9, 0, 0, 9]⟩ : Tape)).map Node.arity = [2, 0, 0, 2, 0] ∧
      ∃ m s', (drawSocketMatching "x" "r" 4 : TryDraw Tape Module).run ⟨[9, 0, 0, 9]⟩ =
        (.ok m, s') ∧ m.HasFirst 3 (createdNodes "x" 4 (⟨[9, 0, 0, 9]⟩ : Tape)) := by
  have harities : (createdNodes "x" 4 (⟨[9, 0, 0, 9]⟩ : Tape)).map Node.arity = [2, 0, 0, 2, 0] :=
    rfl
  obtain ⟨m, s', hrun⟩ :=
    exists_drawSocketMatching "x" "r" 4 (by decide) (⟨[9, 0, 0, 9]⟩ : Tape)
  have hkeeps := drawSocketMatching_keeps hrun
  rw [harities] at hkeeps
  exact ⟨harities, m, s', hrun, hkeeps⟩

end Module

end ImageCircuit
