import ImageCircuit.Proofs.FirstPins
import ImageCircuit.Proofs.Pieces
import ImageCircuit.Proofs.Success

/-!
# The grammar of a module

What a text must look like to be read as a module, said without a reader: how it is cut into
pieces, what the words of each segment denote, and what must hold of the pieces together. The
reader goes through the segments from left to right and binds pins as it goes; the grammar knows no
order.

* `Denotes`: the node that the words of a segment stand for
* `Pieces.Grammatical`: what holds of the pieces of a module's text
* `Pieces.Describes`: the module that the pieces stand for
-/

namespace ImageCircuit

open Text (trim splitOnce splitAll words isBlank)

/-! ## Pieces -/

/-- The pieces of a text in the shape of a module. -/
structure Pieces where
  outputs : List Char
  name : List Char
  inputs : List Char
  segments : List (List Char)

/-- The text is `(outputs)name(inputs)[segment|segment|...]`, cut at the first brackets that fit.
Blanks among the pins and around the name do not count. -/
def Pieces.CutFrom (p : Pieces) (text : List Char) : Prop :=
  ∃ outputs name inputs body,
    text = '(' :: outputs ++ ')' :: name ++ '(' :: inputs ++ ')' :: '[' :: body ++ [']'] ∧
    ')' ∉ outputs ∧ '(' ∉ name ∧ ')' ∉ inputs ∧
    p = ⟨outputs.filter (!isBlank ·), trim name, inputs.filter (!isBlank ·), splitAll '|' body⟩

/-- The labels of a segment: the trimmed text before its colon. -/
def labelsOf (segment : List Char) : List Char :=
  match splitOnce ':' segment with
  | some (labels, _) => trim labels
  | none => []

/-- The text of a segment behind its colon. -/
def bodyOf (segment : List Char) : List Char :=
  match splitOnce ':' segment with
  | some (_, body) => body
  | none => segment

/-- The words of a segment behind its colon. -/
def wordsOf (segment : List Char) : List (List Char) :=
  words (bodyOf segment)

/-- The words are readable arguments. -/
def ReadsArgs (words : List (List Char)) (args : List Nat) : Prop :=
  List.Forall₂ (fun word arg => Decimal.readCount word = some arg) words args

/-- The words of a segment stand for a node, in a module with these inputs. -/
inductive Denotes (inputs : List Char) : List (List Char) → Node → Prop
  | constant {literal : List Char} {value : Float}
      (hvalue : Decimal.readFloat literal = some value) :
    Denotes inputs [['='], literal] (.constant value)
  | operator {op : Operator} {words : List (List Char)} {args : List Nat} (hop : op ≠ .const)
      (hargs : ReadsArgs words args) (harity : args.length = op.arity) :
    Denotes inputs (op.symbol.toList :: words) (.ofOp (.prim op) args)
  | input {name : Char} (hname : Operator.isSymbol (.ofList [name]) = false)
      (hmem : name ∈ inputs) :
    Denotes inputs [[name]] (.ofOp (.input name) [])
  | symbol {word : List Char} {words : List (List Char)} {args : List Nat}
      (hword : Operator.isSymbol (.ofList word) = false) (hinput : ∀ c ∈ inputs, word ≠ [c])
      (hargs : ReadsArgs words args) :
    Denotes inputs (word :: words) (.ofOp (.symbol (.ofList word)) args)

/-- What holds of the pieces of a module's text. -/
structure Pieces.Grammatical (p : Pieces) : Prop where
  name : Operator.isSymbol (.ofList p.name) = false
  inputs : p.inputs.Nodup
  outputs : p.outputs.Nodup
  outputs_ne_nil : p.outputs ≠ []
  colon : ∀ segment ∈ p.segments, segment.count ':' ≤ 1
  label : ∀ segment ∈ p.segments, ∀ c ∈ labelsOf segment, c ∈ p.outputs
  label_once : ∀ c ∈ p.outputs, (p.segments.flatMap labelsOf).count c = 1
  node : ∀ segment ∈ p.segments, ∃ node,
    Denotes p.inputs (wordsOf segment) node ∧ ∀ arg ∈ node.args, arg < p.segments.length
  input_once : ∀ c ∈ p.inputs, p.segments.countP (wordsOf · = [[c]]) ≤ 1

/-- The module that pieces stand for. -/
structure Pieces.Describes (p : Pieces) (m : Module) : Prop where
  name : m.name = .ofList p.name
  nodes : List.Forall₂ (fun segment node => Denotes p.inputs (wordsOf segment) node)
    p.segments m.nodes
  outputs : m.outputs.map (·.name) = p.outputs
  inputs : m.inputs.map (·.name) = p.inputs
  output : ∀ pin ∈ m.outputs, ∃ i segment,
    pin.index = some i ∧ p.segments[i]? = some segment ∧ pin.name ∈ labelsOf segment
  input : ∀ pin ∈ m.inputs, ∀ i,
    pin.index = some i ↔ ∃ segment, p.segments[i]? = some segment ∧ wordsOf segment = [[pin.name]]

/-! ## Words -/

variable {inputs : List Char} {word : List Char} {args : List (List Char)} {node : Node}

theorem ofSymbol?_eq_none_iff {word : String} :
    Operator.ofSymbol? word = none ↔ Operator.isSymbol word = false := by
  rw [Operator.isSymbol, ← Option.not_isSome_iff_eq_none, Bool.not_eq_true]

theorem ofSymbol?_ofList_eq_some_iff {op : Operator} :
    Operator.ofSymbol? (.ofList word) = some op ↔ word = op.symbol.toList := by
  constructor
  · intro h
    rw [Operator.symbol_of_ofSymbol? h, String.toList_ofList]
  · rintro rfl
    rw [String.ofList_toList, Operator.ofSymbol?_symbol]

/-- The words that denote an input are its name. -/
theorem Denotes.eq_input_iff {words : List (List Char)} {c : Char} (h : Denotes inputs words node)
    (hc : c ∈ inputs) : words = [[c]] ↔ node.op = .input c := by
  cases h with
  | constant => exact iff_of_false (by simp) fun h => by cases h
  | @operator op words args hop hargs harity =>
    refine iff_of_false (fun heq => hop ?_) fun h => by cases h
    obtain ⟨-, rfl⟩ := List.cons.inj heq
    cases hargs
    exact Operator.arity_eq_zero_iff.mp harity.symm
  | @input name =>
    show [[name]] = [[c]] ↔ Op.input name = .input c
    simp
  | symbol hword hinput =>
    refine iff_of_false (fun heq => ?_) fun h => by cases h
    exact hinput c hc (List.cons.inj heq).1

theorem Denotes.mem_of_op {words : List (List Char)} {c : Char} (h : Denotes inputs words node)
    (hop : node.op = .input c) : c ∈ inputs := by
  cases h with
  | input _ hmem => exact Op.input.inj hop ▸ hmem
  | _ => cases hop

theorem readArgs_eq_ok_iff {i : Nat} {ns : List Nat} :
    readArgs i args = .ok ns ↔ ReadsArgs args ns := by
  rw [readArgs, mapM_eq_ok_iff, ReadsArgs]
  refine iff_of_eq (congrArg (List.Forall₂ · args ns) ?_)
  funext word n
  cases Decimal.readCount word <;> simp

theorem expectEnd_eq_ok_iff {i : Nat} : expectEnd i args = .ok () ↔ args = [] := by
  cases args <;> simp [expectEnd]

namespace Module

variable {m m' : Module} {outputs : List Char} {place : Char → Option Nat} {i : Nat}

theorem inputNamed?_eq_some_iff {c : Char} {k : Nat} :
    m.inputNamed? word = some (c, k) ↔ word = [c] ∧ m.inputPosition? c = some k := by
  unfold inputNamed?
  split
  · next d =>
    rw [Option.map_eq_some_iff]
    constructor
    · rintro ⟨j, hj, heq⟩
      cases heq
      exact ⟨rfl, hj⟩
    · rintro ⟨hword, hk⟩
      cases hword
      exact ⟨k, hk, rfl⟩
  · next hword => exact iff_of_false nofun fun h => hword c h.1

theorem inputNamed?_eq_none_iff (h : m.inputs = firstPins inputs place) :
    m.inputNamed? word = none ↔ ∀ c ∈ inputs, word ≠ [c] := by
  constructor
  · rintro hnone c hc rfl
    obtain ⟨k, hk⟩ := exists_idxOf?_iff.mpr hc
    have hpos : m.inputPosition? c = some k := by
      rw [inputPosition?, h, pinPosition?_firstPins, hk]
    have := inputNamed?_eq_some_iff.mpr ⟨rfl, hpos⟩
    rw [hnone] at this
    cases this
  · intro hword
    rw [Option.eq_none_iff_forall_ne_some]
    rintro ⟨c, k⟩ hsome
    obtain ⟨rfl, hk⟩ := inputNamed?_eq_some_iff.mp hsome
    rw [inputPosition?, h, pinPosition?_firstPins] at hk
    exact hword c (exists_idxOf?_iff.mp ⟨k, hk⟩) rfl

/-! ## Nodes -/

/-- Node `i` has been read: if it stands for an input, that has a place now. -/
def placeInput (place : Char → Option Nat) (i : Nat) (op : Op) : Char → Option Nat :=
  fun c => if op = .input c then some i else place c

theorem placeInput_of_ne {op : Op} (h : ∀ c, op ≠ .input c) : placeInput place i op = place := by
  funext c
  exact if_neg (h c)

theorem placeInput_input {c : Char} :
    placeInput place i (.input c) = Function.update place c (some i) := by
  funext d
  rw [placeInput, Function.update_apply]
  exact if_congr ⟨fun h => (Op.input.inj h).symm, fun h => h ▸ rfl⟩ rfl rfl

/-- A node can be read from the words that denote it, unless it stands for an input that has a
place already. -/
theorem readNode_of_denotes {words : List (List Char)} (h : m.inputs = firstPins inputs place)
    (hden : Denotes inputs words node) (hfree : ∀ c, node.op = .input c → place c = none) :
    m.readNode i words =
      .ok ({ m with inputs := firstPins inputs (placeInput place i node.op) }, node) := by
  have hsame : ∀ op : Op, (∀ c, op ≠ .input c) →
      { m with inputs := firstPins inputs (placeInput place i op) } = m :=
    fun op hop => by rw [placeInput_of_ne hop, ← h]
  cases hden with
  | constant hvalue =>
    rw [hsame _ (fun _ hop => by cases hop), readNode.eq_def]
    simp only [show Operator.ofSymbol? (.ofList ['=']) = some .const from
      Operator.ofSymbol?_symbol .const, hvalue]
    rfl
  | @operator op words ns hop hargs harity =>
    rw [hsame _ (fun _ hop => by cases hop), readNode.eq_def]
    dsimp only
    have hword : Operator.ofSymbol? (.ofList op.symbol.toList) = some op :=
      ofSymbol?_ofList_eq_some_iff.mpr rfl
    split
    · next hconst => exact absurd (Option.some.inj (hword.symm.trans hconst)) hop
    · next op' _ hop' =>
      obtain rfl := Option.some.inj (hword.symm.trans hop')
      rw [readArgs_eq_ok_iff.mpr hargs]
      exact if_pos harity
    · next hnone => cases hword.symm.trans hnone
  | @input c hname hmem =>
    obtain ⟨k, hk⟩ := exists_idxOf?_iff.mpr hmem
    have hpos : m.inputPosition? c = some k := by
      rw [inputPosition?, h, pinPosition?_firstPins, hk]
    have hplace : isBound m.inputs k = false := by
      rw [h, isBound_firstPins hk, hfree c rfl]
      rfl
    have hbind : bindPin m.inputs k i = firstPins inputs (placeInput place i (.input c)) := by
      rw [h, bindPin_firstPins hk, placeInput_input]
    rw [readNode.eq_def]
    simp only [ofSymbol?_eq_none_iff.mpr hname, inputNamed?_eq_some_iff.mpr ⟨rfl, hpos⟩, hplace,
      hbind]
    rfl
  | @symbol word words ns hword hinput hargs =>
    rw [hsame _ (fun _ hop => by cases hop), readNode.eq_def]
    simp only [ofSymbol?_eq_none_iff.mpr hword, (inputNamed?_eq_none_iff h).mpr hinput,
      readArgs_eq_ok_iff.mpr hargs]
    rfl

/-- A node that has been read is what its words denote. -/
theorem denotes_of_readNode {words : List (List Char)} (h : m.inputs = firstPins inputs place)
    (hread : m.readNode i words = .ok (m', node)) :
    Denotes inputs words node ∧ ∀ c, node.op = .input c → place c = none := by
  unfold readNode at hread
  split at hread
  · cases hread
  next word args =>
  split at hread
  · next hop =>
    split at hread
    · cases hread
    · next literal rest =>
      split at hread
      · cases hread
      · next value hvalue =>
        obtain ⟨⟨⟩, hend, hread⟩ := exists_of_bind_eq_ok hread
        obtain rfl := expectEnd_eq_ok_iff.mp hend
        obtain ⟨-, rfl⟩ := Prod.mk.inj (Except.ok.inj hread)
        obtain rfl := ofSymbol?_ofList_eq_some_iff.mp hop
        exact ⟨.constant hvalue, fun c hc => by cases hc⟩
  · next op hconst hop =>
    obtain ⟨ns, hargs, hread⟩ := exists_of_bind_eq_ok hread
    split at hread
    · next harity =>
      obtain ⟨-, rfl⟩ := Prod.mk.inj (Except.ok.inj hread)
      obtain rfl := ofSymbol?_ofList_eq_some_iff.mp hop
      exact ⟨.operator hconst (readArgs_eq_ok_iff.mp hargs) harity, fun c hc => by cases hc⟩
    · cases hread
  · next hnone =>
    split at hread
    · next name k hname =>
      obtain ⟨rfl, hk⟩ := inputNamed?_eq_some_iff.mp hname
      rw [inputPosition?, h, pinPosition?_firstPins] at hk
      split at hread
      · cases hread
      · next hfree =>
        rw [h, isBound_firstPins hk, Bool.not_eq_true, Option.isSome_eq_false_iff,
          Option.isNone_iff_eq_none] at hfree
        obtain ⟨⟨⟩, hend, hread⟩ := exists_of_bind_eq_ok hread
        obtain rfl := expectEnd_eq_ok_iff.mp hend
        obtain ⟨-, rfl⟩ := Prod.mk.inj (Except.ok.inj hread)
        refine ⟨.input (ofSymbol?_eq_none_iff.mp hnone) (exists_idxOf?_iff.mp ⟨k, hk⟩), ?_⟩
        rintro _ ⟨⟩
        exact hfree
    · next hname =>
      obtain ⟨ns, hargs, hread⟩ := exists_of_bind_eq_ok hread
      obtain ⟨-, rfl⟩ := Prod.mk.inj (Except.ok.inj hread)
      exact ⟨.symbol (ofSymbol?_eq_none_iff.mp hnone) ((inputNamed?_eq_none_iff h).mp hname)
        (readArgs_eq_ok_iff.mp hargs), fun c hc => by cases hc⟩

theorem readNode_eq_ok_iff {words : List (List Char)} (h : m.inputs = firstPins inputs place) :
    m.readNode i words = .ok (m', node) ↔
      Denotes inputs words node ∧ (∀ c, node.op = .input c → place c = none) ∧
        m' = { m with inputs := firstPins inputs (placeInput place i node.op) } := by
  constructor
  · intro hread
    obtain ⟨hden, hfree⟩ := denotes_of_readNode h hread
    refine ⟨hden, hfree, ?_⟩
    rw [readNode_of_denotes h hden hfree] at hread
    exact (Prod.mk.inj (Except.ok.inj hread)).1.symm
  · rintro ⟨hden, hfree, rfl⟩
    exact readNode_of_denotes h hden hfree

end Module

end ImageCircuit
