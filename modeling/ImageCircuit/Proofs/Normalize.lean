import ImageCircuit.Circuit.Basic
import ImageCircuit.Proofs.Calls
import ImageCircuit.Proofs.Eval
import ImageCircuit.Proofs.Parse

/-!
# Normalization keeps the meaning

Evaluating the normal form of a module finds what the nodes of the module itself mean, in whatever
order they stand and whichever of them no output needs.

* `Module.outputMeanings_eq_none_iff`: the outputs have values unless one depends on a failure
* `Module.normalize_preserves_meaning`: evaluation after normalization
-/

namespace ImageCircuit.Module

variable {m : Module} {noise : Float → Float → Float} {answer : Nat → List Float → Option Float}
  {values : List Float}

/-- Some output has no meaning exactly if it depends on a node that fails. -/
theorem outputMeanings_eq_none_iff (hm : m.Formed) (hac : Acyclic m.argsOf) :
    m.outputMeanings noise answer values = none ↔
      ∃ o ∈ m.outputIndices, ∃ j, Reaches m.argsOf o j ∧ m.Fails noise answer values j := by
  rw [outputMeanings, mapM_eq_none_iff]
  constructor
  · rintro ⟨pin, hpin, hnone⟩
    obtain ⟨o, ho, hidx⟩ := hm.output pin hpin
    simp only [hidx] at hnone
    exact ⟨o, mem_outputIndices_iff.mpr ⟨pin, hpin, hidx⟩,
      (meaning_eq_none_iff hm hac ho).mp hnone⟩
  · rintro ⟨o, ho, hfails⟩
    obtain ⟨pin, hpin, hidx⟩ := mem_outputIndices_iff.mp ho
    refine ⟨pin, hpin, ?_⟩
    simp only [hidx]
    exact (meaning_eq_none_iff hm hac (hm.outputIndices_lt o ho)).mpr hfails

/-- A module as it is read, some of its words turned into calls, can be normalized if its arguments
close no cycle. Over surroundings that answer by the arguments of a call, evaluating the normal form
then gives the values that the outputs of the module itself mean, and it fails exactly if one of
them depends on a word that has not been looked up or on a call without an answer. -/
theorem normalize_preserves_meaning {text : String} {source : Module}
    (hread : Module.parse text = .ok source) (hres : source.Resolves m) (hac : Acyclic m.argsOf)
    {σ : Type} {ctx : Context σ} {answer : Nat → List Float → Except Error Float}
    (hcall : ∀ index xs s, (ctx.call index xs s).1 = answer index xs) :
    ∃ m', m.normalize = .ok m' ∧ ∀ values s,
      (∀ ys, (m'.eval ctx values s).1 = .ok ys ↔
        m.outputMeanings ctx.noise (fun index xs => (answer index xs).toOption) values = some ys) ∧
      ((∃ e, (m'.eval ctx values s).1 = .error e) ↔
        ∃ o ∈ m.outputIndices, ∃ j, Reaches m.argsOf o j ∧
          m.Fails ctx.noise (fun index xs => (answer index xs).toOption) values j) := by
  have hm : m.Formed := hres.formed (formed_of_parseChars hread).1
  obtain ⟨order, hnorm, h, hmem, hsorted, -⟩ := normalize_eq hm.within hm.pinsInRange hac
  have hout : ∀ o ∈ m.outputIndices, o ∈ order := fun o ho => (hmem o).mpr ⟨o, ho, .refl⟩
  refine ⟨m.relayout order, hnorm, fun values s => ?_⟩
  have hanswers : ∀ index, ctx.Answers (fun index xs => (answer index xs).toOption)
      (fun _ => True) index :=
    fun index => ⟨fun xs s _ => by rw [hcall], fun _ _ _ => trivial⟩
  obtain ⟨heval, -⟩ := eval_eq (hm.relayout h hout) hsorted (fun index _ => hanswers index) values
    (s := s) trivial
  rw [outputMeanings_relayout hm hac h hout] at heval
  rw [← outputMeanings_eq_none_iff hm hac, ← heval]
  cases (((m.relayout order).eval ctx values s).1) <;> simp [Except.toOption]

/-- A module with arguments that point both ways and a last node that no output needs. -/
def mixed : Module where
  name := "m"
  nodes := [.ofOp (.input 'x') [], .ofOp (.prim .add) [0, 2], .ofOp (.symbol "f") [0],
    .ofOp (.symbol "g") [2]]
  inputs := [⟨'x', some 0⟩]
  outputs := [⟨'a', some 1⟩]

/-- The module `mixed` with one of its words turned into a call. -/
def mixedCall : Module :=
  { mixed with nodes := mixed.nodes.set 2 (.ofOp (.call "f" 0) [0]) }

theorem parse_mixed : Module.parse "(a)m(x)[x|a:+ 0 2|f 0|g 2]" = .ok mixed :=
  rfl

theorem resolves_mixed : mixed.Resolves mixedCall :=
  ⟨rfl, rfl, rfl, .cons (.inl rfl) (.cons (.inl rfl)
    (.cons (.inr ⟨_, _, rfl, rfl⟩) (.cons (.inl rfl) .nil)))⟩

theorem acyclic_mixedCall : Acyclic mixedCall.argsOf := by
  refine acyclic_of_lt (fun i => [0, 2, 1, 2].getD i 0) fun a b hb => ?_
  have hall : ∀ a < mixedCall.size, ∀ b ∈ mixedCall.argsOf a,
      [0, 2, 1, 2].getD b 0 < [0, 2, 1, 2].getD a 0 := by decide
  exact hall a (lt_of_mem_argsOf hb) b hb

/-- Answers the calls of one module with their first argument. -/
def firstArgument (index : Nat) (xs : List Float) : Except Error Float :=
  if index = 0 then .ok (xs.headD 0) else .error (.noModule index)

def firstArgumentContext : Context Unit where
  noise := Noise.standard.at
  call index xs s := (firstArgument index xs, s)

theorem normalize_preserves_meaning_mixed :
    Module.parse "(a)m(x)[x|a:+ 0 2|f 0|g 2]" = .ok mixed ∧ mixed.Resolves mixedCall ∧
      Acyclic mixedCall.argsOf ∧
      (∀ index xs s, (firstArgumentContext.call index xs s).1 = firstArgument index xs) ∧
      ∃ m', mixedCall.normalize = .ok m' ∧ ∀ values s,
        (∀ ys, (m'.eval firstArgumentContext values s).1 = .ok ys ↔
          mixedCall.outputMeanings firstArgumentContext.noise
            (fun index xs => (firstArgument index xs).toOption) values = some ys) ∧
        ((∃ e, (m'.eval firstArgumentContext values s).1 = .error e) ↔
          ∃ o ∈ mixedCall.outputIndices, ∃ j, Reaches mixedCall.argsOf o j ∧
            mixedCall.Fails firstArgumentContext.noise
              (fun index xs => (firstArgument index xs).toOption) values j) :=
  ⟨parse_mixed, resolves_mixed, acyclic_mixedCall, fun _ _ _ => rfl,
    normalize_preserves_meaning parse_mixed resolves_mixed acyclic_mixedCall fun _ _ _ => rfl⟩

end ImageCircuit.Module
