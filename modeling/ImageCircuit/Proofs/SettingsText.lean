import ImageCircuit.Proofs.JsonText
import ImageCircuit.Settings.Json

/-!
# Settings read back

The document of some settings names every field, and each field is written as what its own reader
takes back. Of the fields only the probabilities can come back changed: a literal is not read as the
nearest double, but multiplied or divided by a power of ten.

* `Json.record?_fields`: an object with known names is a record of its members
* `Settings.parse_text_eq_ok_iff`: settings that a run accepts are read from their document if and
  only if their probabilities are read from their literals
-/

namespace ImageCircuit

namespace Json

/-! ## Values of one type -/

variable {n : Nat} {x : Float}

/-- Every double is written as a literal or as null. -/
theorem writable_ofFloat (x : Float) : (ofFloat x).Writable := by
  rw [ofFloat]
  cases h : Number.ofFloat? x with
  | none => exact .null
  | some n => exact .number (Number.isLiteral_of_ofFloat? h)

theorem writable_ofNat (n : Nat) : (ofNat n).Writable :=
  .number (Number.isLiteral_ofNat n)

theorem nat?_ofNat (h : n < Decimal.wordLimit) : nat? (ofNat n) = some n :=
  Decimal.readCount_digitsOf h

theorem word?_ofNat (w : UInt64) : word? (ofNat w.toNat) = some w := by
  rw [word?, nat?_ofNat w.toNat_lt, Option.map_some, UInt64.ofNat_toNat]

@[simp] theorem text?_text (s : String) : text? (text s) = some s :=
  rfl

/-- The double is read from the text of its literal. -/
def ReadsBack (x : Float) : Prop :=
  (parse? (ofFloat x).compact).bind float? = some x

instance : Decidable (ReadsBack x) :=
  inferInstanceAs (Decidable (_ = _))

example : ReadsBack 0.1 ∧ ¬ ReadsBack 0.9999999999999999 := by decide +kernel

theorem readsBack_iff : ReadsBack x ↔ float? (ofFloat x) = some x := by
  rw [ReadsBack, parse?_compact (writable_ofFloat x), Option.bind_some]

/-! ## Records -/

theorem writable_fields {members : List (String × Json)}
    (h : ∀ member ∈ members, member.2.Writable) : (fields members).Writable := by
  refine .object ?_ ?_ <;> simp only [List.forall_mem_map]
  · exact fun _ _ => rfl
  · exact h

theorem mapM_map_eq_some {α β : Type} {f : β → Option α} {g : α → β} (h : ∀ a, f (g a) = some a)
    (as : List α) : (as.map g).mapM f = some as := by
  induction as with
  | nil => rfl
  | cons a as ih =>
    rw [List.map_cons, List.mapM_cons, h, ih]
    rfl

/-- An object with known names, none of them repeated, is a record of its members. -/
theorem record?_fields {names : List String} {members : List (String × Json)}
    (hnames : ∀ name ∈ members.map (·.1), name ∈ names) (h : (members.map (·.1)).Nodup) :
    record? names (fields members) = some members := by
  have hknown : ∀ member ∈ members, names.contains member.1 = true := fun member hmember =>
    List.contains_iff_mem.mpr (hnames _ (List.mem_map_of_mem hmember))
  have hrepeated := repeated?_eq_none_iff.mpr h
  rw [fields, record?, mapM_map_eq_some (by exact fun _ => rfl)]
  show (if (repeated? ((members.filter fun member => names.contains member.1).map (·.1))).isSome
    then none else some (members.filter fun member => names.contains member.1)) = _
  rw [List.filter_eq_self.mpr hknown, hrepeated]
  rfl

variable {α : Type} {name other : String} {j : Json} {members : List (String × Json)}
  {read : Json → Option α} {standard : α}

@[simp] theorem field?_cons_self : field? ((name, j) :: members) name read standard = read j := by
  rw [field?, List.lookup_cons_self]

@[simp] theorem field?_cons_of_ne (h : name ≠ other) :
    field? ((other, j) :: members) name read standard = field? members name read standard := by
  have hlookup : ((other, j) :: members).lookup name = members.lookup name := by
    rw [List.lookup_cons, beq_false_of_ne h]
  rw [field?, field?, hlookup]

end Json

/-! ## Settings -/

open Json (float? ofFloat)

/-- The settings whose counts fit into a word. -/
structure Settings.Words (s : Settings) : Prop where
  swapAttempts : s.mutation.swapAttempts < Decimal.wordLimit
  numNodes : s.generator.numNodes < Decimal.wordLimit
  size : s.render.size < Decimal.wordLimit
  samples : s.render.samples < Decimal.wordLimit

theorem MutationSettings.ofJson?_toJson {s : MutationSettings}
    (h : s.swapAttempts < Decimal.wordLimit) :
    ofJson? s.toJson = (do
      let operatorChange ← float? (ofFloat s.operatorChange)
      let connectionSwap ← float? (ofFloat s.connectionSwap)
      some { s with operatorChange, connectionSwap }) := by
  rw [ofJson?, toJson, Json.record?_fields (by simp [fieldNames]) (by simp)]
  simp [Json.nat?_ofNat h]

theorem GeneratorSettings.ofJson?_toJson {s : GeneratorSettings}
    (h : s.numNodes < Decimal.wordLimit) : ofJson? s.toJson = some s := by
  have hwiring : Wiring.ofJson? (.text s.wiring.word) = some s.wiring := by
    cases s.wiring <;> rfl
  rw [ofJson?, toJson, Json.record?_fields (by simp [fieldNames]) (by simp)]
  simp [Json.nat?_ofNat h, hwiring]

theorem RenderSettings.ofJson?_toJson {s : RenderSettings} (hsize : s.size < Decimal.wordLimit)
    (hsamples : s.samples < Decimal.wordLimit) : ofJson? s.toJson = some s := by
  rw [ofJson?, toJson, Json.record?_fields (by simp [fieldNames]) (by simp)]
  simp [Json.nat?_ofNat hsize, Json.nat?_ofNat hsamples, Json.word?_ofNat]

namespace Settings

variable {s : Settings}

/-- The document of some settings has nothing but literals and strings in it. -/
theorem writable_toJson (s : Settings) : s.toJson.Writable := by
  simp only [toJson, MutationSettings.toJson, GeneratorSettings.toJson, RenderSettings.toJson]
  refine Json.writable_fields ?_
  simp only [List.forall_mem_cons, List.not_mem_nil, false_implies, implies_true, and_true]
  refine ⟨?_, ?_, ?_⟩ <;> refine Json.writable_fields ?_ <;>
    simp [Json.writable_ofFloat, Json.writable_ofNat, Json.Writable.text]

theorem ofJson?_toJson (h : s.Words) :
    ofJson? s.toJson =
      (MutationSettings.ofJson? s.mutation.toJson).map fun mutation => { s with mutation } := by
  rw [ofJson?, toJson, Json.record?_fields (by simp [fieldNames]) (by simp)]
  cases hmutation : MutationSettings.ofJson? s.mutation.toJson <;>
    simp [hmutation, GeneratorSettings.ofJson?_toJson h.numNodes,
      RenderSettings.ofJson?_toJson h.size h.samples]

theorem parse_eq_ok_iff {document : String} :
    parse document = .ok s ↔
      (Json.parse? document).bind ofJson? = some s ∧ s.validate = .ok () := by
  rw [parse]
  cases hread : (Json.parse? document).bind ofJson? with
  | none => exact iff_of_false nofun nofun
  | some t =>
    cases hvalid : t.validate with
    | error e =>
      refine iff_of_false (by simp [hvalid]) ?_
      rintro ⟨⟨⟩, hok⟩
      cases hvalid.symm.trans hok
    | ok _ =>
      simp only [hvalid, bind, Except.bind, pure, Except.pure, Except.ok.injEq, Option.some.injEq]
      exact ⟨fun heq => ⟨heq, heq ▸ hvalid⟩, fun h => h.1⟩

/-- Settings that a run accepts, whatever the names of their pins are, are read from their document
exactly if their two probabilities are read from their literals. -/
theorem parse_text_eq_ok_iff (hvalid : s.validate = .ok ()) (h : s.Words) :
    parse s.text = .ok s ↔
      Json.ReadsBack s.mutation.operatorChange ∧ Json.ReadsBack s.mutation.connectionSwap := by
  have hsame : ∀ operatorChange connectionSwap : Float,
      { s with mutation := { s.mutation with operatorChange, connectionSwap } } = s ↔
        operatorChange = s.mutation.operatorChange ∧
          connectionSwap = s.mutation.connectionSwap := by
    intro operatorChange connectionSwap
    constructor
    · intro heq
      rw [← heq]
      exact ⟨rfl, rfl⟩
    · rintro ⟨rfl, rfl⟩
      rfl
  rw [parse_eq_ok_iff, text, Json.parse?_compact s.writable_toJson, Option.bind_some,
    ofJson?_toJson h, MutationSettings.ofJson?_toJson h.swapAttempts, Json.readsBack_iff,
    Json.readsBack_iff]
  cases float? (ofFloat s.mutation.operatorChange) <;>
    cases float? (ofFloat s.mutation.connectionSwap) <;> simp [hvalid, hsame]

/-- Pins that are quotes, controls and letters of other scripts, the largest counts and seeds, and a
probability with an exponent. -/
def unwieldy : Settings where
  mutation := { operatorChange := 0.3, connectionSwap := 1e-7, swapAttempts := 0xFFFFFFFFFFFFFFFF }
  generator := {
    numNodes := 0xFFFFFFFFFFFFFFFF
    inputs := "\"\\/\n\x01\x7f"
    outputs := "é\x00界😀"
    wiring := .postHoc }
  render := {
    size := 0xFFFFFFFFFFFFFFFF
    samples := 0xFFFFFFFFFFFFFFFF
    seed := 0xFFFFFFFFFFFFFFFF
    noiseSeed := 0x8000000000000001 }

theorem parse_text_eq_ok_iff_unwieldy :
    unwieldy.validate = .ok () ∧ unwieldy.Words ∧ parse unwieldy.text = .ok unwieldy := by
  have hvalid : unwieldy.validate = .ok () := by rfl
  have hwords : unwieldy.Words := by constructor <;> decide
  exact ⟨hvalid, hwords, (parse_text_eq_ok_iff hvalid hwords).mpr (by decide +kernel)⟩

end Settings

end ImageCircuit
