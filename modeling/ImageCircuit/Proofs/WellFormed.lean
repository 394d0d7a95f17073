import ImageCircuit.Proofs.Calls
import ImageCircuit.Proofs.Frame
import ImageCircuit.Proofs.Parse

/-!
# Well-formed circuits

* `Circuit.WellFormed`: what every circuit satisfies
* `Circuit.wellFormed_of_compose`: modules in normal form are put together to a well-formed circuit
* `Circuit.WellFormed.replace`: modules may be replaced by others that fit in their places
-/

namespace ImageCircuit

namespace Module

/-- The module `m'` fits in the place of `m`: its pins have the same names, and it has no more nodes
and no other calls or words. -/
structure Fits (m m' : Module) : Prop where
  name : m'.name = m.name
  inputs : m'.inputs.map (·.name) = m.inputs.map (·.name)
  outputs : m'.outputs.map (·.name) = m.outputs.map (·.name)
  size : m'.size ≤ m.size
  op : ∀ i op, m'.opAt i = some op → (∃ primitive, op = .prim primitive) ∨
    ∃ j, m.opAt j = some op ∧ (m.argsOf j).length = (m'.argsOf i).length

namespace Fits

variable {m m' m'' : Module}

theorem refl (m : Module) : m.Fits m :=
  ⟨rfl, rfl, rfl, Nat.le_refl _, fun i _ hop => .inr ⟨i, hop, rfl⟩⟩

theorem trans (h : m.Fits m') (h' : m'.Fits m'') : m.Fits m'' where
  name := h'.name.trans h.name
  inputs := h'.inputs.trans h.inputs
  outputs := h'.outputs.trans h.outputs
  size := Nat.le_trans h'.size h.size
  op i op hop := by
    rcases h'.op i op hop with hprim | ⟨j, hj, hlen⟩
    · exact .inl hprim
    · rcases h.op j op hj with hprim | ⟨k, hk, hlen'⟩
      · exact .inl hprim
      · exact .inr ⟨k, hk, hlen'.trans hlen⟩

theorem outputNames (h : m.Fits m') : m'.outputNames = m.outputNames := by
  rw [Module.outputNames, Module.outputNames, h.outputs]

theorem length_outputs (h : m.Fits m') : m'.outputs.length = m.outputs.length := by
  simpa using congrArg List.length h.outputs

theorem exists_output (h : m.Fits m') {k : Nat} {pin : Pin} (hpin : m.outputs[k]? = some pin) :
    ∃ pin', m'.outputs[k]? = some pin' ∧ pin'.name = pin.name := by
  have hname := congrArg (·[k]?) h.outputs
  rw [List.getElem?_map, List.getElem?_map, hpin] at hname
  exact Option.map_eq_some_iff.mp hname

theorem length_inputs (h : m.Fits m') : m'.inputs.length = m.inputs.length := by
  simpa using congrArg List.length h.inputs

theorem call (h : m.Fits m') {i index : Nat} {word : String}
    (hop : m'.opAt i = some (.call word index)) :
    ∃ j, m.opAt j = some (.call word index) ∧ (m.argsOf j).length = (m'.argsOf i).length := by
  rcases h.op i _ hop with ⟨_, hprim⟩ | h
  · cases hprim
  · exact h

theorem symbol (h : m.Fits m') {i : Nat} {word : String}
    (hop : m'.opAt i = some (.symbol word)) : ∃ j, m.opAt j = some (.symbol word) := by
  rcases h.op i _ hop with ⟨_, hprim⟩ | ⟨j, hj, -⟩
  · cases hprim
  · exact ⟨j, hj⟩

theorem mem_callees (h : m.Fits m') {k : Nat} (hk : k ∈ m'.callees) : k ∈ m.callees := by
  obtain ⟨i, word, hop⟩ := mem_callees_iff.mp hk
  obtain ⟨j, hj, -⟩ := h.call hop
  exact mem_callees_iff.mpr ⟨j, word, hj⟩

end Fits

theorem SameFrame.fits {m m' : Module} (h : m.SameFrame m') : m.Fits m' where
  name := h.name
  inputs := by rw [h.inputs]
  outputs := by rw [h.outputs]
  size := Nat.le_of_eq h.size
  op i op hop := .inr ⟨i, h.op i ▸ hop, by rw [h.args]⟩

theorem SameFrame.normal {m m' : Module} (h : m.SameFrame m') (hm : m.Normal) : m'.Normal :=
  hm.of_sameArgs (h.formed hm.toFormed) h.argsOf_eq h.size h.outputIndices

theorem Resolves.normal {m m' : Module} (h : m.Resolves m') (hm : m.Normal) : m'.Normal :=
  hm.of_sameArgs (h.formed hm.toFormed) h.argsOf_eq h.size h.outputIndices

end Module

namespace Circuit

/-- What every circuit satisfies that has been read or generated, and evaluated and mutated. -/
structure WellFormed (c : Circuit) : Prop where
  /-- No module has been renamed. -/
  names : c.names = c.modules.map (·.name)
  distinct : c.names.Nodup
  entry : ∃ m, c.modules[c.entryIndex]? = some m ∧ m.name = entryName ∧
    m.outputNames = entryOutputNames
  single : ∀ m ∈ c.modules, m.name ≠ entryName → m.outputs.length = 1
  normal : ∀ m ∈ c.modules, m.Normal
  resolved : ∀ m ∈ c.modules, ∀ i word, m.opAt i ≠ some (.symbol word)
  /-- A call names another module than the entry at its place and has an argument for each of its
  inputs. -/
  call : ∀ m ∈ c.modules, ∀ i word index, m.opAt i = some (.call word index) →
    word ≠ entryName ∧ ∃ callee, c.modules[index]? = some callee ∧ callee.name = word ∧
      callee.inputs.length = (m.argsOf i).length
  acyclic : Acyclic (callGraph c.modules)

variable {c : Circuit} {modules modules' : List Module}

/-! ## Composition -/

theorem entry_of_checkEntry (hok : checkEntry modules = .ok ())
    (hdistinct : (modules.map (·.name)).Nodup) :
    ∃ m, modules[(modules.map (·.name)).idxOf entryName]? = some m ∧ m.name = entryName ∧
      m.outputNames = entryOutputNames := by
  unfold checkEntry at hok
  split at hok
  · cases hok
  next m hfind =>
  split at hok
  next houtputs =>
    have hname : m.name = entryName := by simpa using List.find?_some hfind
    refine ⟨m, ?_, hname, houtputs⟩
    obtain ⟨k, hk⟩ := List.mem_iff_getElem?.mp (List.mem_of_find?_eq_some hfind)
    obtain ⟨hlt, rfl⟩ := List.getElem?_eq_some_iff.mp hk
    have hlt' : k < (modules.map (·.name)).length := by rwa [List.length_map]
    have hget : (modules.map (·.name))[k] = entryName := by rw [List.getElem_map, hname]
    rw [← hget, hdistinct.idxOf_getElem]
    exact hk
  · cases hok

theorem single_of_checkOutputs (hok : checkOutputs modules = .ok ()) :
    ∀ m ∈ modules, m.name ≠ entryName → m.outputs.length = 1 := by
  unfold checkOutputs at hok
  split at hok
  · cases hok
  · next hfind =>
    intro m hm hname
    have := List.find?_eq_none.mp hfind m hm
    by_contra hlen
    exact this (by simpa [Module.isEntry, hlen, entryName] using hname)

theorem map_name_of_forall₂ {R : Module → Module → Prop} (h : List.Forall₂ R modules modules')
    (hR : ∀ m m', R m m' → m'.name = m.name) :
    modules'.map (·.name) = modules.map (·.name) := by
  rw [← List.forall₂_eq_eq_eq, List.forall₂_map_left_iff, List.forall₂_map_right_iff]
  exact h.flip.imp fun m' m => hR m m'

/-- A call that comes from a word leads to the module of that name, whose inputs have been
counted. -/
theorem call_of_resolveCalls (hwritten : ∀ m ∈ modules, m.Written)
    (hok : resolveCalls modules = .ok modules') {m' : Module} (hm' : m' ∈ modules') {i : Nat}
    {word : String} {index : Nat} (hop : m'.opAt i = some (.call word index)) :
    word ≠ entryName ∧ ∃ callee, modules'[index]? = some callee ∧ callee.name = word ∧
      callee.inputs.length = (m'.argsOf i).length := by
  have hall := forall₂_of_mapM_eq_ok hok
  obtain ⟨m, hm, hres⟩ := exists_mem_of_forall₂ hall hm'
  rcases (resolves_of_resolveModule hres).2.2 i word index hop with hcall | ⟨hword, hidx, hlen⟩
  · exact absurd (hwritten m hm i _ hcall) id
  · refine ⟨hwritten m hm i _ hword, ?_⟩
    obtain ⟨hlt, hname, -⟩ := List.idxOf?_eq_some_iff.mp hidx
    rw [List.length_map] at hlt
    obtain ⟨callee, hcallee, hres'⟩ :=
      exists_getElem?_of_forall₂ hall.flip (List.getElem?_eq_getElem hlt)
    have hres'' := (resolves_of_resolveModule hres').1
    refine ⟨callee, hcallee, ?_, ?_⟩
    · rw [hres''.name]
      simpa using hname
    · rw [hres''.inputs, ← hlen]
      simp [hlt]

/-- Calls that words have become lead to modules. -/
theorem within_callGraph_of_resolveCalls (hwritten : ∀ m ∈ modules, m.Written)
    (hok : resolveCalls modules = .ok modules') :
    Within (callGraph modules') modules'.length := by
  intro k j hj
  obtain ⟨m', hm', hmem⟩ := mem_callGraph_iff.mp hj
  obtain ⟨i, word, hop⟩ := Module.mem_callees_iff.mp hmem
  obtain ⟨-, callee, hcallee, -⟩ :=
    call_of_resolveCalls hwritten hok (List.mem_of_getElem? hm') hop
  exact ⟨(List.getElem?_eq_some_iff.mp hm').1, (List.getElem?_eq_some_iff.mp hcallee).1⟩

/-- The steps of putting modules together. -/
theorem compose_eq_ok_iff :
    compose modules = .ok c ↔ (modules.map (·.name)).Nodup ∧ checkEntry modules = .ok () ∧
      checkOutputs modules = .ok () ∧
        ∃ modules', resolveCalls modules = .ok modules' ∧ checkCallGraph modules' = .ok () ∧
          c = ⟨modules', modules.map (·.name), .standard⟩ := by
  unfold compose
  dsimp only
  constructor
  · intro hok
    split at hok
    · cases hok
    next hrepeated =>
    obtain ⟨⟨⟩, hentry, hok⟩ := exists_of_bind_eq_ok hok
    obtain ⟨⟨⟩, houtputs, hok⟩ := exists_of_bind_eq_ok hok
    obtain ⟨modules', hresolve, hok⟩ := exists_of_bind_eq_ok hok
    obtain ⟨⟨⟩, hgraph, hok⟩ := exists_of_bind_eq_ok hok
    exact ⟨repeated?_eq_none_iff.mp (Option.eq_none_iff_forall_ne_some.mpr hrepeated), hentry,
      houtputs, modules', hresolve, hgraph, (Except.ok.inj hok).symm⟩
  · rintro ⟨hdistinct, hentry, houtputs, modules', hresolve, hgraph, rfl⟩
    rw [repeated?_eq_none_iff.mpr hdistinct]
    exact bind_eq_ok_iff.mpr ⟨(), hentry, bind_eq_ok_iff.mpr ⟨(), houtputs,
      bind_eq_ok_iff.mpr ⟨modules', hresolve, bind_eq_ok_iff.mpr ⟨(), hgraph, rfl⟩⟩⟩⟩

/-- Modules in normal form whose words have not been looked up are put together to a well-formed
circuit. -/
theorem wellFormed_of_compose (hnormal : ∀ m ∈ modules, m.Normal)
    (hwritten : ∀ m ∈ modules, m.Written) (hok : compose modules = .ok c) : c.WellFormed := by
  obtain ⟨hdistinct, hentry, houtputs, modules', hresolve, hgraph, rfl⟩ :=
    compose_eq_ok_iff.mp hok
  have hall := forall₂_of_mapM_eq_ok hresolve
  have hwithin := within_callGraph_of_resolveCalls hwritten hresolve
  refine ⟨?_, hdistinct, ?_, fun m' hm' hname => ?_, fun m' hm' => ?_, fun m' hm' => ?_,
    fun m' hm' i word index => call_of_resolveCalls hwritten hresolve hm',
    acyclic_of_checkCallGraph hwithin hgraph⟩
  · exact (map_name_of_forall₂ hall fun _ _ hres => (resolves_of_resolveModule hres).1.name).symm
  · obtain ⟨m, hm, hname, hout⟩ := entry_of_checkEntry hentry hdistinct
    obtain ⟨m', hm', hok⟩ := exists_getElem?_of_forall₂ hall.flip hm
    have hres := (resolves_of_resolveModule hok).1
    exact ⟨m', hm', hres.name.trans hname, by rw [Module.outputNames, hres.outputs]; exact hout⟩
  · obtain ⟨m, hm, hok⟩ := exists_mem_of_forall₂ hall hm'
    have hres := (resolves_of_resolveModule hok).1
    rw [hres.outputs]
    exact single_of_checkOutputs houtputs m hm (hres.name ▸ hname)
  · obtain ⟨m, hm, hok⟩ := exists_mem_of_forall₂ hall hm'
    exact (resolves_of_resolveModule hok).1.normal (hnormal m hm)
  · obtain ⟨m, hm, hok⟩ := exists_mem_of_forall₂ hall hm'
    exact (resolves_of_resolveModule hok).2.1

/-! ## Replacing modules -/

namespace WellFormed

theorem entryIndex_lt (h : c.WellFormed) : c.entryIndex < c.modules.length := by
  obtain ⟨m, hm, -⟩ := h.entry
  exact (List.getElem?_eq_some_iff.mp hm).1

/-- Modules that fit in the places of those of a circuit make it another circuit. -/
theorem replace (h : c.WellFormed) (hlen : modules'.length = c.modules.length)
    (hfits : ∀ (k : Nat) (m : Module), c.modules[k]? = some m →
      ∃ m', modules'[k]? = some m' ∧ m'.Normal ∧ m.Fits m') :
    ({ c with modules := modules' } : Circuit).WellFormed := by
  have hall := forall₂_of_getElem? hlen hfits
  have hnames := map_name_of_forall₂ hall fun _ _ hfit => hfit.2.name
  refine ⟨h.names.trans hnames.symm, h.distinct, ?_, fun m' hm' hname => ?_, fun m' hm' => ?_,
    fun m' hm' i word hop => ?_, fun m' hm' i word index hop => ?_, fun k hk => ?_⟩
  · obtain ⟨m, hm, hname, hout⟩ := h.entry
    obtain ⟨m', hm', -, hfit⟩ := hfits _ m hm
    exact ⟨m', hm', hfit.name.trans hname, hfit.outputNames.trans hout⟩
  · obtain ⟨m, hm, -, hfit⟩ := exists_mem_of_forall₂ hall hm'
    rw [hfit.length_outputs]
    exact h.single m hm (hfit.name ▸ hname)
  · obtain ⟨m, -, hn, -⟩ := exists_mem_of_forall₂ hall hm'
    exact hn
  · obtain ⟨m, hm, -, hfit⟩ := exists_mem_of_forall₂ hall hm'
    obtain ⟨j, hj⟩ := hfit.symbol hop
    exact h.resolved m hm j word hj
  · obtain ⟨m, hm, -, hfit⟩ := exists_mem_of_forall₂ hall hm'
    obtain ⟨j, hj, hargs⟩ := hfit.call hop
    obtain ⟨hword, callee, hcallee, hname, hinputs⟩ := h.call m hm j word index hj
    obtain ⟨callee', hcallee', -, hfit'⟩ := hfits index callee hcallee
    refine ⟨hword, callee', hcallee', hfit'.name.trans hname, ?_⟩
    rw [hfit'.length_inputs, hinputs, hargs]
  · refine h.acyclic k (Relation.TransGen.mono (fun a b hb => ?_) k k hk)
    obtain ⟨m', hm', hmem'⟩ := mem_callGraph_iff.mp hb
    obtain ⟨m, hm, -, hfit⟩ := exists_getElem?_of_forall₂ hall hm'
    exact mem_callGraph_iff.mpr ⟨m, hm, hfit.mem_callees hmem'⟩

/-- Evaluation replaces modules by such of the same frames. -/
theorem sameFrames (h : c.WellFormed) (hframes : SameFrames c.modules modules') :
    ({ c with modules := modules' } : Circuit).WellFormed := by
  refine h.replace hframes.1 fun k m hm => ?_
  obtain ⟨m', hm', hframe⟩ := hframes.2 k m hm
  exact ⟨m', hm', hframe.normal (h.normal m (List.mem_of_getElem? hm)), hframe.fits⟩

theorem getElem?_entryIndex (h : c.WellFormed) : c.modules[c.entryIndex]? = some c.entry := by
  rw [Circuit.entry, List.getD_eq_getElem?_getD, List.getElem?_eq_getElem h.entryIndex_lt]
  rfl

theorem entry_normal (h : c.WellFormed) : c.entry.Normal :=
  h.normal _ (List.mem_of_getElem? h.getElem?_entryIndex)

/-- Mutation replaces the entry. -/
theorem withEntry (h : c.WellFormed) {m : Module} (hm : m.Normal) (hfits : c.entry.Fits m) :
    (c.withEntry m).WellFormed := by
  refine h.replace List.length_set fun k n hn => ?_
  by_cases hk : c.entryIndex = k
  · subst hk
    obtain rfl := Option.some.inj (h.getElem?_entryIndex.symm.trans hn)
    exact ⟨m, List.getElem?_set_self h.entryIndex_lt, hm, hfits⟩
  · exact ⟨n, by rw [List.getElem?_set_ne hk, hn], h.normal n (List.mem_of_getElem? hn), .refl n⟩

theorem withNoise (h : c.WellFormed) (noise : Noise) : (c.withNoise noise).WellFormed :=
  ⟨h.names, h.distinct, h.entry, h.single, h.normal, h.resolved, h.call, h.acyclic⟩

theorem withNoiseSeed (h : c.WellFormed) (seed : UInt64) : (c.withNoiseSeed seed).WellFormed := by
  unfold Circuit.withNoiseSeed
  split
  · exact h
  · exact h.withNoise _

end WellFormed

end Circuit

end ImageCircuit
