import ImageCircuit.Proofs.InnerText

/-!
# Which mutations can be seen

Nearly all that a mutation applies shows in the text of the mutant. Another operator changes how
often its word is written. A swap moves the nodes that its links start at only if an argument
changes on the way there from an output, and it moves their targets only if these are different. So
what cannot be seen is a swap of two links to the same node, which is reported as applied but
changes nothing.

* `Module.countWord_setOp_lt`: an operator change shows in the number of words
* `Module.target_eq_of_sameInner`: a swap of links to different nodes shows in labels or arguments
* `Circuit.Reachable.mutated_text_eq_iff`: which mutants have the text of what they are made from
-/

namespace ImageCircuit

open Relation

namespace Module

variable {m m' : Module} {a b : Link} {f : Nat → Nat} {i p : Nat} {applied : List Outcome}

/-! ## Words -/

/-- How many of the nodes before position `p` have a word. -/
def countWord (m : Module) (p : Nat) (word : String) : Nat :=
  ((Finset.range p).filter fun i => (m.opAt i).map Op.word = some word).card

theorem SameInner.countWord_eq (h : m.SameInner m' p) (word : String) :
    m'.countWord p word = m.countWord p word := by
  refine congrArg Finset.card (Finset.filter_congr fun i hi => ?_)
  rw [h.word i (Finset.mem_range.mp hi)]

/-- A renumbering moves inner nodes among themselves. -/
theorem Renumbered.lt_iff (hf : m.Renumbered m' f) (hinner : m.InnerBefore p)
    (hinner' : m'.InnerBefore p) (hi : i < m.size) : f i < p ↔ i < p := by
  rw [← hinner', ← hinner, hf.argsOf_eq hi, Ne, List.map_eq_nil_iff]

theorem Renumbered.countWord_eq (hf : m.Renumbered m' f) (hinner : m.InnerBefore p)
    (hinner' : m'.InnerBefore p) (word : String) : m'.countWord p word = m.countWord p word := by
  have hsize : ∀ {i}, i < p → i < m.size := fun hi => Nat.lt_of_lt_of_le hi hinner.le_size
  refine (Finset.card_nbij f (fun i hi => ?_) (hf.bijOn.injOn.mono fun i hi => ?_) ?_).symm
  · simp only [Finset.mem_coe, Finset.mem_filter, Finset.mem_range] at hi ⊢
    obtain ⟨hi, hword⟩ := hi
    exact ⟨(hf.lt_iff hinner hinner' (hsize hi)).mpr hi, by rw [hf.opAt_eq (hsize hi), hword]⟩
  · simp only [Finset.mem_coe, Finset.mem_filter, Finset.mem_range] at hi
    exact hsize hi.1
  · intro k hk
    simp only [Finset.mem_coe, Finset.mem_filter, Finset.mem_range] at hk
    obtain ⟨i, hi, rfl⟩ := hf.bijOn.surjOn (hf.size ▸ hsize hk.1 : k < m'.size)
    refine ⟨i, ?_, rfl⟩
    simp only [Finset.mem_coe, Finset.mem_filter, Finset.mem_range]
    exact ⟨(hf.lt_iff hinner hinner' hi).mp hk.1, by rw [← hf.opAt_eq hi, hk.2]⟩

/-- An operator that is replaced by another is written once less. -/
theorem countWord_setOp_lt {before after : Operator} (hop : m.opAt i = some (.prim before))
    (hne : after ≠ before) (hi : i < p) :
    (m.setOp i (.prim after)).countWord p before.symbol < m.countWord p before.symbol := by
  have hword : after.symbol ≠ before.symbol := fun h =>
    hne (Option.some.inj (by rw [← Operator.ofSymbol?_symbol, h, Operator.ofSymbol?_symbol]))
  have hnew : (m.setOp i (.prim after)).opAt i = some (.prim after) :=
    (opAt_setOp_eq_some_iff hop).mpr (.inl ⟨rfl, rfl⟩)
  refine Finset.card_lt_card (Finset.ssubset_iff_of_subset ?_ |>.mpr ⟨i, ?_, ?_⟩)
  · intro j hj
    rw [Finset.mem_filter] at hj ⊢
    refine ⟨hj.1, ?_⟩
    by_cases hij : i = j
    · subst hij
      rw [hop]
      rfl
    · rw [← hj.2, opAt_setOp]
      simp [hij]
  · rw [Finset.mem_filter, Finset.mem_range, hop]
    exact ⟨hi, rfl⟩
  · rw [Finset.mem_filter, hnew]
    exact fun h => hword (Option.some.inj h.2)

/-! ## Swaps -/

theorem InnerBefore.swapTargets (h : m.InnerBefore p) (hne : a.node ≠ b.node) :
    (m.swapTargets a b).InnerBefore p := by
  intro i
  rw [← h i, ← List.length_pos_iff, ← List.length_pos_iff, length_argsOf_swapTargets hne]

theorem Normal.sortsTo_swapTargets (hm : m.Normal) (h : m.Swappable a b)
    (hsort : (m.swapTargets a b).topologicalSort = .ok m') : (m.swapTargets a b).SortsTo m' :=
  sortsTo_of_topologicalSort (h.within hm.within) (pinsInRange_swapTargets hm.pinsInRange) hsort

theorem OperatorStep.inner (h : m.OperatorStep applied m') (hinner : m.InnerBefore p) :
    m'.size = m.size ∧ m'.InnerBefore p := by
  cases h with
  | skip => exact ⟨rfl, hinner⟩
  | change => exact ⟨size_setOp _, fun i => argsOf_setOp (m := m) _ ▸ hinner i⟩

/-- A swap moves inner nodes among themselves. -/
theorem ConnectionStep.inner (h : m.ConnectionStep applied m') (hm : m.Normal)
    (hinner : m.InnerBefore p) :
    m'.size = m.size ∧ m'.InnerBefore p ∧
      ∀ word, m'.countWord p word = m.countWord p word := by
  cases h with
  | skip => exact ⟨rfl, hinner, fun _ => rfl⟩
  | @swap first second _ h hsort =>
    obtain ⟨hlongest, ⟨f, hf, hdesc⟩, -⟩ := hm.sortsTo_swapTargets h hsort
    have hinner' := hinner.swapTargets h.ne
    have hinner'' := hf.innerBefore hdesc hlongest hinner'
    refine ⟨hf.size.trans size_swapTargets, hinner'', fun word => ?_⟩
    rw [hf.countWord_eq hinner' hinner'', countWord, countWord]
    simp only [opAt_swapTargets h.ne]

/-- An output is not moved if labels stay. -/
theorem Renumbered.output_eq (hf : m.Renumbered m' f)
    (hnodup : (m.outputs.map (·.name)).Nodup) {o : Nat} (ho : o ∈ m.outputIndices)
    (hlabels : m'.labels (f o) = m.labels (f o)) : f o = o := by
  obtain ⟨pin, hpin, hidx⟩ := mem_outputIndices_iff.mp ho
  have hlabel : pin.name ∈ m'.labels (f o) := by
    refine mem_labels_iff.mpr ⟨{ pin with index := pin.index.map f }, ?_, ?_, rfl⟩
    · rw [hf.outputs]
      exact List.mem_map_of_mem hpin
    · simp [hidx]
  rw [hlabels] at hlabel
  obtain ⟨pin', hpin', hidx', hname⟩ := mem_labels_iff.mp hlabel
  obtain rfl := eq_of_name_eq hnodup hpin' hpin hname
  exact Option.some.inj (hidx'.symm.trans hidx)

section

variable (hm : m.Normal) (h : m.Swappable a b) (hf : (m.swapTargets a b).Renumbered m' f)
  (hargs : m'.argsOf = m.argsOf)

include h hf hargs

/-- If arguments stay, a path that avoids the nodes of a swap leads to nodes that are not moved. -/
theorem eq_of_reaches {o x : Nat} (hm : m.Normal) (ho : o < m.size) (hfix : f o = o)
    (hxa : ¬ Precedes m.argsOf a.node x) (hxb : ¬ Precedes m.argsOf b.node x)
    (hox : Reaches m.argsOf o x) : f x = x := by
  induction hox with
  | refl => exact hfix
  | @tail y x hoy hyx ih =>
    have hy : f y = y := ih (fun hp => hxa (hp.tail hyx)) (fun hp => hxb (hp.tail hyx))
    have hya : y ≠ a.node := fun e => hxa (e ▸ .single hyx)
    have hyb : y ≠ b.node := fun e => hxb (e ▸ .single hyx)
    have hsize : y < (m.swapTargets a b).size := by
      rw [size_swapTargets]
      exact hm.within.reaches_lt ho hoy
    have hmap := hf.argsOf_eq hsize
    rw [hy, hargs, h.crossed.other y hya hyb] at hmap
    exact (List.map_inj_left.mp ((List.map_id _).trans hmap).symm x hyx)

/-- If arguments stay, what a link of a node that is not moved leads to after the swap is moved to
where it led before. -/
theorem map_eq_target {l : Link} {t : Nat} (hl : l ∈ m.links fun _ => true)
    (hfix : f l.node = l.node) (ht : (m.exchangedArgs a b l.node)[l.slot]? = some t) :
    f t = m.target l := by
  have hmap := hf.argsOf_eq (by simpa using node_lt_of_mem_links hl)
  rw [hfix, hargs, argsOf_swapTargets h.ne] at hmap
  have hget := congrArg (·[l.slot]?) hmap
  simp only [getElem?_target hl, List.getElem?_map, ht, Option.map_some] at hget
  exact (Option.some.inj hget).symm

end

/-- Nodes that reach no node of a swap stay in their order. -/
theorem lt_of_not_reaches {x y : Nat} (hm : m.Normal) (h : m.Swappable a b)
    (hdesc : (m.swapTargets a b).Descending f) (hxy : x < y) (hy : y < m.size)
    (hout : ∀ z, z = x ∨ z = y → ¬ Reaches m.argsOf z a.node ∧ ¬ Reaches m.argsOf z b.node) :
    f x < f y := by
  have hrank : ∀ z, z = x ∨ z = y → ∀ r, HasRank m.argsOf z r →
      IsLongest (m.swapTargets a b).argsOf z r := by
    intro z hz r hr
    refine (hr.congr fun w hw => ?_).isLongest
    refine h.crossed.other w (fun e => (hout z hz).1 (e ▸ hw)) fun e => (hout z hz).2 (e ▸ hw)
  obtain ⟨r, hr⟩ := hm.acyclic.exists_hasRank hm.within x
  obtain ⟨s, hs⟩ := hm.acyclic.exists_hasRank hm.within y
  have hle := hm.ranked x y hxy hy r s hr hs
  have hx : x < (m.swapTargets a b).size := by simpa using Nat.lt_trans hxy hy
  have hy' : y < (m.swapTargets a b).size := by simpa using hy
  refine (hdesc x hx y hy' r s (hrank x (.inl rfl) r hr) (hrank y (.inr rfl) s hs)).mpr ?_
  omega

/-- A swap that leaves all labels and arguments of inner nodes is of two links to one node. -/
theorem target_eq_of_sameInner (hm : m.Normal) (hnodup : (m.outputs.map (·.name)).Nodup)
    (hinner : m.InnerBefore p) (h : m.Swappable a b)
    (hsort : (m.swapTargets a b).topologicalSort = .ok m') (hsame : m.SameInner m' p) :
    m.target a = m.target b := by
  obtain ⟨hlongest, ⟨f, hf, hdesc⟩, -⟩ := hm.sortsTo_swapTargets h hsort
  have hinner' := hinner.swapTargets h.ne
  have hinner'' := hf.innerBefore hdesc hlongest hinner'
  have hargs : m'.argsOf = m.argsOf := by
    funext i
    by_cases hi : i < p
    · exact hsame.args i hi
    · rw [not_not.mp (mt (hinner'' i).mp hi), not_not.mp (mt (hinner i).mp hi)]
  have houtput : ∀ o ∈ m.outputIndices, f o = o := by
    intro o ho
    have hlt : o < (m.swapTargets a b).size := by simpa using hm.outputIndices_lt o ho
    by_cases hop : o < p
    · exact hf.output_eq hnodup ho (hsame.labels _ ((hf.lt_iff hinner' hinner'' hlt).mpr hop))
    · exact hf.leaf_eq hdesc hlongest hinner' hlt hop
  have hac := hm.acyclic
  have hfirst : f a.node = a.node := by
    obtain ⟨o, ho, hoa⟩ := hm.connected _ (node_lt_of_mem_links h.first_mem)
    exact eq_of_reaches h hf hargs hm (hm.outputIndices_lt o ho) (houtput o ho) (hac _)
      (fun hp => h.not_above hp.to_reflTransGen) hoa
  have hsecond : f b.node = b.node := by
    obtain ⟨o, ho, hob⟩ := hm.connected _ (node_lt_of_mem_links h.second_mem)
    exact eq_of_reaches h hf hargs hm (hm.outputIndices_lt o ho) (houtput o ho)
      (fun hp => h.not_below hp.to_reflTransGen) (hac _) hob
  have htb : f (m.target b) = m.target a := map_eq_target h hf hargs h.first_mem hfirst (by
    rw [exchangedArgs_first h.ne, List.getElem?_set_self (mem_links_iff.mp h.first_mem).2])
  have hta : f (m.target a) = m.target b := map_eq_target h hf hargs h.second_mem hsecond (by
    rw [exchangedArgs_second h.ne, List.getElem?_set_self (mem_links_iff.mp h.second_mem).2])
  have hmemA := List.mem_of_getElem? (getElem?_target h.first_mem)
  have hmemB := List.mem_of_getElem? (getElem?_target h.second_mem)
  have hout : ∀ z, z = m.target a ∨ z = m.target b →
      ¬ Reaches m.argsOf z a.node ∧ ¬ Reaches m.argsOf z b.node := by
    rintro z (rfl | rfl)
    · exact ⟨fun hz => hac _ (.head' hmemA hz), fun hz => h.not_below (.head hmemA hz)⟩
    · exact ⟨fun hz => h.not_above (.head hmemB hz), fun hz => hac _ (.head' hmemB hz)⟩
  rcases Nat.lt_trichotomy (m.target a) (m.target b) with hlt | heq | hgt
  · have := lt_of_not_reaches hm h hdesc hlt (hm.within _ _ hmemB).2 hout
    omega
  · exact heq
  · have := lt_of_not_reaches hm h hdesc hgt (hm.within _ _ hmemA).2 fun z hz => hout z hz.symm
    omega

/-! ## Swaps that change nothing -/

theorem setTarget_target (l : Link) : m.setTarget l (m.target l) = m := by
  have hnodes : (m.setTarget l (m.target l)).nodes = m.nodes := by
    apply List.ext_getElem?
    intro i
    rw [getElem?_setTarget]
    cases hi : m.nodes[i]? with
    | none => rfl
    | some node =>
      by_cases hl : l.node = i
      · subst hl
        have hset : node.args.set l.slot (node.args.getD l.slot 0) = node.args := by
          by_cases hslot : l.slot < node.args.length
          · simp [hslot]
          · exact List.set_eq_of_length_le (Nat.le_of_not_lt hslot)
        rw [Option.map_some, if_pos rfl, target, argsOf_eq hi, hset]
      · simp [hl]
  calc m.setTarget l (m.target l) = { m with nodes := (m.setTarget l (m.target l)).nodes } := rfl
    _ = m := by rw [hnodes]

theorem swapTargets_eq_self (h : m.target a = m.target b) : m.swapTargets a b = m := by
  rw [swapTargets, ← h, setTarget_target, h, setTarget_target]

/-- Exchanging links to one node changes nothing, and there is nothing to sort. -/
theorem Normal.eq_of_target_eq (hm : m.Normal) (h : m.target a = m.target b)
    (hsort : (m.swapTargets a b).topologicalSort = .ok m') : m' = m := by
  have hself := hm.ranked.topologicalSort_eq hm.within hm.pinsInRange hm.acyclic
  rw [swapTargets_eq_self h, hself] at hsort
  exact (Except.ok.inj hsort).symm

/-- A mutation of a module in normal form that leaves its inner nodes is a swap of links to one
node. -/
theorem exists_swap_of_sameInner {between : Module} {changes swaps : List Outcome} (hm : m.Normal)
    (hnodup : (m.outputs.map (·.name)).Nodup) (hinner : m.InnerBefore p)
    (hchange : m.OperatorStep changes between) (hswap : between.ConnectionStep swaps m')
    (hne : changes ++ swaps ≠ []) (hsame : m.SameInner m' p) :
    ∃ first second, changes ++ swaps = [.connectionSwapped first second] ∧
      m.target first = m.target second := by
  have hcount := (hswap.inner (hchange.normal hm) (hchange.inner hinner).2).2.2
  cases hchange with
  | skip =>
    cases hswap with
    | skip => exact absurd rfl hne
    | swap h hsort => exact ⟨_, _, rfl, target_eq_of_sameInner hm hnodup hinner h hsort hsame⟩
  | @change i before after hop hbefore _ hafter =>
    have hi : i < p := by
      rw [← hinner, ← List.length_pos_iff, hm.arity i before hop]
      omega
    have hlt := countWord_setOp_lt hop hafter hi
    rw [← hcount, hsame.countWord_eq] at hlt
    exact absurd hlt (Nat.lt_irrefl _)

/-- Conversely, such a swap changes nothing at all. -/
theorem eq_of_swap {between : Module} {changes swaps : List Outcome} (hm : m.Normal)
    (hchange : m.OperatorStep changes between) (hswap : between.ConnectionStep swaps m')
    (happlied : changes ++ swaps = [.connectionSwapped a b]) (h : m.target a = m.target b) :
    m' = m := by
  cases hchange with
  | skip =>
    cases hswap with
    | skip => cases happlied
    | swap hswap hsort =>
      cases happlied
      exact hm.eq_of_target_eq h hsort
  | change => cases happlied

end Module

namespace Circuit

variable {c : Circuit}

theorem WellFormed.withEntry_entry (h : c.WellFormed) : c.withEntry c.entry = c := by
  have hmodules : c.modules.set c.entryIndex c.entry = c.modules := by
    obtain ⟨hlt, heq⟩ := List.getElem?_eq_some_iff.mp h.getElem?_entryIndex
    rw [← heq, List.set_getElem_self]
  rw [Circuit.withEntry, hmodules]

/-- A mutant of the same text has the same inner nodes. -/
theorem Reachable.sameInner_of_text_eq (h : c.Reachable) {changes swaps : List Outcome}
    {between m' : Module} (hchange : c.entry.OperatorStep changes between)
    (hswap : between.ConnectionStep swaps m') {p : Nat} (hinner : c.entry.InnerBefore p)
    (hp : p < c.entry.size) (htext : (c.withEntry m').text = c.text) :
    c.entry.SameInner m' p := by
  have hwf := h.wellFormed
  have hm := hwf.entry_normal
  obtain ⟨hsize, hbetween⟩ := hchange.inner hinner
  obtain ⟨hsize', hinner', -⟩ := hswap.inner (hchange.normal hm) hbetween
  obtain ⟨hm', hfits⟩ := hswap.normal_and_fits (hchange.normal hm)
  have hfits := hchange.fits.trans hfits
  have hlegible := h.innerLegible _ (List.mem_of_getElem? hwf.getElem?_entryIndex)
  exact Module.sameInner_of_chars_eq ⟨hm.toFormed, hlegible, hinner⟩
    ⟨hm'.toFormed, hfits.innerLegible hlegible, hinner'⟩ hfits hp (hsize'.trans hsize ▸ hp)
    (hwf.chars_eq_of_text_eq htext)

/-- A mutated copy of a reachable circuit has the text of the circuit exactly if it is the circuit,
and that is the case exactly if all that has been applied is a swap of two links to one node. -/
theorem Reachable.mutated_text_eq_iff (h : c.Reachable) {σ : Type} [Source σ]
    {settings : MutationSettings} {s : σ} {child : Circuit}
    (hchild : (c.mutated settings s).1 = .ok (some child)) :
    ∃ outcomes, (c.mutate settings s).1 = (.ok outcomes, child) ∧
      (child.text = c.text ↔ child = c) ∧
      (child = c ↔ ∃ first second,
        outcomes.filter (·.isApplied) = [.connectionSwapped first second] ∧
          c.entry.target first = c.entry.target second) := by
  obtain ⟨outcomes, hmutate, hne⟩ := exists_of_mutated hchild
  have hwf := h.wellFormed
  have hm := hwf.entry_normal
  obtain ⟨_, changes, swaps, between, hok, hfilter, hchange, hswap⟩ :=
    Module.always_mutate_steps hm settings s
  generalize hm' : (c.entry.mutate settings s).1.2 = m' at hswap
  have hchild' : child = c.withEntry m' := by
    rw [← hm']
    exact (congrArg Prod.snd hmutate).symm
  obtain rfl := Except.ok.inj (hok.symm.trans (congrArg Prod.fst hmutate))
  refine ⟨_, hmutate, ?_⟩
  rw [hfilter] at hne ⊢
  have hshows : child.text = c.text → ∃ first second,
      changes ++ swaps = [.connectionSwapped first second] ∧
        c.entry.target first = c.entry.target second := by
    intro htext
    have hcolors := hwf.colors
    obtain ⟨p, hp, hinner⟩ :=
      hm.exists_innerBefore (hm.size_pos fun hnil => by simp [hnil] at hcolors)
    have hsame := h.sameInner_of_text_eq hchange hswap hinner hp (hchild' ▸ htext)
    refine Module.exists_swap_of_sameInner hm ?_ hinner hchange hswap hne hsame
    rw [hcolors]
    decide
  have hstays : (∃ first second, changes ++ swaps = [.connectionSwapped first second] ∧
      c.entry.target first = c.entry.target second) → child = c := by
    rintro ⟨first, second, happlied, htarget⟩
    rw [hchild', Module.eq_of_swap hm hchange hswap happlied htarget, hwf.withEntry_entry]
  exact ⟨⟨fun htext => hstays (hshows htext), fun e => e ▸ rfl⟩, fun e => hshows (e ▸ rfl), hstays⟩

end Circuit

/-! ## A swap that cannot be seen -/

namespace Module

/-- Where an operator change is not drawn and a connection swap is, the latter is all. -/
theorem mutate_of_unit {σ : Type} [Source σ] {settings : MutationSettings} {s : σ}
    (hchange : ¬ (Draw.unit s).1 < settings.operatorChange)
    (hswap : (Draw.unit (Draw.unit s).2).1 < settings.connectionSwap) (m : Module) :
    ∃ s' : σ, (m.mutate settings s).1 =
      ((m.mutateConnection settings.swapAttempts s').1.1.map ([·]),
        (m.mutateConnection settings.swapAttempts s').1.2) := by
  have hoperator : m.mutateOperatorSometimes settings s = (([], m), (Draw.unit s).2) := by
    show (if (Draw.unit s).1 < settings.operatorChange then _ else _ : Draw σ _) _ = _
    rw [if_neg hchange]
    rfl
  refine ⟨(Draw.unit (Draw.unit s).2).2, ?_⟩
  have hconnection : (m.mutateConnectionSometimes settings (Draw.unit s).2).1 =
      ((m.mutateConnection settings.swapAttempts (Draw.unit (Draw.unit s).2).2).1.1.map ([·]),
        (m.mutateConnection settings.swapAttempts (Draw.unit (Draw.unit s).2).2).1.2) := by
    show ((if (Draw.unit (Draw.unit s).2).1 < settings.connectionSwap then _ else _ : Draw σ _)
      (Draw.unit (Draw.unit s).2).2).1 = _
    rw [if_pos hswap]
    rfl
  rw [← hconnection]
  simp only [Module.mutate, bind, StateT.bind, hoperator]
  rcases m.mutateConnectionSometimes settings (Draw.unit s).2 with ⟨⟨swaps, m'⟩, s'⟩
  cases swaps <;> rfl

/-- Sine and cosine of one input. -/
def sinCos : Module where
  name := ""
  nodes := [.ofOp (.prim .sin) [2], .ofOp (.prim .cos) [2], .ofOp (.input 'x') []]
  inputs := [⟨'x', some 2⟩]
  outputs := [⟨'r', some 0⟩, ⟨'g', some 1⟩, ⟨'b', some 1⟩]

theorem parse_sinCos : parseChars "(rgb)(x)[r:sin 2|gb:cos 2|x]".toList = .ok sinCos := rfl

theorem normal_sinCos : sinCos.Normal where
  toFormed := (formed_of_parseChars parse_sinCos).1
  sorted := rfl
  ranked := by
    have hrank : HasRank sinCos.argsOf 1 1 ∧ HasRank sinCos.argsOf 2 0 := by
      have hleaf : HasRank sinCos.argsOf 2 0 := .above (fun _ => 0) nofun
      refine ⟨.above (fun _ => 0) fun b hb => ?_, hleaf⟩
      obtain rfl := List.mem_singleton.mp hb
      exact hleaf
    intro i j hij hj r s hr hs
    have hlt : j < 3 := hj
    rcases (by omega : i = 0 ∧ j = 1 ∨ j = 2) with ⟨rfl, rfl⟩ | rfl
    · rw [hs.unique hrank.1]
      exact hr.isLongest.pos (List.cons_ne_nil 2 [])
    · rw [hs.unique hrank.2]
      exact Nat.zero_le r
  connected := by
    intro i hi
    have hlt : i < 3 := hi
    rcases (by omega : i = 0 ∨ i = 1 ∨ i = 2) with rfl | rfl | rfl
    · exact ⟨0, by decide, .refl⟩
    · exact ⟨1, by decide, .refl⟩
    · exact ⟨0, by decide, .single (by decide)⟩

theorem links_sinCos : sinCos.links (fun _ => true) = [⟨0, 0⟩, ⟨1, 0⟩] := rfl

/-- Both links of the module lead to the input, so every swap is of links to one node. -/
theorem mutateConnection_sinCos {σ : Type} [Source σ] (attempts : Nat) (s : σ) :
    ∃ first second, (sinCos.mutateConnection (attempts + 1) s).1 =
      (.ok (.connectionSwapped first second), sinCos) := by
  have hreaches : ∀ i j, Reaches sinCos.argsOf i j → i < 2 → j = i ∨ j = 2 := by
    intro i j hij hi
    refine hij.mem_of_closed (S := fun j => j = i ∨ j = 2) ?_ (.inl rfl)
    rintro a (rfl | rfl) b hb
    · rcases (by omega : a = 0 ∨ a = 1) with rfl | rfl <;> exact .inr (List.mem_singleton.mp hb)
    · cases hb
  have hother : ∀ l ∈ sinCos.links fun _ => true, ∃ other, sinCos.Swappable l other := by
    rw [links_sinCos]
    intro l hl
    rcases List.mem_pair.mp hl with rfl | rfl
    · refine ⟨⟨1, 0⟩, by decide, by decide, fun h => ?_, fun h => ?_⟩
      · exact absurd (hreaches 0 1 h (by decide)) (by decide)
      · exact absurd (hreaches 1 0 h (by decide)) (by decide)
    · refine ⟨⟨0, 0⟩, by decide, by decide, fun h => ?_, fun h => ?_⟩
      · exact absurd (hreaches 1 0 h (by decide)) (by decide)
      · exact absurd (hreaches 0 1 h (by decide)) (by decide)
  have htarget : ∀ l ∈ sinCos.links fun _ => true, sinCos.target l = 2 := by decide
  obtain ⟨first, second, hswap, heq⟩ := always_mutateConnection_swaps normal_sinCos.within
    (by rw [links_sinCos]; exact List.cons_ne_nil _ _) hother attempts s
  have htargets := (htarget _ hswap.first_mem).trans (htarget _ hswap.second_mem).symm
  have hsort : (sinCos.swapTargets first second).topologicalSort = .ok sinCos := by
    rw [swapTargets_eq_self htargets]
    exact normal_sinCos.ranked.topologicalSort_eq normal_sinCos.within normal_sinCos.pinsInRange
      normal_sinCos.acyclic
  exact ⟨first, second, heq.trans (swapSorted_of_topologicalSort hsort)⟩

end Module

namespace Circuit

/-- What `(rgb)(x)[r:sin 2|gb:cos 2|x]` describes. -/
def sinCosCircuit : Circuit where
  modules := [.sinCos]
  names := [""]
  noise := .standard

theorem read_sinCosCircuit :
    Circuit.read "(rgb)(x)[r:sin 2|gb:cos 2|x]" = .ok sinCosCircuit := by
  have hread : readPart "(rgb)(x)[r:sin 2|gb:cos 2|x]".toList = .ok .sinCos := by
    rw [readPart, Module.parse_sinCos]
    exact Module.normal_sinCos.normalize_eq
  have hparts : Text.splitAll ';' "(rgb)(x)[r:sin 2|gb:cos 2|x]".toList =
      ["(rgb)(x)[r:sin 2|gb:cos 2|x]".toList] := rfl
  have hwords : ∀ node ∈ Module.sinCos.nodes, ∀ word, node.op.source ≠ .symbol word := by
    simp [Module.sinCos, Node.ofOp, Op.source]
  have hcompose : compose [.sinCos] = .ok sinCosCircuit := compose_single rfl rfl hwords
  rw [Circuit.read, hparts, List.mapM_cons, List.mapM_nil, hread]
  exact hcompose

theorem reachable_sinCosCircuit : sinCosCircuit.Reachable :=
  .read read_sinCosCircuit

/-- A swap that is drawn for the circuit is applied and changes nothing. -/
theorem mutated_sinCosCircuit {σ : Type} [Source σ] {settings : MutationSettings} {s : σ}
    (hchange : ¬ (Draw.unit s).1 < settings.operatorChange)
    (hswap : (Draw.unit (Draw.unit s).2).1 < settings.connectionSwap)
    (hattempts : 0 < settings.swapAttempts) :
    (sinCosCircuit.mutated settings s).1 = .ok (some sinCosCircuit) := by
  obtain ⟨s', hmutate⟩ := Module.mutate_of_unit hchange hswap .sinCos
  obtain ⟨attempts, hsucc⟩ := Nat.exists_eq_succ_of_ne_zero hattempts.ne'
  obtain ⟨first, second, hconnection⟩ := Module.mutateConnection_sinCos attempts s'
  rw [hsucc, hconnection] at hmutate
  have hcircuit : (sinCosCircuit.mutate settings s).1 =
      (.ok [.connectionSwapped first second], sinCosCircuit) := by
    show ((Module.mutate .sinCos settings s).1.1,
      sinCosCircuit.withEntry (Module.mutate .sinCos settings s).1.2) = _
    rw [hmutate]
    rfl
  show (sinCosCircuit.mutate settings s).1.1.map (fun outcomes =>
    if outcomes.any (·.isApplied) then some (sinCosCircuit.mutate settings s).1.2 else none) = _
  rw [hcircuit]
  rfl

/-- The settings under which every mutation is a connection swap. -/
def swapsOnly : MutationSettings :=
  { MutationSettings.standard with operatorChange := 0 }

theorem mutated_swapsOnly :
    (sinCosCircuit.mutated swapsOnly (ChaCha.ofSeed 0)).1 = .ok (some sinCosCircuit) :=
  mutated_sinCosCircuit (by decide +kernel) (by decide +kernel) (by decide)

theorem mutated_text_eq_iff_sinCosCircuit :
    sinCosCircuit.Reachable ∧ ∃ child outcomes,
      (sinCosCircuit.mutated swapsOnly (ChaCha.ofSeed 0)).1 = .ok (some child) ∧
      (sinCosCircuit.mutate swapsOnly (ChaCha.ofSeed 0)).1 = (.ok outcomes, child) ∧
      (child.text = sinCosCircuit.text ↔ child = sinCosCircuit) ∧
      (child = sinCosCircuit ↔ ∃ first second,
        outcomes.filter (·.isApplied) = [.connectionSwapped first second] ∧
          sinCosCircuit.entry.target first = sinCosCircuit.entry.target second) := by
  obtain ⟨outcomes, h⟩ := reachable_sinCosCircuit.mutated_text_eq_iff mutated_swapsOnly
  exact ⟨reachable_sinCosCircuit, _, outcomes, mutated_swapsOnly, h⟩

/-- A run accepts settings under which a circuit that is read has a mutated copy of its own text. -/
theorem mutated_sinCosCircuit_same_text :
    ({ Settings.standard with mutation := swapsOnly } : Settings).validate = .ok () ∧
      ∃ c child, Circuit.read "(rgb)(x)[r:sin 2|gb:cos 2|x]" = .ok c ∧
        (c.mutated swapsOnly (ChaCha.ofSeed 0)).1 = .ok (some child) ∧ child.text = c.text := by
  exact ⟨rfl, sinCosCircuit, sinCosCircuit, read_sinCosCircuit, mutated_swapsOnly, rfl⟩

end Circuit

end ImageCircuit
