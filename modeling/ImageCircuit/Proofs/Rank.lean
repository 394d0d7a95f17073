import ImageCircuit.Module.Order
import ImageCircuit.Proofs.Reach

/-!
# Ranks of nodes

* `Module.rankAt_finalRanks`: ranking finds the rank of every node that has one, and no other
* `Module.ranks_eq`: without a cycle every node is ranked
* `Module.acyclic_of_ranks`: if every node is ranked, there is no cycle
-/

namespace ImageCircuit

open Relation

theorem exists_eq_map_some {α : Type} {xs : List (Option α)} (h : none ∉ xs) :
    ∃ ys : List α, xs = ys.map some := by
  induction xs with
  | nil => exact ⟨[], rfl⟩
  | cons x rest ih =>
    obtain ⟨ys, hys⟩ := ih fun hr => h (List.mem_cons_of_mem _ hr)
    cases x with
    | none => exact absurd List.mem_cons_self h
    | some y => exact ⟨y :: ys, by simp [hys]⟩

/-- Stopping early changes nothing: a step that changes nothing would do so forever. -/
theorem settle_eq_iterate {α : Type} [BEq α] [LawfulBEq α] (step : α → α) (n : Nat) (x : α) :
    settle step n x = step^[n] x := by
  induction n generalizing x with
  | zero => rfl
  | succ n ih =>
    rw [settle]
    by_cases h : step x = x
    · simp [h, Function.iterate_fixed h]
    · simp [h, ih]

namespace Module

/-! ## Ranking one node -/

theorem rankOver_map_some (rank : Nat → Nat) (args : List Nat) :
    rankOver (args.map fun a => some (rank a)) = some (rankAbove (args.map rank)) := by
  induction args with
  | nil => rfl
  | cons a rest ih => simp [rankOver, rankAbove, ih]

theorem isSome_of_rankOver {ranks : List (Option Nat)} {r : Nat} (h : rankOver ranks = some r) :
    ∀ x ∈ ranks, x.isSome := by
  induction ranks generalizing r with
  | nil => simp
  | cons x rest ih =>
    cases x with
    | none => simp [rankOver] at h
    | some a =>
      cases hrest : rankOver rest with
      | none => simp [rankOver, hrest] at h
      | some b => simpa using ih hrest

/-- A node is ranked once all its arguments are, one above the greatest of their ranks. -/
theorem rankOver_map_eq_some_iff {rank : Nat → Option Nat} {args : List Nat} {r : Nat} :
    rankOver (args.map rank) = some r ↔
      ∃ f : Nat → Nat, (∀ a ∈ args, rank a = some (f a)) ∧ rankAbove (args.map f) = r := by
  constructor
  · intro h
    have hsome : ∀ a ∈ args, rank a = some ((rank a).getD 0) := by
      intro a ha
      obtain ⟨b, hb⟩ := Option.isSome_iff_exists.mp
        (isSome_of_rankOver h (rank a) (List.mem_map_of_mem ha))
      simp [hb]
    refine ⟨fun a => (rank a).getD 0, hsome, ?_⟩
    have hmap : args.map rank = args.map fun a => some ((rank a).getD 0) :=
      List.map_congr_left hsome
    rw [hmap, rankOver_map_some] at h
    exact Option.some.inj h
  · rintro ⟨f, hf, rfl⟩
    rw [List.map_congr_left hf, rankOver_map_some]

variable {m : Module}

theorem rankAt_rankStep (ranks : Array (Option Nat)) (i : Nat) :
    rankAt (m.rankStep ranks) i =
      if i < m.size then rankOver ((m.argsOf i).map (rankAt ranks)) else none := by
  by_cases hi : i < m.nodes.length
  · simp [rankAt, rankStep, size, hi, argsOf, Array.getD_eq_getD_getElem?]
  · simp [rankAt, rankStep, size, hi, Array.getD_eq_getD_getElem?]

/-! ## Ranking all nodes -/

/-- After `k` rounds exactly the nodes of rank below `k` are ranked. -/
theorem rankAt_iterate (hn : Within m.argsOf m.size) (k : Nat) {i r : Nat} :
    rankAt (m.rankStep^[k] (.replicate m.size none)) i = some r ↔
      i < m.size ∧ HasRank m.argsOf i r ∧ r < k := by
  induction k generalizing i r with
  | zero =>
    simp only [Function.iterate_zero, id_eq, Nat.not_lt_zero, and_false, iff_false]
    by_cases hi : i < m.size <;> simp [rankAt, hi, Array.getD_eq_getD_getElem?]
  | succ k ih =>
    rw [Function.iterate_succ_apply', rankAt_rankStep]
    by_cases hi : i < m.size
    · rw [if_pos hi, rankOver_map_eq_some_iff]
      constructor
      · rintro ⟨rank, hrank, rfl⟩
        have hbelow : ∀ a ∈ m.argsOf i, HasRank m.argsOf a (rank a) ∧ rank a < k :=
          fun a ha => (ih.mp (hrank a ha)).2
        refine ⟨hi, .above rank fun a ha => (hbelow a ha).1, ?_⟩
        obtain h0 | ⟨s, hs, heq⟩ := rankAbove_attained ((m.argsOf i).map rank)
        · omega
        · obtain ⟨a, ha, rfl⟩ := List.mem_map.mp hs
          have := (hbelow a ha).2
          omega
      · rintro ⟨-, hr, hlt⟩
        cases hr with
        | above rank below =>
          refine ⟨rank, fun a ha => ?_, rfl⟩
          have := lt_rankAbove (List.mem_map_of_mem (f := rank) ha)
          exact ih.mpr ⟨(hn i a ha).2, below a ha, by omega⟩
    · simp [hi]

theorem rankAt_finalRanks (hn : Within m.argsOf m.size) {i r : Nat} :
    rankAt m.finalRanks i = some r ↔ i < m.size ∧ HasRank m.argsOf i r := by
  rw [finalRanks, settle_eq_iterate, rankAt_iterate hn]
  constructor
  · rintro ⟨hi, hr, -⟩
    exact ⟨hi, hr⟩
  · rintro ⟨hi, hr⟩
    exact ⟨hi, hr, hr.lt_bound hn hi⟩

@[simp] theorem size_finalRanks : m.finalRanks.size = m.size := by
  rw [finalRanks, settle_eq_iterate]
  cases h : m.size with
  | zero => simp
  | succ n =>
    rw [Function.iterate_succ_apply', ← h]
    simp [rankStep, size]

/-- Arguments in range are never taken for arguments past the end. -/
theorem meetsBadIndex_eq_false (hn : Within m.argsOf m.size) (ranks : Array (Option Nat)) :
    m.meetsBadIndex ranks = false := by
  rw [meetsBadIndex, List.any_eq_false]
  intro node hnode
  obtain ⟨i, hi⟩ := List.mem_iff_getElem?.mp hnode
  cases hfind : node.args.find? fun arg => (rankAt ranks arg).isNone with
  | none => simp
  | some arg =>
    have := (hn i arg (mem_argsOf_iff.mpr ⟨node, hi, List.mem_of_find?_eq_some hfind⟩)).2
    simpa using this

theorem none_mem_finalRanks_iff (hn : Within m.argsOf m.size) :
    none ∈ m.finalRanks ↔ ∃ i < m.size, ∀ r, ¬ HasRank m.argsOf i r := by
  rw [Array.mem_iff_getElem]
  simp only [size_finalRanks]
  refine exists_congr fun i => ?_
  constructor
  · rintro ⟨hi, hnone⟩
    refine ⟨hi, fun r hr => ?_⟩
    have := (rankAt_finalRanks hn).mpr ⟨hi, hr⟩
    simp [rankAt, hi, hnone] at this
  · rintro ⟨hi, hno⟩
    have hi' : i < m.finalRanks.size := by simpa using hi
    refine ⟨hi, ?_⟩
    cases h : m.finalRanks[i] with
    | none => rfl
    | some r =>
      have : rankAt m.finalRanks i = some r := by simp [rankAt, hi, h]
      exact absurd ((rankAt_finalRanks hn).mp this).2 (hno r)

/-- Without a cycle ranking succeeds and finds the rank of every node. -/
theorem ranks_eq (hn : Within m.argsOf m.size) (hac : Acyclic m.argsOf) :
    ∃ ranks, m.ranks = .ok ranks ∧ ranks.length = m.size ∧
      ∀ i (hi : i < ranks.length), HasRank m.argsOf i ranks[i] := by
  have hall : none ∉ m.finalRanks := by
    rw [none_mem_finalRanks_iff hn]
    rintro ⟨i, -, hno⟩
    obtain ⟨r, hr⟩ := hac.exists_hasRank hn i
    exact hno r hr
  obtain ⟨ranks, hranks⟩ : ∃ ranks : List Nat, m.finalRanks.toList = ranks.map some :=
    exists_eq_map_some (by simpa using hall)
  have hlen : ranks.length = m.size := by
    have := congrArg List.length hranks
    simpa using this.symm
  refine ⟨ranks, ?_, hlen, fun i hi => ?_⟩
  · simp [Module.ranks, meetsBadIndex_eq_false hn, hall, hranks]
  · have hget : rankAt m.finalRanks i = some ranks[i] := by
      rw [rankAt, Array.getD_eq_getD_getElem?, ← Array.getElem?_toList, hranks]
      simp [hi]
    exact ((rankAt_finalRanks hn).mp hget).2

/-- If all nodes are ranked, no path of arguments closes. -/
theorem acyclic_of_ranks (hn : Within m.argsOf m.size) {ranks : List Nat}
    (h : m.ranks = .ok ranks) : Acyclic m.argsOf := by
  refine acyclic_of_hasRank hn fun i hi => ?_
  by_contra hno
  have hnone : none ∈ m.finalRanks :=
    (none_mem_finalRanks_iff hn).mpr ⟨i, hi, fun r hr => hno ⟨r, hr⟩⟩
  simp [Module.ranks, meetsBadIndex_eq_false hn, hnone] at h

end Module

end ImageCircuit
