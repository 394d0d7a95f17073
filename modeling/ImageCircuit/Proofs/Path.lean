import Mathlib.Data.Fintype.EquivFin
import Mathlib.Logic.Relation

/-!
# Paths in a graph of successors

A graph is a function that lists the successors of a position: the arguments of a node, or the
modules that a module calls.

* `Acyclic.exists_hasRank`: without a cycle every position has a rank, the number of steps of the
  longest path from it
* `HasRank.lt`: ranks fall along every step
* `HasRank.lt_bound`: among `n` positions all ranks are below `n`
* `Crossed.acyclic`, `Crossed.exists_reaches`: exchanging two steps between positions that do not
  reach each other closes no cycle and cuts nothing off from the roots
-/

namespace ImageCircuit

open Relation

/-- One step from `a` to `b`. -/
abbrev StepsTo (next : Nat → List Nat) (a b : Nat) : Prop := b ∈ next a

/-- A path, possibly without steps. -/
abbrev Reaches (next : Nat → List Nat) : Nat → Nat → Prop := ReflTransGen (StepsTo next)

/-- A path of at least one step. -/
abbrev Precedes (next : Nat → List Nat) : Nat → Nat → Prop := TransGen (StepsTo next)

/-- No path leads back to where it starts. -/
def Acyclic (next : Nat → List Nat) : Prop := ∀ a, ¬ Precedes next a a

/-- All steps are between positions below `n`. -/
def Within (next : Nat → List Nat) (n : Nat) : Prop := ∀ a, ∀ b ∈ next a, a < n ∧ b < n

theorem Within.reaches_lt {next : Nat → List Nat} {n a b : Nat} (hn : Within next n) (ha : a < n)
    (h : Reaches next a b) : b < n := by
  induction h with
  | refl => exact ha
  | tail _ hbc _ => exact (hn _ _ hbc).2

/-- A set that contains the successors of its members contains all that they reach. -/
theorem Reaches.mem_of_closed {next : Nat → List Nat} {S : Nat → Prop}
    (hS : ∀ a, S a → ∀ b ∈ next a, S b) {a b : Nat} (h : Reaches next a b) (ha : S a) : S b := by
  induction h with
  | refl => exact ha
  | tail _ hbc ih => exact hS _ ih _ hbc

/-- Steps that lead to smaller numbers close no cycle. -/
theorem acyclic_of_lt {next : Nat → List Nat} (f : Nat → Nat)
    (h : ∀ a, ∀ b ∈ next a, f b < f a) : Acyclic next := by
  have hlt : ∀ {a b}, Precedes next a b → f b < f a := by
    intro a b hab
    induction hab with
    | single hab => exact h _ _ hab
    | tail _ hbc ih => exact Nat.lt_trans (h _ _ hbc) ih
  intro a ha
  exact Nat.lt_irrefl _ (hlt ha)

/-! ## Ranks -/

/-- One more than the greatest of some ranks, 0 over none. -/
def rankAbove : List Nat → Nat
  | [] => 0
  | rank :: rest => max (rank + 1) (rankAbove rest)

theorem lt_rankAbove {rank : Nat} {ranks : List Nat} (h : rank ∈ ranks) :
    rank < rankAbove ranks := by
  induction ranks with
  | nil => cases h
  | cons r rest ih =>
    rw [rankAbove]
    rcases List.mem_cons.mp h with rfl | h
    · omega
    · have := ih h
      omega

/-- The rank above some ranks is 0 or one more than one of them. -/
theorem rankAbove_attained (ranks : List Nat) :
    rankAbove ranks = 0 ∨ ∃ r ∈ ranks, rankAbove ranks = r + 1 := by
  induction ranks with
  | nil => exact Or.inl rfl
  | cons r rest ih =>
    right
    rw [rankAbove]
    by_cases hle : rankAbove rest ≤ r + 1
    · exact ⟨r, List.mem_cons_self, by omega⟩
    · obtain h0 | ⟨r', hr', h⟩ := ih
      · omega
      · exact ⟨r', List.mem_cons_of_mem _ hr', by omega⟩

/-- The longest path from a position has this many steps. -/
inductive HasRank (next : Nat → List Nat) : Nat → Nat → Prop
  | above {a : Nat} (rank : Nat → Nat) (below : ∀ b ∈ next a, HasRank next b (rank b)) :
    HasRank next a (rankAbove ((next a).map rank))

namespace HasRank

variable {next : Nat → List Nat} {a b r s : Nat}

theorem unique (h : HasRank next a r) (h' : HasRank next a s) : r = s := by
  induction h generalizing s with
  | above rank _ ih =>
    cases h' with
    | above rank' below' =>
      congr 1
      exact List.map_congr_left fun b hb => ih b hb (below' b hb)

theorem lt (h : HasRank next a r) (hb : b ∈ next a) (h' : HasRank next b s) : s < r := by
  cases h with
  | above rank below =>
    rw [h'.unique (below b hb)]
    exact lt_rankAbove (List.mem_map_of_mem hb)

/-- A position has a rank if all its successors have ranks. -/
theorem exists_of_forall (h : ∀ b ∈ next a, ∃ r, HasRank next b r) : ∃ r, HasRank next a r := by
  have hbelow : ∀ b, ∃ r, b ∈ next a → HasRank next b r := by
    intro b
    by_cases hb : b ∈ next a
    · obtain ⟨r, hr⟩ := h b hb
      exact ⟨r, fun _ => hr⟩
    · exact ⟨0, fun hb' => absurd hb' hb⟩
  choose rank hrank using hbelow
  exact ⟨_, .above rank hrank⟩

/-- The successors of a position with a rank have ranks too. -/
theorem exists_of_mem (h : HasRank next a r) (hb : b ∈ next a) : ∃ s, HasRank next b s := by
  cases h with
  | above rank below => exact ⟨rank b, below b hb⟩

theorem lt_of_precedes (h : HasRank next a r) (hp : Precedes next a b) :
    ∃ s, HasRank next b s ∧ s < r := by
  induction hp with
  | single hab =>
    obtain ⟨s, hs⟩ := h.exists_of_mem hab
    exact ⟨s, hs, h.lt hab hs⟩
  | tail _ hbc ih =>
    obtain ⟨s, hs, hlt⟩ := ih
    obtain ⟨t, ht⟩ := hs.exists_of_mem hbc
    exact ⟨t, ht, Nat.lt_trans (hs.lt hbc ht) hlt⟩

/-- No cycle can be reached from a position with a rank. -/
theorem not_precedes_self (h : HasRank next a r) : ¬ Precedes next a a := by
  intro hp
  obtain ⟨s, hs, hlt⟩ := h.lt_of_precedes hp
  exact Nat.lt_irrefl _ (hs.unique h ▸ hlt)

/-- Below a position, every smaller rank is taken. -/
theorem exists_of_le (h : HasRank next a r) (hs : s ≤ r) :
    ∃ b, Reaches next a b ∧ HasRank next b s := by
  induction h generalizing s with
  | @above a rank below ih =>
    rcases Nat.eq_or_lt_of_le hs with rfl | hlt
    · exact ⟨a, .refl, .above rank below⟩
    · obtain h0 | ⟨t, ht, heq⟩ := rankAbove_attained ((next a).map rank)
      · omega
      · obtain ⟨b, hb, rfl⟩ := List.mem_map.mp ht
        obtain ⟨c, hbc, hc⟩ := ih b hb (s := s) (by omega)
        exact ⟨c, .head hb hbc, hc⟩

/-- Among `n` positions all ranks are below `n`, since each smaller rank needs a position of its
own. -/
theorem lt_bound {n : Nat} (hn : Within next n) (ha : a < n) (h : HasRank next a r) : r < n := by
  have hex : ∀ s : Fin (r + 1), ∃ b : Fin n, HasRank next b s := by
    intro s
    obtain ⟨b, hab, hb⟩ := h.exists_of_le (Nat.le_of_lt_succ s.isLt)
    exact ⟨⟨b, hn.reaches_lt ha hab⟩, hb⟩
  choose f hf using hex
  have hinj : Function.Injective f := by
    intro s t hst
    exact Fin.ext ((hf s).unique (hst ▸ hf t))
  have := Fintype.card_le_of_injective f hinj
  simp only [Fintype.card_fin] at this
  omega

end HasRank

/-- Without a cycle every position has a rank. -/
theorem Acyclic.exists_hasRank {next : Nat → List Nat} {n : Nat} (h : Acyclic next)
    (hn : Within next n) (a : Nat) : ∃ r, HasRank next a r := by
  -- The paths among the positions below `n` are well founded, since these are finitely many.
  let below : Fin n → Fin n → Prop := fun b a => Precedes next a b
  have htrans : IsTrans (Fin n) below := ⟨fun _ _ _ hba hcb => hcb.trans hba⟩
  have hirrefl : Std.Irrefl below := ⟨fun a => h a⟩
  have hwf : WellFounded below := Finite.wellFounded_of_trans_of_irrefl below
  by_cases ha : a < n
  · have hrank : ∀ a : Fin n, ∃ r, HasRank next a r := by
      intro a
      induction a using hwf.induction with
      | _ a ih =>
        exact HasRank.exists_of_forall fun b hb => ih ⟨b, (hn a b hb).2⟩ (.single hb)
    exact hrank ⟨a, ha⟩
  · exact HasRank.exists_of_forall fun b hb => absurd (hn a b hb).1 ha

theorem acyclic_of_hasRank {next : Nat → List Nat} {n : Nat} (hn : Within next n)
    (h : ∀ a < n, ∃ r, HasRank next a r) : Acyclic next := by
  intro a ha
  obtain ⟨b, hab, -⟩ := TransGen.head'_iff.mp ha
  obtain ⟨r, hr⟩ := h a (hn a b hab).1
  exact hr.not_precedes_self ha

/-! ## Exchanging steps -/

/-- The graph `next'` is `next` with the successors of `a` and `b` dealt anew among the two. -/
structure Crossed (next next' : Nat → List Nat) (a b : Nat) : Prop where
  other : ∀ x, x ≠ a → x ≠ b → next' x = next x
  dealt : ∀ x, (x ∈ next' a ∨ x ∈ next' b) ↔ (x ∈ next a ∨ x ∈ next b)

namespace Crossed

variable {next next' : Nat → List Nat} {a b : Nat}

theorem within (h : Crossed next next' a b) {n : Nat} (hn : Within next n) (ha : a < n)
    (hb : b < n) : Within next' n := by
  intro x y hy
  by_cases hxa : x = a
  · subst hxa
    rcases (h.dealt y).mp (.inl hy) with hy | hy
    · exact hn x y hy
    · exact ⟨ha, (hn b y hy).2⟩
  · by_cases hxb : x = b
    · subst hxb
      rcases (h.dealt y).mp (.inr hy) with hy | hy
      · exact ⟨hb, (hn a y hy).2⟩
      · exact hn x y hy
    · rw [h.other x hxa hxb] at hy
      exact hn x y hy

/-- A step of the new graph is an old one, or it starts at `a` or `b` and ends below them. -/
theorem edge (h : Crossed next next' a b) {x y : Nat} (hy : y ∈ next' x) :
    y ∈ next x ∨ (x = a ∨ x = b) ∧ (y ∈ next a ∨ y ∈ next b) := by
  by_cases hxa : x = a
  · subst hxa
    exact .inr ⟨.inl rfl, (h.dealt y).mp (.inl hy)⟩
  · by_cases hxb : x = b
    · subst hxb
      exact .inr ⟨.inr rfl, (h.dealt y).mp (.inr hy)⟩
    · exact .inl (h.other x hxa hxb ▸ hy)

/-- What lies strictly below `a` or `b` lies strictly below them after the exchange of a step too,
and the paths there are the old ones: neither `a` nor `b` is among it. -/
theorem below_of_precedes (h : Crossed next next' a b)
    (hout : ∀ x, Precedes next a x ∨ Precedes next b x → x ≠ a ∧ x ≠ b) {x y : Nat}
    (hx : Precedes next a x ∨ Precedes next b x) (hxy : Precedes next' x y) :
    Precedes next x y ∧ (Precedes next a y ∨ Precedes next b y) := by
  have hstep : ∀ {x y}, Precedes next a x ∨ Precedes next b x → y ∈ next' x →
      y ∈ next x ∧ (Precedes next a y ∨ Precedes next b y) := by
    intro x y hx hy
    obtain ⟨hxa, hxb⟩ := hout x hx
    rw [h.other x hxa hxb] at hy
    exact ⟨hy, hx.imp (·.tail hy) (·.tail hy)⟩
  induction hxy with
  | single hy =>
    obtain ⟨hy, hbelow⟩ := hstep hx hy
    exact ⟨.single hy, hbelow⟩
  | tail _ hz ih =>
    obtain ⟨hz, hbelow⟩ := hstep ih.2 hz
    exact ⟨ih.1.tail hz, hbelow⟩

/-- A new path is an old one, or it ends strictly below `a` or `b`. -/
theorem precedes_or_below (h : Crossed next next' a b) {x y : Nat} (hxy : Precedes next' x y) :
    Precedes next x y ∨ (Precedes next a y ∨ Precedes next b y) := by
  induction hxy with
  | single hy =>
    rcases h.edge hy with hy | ⟨-, hy⟩
    · exact .inl (.single hy)
    · exact .inr (hy.imp .single .single)
  | @tail y z _ hz ih =>
    rcases h.edge hz with hz' | ⟨-, hz'⟩
    · rcases ih with ih | ih
      · exact .inl (ih.tail hz')
      · exact .inr (ih.imp (·.tail hz') (·.tail hz'))
    · exact .inr (hz'.imp .single .single)

theorem acyclic (h : Crossed next next' a b) (hac : Acyclic next) (hab : ¬ Reaches next a b)
    (hba : ¬ Reaches next b a) : Acyclic next' := by
  have hout : ∀ x, Precedes next a x ∨ Precedes next b x → x ≠ a ∧ x ≠ b := by
    rintro x (hx | hx)
    · exact ⟨fun e => hac a (e ▸ hx), fun e => hab (e ▸ hx).to_reflTransGen⟩
    · exact ⟨fun e => hba (e ▸ hx).to_reflTransGen, fun e => hac b (e ▸ hx)⟩
  intro x hx
  rcases h.precedes_or_below hx with hold | hbelow
  · exact hac x hold
  · exact hac x (h.below_of_precedes hout hbelow hx).1

/-- Old paths that neither `a` nor `b` is on, except perhaps at the end, are new paths. -/
theorem reaches_of_reaches (h : Crossed next next' a b) {x y : Nat} (hya : ¬ Precedes next a y)
    (hyb : ¬ Precedes next b y) (hxy : Reaches next x y) : Reaches next' x y := by
  induction hxy using ReflTransGen.head_induction_on with
  | refl => exact .refl
  | @head x z hz hzy ih =>
    have hxa : x ≠ a := fun e => hya (.head' (e ▸ hz) hzy)
    have hxb : x ≠ b := fun e => hyb (.head' (e ▸ hz) hzy)
    exact .head (h.other x hxa hxb ▸ hz : z ∈ next' x) ih

/-- What some roots reach before the exchange they reach after it. The paths to `a` and to `b`
stay, and each step that goes is a step from the other of the two. -/
theorem exists_reaches (h : Crossed next next' a b) (hac : Acyclic next)
    (hab : ¬ Reaches next a b) (hba : ¬ Reaches next b a) {roots : Nat → Prop}
    (ha : ∃ o, roots o ∧ Reaches next o a) (hb : ∃ o, roots o ∧ Reaches next o b) {x : Nat}
    (hx : ∃ o, roots o ∧ Reaches next o x) : ∃ o, roots o ∧ Reaches next' o x := by
  have ha' : ∃ o, roots o ∧ Reaches next' o a := by
    obtain ⟨o, ho, hoa⟩ := ha
    exact ⟨o, ho, h.reaches_of_reaches (hac a) (fun hp => hba hp.to_reflTransGen) hoa⟩
  have hb' : ∃ o, roots o ∧ Reaches next' o b := by
    obtain ⟨o, ho, hob⟩ := hb
    exact ⟨o, ho, h.reaches_of_reaches (fun hp => hab hp.to_reflTransGen) (hac b) hob⟩
  have hdealt : ∀ y, y ∈ next a ∨ y ∈ next b → ∃ o, roots o ∧ Reaches next' o y := by
    intro y hy
    rcases (h.dealt y).mpr hy with hy | hy
    · obtain ⟨o, ho, hoa⟩ := ha'
      exact ⟨o, ho, hoa.tail hy⟩
    · obtain ⟨o, ho, hob⟩ := hb'
      exact ⟨o, ho, hob.tail hy⟩
  obtain ⟨o, ho, hox⟩ := hx
  induction hox with
  | refl => exact ⟨o, ho, .refl⟩
  | @tail y z _ hz ih =>
    by_cases hya : y = a
    · exact hdealt z (.inl (hya ▸ hz))
    · by_cases hyb : y = b
      · exact hdealt z (.inr (hyb ▸ hz))
      · obtain ⟨o, ho, hoy⟩ := ih
        exact ⟨o, ho, hoy.tail (h.other y hya hyb ▸ hz : z ∈ next' y)⟩

end Crossed

end ImageCircuit
