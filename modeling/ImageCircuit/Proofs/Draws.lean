import ImageCircuit.Random.Source
import Mathlib.Data.List.Basic

/-!
# What holds for every outcome of random draws

`Draw.Always x P` says that `P` holds of the result of `x` whatever its source draws. It is proved
along the steps of `x`, so the source is opened only here.

* `Draw.Always.bind`, `Draw.Always.pure`: the rules for steps
* `Draw.always_choose`: a chosen member is a member
* `Draw.always_shuffle`: a shuffled array is a permutation
* `Draw.always_sample`: a sample has as many numbers as asked for, different and below the bound
-/

namespace ImageCircuit.Draw

variable {σ : Type} {α β : Type}

/-- The second step starts where the first one has left the source. -/
theorem bind_apply (x : Draw σ α) (f : α → Draw σ β) (s : σ) :
    (x >>= f) s = f (x s).1 (x s).2 :=
  rfl

/-- The result satisfies `P` for every state of the source. -/
def Always (x : Draw σ α) (P : α → Prop) : Prop :=
  ∀ s, P (x s).1

namespace Always

variable {x : Draw σ α} {P Q : α → Prop}

theorem run (h : Always x P) (s : σ) : P (x.run s).1 :=
  h s

theorem mono (h : Always x P) (hPQ : ∀ a, P a → Q a) : Always x Q :=
  fun s => hPQ _ (h s)

theorem pure {a : α} (h : P a) : Always (Pure.pure a : Draw σ α) P :=
  fun _ => h

theorem bind {f : α → Draw σ β} {R : β → Prop} (hx : Always x P)
    (hf : ∀ a, P a → Always (f a) R) : Always (x >>= f) R := by
  intro s
  exact hf (x s).1 (hx s) (x s).2

/-- A step of whose result nothing is known. -/
theorem bind_any {f : α → Draw σ β} {R : β → Prop} (hf : ∀ a, Always (f a) R) :
    Always (x >>= f) R := by
  intro s
  exact hf (x s).1 (x s).2

end Always

theorem always_mapM {f : α → Draw σ β} {P : α → β → Prop} {xs : List α}
    (h : ∀ a ∈ xs, Always (f a) (P a)) :
    Always (xs.mapM f) fun ys => List.Forall₂ P xs ys := by
  induction xs with
  | nil => exact .pure .nil
  | cons a rest ih =>
    rw [List.mapM_cons]
    refine .bind (h a List.mem_cons_self) fun b hb => ?_
    refine .bind (ih fun a ha => h a (List.mem_cons_of_mem _ ha)) fun bs hbs => ?_
    exact .pure (.cons hb hbs)

/-- What holds of the steps of a numbered loop holds at its end. -/
theorem always_foldlM_range {f : β → Nat → Draw σ β} {P : Nat → β → Prop} {n : Nat} {b : β}
    (hb : P 0 b) (h : ∀ i < n, ∀ b, P i b → Always (f b i) (P (i + 1))) :
    Always ((List.range n).foldlM f b) (P n) := by
  induction n with
  | zero => exact .pure hb
  | succ n ih =>
    rw [List.range_succ, List.foldlM_append]
    refine .bind (ih fun i hi => h i (Nat.lt_succ_of_lt hi)) fun b hb => ?_
    rw [List.foldlM_cons]
    exact .bind (h n (Nat.lt_succ_self n) b hb) fun b hb => .pure hb

variable [Source σ]

theorem always_choose (xs : List α) :
    Always (choose xs : Draw σ (Option α)) fun r => ∀ x, r = some x → x ∈ xs := by
  cases xs with
  | nil => exact .pure (by simp)
  | cons a rest =>
    refine .bind_any fun i => .pure fun x hx => ?_
    obtain rfl := Option.some.inj hx
    exact List.get_mem _ _

theorem always_choose_of_ne_nil {xs : List α} (h : xs ≠ []) :
    Always (choose xs : Draw σ (Option α)) fun r => ∃ x ∈ xs, r = some x := by
  cases xs with
  | nil => exact absurd rfl h
  | cons a rest => exact .bind_any fun i => .pure ⟨_, List.get_mem _ _, rfl⟩

/-- Each exchange permutes, so the array that is left is a permutation. -/
theorem always_shuffleFrom (xs : Array α) (i : Nat) (h : i < xs.size) :
    Always (shuffleFrom xs i h : Draw σ (Array α)) fun ys => ys.Perm xs := by
  induction i generalizing xs with
  | zero => exact .pure (.refl xs)
  | succ i ih =>
    rw [shuffleFrom]
    refine .bind_any fun j => (ih _ _).mono fun ys hys => ?_
    exact hys.trans (Array.swap_perm _ _)

theorem always_shuffle (xs : Array α) :
    Always (shuffle xs : Draw σ (Array α)) fun ys => ys.Perm xs := by
  unfold shuffle
  split
  · exact .pure (.refl xs)
  · exact always_shuffleFrom xs _ _

/-- A sample of `count` further numbers, the bound of the first being `j`. -/
theorem always_sampleFrom (j count : Nat) (taken : List Nat) (h : ∀ t ∈ taken, t < j)
    (hnodup : taken.Nodup) :
    Always (sampleFrom j count taken : Draw σ (List Nat)) fun r =>
      r.length = taken.length + count ∧ (∀ t ∈ r, t < j + count) ∧ r.Nodup := by
  induction count generalizing j taken with
  | zero => exact .pure ⟨rfl, h, hnodup⟩
  | succ count ih =>
    rw [sampleFrom]
    refine .bind_any fun t => ?_
    have ht : t.val < j + 1 := t.isLt
    split
    · next k hk =>
      obtain ⟨hlt, -, -⟩ := List.idxOf?_eq_some_iff.mp hk
      have hmem : ∀ u ∈ taken.insertIdx k j, u < j + 1 := by
        intro u hu
        rcases (List.mem_insertIdx (Nat.le_of_lt hlt)).mp hu with rfl | hu
        · omega
        · have := h u hu
          omega
      have hnew : (taken.insertIdx k j).Nodup := by
        rw [(List.perm_insertIdx j taken (Nat.le_of_lt hlt)).nodup_iff, List.nodup_cons]
        exact ⟨fun hj => Nat.lt_irrefl j (h j hj), hnodup⟩
      refine (ih (j + 1) _ hmem hnew).mono fun r hr => ?_
      rw [List.length_insertIdx_of_le_length (Nat.le_of_lt hlt)] at hr
      exact ⟨by omega, fun u hu => by have := hr.2.1 u hu; omega, hr.2.2⟩
    · next hnone =>
      have hmem : ∀ u ∈ taken ++ [t.val], u < j + 1 := by
        intro u hu
        rcases List.mem_append.mp hu with hu | hu
        · have := h u hu
          omega
        · rw [List.mem_singleton] at hu
          omega
      have hnew : (taken ++ [t.val]).Nodup := by
        rw [(List.perm_append_singleton t.val taken).nodup_iff, List.nodup_cons]
        refine ⟨fun hin => ?_, hnodup⟩
        obtain ⟨k, hk⟩ := Option.isSome_iff_exists.mp (List.isSome_idxOf?.mpr hin)
        cases hk.symm.trans hnone
      refine (ih (j + 1) _ hmem hnew).mono fun r hr => ?_
      rw [List.length_append, List.length_singleton] at hr
      exact ⟨by omega, fun u hu => by have := hr.2.1 u hu; omega, hr.2.2⟩

/-- A sample of no more numbers than there are has as many as asked for, all below the bound and
all different. -/
theorem always_sample {length amount : Nat} (h : amount ≤ length) :
    Always (sample length amount : Draw σ (List Nat)) fun r =>
      r.length = amount ∧ (∀ t ∈ r, t < length) ∧ r.Nodup := by
  refine (always_sampleFrom (length - amount) amount [] (by simp) .nil).mono fun r hr => ?_
  exact ⟨by simpa using hr.1, fun t ht => by have := hr.2.1 t ht; omega, hr.2.2⟩

end ImageCircuit.Draw
