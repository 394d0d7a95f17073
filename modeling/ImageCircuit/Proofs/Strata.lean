import ImageCircuit.Image.Sample
import ImageCircuit.Proofs.Draws

/-!
# Strata of the sample points

On either axis the sample points have one coordinate in each stratum. The two axes take the numbers
drawn from the unit interval one after the other; shuffling only decides which coordinates meet.

* `Source.afterUnits`, `Source.nthUnit`: the numbers of the unit interval, one after the other
* `strata_eq`: the coordinates before they are shuffled
* `samplePoints_stratified`: the coordinates of the sample points are those, in some order
-/

namespace ImageCircuit

variable {σ : Type} [Source σ]

namespace Source

/-- The source after `n` numbers of the unit interval. -/
def afterUnits (s : σ) : Nat → σ
  | 0 => s
  | n + 1 => (unit (afterUnits s n)).2

/-- The number of the unit interval that comes after `n` others. -/
def nthUnit (s : σ) (n : Nat) : Float :=
  (unit (afterUnits s n)).1

theorem afterUnits_add (s : σ) (m n : Nat) :
    afterUnits s (m + n) = afterUnits (afterUnits s m) n := by
  induction n with
  | zero => rfl
  | succ n ih => exact congrArg (fun s => (unit s).2) ih

theorem nthUnit_afterUnits (s : σ) (m n : Nat) :
    nthUnit (afterUnits s m) n = nthUnit s (m + n) := by
  rw [nthUnit, nthUnit, afterUnits_add]

end Source

open Source

/-- The points of `n` strata, each at an offset of its own. -/
def stratumPoints (low size : Float) (n : Nat) (offset : Nat → Float) : List Float :=
  (List.range n).map fun i => stratumPoint low size i (offset i)

/-- The strata take the next numbers of the unit interval, one each. -/
theorem strata_eq (low size : Float) (n : Nat) (s : σ) :
    (strata low size n : Draw σ (List Float)) s =
      (stratumPoints low size n (nthUnit s), afterUnits s n) := by
  induction n with
  | zero => rfl
  | succ n ih =>
    have hstep : (strata low size (n + 1) : Draw σ (List Float)) = do
        let points ← strata low size n
        let u ← Draw.unit
        return points ++ [stratumPoint low size n u] := by
      simp only [strata, List.range_succ, List.mapM_append, List.mapM_cons, List.mapM_nil,
        bind_assoc, pure_bind]
    rw [hstep, Draw.bind_apply, ih, Draw.bind_apply, stratumPoints, stratumPoints, List.range_succ,
      List.map_append]
    rfl

/-- The members of two lists, paired at random. -/
def Draw.pairOff {α β : Type} (xs : List α) (ys : List β) : Draw σ (List (α × β)) := do
  let xs ← Draw.shuffle xs.toArray
  let ys ← Draw.shuffle ys.toArray
  return xs.toList.zip ys.toList

/-- No member is lost or repeated. -/
theorem Draw.always_pairOff {α β : Type} {xs : List α} {ys : List β}
    (hlen : xs.length = ys.length) :
    Draw.Always (Draw.pairOff xs ys : Draw σ (List (α × β))) fun pairs =>
      pairs.length = xs.length ∧ (pairs.map (·.1)).Perm xs ∧ (pairs.map (·.2)).Perm ys := by
  refine .bind (Draw.always_shuffle _) fun xs' hxs => ?_
  refine .bind (Draw.always_shuffle _) fun ys' hys => .pure ?_
  have hxs : xs'.toList.Perm xs := hxs.toList
  have hys : ys'.toList.Perm ys := hys.toList
  have hlen' : xs'.toList.length = ys'.toList.length := by
    rw [hxs.length_eq, hys.length_eq, hlen]
  refine ⟨?_, ?_, ?_⟩
  · rw [List.length_zip, hlen', Nat.min_self, ← hlen', hxs.length_eq]
  · rwa [List.map_fst_zip (Nat.le_of_eq hlen')]
  · rwa [List.map_snd_zip (Nat.le_of_eq hlen'.symm)]

/-- The sample points pair off the points of the strata. The first axis takes the first `n` numbers
of the unit interval and the second axis the next `n`. -/
theorem samplePoints_eq (rect : Rect) (n : Nat) (s : σ) :
    (samplePoints rect n : Draw σ (List (Float × Float))) s =
      Draw.pairOff (stratumPoints rect.xlow (rect.width / n.toFloat) n (nthUnit s))
        (stratumPoints rect.ylow (rect.height / n.toFloat) n fun i => nthUnit s (n + i))
        (afterUnits s (n + n)) := by
  have hdraws : (samplePoints rect n : Draw σ (List (Float × Float))) =
      (do
        let xs ← strata rect.xlow (rect.width / n.toFloat) n
        let ys ← strata rect.ylow (rect.height / n.toFloat) n
        Draw.pairOff xs ys) :=
    rfl
  have hnext : nthUnit (afterUnits s n) = fun i => nthUnit s (n + i) :=
    funext (nthUnit_afterUnits s n)
  rw [hdraws, Draw.bind_apply, strata_eq, Draw.bind_apply, strata_eq, hnext, ← afterUnits_add]

/-- There are `n` sample points. On the first axis they have one coordinate in each stratum, at the
first `n` numbers of the unit interval, and on the second axis likewise at the next `n`. -/
theorem samplePoints_stratified (rect : Rect) (n : Nat) (s : σ) :
    ∃ points, ((samplePoints rect n : Draw σ (List (Float × Float))).run s).1 = points ∧
      points.length = n ∧
      (points.map (·.1)).Perm ((List.range n).map fun i =>
        rect.xlow + i.toFloat * (rect.width / n.toFloat) + rect.width / n.toFloat * nthUnit s i) ∧
      (points.map (·.2)).Perm ((List.range n).map fun i =>
        rect.ylow + i.toFloat * (rect.height / n.toFloat) +
          rect.height / n.toFloat * nthUnit s (n + i)) := by
  have hlen : ∀ low size offset, (stratumPoints low size n offset).length = n := by
    simp [stratumPoints]
  obtain ⟨hcount, hxs, hys⟩ := Draw.always_pairOff ((hlen _ _ _).trans (hlen _ _ _).symm)
    (afterUnits s (n + n))
  rw [StateT.run, samplePoints_eq]
  exact ⟨_, rfl, hcount.trans (hlen _ _ _), hxs, hys⟩

end ImageCircuit
