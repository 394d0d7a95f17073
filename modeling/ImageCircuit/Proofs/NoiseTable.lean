import ImageCircuit.Noise
import ImageCircuit.Proofs.Draws

/-!
# The table of a noise field

The table holds every byte once, and then once more in the same order. An entry, a lattice
coordinate and one more never add up to more than its last position, so no look-up leaves it,
whatever the numbers are at which the field is evaluated.

* `Noise.isTable_drawTable`: what a drawn table holds, whatever is drawn
* `Noise.lattice_eq`, `Noise.lattice_lt`: lattice coordinates are bytes
* `Noise.IsTable.exists_looksUp`: the look-ups of a cell find their entries
* `Noise.sound_ofSeed`: the table and the look-ups of every field
-/

namespace ImageCircuit.Noise

/-- A table of two copies of one order of the bytes. -/
structure IsTable (table : Array UInt8) : Prop where
  size : table.size = 512
  /-- The first copy holds each byte once. -/
  order : ((table.toList.take 256).map UInt8.toNat).Perm (List.range 256)
  /-- The second copy repeats the first. -/
  repeats : table.toList.drop 256 = table.toList.take 256

/-- The entries that are looked up for the cell at `(xi, yi)`: one for either side and, with them,
one for each corner. -/
structure LooksUp (table : Array UInt8) (xi yi : Nat) (left right aa ab ba bb : UInt8) : Prop where
  left_eq : table[xi]? = some left
  right_eq : table[xi + 1]? = some right
  aa_eq : table[left.toNat + yi]? = some aa
  ab_eq : table[left.toNat + yi + 1]? = some ab
  ba_eq : table[right.toNat + yi]? = some ba
  bb_eq : table[right.toNat + yi + 1]? = some bb

/-- A field with a proper table, in which all look-ups stay. -/
structure Sound (noise : Noise) : Prop where
  table : IsTable noise.table
  /-- At every point the table and the gradients have an entry at each position that is read. -/
  lookup : ∀ x y : Float, ∃ left right aa ab ba bb,
    LooksUp noise.table (x.floor.toInt64 &&& 255).toUInt64.toNat
        (y.floor.toInt64 &&& 255).toUInt64.toNat left right aa ab ba bb ∧
      ∀ entry ∈ [aa, ab, ba, bb], ∃ direction,
        gradients[(entry &&& 7).toNat]? = some direction ∧
          ∀ dx dy, gradient entry dx dy = direction.1 * dx + direction.2 * dy
  /-- The value is found by these look-ups. -/
  value : ∀ x y : Float, noise.at? x y = some (noise.at x y)

variable {table : Array UInt8} {xi yi : Nat}

/-! ## The table -/

theorem toNat_bytes : bytes.toList.map UInt8.toNat = List.range 256 := by
  refine List.ext_getElem (by simp [bytes]) fun i hi _ => ?_
  have hi : i < 256 := by simpa [bytes] using hi
  simp [bytes, Nat.mod_eq_of_lt hi]

/-- Whatever is drawn, the table holds two copies of one order of the bytes. -/
theorem isTable_drawTable {σ : Type} [Source σ] :
    Draw.Always (drawTable : Draw σ (Array UInt8)) IsTable := by
  refine .bind (Draw.always_shuffle bytes) fun order horder => .pure ?_
  have hperm : (order.toList.map UInt8.toNat).Perm (List.range 256) :=
    toNat_bytes ▸ horder.toList.map UInt8.toNat
  have hsize : order.toList.length = 256 := by simpa using hperm.length_eq
  refine ⟨?_, ?_, ?_⟩
  · rw [← Array.length_toList, Array.toList_append, List.length_append, hsize]
  · rwa [Array.toList_append, List.take_left' hsize]
  · rw [Array.toList_append, List.take_left' hsize, List.drop_left' hsize]

/-! ## Look-ups -/

/-- A lattice coordinate is the low byte of the number rounded down. -/
theorem lattice_eq (x : Float) : lattice x = (x.floor.toInt64 &&& 255).toUInt64.toNat := by
  have hlow : (x.floor.toInt64 &&& 255).toUInt64 = x.floor.toInt64.toUInt64 &&& 255 := rfl
  rw [lattice, UInt64.toNat_toUInt8, hlow, UInt64.toNat_and]
  exact (Nat.and_two_pow_sub_one_eq_mod _ 8).symm

theorem lattice_lt (x : Float) : lattice x < 256 :=
  UInt8.toNat_lt _

/-- The last position that is read is the sum of two bytes and one. -/
theorem IsTable.exists_looksUp (h : IsTable table) (hx : xi < 256) (hy : yi < 256) :
    ∃ left right aa ab ba bb, LooksUp table xi yi left right aa ab ba bb := by
  have hfind : ∀ i < 512, ∃ entry, table[i]? = some entry := fun i hi =>
    ⟨_, Array.getElem?_eq_getElem (h.size ▸ hi)⟩
  have hcorner : ∀ side : UInt8, side.toNat + yi + 1 < 512 := fun side => by
    have : side.toNat < 256 := side.toNat_lt
    omega
  obtain ⟨left, hleft⟩ := hfind xi (by omega)
  obtain ⟨right, hright⟩ := hfind (xi + 1) (by omega)
  obtain ⟨aa, haa⟩ := hfind _ (Nat.lt_of_succ_lt (hcorner left))
  obtain ⟨ab, hab⟩ := hfind _ (hcorner left)
  obtain ⟨ba, hba⟩ := hfind _ (Nat.lt_of_succ_lt (hcorner right))
  obtain ⟨bb, hbb⟩ := hfind _ (hcorner right)
  exact ⟨left, right, aa, ab, ba, bb, hleft, hright, haa, hab, hba, hbb⟩

theorem LooksUp.corners?_eq {seed : UInt64} {left right aa ab ba bb : UInt8}
    (h : LooksUp table xi yi left right aa ab ba bb) :
    corners? ⟨seed, table⟩ xi yi = some (aa, ab, ba, bb) := by
  simp [corners?, h.left_eq, h.right_eq, h.aa_eq, h.ab_eq, h.ba_eq, h.bb_eq]

/-- The low three bits of an entry choose its gradient. -/
theorem exists_direction (entry : UInt8) :
    ∃ direction, gradients[(entry &&& 7).toNat]? = some direction ∧
      ∀ dx dy, gradient entry dx dy = direction.1 * dx + direction.2 * dy := by
  have hlow : (entry &&& 7).toNat = entry.toNat % 8 := by
    rw [UInt8.toNat_and]
    exact Nat.and_two_pow_sub_one_eq_mod _ 3
  rw [hlow]
  exact ⟨_, Vector.getElem?_eq_getElem (Nat.mod_lt _ (by decide)), fun _ _ => rfl⟩

theorem IsTable.sound (h : IsTable table) (seed : UInt64) : Sound ⟨seed, table⟩ where
  table := h
  lookup x y := by
    obtain ⟨left, right, aa, ab, ba, bb, hlook⟩ := h.exists_looksUp (lattice_lt x) (lattice_lt y)
    rw [← lattice_eq, ← lattice_eq]
    exact ⟨left, right, aa, ab, ba, bb, hlook, fun entry _ => exists_direction entry⟩
  value x y := by
    obtain ⟨left, right, aa, ab, ba, bb, hlook⟩ := h.exists_looksUp (lattice_lt x) (lattice_lt y)
    rw [«at», at?, hlook.corners?_eq]
    rfl

/-- The field of every seed has a proper table, in which all look-ups stay. The generator that the
seed starts does not matter: any other one draws such a table too. -/
theorem sound_ofSeed (seed : UInt64) :
    (ofSeed seed).Sound ∧
      ∀ (σ : Type) [Source σ] (s : σ), Sound ⟨seed, (drawTable.run s).1⟩ := by
  have hdrawn : ∀ (σ : Type) [Source σ] (s : σ), Sound ⟨seed, (drawTable.run s).1⟩ := by
    intro σ _ s
    have htable : IsTable (drawTable.run s).1 := Draw.Always.run isTable_drawTable s
    exact htable.sound seed
  exact ⟨hdrawn ChaCha (ChaCha.ofSeed seed), hdrawn⟩

end ImageCircuit.Noise
