import Mathlib.Data.List.Sort
import TenProf.Library.Scan

/-!
# The block-wide primitives of CUB

`interval_merge_impl` is written in terms of four primitives of the library CUB. They act on the
items of all threads of a block together, here as one list, the tile, in which the items of a thread
are neighbours. `Cub` is a choice of the four functions, and `Cub.Spec` what their documentation
promises. The sums of a tile are bounded by its size, so `int` is modelled as `ℤ`.
-/

namespace TenProf

/-- The primitives that the merge calls. -/
structure Cub where
  /-- `BlockLoad::Load`: a tile of the items at an address, of which only the first are valid, with
  a default for the others. -/
  load : (ℕ → ℕ) → (tile_size valid_items oob_default : ℕ) → List ℕ
  /-- `BlockRadixSort::Sort` of keys with their values. -/
  sort : List (ℕ × ℤ) → List (ℕ × ℤ)
  /-- `BlockScan::InclusiveSum`, with the aggregate. -/
  inclusiveSum : List ℤ → List ℤ × ℤ
  /-- `BlockDiscontinuity::FlagHeads` for `cub::Inequality`. -/
  flagHeads : List ℤ → List ℤ

/-- What the primitives are documented to do. -/
structure Cub.Spec (c : Cub) : Prop where
  load : ∀ d_in tile_size valid_items oob_default, c.load d_in tile_size valid_items oob_default =
    (List.range tile_size).map fun i => if i < valid_items then d_in i else oob_default
  sort_perm : ∀ items, (c.sort items).Perm items
  sort_sorted : ∀ items, (c.sort items).Pairwise fun a b => a.1 ≤ b.1
  inclusiveSum : ∀ l, c.inclusiveSum l = (runningSums 0 l, l.sum)
  /-- The first item has none before it and is always marked. -/
  flagHeads : ∀ l, c.flagHeads l = headFlags none l

/-- The primitives as sequential functions. -/
def Cub.sequential : Cub where
  load d_in tile_size valid_items oob_default :=
    (List.range tile_size).map fun i => if i < valid_items then d_in i else oob_default
  sort items := items.insertionSort fun a b => a.1 ≤ b.1
  inclusiveSum l := (runningSums 0 l, l.sum)
  flagHeads l := headFlags none l

/-- The sequential functions do what is documented. -/
theorem Cub.sequential_spec : Cub.sequential.Spec where
  load _ _ _ _ := rfl
  sort_perm items := List.perm_insertionSort _ items
  sort_sorted items := by
    have htotal : Std.Total fun a b : ℕ × ℤ => a.1 ≤ b.1 := ⟨fun a b => le_total a.1 b.1⟩
    have htrans : IsTrans (ℕ × ℤ) fun a b => a.1 ≤ b.1 := ⟨fun _ _ _ h h' => h.trans h'⟩
    exact List.pairwise_insertionSort _ items
  inclusiveSum _ := rfl
  flagHeads _ := rfl

end TenProf
