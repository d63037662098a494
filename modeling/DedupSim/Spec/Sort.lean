import DedupSim.Spec.Simulator

/-!
# Sorting a log (`dedup_sort.cpp`)

The blocks of a log are sorted by checksum, or by offset with `-r`. `so` and `byOffset` are
the `std::sort` that the program calls. A log that does not open is read as an empty one.
-/

namespace DedupSim

/-- `compare_by_offset`. -/
def compareByOffset (left right : Block) : Bool := left.offset < right.offset

/-- What it compares. -/
def Block.byOffset (b : Block) : ℕ := b.offset.toNat

theorem compareByOffset_iff {left right : Block} :
    compareByOffset left right = true ↔ left.byOffset < right.byOffset := by
  unfold compareByOffset Block.byOffset
  rw [decide_eq_true_eq, UInt64.lt_iff_toNat_lt]

/-- `main` on the contents of its log; `sortByOffset` says whether there is a third
argument. -/
def dedupSort (so : Sorter Block.cksum) (byOffset : Sorter Block.byOffset) (sortByOffset : Bool)
    (is : List UInt8) : List UInt8 :=
  let blocks := Block.loader.readAll is
  let blocks := if sortByOffset then byOffset.sort blocks else so.sort blocks
  blocks.flatMap Block.save

end DedupSim
