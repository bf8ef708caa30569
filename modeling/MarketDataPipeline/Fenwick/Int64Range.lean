import MarketDataPipeline.Fenwick.FenwickTree

/-!
# The tree stays within 64 bits

The trees of the source hold `int64_t`; the model computes in the integers.
Both agree as long as no node and no partial sum leaves the 64-bit range, which
holds when the cells are nonnegative and add up to less than `2 ^ 63`.
-/

namespace MarketDataPipeline

def IsInt64 (value : ℤ) : Prop := -2 ^ 63 ≤ value ∧ value < 2 ^ 63

namespace FenwickTree

variable {n : UInt32} {bit : FenwickTree n} {cell : ℕ → ℤ}

/-- Nothing the tree stores or adds up leaves the 64-bit range: no node, no
sum that a prefix query has accumulated after any number of rounds, and no
difference that a range query returns. -/
structure WithinInt64 (bit : FenwickTree n) : Prop where
  node : ∀ node, 0 < node → node ≤ n → IsInt64 (bit.tree node)
  partialSum : ∀ fuel idx, idx ≤ n → IsInt64 (prefixSumLoop bit.tree fuel idx 0)
  rangeSum : ∀ left right, IsInt64 (bit.rangeSum left right)

theorem total_sub_bounds (hcell : ∀ i, 0 ≤ cell i) {low high count : ℕ}
    (hlow : low ≤ high) (hhigh : high ≤ count) :
    0 ≤ total cell high - total cell low ∧
      total cell high - total cell low ≤ total cell count := by
  have hzero : total cell 0 = 0 := by simp [total]
  have hbelow := total_mono hcell (Nat.zero_le low)
  have hmiddle := total_mono hcell hlow
  have habove := total_mono hcell hhigh
  omega

/-- Cells that add up to less than `2 ^ 63` keep the tree within 64 bits. -/
theorem Holds.withinInt64 (hholds : bit.Holds cell) (hn : 0 < n.toNat)
    (hcell : ∀ i, 0 ≤ cell i) (htotal : total cell n.toNat < 2 ^ 63) :
    bit.WithinInt64 := by
  have hrange : ∀ low high, low ≤ high → high ≤ n.toNat →
      IsInt64 (total cell high - total cell low) := by
    intro low high hlow hhigh
    have hbounds := total_sub_bounds hcell hlow hhigh
    exact ⟨by omega, by omega⟩
  refine ⟨fun node hpos hle => ?_, fun fuel idx hle => ?_, fun left right => ?_⟩
  · rw [hholds.tree_eq hpos hle]
    exact hrange _ _ (Nat.sub_le _ _) (UInt32.le_iff_toNat_le.mp hle)
  · obtain ⟨low, hlow, -, hsum⟩ := prefixSumLoop_eq hholds fuel idx 0 hle
    rw [hsum, zero_add]
    exact hrange _ _ hlow (UInt32.le_iff_toNat_le.mp hle)
  · rw [hholds.rangeSum_eq hn]
    by_cases horder : min left.toNat n.toNat ≤ min (right.toNat + 1) n.toNat
    · have hsplit : total cell (min (right.toNat + 1) n.toNat) =
          total cell (min left.toNat n.toNat) +
            ∑ i ∈ Finset.Ico (min left.toNat n.toNat) (min (right.toNat + 1)
              n.toNat), cell i :=
        total_eq_add_Ico horder
      have hdiff := hrange _ _ horder (min_le_right _ _)
      rw [hsplit] at hdiff
      simpa using hdiff
    · rw [Finset.Ico_eq_empty (by omega), Finset.sum_empty]
      exact ⟨by norm_num, by norm_num⟩

end FenwickTree

end MarketDataPipeline
