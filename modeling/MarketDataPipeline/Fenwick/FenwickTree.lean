import MarketDataPipeline.Core.LowestSetBit

/-!
# The Fenwick tree

`FenwickTree<N>` keeps `N + 1` signed 64-bit nodes, the first unused.  Nodes
are exact integers here; the bounds that keep the machine integers exact are
proved where the tree is used.  A loop takes as fuel the most steps it can
make, so that it is a structural recursion.
-/

namespace MarketDataPipeline

open LowestSetBit

/-- `FenwickTree<N>`: node `i` is `tree[i]`. -/
structure FenwickTree (n : UInt32) where
  tree : UInt32 → ℤ

namespace FenwickTree

variable {n : UInt32}

def init : FenwickTree n := ⟨fun _ => 0⟩

/-- The `while (idx <= N)` loop of `update`. -/
def updateLoop (n : UInt32) (delta : ℤ) : ℕ → UInt32 → (UInt32 → ℤ) → UInt32 → ℤ
  | 0, _, tree => tree
  | fuel + 1, idx, tree =>
      if idx ≤ n then
        updateLoop n delta fuel (idx + (idx &&& -idx))
          (Function.update tree idx (tree idx + delta))
      else tree

def update (bit : FenwickTree n) (idx : UInt32) (delta : ℤ) : FenwickTree n :=
  if idx ≥ n then bit
  else ⟨updateLoop n delta n.toNat (idx + 1) bit.tree⟩

/-- The `while (idx > 0)` loop of `prefix_sum`; out of fuel it returns the sum
accumulated so far. -/
def prefixSumLoop (tree : UInt32 → ℤ) : ℕ → UInt32 → ℤ → ℤ
  | 0, _, sum => sum
  | fuel + 1, idx, sum =>
      if 0 < idx then
        prefixSumLoop tree fuel (idx - (idx &&& -idx)) (sum + tree idx)
      else sum

def prefixSum (bit : FenwickTree n) (idx : UInt32) : ℤ :=
  let idx := if idx ≥ n then n - 1 else idx
  prefixSumLoop bit.tree n.toNat (idx + 1) 0

def rangeSum (bit : FenwickTree n) (left right : UInt32) : ℤ :=
  if left > right then 0
  else if left = 0 then bit.prefixSum right
  else bit.prefixSum right - bit.prefixSum (left - 1)

def pointQuery (bit : FenwickTree n) (idx : UInt32) : ℤ :=
  bit.rangeSum idx idx

/-- The `while (pw * 2 <= N)` loop of `highest_bit`. -/
def highestBitLoop (n : UInt32) : ℕ → UInt32 → UInt32
  | 0, pw => pw
  | fuel + 1, pw => if pw * 2 ≤ n then highestBitLoop n fuel (pw * 2) else pw

def highestBit (n : UInt32) : UInt32 := highestBitLoop n 32 1

/-- The binary lifting loop that `find_last_nonzero` and `find_first_nonzero`
share. -/
def lift (n : UInt32) (tree : UInt32 → ℤ) : ℕ → UInt32 → UInt32 → ℤ → UInt32
  | 0, _, pos, _ => pos
  | fuel + 1, pw, pos, remaining =>
      if 0 < pw then
        if pos + pw ≤ n ∧ tree (pos + pw) < remaining then
          lift n tree fuel (pw >>> 1) (pos + pw) (remaining - tree (pos + pw))
        else lift n tree fuel (pw >>> 1) pos remaining
      else pos

def findLastNonzero (bit : FenwickTree n) : UInt32 :=
  let total := bit.prefixSum (n - 1)
  if total ≤ 0 then n else lift n bit.tree 32 (highestBit n) 0 total

def findFirstNonzero (bit : FenwickTree n) : UInt32 :=
  let total := bit.prefixSum (n - 1)
  if total ≤ 0 then n else lift n bit.tree 32 (highestBit n) 0 1

/-! ## What the nodes stand for -/

/-- The tree holds the cells `cell 0 .. cell (n - 1)`: each node is the sum of
the cells it covers. -/
def Holds (bit : FenwickTree n) (cell : ℕ → ℤ) : Prop :=
  ∀ node : UInt32, 0 < node → node ≤ n →
    bit.tree node =
      ∑ i ∈ Finset.Ico (node.toNat - lowbit node.toNat) node.toNat, cell i

def total (cell : ℕ → ℤ) (count : ℕ) : ℤ := ∑ i ∈ Finset.range count, cell i

theorem init_holds : (init : FenwickTree n).Holds fun _ => 0 := by
  intro node _ _
  simp [init]

theorem toNat_lsb {idx : UInt32} (hidx : 0 < idx) :
    (idx &&& -idx).toNat = lowbit idx.toNat := by
  have hpos : 0 < idx.toNat := by simpa [UInt32.lt_iff_toNat_lt] using hidx
  have hneg : (-idx).toNat = 2 ^ 32 - idx.toNat := by
    rw [UInt32.toNat_neg, UInt32.size]
    exact Nat.mod_eq_of_lt (by omega)
  rw [UInt32.toNat_and, hneg, land_two_pow_sub hpos idx.toNat_lt]

theorem toNat_prevNode {idx : UInt32} (hidx : 0 < idx) :
    (idx - (idx &&& -idx)).toNat = idx.toNat - lowbit idx.toNat := by
  have hpos : 0 < idx.toNat := by simpa [UInt32.lt_iff_toNat_lt] using hidx
  rw [UInt32.toNat_sub_of_le, toNat_lsb hidx]
  rw [UInt32.le_iff_toNat_le, toNat_lsb hidx]
  exact lowbit_le hpos

section Update

variable (hbound : n.toNat < 2 ^ 31)

include hbound

theorem toNat_nextNode {idx : UInt32} (hidx : 0 < idx) (hle : idx ≤ n) :
    (idx + (idx &&& -idx)).toNat = idx.toNat + lowbit idx.toNat := by
  have hpos : 0 < idx.toNat := by simpa [UInt32.lt_iff_toNat_lt] using hidx
  have hlow := lowbit_le hpos
  rw [UInt32.le_iff_toNat_le] at hle
  rw [UInt32.toNat_add, toNat_lsb hidx]
  exact Nat.mod_eq_of_lt (by omega)

/-- From a node that covers `cell`, the loop adds `delta` to exactly the later
nodes that cover it. -/
theorem updateLoop_apply {cell : ℕ} {delta : ℤ} (fuel : ℕ) (idx : UInt32)
    (tree : UInt32 → ℤ) (hcovers : Covers idx.toNat cell)
    (hfuel : n.toNat < idx.toNat + fuel) (node : UInt32) :
    updateLoop n delta fuel idx tree node =
      tree node +
        if idx ≤ node ∧ node ≤ n ∧ Covers node.toNat cell then delta
        else 0 := by
  have hidx : 0 < idx := by
    have := hcovers.2
    rw [UInt32.lt_iff_toNat_lt]
    simp only [UInt32.toNat_zero]
    omega
  induction fuel generalizing idx tree with
  | zero =>
      have hnone : ¬ (idx ≤ node ∧ node ≤ n ∧ Covers node.toNat cell) := by
        rintro ⟨hleft, hright, -⟩
        rw [UInt32.le_iff_toNat_le] at hleft hright
        omega
      simp [updateLoop, hnone]
  | succ fuel ih =>
      rw [updateLoop]
      split
      case isTrue hle =>
        have hnext := toNat_nextNode hbound hidx hle
        have hlow := lowbit_pos idx.toNat
        have hnextPos : 0 < idx + (idx &&& -idx) := by
          rw [UInt32.lt_iff_toNat_lt, hnext]
          simp only [UInt32.toNat_zero]
          omega
        rw [ih _ _ (by rw [hnext]; exact hcovers.next) (by omega) hnextPos]
        by_cases hnode : node = idx
        · subst hnode
          have hnot : ¬ node + (node &&& -node) ≤ node := by
            rw [UInt32.le_iff_toNat_le, hnext]
            omega
          simp [hnot, hle, hcovers]
        · have hiff : (idx + (idx &&& -idx) ≤ node ∧ node ≤ n ∧
            Covers node.toNat cell) ↔
              (idx ≤ node ∧ node ≤ n ∧ Covers node.toNat cell) := by
            rw [UInt32.le_iff_toNat_le, UInt32.le_iff_toNat_le (a := idx),
              hnext]
            have hne : node.toNat ≠ idx.toNat :=
              fun heq => hnode (UInt32.toNat_inj.mp heq)
            constructor
            · rintro ⟨hleft, hrest⟩
              exact ⟨by omega, hrest⟩
            · rintro ⟨hleft, hright, hcover⟩
              refine ⟨?_, hright, hcover⟩
              by_contra hbetween
              exact not_covers_of_between hcovers (by omega) (by omega) hcover
          simp [Function.update_of_ne hnode, hiff]
      case isFalse hgt =>
        have hnone : ¬ (idx ≤ node ∧ node ≤ n ∧ Covers node.toNat cell) := by
          rintro ⟨hleft, hright, -⟩
          exact hgt (UInt32.le_trans hleft hright)
        simp [hnone]

theorem update_tree_apply {bit : FenwickTree n} {idx : UInt32}
    (hidx : idx < n) (delta : ℤ) (node : UInt32) :
    (bit.update idx delta).tree node =
      bit.tree node +
        if 0 < node ∧ node ≤ n ∧ Covers node.toNat idx.toNat then delta
        else 0 := by
  have hnext : (idx + 1).toNat = idx.toNat + 1 := by
    rw [UInt32.lt_iff_toNat_lt] at hidx
    rw [UInt32.toNat_add]
    exact Nat.mod_eq_of_lt (by simp only [UInt32.toNat_one]; omega)
  rw [update, if_neg (UInt32.not_le.mpr hidx)]
  change updateLoop n delta n.toNat (idx + 1) bit.tree node = _
  have hcovers : Covers (idx + 1).toNat idx.toNat := by
    rw [hnext]
    exact covers_self_add_one idx.toNat
  rw [updateLoop_apply hbound _ _ _ hcovers (by rw [hnext]; omega)]
  have hiff : (idx + 1 ≤ node ∧ node ≤ n ∧ Covers node.toNat idx.toNat) ↔
      (0 < node ∧ node ≤ n ∧ Covers node.toNat idx.toNat) := by
    rw [UInt32.le_iff_toNat_le, UInt32.lt_iff_toNat_lt, hnext]
    constructor
    · rintro ⟨hleft, hrest⟩
      exact ⟨by simp only [UInt32.toNat_zero]; omega, hrest⟩
    · rintro ⟨-, hright, hcover⟩
      exact ⟨hcover.2, hright, hcover⟩
  simp [hiff]

/-- `update` adds `delta` to one cell. -/
theorem Holds.update {bit : FenwickTree n} {cell : ℕ → ℤ}
    (hholds : bit.Holds cell) {idx : UInt32} (hidx : idx < n) (delta : ℤ) :
    (bit.update idx delta).Holds
      (Function.update cell idx.toNat (cell idx.toNat + delta)) := by
  intro node hpos hle
  rw [update_tree_apply hbound hidx, hholds node hpos hle]
  have hcell : ∀ i, Function.update cell idx.toNat (cell idx.toNat + delta) i =
      cell i + if i = idx.toNat then delta else 0 := by
    intro i
    by_cases hi : i = idx.toNat
    · subst hi
      simp
    · simp [hi]
  simp only [hcell, Finset.sum_add_distrib, Finset.sum_ite_eq',
    Finset.mem_Ico, hpos, hle, true_and, Covers]

end Update

theorem update_of_ge (bit : FenwickTree n) {idx : UInt32} (hidx : n ≤ idx)
    (delta : ℤ) :
    bit.update idx delta = bit := if_pos hidx

/-! ## Prefix and range sums -/

theorem total_eq_add_Ico {cell : ℕ → ℤ} {low high : ℕ} (hle : low ≤ high) :
    total cell high = total cell low + ∑ i ∈ Finset.Ico low high, cell i :=
  (Finset.sum_range_add_sum_Ico cell hle).symm

theorem total_mono {cell : ℕ → ℤ} (hcell : ∀ i, 0 ≤ cell i) {low high : ℕ}
    (hle : low ≤ high) : total cell low ≤ total cell high := by
  rw [total_eq_add_Ico hle]
  have : 0 ≤ ∑ i ∈ Finset.Ico low high, cell i :=
    Finset.sum_nonneg fun i _ => hcell i
  omega

/-- The node that ends at `node` is the difference of two prefix sums. -/
theorem Holds.tree_eq {bit : FenwickTree n} {cell : ℕ → ℤ}
    (hholds : bit.Holds cell) {node : UInt32} (hpos : 0 < node)
    (hle : node ≤ n) :
    bit.tree node = total cell node.toNat -
      total cell (node.toNat - lowbit node.toNat) := by
  rw [hholds node hpos hle,
    total_eq_add_Ico (Nat.sub_le node.toNat (lowbit node.toNat))]
  ring

/-- The query loop adds up the prefix of length `idx`; with less fuel it stops
at the sum of the cells it has passed. -/
theorem prefixSumLoop_eq {bit : FenwickTree n} {cell : ℕ → ℤ}
    (hholds : bit.Holds cell) (fuel : ℕ) (idx : UInt32) (sum : ℤ)
    (hle : idx ≤ n) :
    ∃ low ≤ idx.toNat, (idx.toNat ≤ fuel → low = 0) ∧
      prefixSumLoop bit.tree fuel idx sum =
        sum + (total cell idx.toNat - total cell low) := by
  induction fuel generalizing idx sum with
  | zero =>
      refine ⟨idx.toNat, le_rfl, fun hfuel => by omega, ?_⟩
      simp [prefixSumLoop]
  | succ fuel ih =>
      rw [prefixSumLoop]
      split
      case isTrue hpos =>
        have hposNat : 0 < idx.toNat := by
          simpa [UInt32.lt_iff_toNat_lt] using hpos
        have hlow := lowbit_le hposNat
        have hlowPos := lowbit_pos idx.toNat
        have hsub := toNat_prevNode hpos
        have hle' : idx - (idx &&& -idx) ≤ n := by
          rw [UInt32.le_iff_toNat_le] at hle ⊢
          omega
        obtain ⟨low, hlowLe, hzero, heq⟩ :=
          ih (idx - (idx &&& -idx)) (sum + bit.tree idx) hle'
        refine ⟨low, by omega, fun hfuel => hzero (by omega), ?_⟩
        rw [heq, hsub, hholds.tree_eq hpos hle]
        ring
      case isFalse hzero =>
        have hidx : idx.toNat = 0 := by
          rw [UInt32.lt_iff_toNat_lt] at hzero
          simp only [UInt32.toNat_zero] at hzero
          omega
        refine ⟨0, by omega, fun _ => rfl, ?_⟩
        simp [hidx]

/-- The node at which a prefix query starts: it clamps its index to the last
cell. -/
theorem toNat_queryStart (hn : 0 < n.toNat) (idx : UInt32) :
    ((if idx ≥ n then n - 1 else idx) + 1).toNat =
      min (idx.toNat + 1) n.toNat := by
  have hsize := n.toNat_lt
  have hone : (1 : UInt32) ≤ n := by
    rw [UInt32.le_iff_toNat_le, UInt32.toNat_one]
    exact hn
  split
  case isTrue hge =>
    rw [ge_iff_le, UInt32.le_iff_toNat_le] at hge
    rw [UInt32.toNat_add, UInt32.toNat_sub_of_le _ _ hone]
    simp only [UInt32.toNat_one]
    omega
  case isFalse hlt =>
    rw [ge_iff_le, UInt32.not_le, UInt32.lt_iff_toNat_lt] at hlt
    rw [UInt32.toNat_add]
    simp only [UInt32.toNat_one]
    omega

theorem queryStart_le (hn : 0 < n.toNat) (idx : UInt32) :
    (if idx ≥ n then n - 1 else idx) + 1 ≤ n := by
  rw [UInt32.le_iff_toNat_le, toNat_queryStart hn]
  exact min_le_right _ _

/-- The prefix query returns the sum up to its index, clamped. -/
theorem Holds.prefixSum_eq {bit : FenwickTree n} {cell : ℕ → ℤ}
    (hholds : bit.Holds cell) (hn : 0 < n.toNat) (idx : UInt32) :
    bit.prefixSum idx = total cell (min (idx.toNat + 1) n.toNat) := by
  obtain ⟨low, _, hzero, heq⟩ :=
    prefixSumLoop_eq hholds n.toNat _ 0 (queryStart_le hn idx)
  rw [toNat_queryStart hn] at hzero heq
  obtain rfl := hzero (min_le_right _ _)
  rw [prefixSum, heq]
  simp [total]

/-- A range query is the sum of the cells from `left` to `right`, those past
the last cell left out. -/
theorem Holds.rangeSum_eq {bit : FenwickTree n} {cell : ℕ → ℤ}
    (hholds : bit.Holds cell) (hn : 0 < n.toNat) (left right : UInt32) :
    bit.rangeSum left right =
      ∑ i ∈ Finset.Ico (min left.toNat n.toNat) (min (right.toNat + 1) n.toNat),
        cell i := by
  rw [rangeSum]
  split
  case isTrue hgt =>
    rw [gt_iff_lt, UInt32.lt_iff_toNat_lt] at hgt
    rw [Finset.Ico_eq_empty (by omega), Finset.sum_empty]
  case isFalse hle =>
    rw [gt_iff_lt, UInt32.not_lt, UInt32.le_iff_toNat_le] at hle
    have hsplit : total cell (min (right.toNat + 1) n.toNat) =
        total cell (min left.toNat n.toNat) +
          ∑ i ∈ Finset.Ico (min left.toNat n.toNat) (min (right.toNat + 1)
            n.toNat), cell i :=
      total_eq_add_Ico (by omega)
    split
    case isTrue hzero =>
      subst hzero
      rw [hholds.prefixSum_eq hn, hsplit]
      simp [total]
    case isFalse hne =>
      have hone : (1 : UInt32) ≤ left := by
        have : left.toNat ≠ 0 :=
          fun h => hne (UInt32.toNat_inj.mp (by simpa using h))
        rw [UInt32.le_iff_toNat_le, UInt32.toNat_one]
        omega
      have hpred : (left - 1).toNat + 1 = left.toNat := by
        have hone' := UInt32.le_iff_toNat_le.mp hone
        rw [UInt32.toNat_one] at hone'
        rw [UInt32.toNat_sub_of_le _ _ hone, UInt32.toNat_one]
        omega
      rw [hholds.prefixSum_eq hn, hholds.prefixSum_eq hn, hpred, hsplit]
      ring

end FenwickTree

end MarketDataPipeline
