import MarketDataPipeline.Core.Machine
import MarketDataPipeline.Core.Walk
import MarketDataPipeline.Fenwick.BinaryLifting

/-!
# The tree is the plain array

A tree under any sequence of updates answers every query as an array would that
adds each delta to its own cell.  The loops behind `update` and `prefix_sum`
end, and they touch the nodes `1 .. n` only.
-/

namespace MarketDataPipeline.FenwickTree

open LowestSetBit

variable {n : UInt32}

/-! ## The nodes that the loops touch -/

/-- The `while (idx <= N)` loop of `update`, from node `idx`. -/
abbrev UpdateWalk (n : UInt32) : UInt32 → List UInt32 → Prop :=
  Walk (· ≤ n) fun idx => idx + (idx &&& -idx)

/-- The `while (idx > 0)` loop of `prefix_sum`, from node `idx`. -/
abbrev QueryWalk : UInt32 → List UInt32 → Prop :=
  Walk (0 < ·) fun idx => idx - (idx &&& -idx)

theorem UpdateWalk.updateLoop_eq {idx : UInt32} {nodes : List UInt32}
    (hwalk : UpdateWalk n idx nodes) (delta : ℤ) {fuel : ℕ}
    (hfuel : nodes.length ≤ fuel) (tree : UInt32 → ℤ) :
    updateLoop n delta fuel idx tree =
      nodes.foldl (fun tree node =>
        Function.update tree node (tree node + delta)) tree := by
  induction hwalk generalizing fuel tree with
  | stop hguard => cases fuel <;> simp [updateLoop, hguard]
  | visit hguard _ ih =>
      obtain ⟨fuel, rfl⟩ := Nat.exists_eq_add_of_le' (Nat.one_le_of_lt hfuel)
      rw [updateLoop, if_pos hguard, ih (Nat.le_of_succ_le_succ hfuel),
        List.foldl_cons]

theorem QueryWalk.prefixSumLoop_eq {idx : UInt32} {nodes : List UInt32}
    (hwalk : QueryWalk idx nodes) (tree : UInt32 → ℤ) {fuel : ℕ}
    (hfuel : nodes.length ≤ fuel) (sum : ℤ) :
    prefixSumLoop tree fuel idx sum = sum + (nodes.map tree).sum := by
  induction hwalk generalizing fuel sum with
  | stop hguard => cases fuel <;> simp [prefixSumLoop, hguard]
  | visit hguard _ ih =>
      obtain ⟨fuel, rfl⟩ := Nat.exists_eq_add_of_le' (Nat.one_le_of_lt hfuel)
      rw [prefixSumLoop, if_pos hguard, ih (Nat.le_of_succ_le_succ hfuel),
        List.map_cons, List.sum_cons, add_assoc]

/-- Below `2 ^ 31` an update path never wraps: it climbs until it leaves the
tree. -/
theorem exists_updateWalk (hbound : n.toNat < 2 ^ 31) {idx : UInt32}
    (hidx : 0 < idx) :
    ∃ nodes, UpdateWalk n idx nodes ∧ nodes.length ≤ n.toNat + 1 - idx.toNat ∧
      ∀ node ∈ nodes, 0 < node ∧ node ≤ n := by
  have hnext : ∀ i : UInt32, 0 < i → i ≤ n →
      0 < i + (i &&& -i) ∧
        n.toNat + 1 - (i + (i &&& -i)).toNat < n.toNat + 1 - i.toNat := by
    intro i hi hle
    have hstep := toNat_nextNode hbound hi hle
    have hlow := lowbit_pos i.toNat
    rw [UInt32.le_iff_toNat_le] at hle
    rw [UInt32.lt_iff_toNat_lt, hstep, UInt32.toNat_zero]
    omega
  obtain ⟨nodes, hwalk, hlength⟩ :=
    Walk.exists_of_rank (fun i : UInt32 => n.toNat + 1 - i.toNat)
      (0 < ·) hnext hidx
  refine ⟨nodes, hwalk, hlength, ?_⟩
  exact hwalk.forall_visited (0 < ·) (fun i hi hle => (hnext i hi hle).1) hidx

/-- A query path descends to zero. -/
theorem exists_queryWalk {idx : UInt32} (hidx : idx ≤ n) :
    ∃ nodes, QueryWalk idx nodes ∧ nodes.length ≤ idx.toNat ∧
      ∀ node ∈ nodes, 0 < node ∧ node ≤ n := by
  have hnext : ∀ i : UInt32, i ≤ n → 0 < i →
      i - (i &&& -i) ≤ n ∧ (i - (i &&& -i)).toNat < i.toNat := by
    intro i hle hi
    have hstep := toNat_prevNode hi
    have hlow := lowbit_pos i.toNat
    rw [UInt32.le_iff_toNat_le] at hle ⊢
    rw [UInt32.lt_iff_toNat_lt, UInt32.toNat_zero] at hi
    omega
  obtain ⟨nodes, hwalk, hlength⟩ :=
    Walk.exists_of_rank (fun i : UInt32 => i.toNat) (· ≤ n) hnext hidx
  refine ⟨nodes, hwalk, hlength, fun node hnode => ?_⟩
  exact (hwalk.forall_visited (· ≤ n) (fun i hle hi => (hnext i hle hi).1) hidx
    node hnode).symm

/-! ## The array beside the tree -/

/-- Add `delta` to one cell of an array of `n` cells; other indices are
ignored. -/
def addToCell (n : UInt32) (cell : ℕ → ℤ) (idx : UInt32) (delta : ℤ) : ℕ → ℤ :=
  if idx < n then Function.update cell idx.toNat (cell idx.toNat + delta)
  else cell

def machine (n : UInt32) : Machine (FenwickTree n) (UInt32 × ℤ) where
  allowed _ _ := True
  step bit call := bit.update call.1 call.2

def arrayMachine (n : UInt32) : Machine (ℕ → ℤ) (UInt32 × ℤ) where
  allowed _ _ := True
  step cell call := addToCell n cell call.1 call.2

theorem Holds.addToCell {bit : FenwickTree n} {cell : ℕ → ℤ}
    (hbound : n.toNat < 2 ^ 31) (hholds : bit.Holds cell) (idx : UInt32)
    (delta : ℤ) :
    (bit.update idx delta).Holds (FenwickTree.addToCell n cell idx delta) := by
  rw [FenwickTree.addToCell]
  split
  case isTrue hidx => exact hholds.update hbound hidx delta
  case isFalse hidx =>
    rw [update_of_ge bit (UInt32.not_lt.mp hidx)]
    exact hholds

/-- The tree holds the array after every sequence of updates. -/
theorem run_holds (hbound : n.toNat < 2 ^ 31) (calls : List (UInt32 × ℤ)) :
    ((machine n).run init calls).Holds
      ((arrayMachine n).run (fun _ => 0) calls) :=
  Machine.simulation Holds
    (fun _ _ call hholds _ => hholds.addToCell hbound call.1 call.2) init_holds
    (Machine.legal_of_forall (fun _ _ => trivial) _ calls)

theorem Holds.pointQuery_eq {bit : FenwickTree n} {cell : ℕ → ℤ}
    (hholds : bit.Holds cell) (hn : 0 < n.toNat) (idx : UInt32) :
    bit.pointQuery idx = if idx < n then cell idx.toNat else 0 := by
  rw [pointQuery, hholds.rangeSum_eq hn]
  split
  case isTrue hidx =>
    rw [UInt32.lt_iff_toNat_lt] at hidx
    rw [min_eq_left (Nat.le_of_lt hidx), min_eq_left hidx,
      Nat.Ico_succ_singleton, Finset.sum_singleton]
  case isFalse hidx =>
    rw [UInt32.lt_iff_toNat_lt] at hidx
    rw [Finset.Ico_eq_empty (by omega), Finset.sum_empty]

/-- The queries of the tree return what the array `cell` holds. -/
structure Answers (bit : FenwickTree n) (cell : ℕ → ℤ) : Prop where
  prefixSum : ∀ idx : UInt32,
    bit.prefixSum idx = ∑ i ∈ Finset.Icc 0 (min idx.toNat (n.toNat - 1)), cell i
  rangeSum : ∀ left right : UInt32,
    bit.rangeSum left right =
      ∑ i ∈ Finset.Icc left.toNat (min right.toNat (n.toNat - 1)), cell i
  rangeSum_empty : ∀ left right : UInt32, right < left ∨ n ≤ left →
    bit.rangeSum left right = 0
  pointQuery : ∀ idx : UInt32, bit.pointQuery idx =
    if idx < n then cell idx.toNat else 0

theorem Holds.answers {bit : FenwickTree n} {cell : ℕ → ℤ}
    (hholds : bit.Holds cell) (hn : 0 < n.toNat) : bit.Answers cell where
  prefixSum idx := by
    rw [hholds.prefixSum_eq hn, total]
    congr 1
    ext i
    simp only [Finset.mem_range, Finset.mem_Icc]
    omega
  rangeSum left right := by
    rw [hholds.rangeSum_eq hn]
    congr 1
    ext i
    simp only [Finset.mem_Ico, Finset.mem_Icc]
    omega
  rangeSum_empty left right hempty := by
    rw [hholds.rangeSum_eq hn, Finset.Ico_eq_empty, Finset.sum_empty]
    rw [UInt32.lt_iff_toNat_lt, UInt32.le_iff_toNat_le] at hempty
    omega
  pointQuery idx := hholds.pointQuery_eq hn idx

/-- The loops of the tree end, they touch the nodes `1 .. n` only, and they do
what `update` and `prefixSum` compute. -/
structure LoopsEnd (bit : FenwickTree n) : Prop where
  update : ∀ idx < n, ∀ delta, ∃ nodes, UpdateWalk n (idx + 1) nodes ∧
    (∀ node ∈ nodes, 0 < node ∧ node ≤ n) ∧
    (bit.update idx delta).tree =
      nodes.foldl (fun tree node =>
        Function.update tree node (tree node + delta)) bit.tree
  query : ∀ idx, ∃ nodes,
    QueryWalk ((if idx ≥ n then n - 1 else idx) + 1) nodes ∧
    (∀ node ∈ nodes, 0 < node ∧ node ≤ n) ∧
      bit.prefixSum idx = (nodes.map bit.tree).sum

theorem loopsEnd (hn : 0 < n.toNat) (hbound : n.toNat < 2 ^ 31)
    (bit : FenwickTree n) :
    bit.LoopsEnd where
  update idx hidx delta := by
    have hstart : (idx + 1).toNat = idx.toNat + 1 := by
      rw [UInt32.lt_iff_toNat_lt] at hidx
      rw [UInt32.toNat_add, UInt32.toNat_one]
      exact Nat.mod_eq_of_lt (by omega)
    have hpos : 0 < idx + 1 := by
      rw [UInt32.lt_iff_toNat_lt, hstart, UInt32.toNat_zero]
      omega
    obtain ⟨nodes, hwalk, hlength, hnodes⟩ := exists_updateWalk hbound hpos
    refine ⟨nodes, hwalk, hnodes, ?_⟩
    rw [FenwickTree.update, if_neg (UInt32.not_le.mpr hidx)]
    exact hwalk.updateLoop_eq delta (by omega) bit.tree
  query idx := by
    obtain ⟨nodes, hwalk, hlength, hnodes⟩ :=
      exists_queryWalk (queryStart_le hn idx)
    have hfuel : nodes.length ≤ n.toNat :=
      hlength.trans (UInt32.le_iff_toNat_le.mp (queryStart_le hn idx))
    refine ⟨nodes, hwalk, hnodes, ?_⟩
    rw [prefixSum, hwalk.prefixSumLoop_eq bit.tree hfuel, zero_add]

/-- After any updates, in range or not, every query returns what the plain
array holds; the loops behind them end within the tree. -/
theorem equals_plain_array (hn : 1 ≤ n.toNat) (hbound : n.toNat < 2 ^ 31)
    (calls : List (UInt32 × ℤ)) :
    ((machine n).run init calls).Answers
      ((arrayMachine n).run (fun _ => 0) calls) ∧
      ((machine n).run init calls).LoopsEnd :=
  ⟨(run_holds hbound calls).answers hn, loopsEnd hn hbound _⟩

/-- Six cells, with an update out of range and a negative delta. -/
theorem equals_plain_array_six :
    let bit := (machine 6).run init [(2, 5), (6, 9), (5, 1), (2, -3)]
    bit.prefixSum 4 = 2 ∧
      bit.Answers ((arrayMachine 6).run (fun _ => 0)
        [(2, 5), (6, 9), (5, 1), (2, -3)]) ∧
      bit.LoopsEnd :=
  ⟨by decide, equals_plain_array (by decide) (by decide) [(2, 5), (6, 9),
    (5, 1), (2, -3)]⟩

/-! ## The searches -/

end MarketDataPipeline.FenwickTree
