import MarketDataPipeline.Fenwick.FenwickTree

/-!
# Finding the first and the last non-zero cell

Both searches descend from the highest power of two below the size and keep a
position whose prefix sum is still below a target.  With non-negative cells
they end just before the cell where the prefix sum reaches the target.
-/

namespace MarketDataPipeline.FenwickTree

open LowestSetBit

variable {n : UInt32}

/-- `highest_bit` is the highest power of two that is at most `n`. -/
theorem exists_highestBit (hpos : 0 < n.toNat) (hbound : n.toNat < 2 ^ 31) :
    ∃ exponent < 31, (highestBit n).toNat = 2 ^ exponent ∧
      2 ^ exponent ≤ n.toNat ∧
      n.toNat < 2 ^ (exponent + 1) := by
  have hloop : ∀ (fuel exponent : ℕ) (pw : UInt32), pw.toNat = 2 ^ exponent →
      2 ^ exponent ≤ n.toNat → 32 ≤ exponent + fuel →
      ∃ last < 31, (highestBitLoop n fuel pw).toNat = 2 ^ last ∧
        2 ^ last ≤ n.toNat ∧ n.toNat < 2 ^ (last + 1) := by
    intro fuel
    induction fuel with
    | zero =>
        intro exponent pw _ hle hfuel
        have : 2 ^ 32 ≤ 2 ^ exponent :=
          Nat.pow_le_pow_right (by omega) (by omega)
        omega
    | succ fuel ih =>
        intro exponent pw hpw hle hfuel
        have hexponent : exponent < 31 := by
          by_contra hge
          have : 2 ^ 31 ≤ 2 ^ exponent :=
            Nat.pow_le_pow_right (by omega) (by omega)
          omega
        have hdouble : (pw * 2).toNat = 2 ^ (exponent + 1) := by
          have : 2 ^ (exponent + 1) ≤ 2 ^ 31 :=
            Nat.pow_le_pow_right (by omega) (by omega)
          rw [UInt32.toNat_mul, hpw, pow_succ] at *
          exact Nat.mod_eq_of_lt (by simp only [UInt32.toNat_ofNat]; omega)
        rw [highestBitLoop]
        split
        case isTrue hnext =>
          rw [UInt32.le_iff_toNat_le, hdouble] at hnext
          exact ih (exponent + 1) (pw * 2) hdouble hnext (by omega)
        case isFalse hlast =>
          rw [UInt32.le_iff_toNat_le, hdouble] at hlast
          exact ⟨exponent, hexponent, hpw, hle, by omega⟩
  exact hloop 32 0 1 rfl hpos (by omega)

theorem toNat_shiftRight_one (pw : UInt32) :
    (pw >>> 1).toNat = pw.toNat / 2 := by
  rw [UInt32.toNat_shiftRight, UInt32.toNat_one, Nat.shiftRight_eq_div_pow]

/-- What the descent knows before a step: `pos` is a multiple of `width`, the
prefix up to it is short of the target by `remaining`, and the target is
reached within the next `width` cells. -/
structure Lifting (cell : ℕ → ℤ) (n : UInt32) (target : ℤ) (width : ℕ)
    (pos : UInt32) (remaining : ℤ) : Prop where
  pos_le : pos.toNat ≤ n.toNat
  aligned : width ∣ pos.toNat
  remaining_eq : remaining = target - total cell pos.toNat
  below : 0 < remaining
  above : n.toNat < pos.toNat + width ∨ target ≤ total cell (pos.toNat + width)

theorem lowbit_add_two_pow {base exponent : ℕ}
    (hdvd : 2 ^ (exponent + 1) ∣ base) :
    lowbit (base + 2 ^ exponent) = 2 ^ exponent := by
  obtain ⟨factor, rfl⟩ := hdvd
  have hsum : 2 ^ (exponent + 1) * factor + 2 ^ exponent =
      2 ^ exponent * (2 * factor + 1) := by
    ring
  rw [hsum, lowbit_two_pow_mul exponent (odd_two_mul_add_one factor)]

section Descent

variable {bit : FenwickTree n} {cell : ℕ → ℤ} (hholds : bit.Holds cell)
  (hbound : n.toNat < 2 ^ 31) {target : ℤ}

include hholds hbound

/-- One step halves the width, whether or not it moves the position. -/
theorem Lifting.step {exponent : ℕ} {pw pos : UInt32} {remaining : ℤ}
    (hinv : Lifting cell n target (2 ^ (exponent + 1)) pos remaining)
    (hpw : pw.toNat = 2 ^ exponent) (hpwLe : 2 ^ exponent ≤ n.toNat) :
    if pos + pw ≤ n ∧ bit.tree (pos + pw) < remaining then
      Lifting cell n target (2 ^ exponent) (pos + pw)
        (remaining - bit.tree (pos + pw))
    else Lifting cell n target (2 ^ exponent) pos remaining := by
  have hposLe := hinv.pos_le
  have hnextNat : (pos + pw).toNat = pos.toNat + 2 ^ exponent := by
    rw [UInt32.toNat_add, hpw]
    exact Nat.mod_eq_of_lt (by omega)
  have hdouble : 2 ^ (exponent + 1) = 2 ^ exponent + 2 ^ exponent := by ring
  have hdvd : 2 ^ exponent ∣ pos.toNat :=
    (Nat.pow_dvd_pow 2 (Nat.le_succ exponent)).trans hinv.aligned
  have hpowPos : 0 < 2 ^ exponent := Nat.two_pow_pos exponent
  -- The node just read covers exactly the cells between the two positions.
  have hnode : pos + pw ≤ n → bit.tree (pos + pw) =
      total cell (pos.toNat + 2 ^ exponent) - total cell pos.toNat := by
    intro hle
    have hnodePos : 0 < pos + pw := by
      rw [UInt32.lt_iff_toNat_lt, hnextNat, UInt32.toNat_zero]
      omega
    rw [hholds.tree_eq hnodePos hle, hnextNat, lowbit_add_two_pow hinv.aligned,
      Nat.add_sub_cancel]
  have hremaining := hinv.remaining_eq
  split
  case isTrue hmove =>
    have htree := hnode hmove.1
    refine ⟨?_, ?_, ?_, ?_, ?_⟩
    · rw [← UInt32.le_iff_toNat_le]
      exact hmove.1
    · rw [hnextNat]
      exact dvd_add hdvd dvd_rfl
    · rw [hnextNat, htree, hremaining]
      ring
    · have := hmove.2
      omega
    · rw [hnextNat, add_assoc, ← hdouble]
      exact hinv.above
  case isFalse hstay =>
    refine ⟨hposLe, hdvd, hremaining, hinv.below, ?_⟩
    by_cases hle : pos + pw ≤ n
    · have hge : ¬ bit.tree (pos + pw) < remaining :=
        fun hlt => hstay ⟨hle, hlt⟩
      rw [hnode hle, hremaining] at hge
      exact Or.inr (by omega)
    · rw [UInt32.le_iff_toNat_le, hnextNat] at hle
      exact Or.inl (by omega)

omit hholds hbound in
theorem lift_zero (tree : UInt32 → ℤ) (fuel : ℕ) (pos : UInt32)
    (remaining : ℤ) :
    lift n tree fuel 0 pos remaining = pos := by
  cases fuel <;> simp [lift]

/-- The whole descent narrows the width down to one cell. -/
theorem lift_lifting (exponent fuel : ℕ) (pw pos : UInt32) (remaining : ℤ)
    (hpw : pw.toNat = 2 ^ exponent) (hpwLe : 2 ^ exponent ≤ n.toNat)
    (hfuel : exponent < fuel)
    (hinv : Lifting cell n target (2 ^ (exponent + 1)) pos remaining) :
    ∃ left, Lifting cell n target 1
      (lift n bit.tree fuel pw pos remaining) left := by
  induction exponent generalizing fuel pw pos remaining with
  | zero =>
      obtain ⟨fuel, rfl⟩ := Nat.exists_eq_add_of_lt hfuel
      have hzero : pw >>> 1 = 0 := by
        rw [← UInt32.toNat_inj, toNat_shiftRight_one, hpw]
        rfl
      have hpwPos : 0 < pw := by
        rw [UInt32.lt_iff_toNat_lt, hpw]
        decide
      have hstep := hinv.step hholds hbound hpw hpwLe
      rw [lift, if_pos hpwPos, hzero]
      split at hstep
      case isTrue hmove =>
        rw [if_pos hmove, lift_zero]
        exact ⟨_, hstep⟩
      case isFalse hstay =>
        rw [if_neg hstay, lift_zero]
        exact ⟨_, hstep⟩
  | succ exponent ih =>
      obtain ⟨rest, hrest⟩ := Nat.exists_eq_add_of_lt hfuel
      obtain rfl : fuel = (exponent + 1 + rest) + 1 := hrest
      have hhalf : (pw >>> 1).toNat = 2 ^ exponent := by
        rw [toNat_shiftRight_one, hpw, pow_succ]
        omega
      have hpwPos : 0 < pw := by
        have := Nat.two_pow_pos (exponent + 1)
        rw [UInt32.lt_iff_toNat_lt, hpw, UInt32.toNat_zero]
        exact this
      have hhalfLe : 2 ^ exponent ≤ n.toNat := by
        rw [pow_succ] at hpwLe
        omega
      have hstep := hinv.step hholds hbound hpw hpwLe
      rw [lift, if_pos hpwPos]
      split at hstep
      case isTrue hmove =>
        rw [if_pos hmove]
        exact ih _ _ _ _ hhalf hhalfLe (by omega) hstep
      case isFalse hstay =>
        rw [if_neg hstay]
        exact ih _ _ _ _ hhalf hhalfLe (by omega) hstep

/-- Started at the highest power of two, the descent ends just before the cell
at which the prefix sum reaches the target. -/
theorem lift_spec (hn : 0 < n.toNat) (hpos : 0 < target)
    (htarget : target ≤ total cell n.toNat) :
    let last := lift n bit.tree 32 (highestBit n) 0 target
    last < n ∧ total cell last.toNat < target ∧
      target ≤ total cell (last.toNat + 1) := by
  obtain ⟨exponent, hexponent, hpw, hpwLe, hhigh⟩ := exists_highestBit hn hbound
  have hstart : Lifting cell n target (2 ^ (exponent + 1)) 0 target :=
    ⟨by simp, by simp, by simp [total], hpos, Or.inl (by simpa using hhigh)⟩
  obtain ⟨left, hend⟩ :=
    lift_lifting hholds hbound exponent 32 _ 0 target hpw hpwLe
      (by omega) hstart
  have hbelow := hend.below
  rw [hend.remaining_eq] at hbelow
  have hlast : (lift n bit.tree 32 (highestBit n) 0 target).toNat <
      n.toNat := by
    refine lt_of_le_of_ne hend.pos_le fun heq => ?_
    rw [heq] at hbelow
    omega
  refine ⟨UInt32.lt_iff_toNat_lt.mpr hlast, by omega, ?_⟩
  exact hend.above.resolve_left (by omega)

end Descent

section Search

variable {bit : FenwickTree n} {cell : ℕ → ℤ} (hholds : bit.Holds cell)
  (hn : 0 < n.toNat) (hbound : n.toNat < 2 ^ 31) (hcell : ∀ i, 0 ≤ cell i)

theorem total_succ (cell : ℕ → ℤ) (count : ℕ) :
    total cell (count + 1) = total cell count + cell count :=
  Finset.sum_range_succ cell count

include hcell in
/-- Non-negative cells that leave the prefix sum where it is are zero. -/
theorem cell_eq_zero_of_total_eq {low high : ℕ}
    (htotal : total cell high ≤ total cell low) {i : ℕ} (hlow : low ≤ i)
    (hhigh : i < high) : cell i = 0 := by
  have hleft := total_mono hcell hlow
  have hright := total_mono hcell (show i + 1 ≤ high from hhigh)
  have hsucc := total_succ cell i
  have := hcell i
  omega

include hholds hn in
theorem Holds.prefixSum_last : bit.prefixSum (n - 1) = total cell n.toNat := by
  have hone : (1 : UInt32) ≤ n := by
    rw [UInt32.le_iff_toNat_le, UInt32.toNat_one]
    exact hn
  rw [hholds.prefixSum_eq hn, UInt32.toNat_sub_of_le _ _ hone, UInt32.toNat_one]
  congr 1
  omega

include hholds hn hbound hcell

/-- `find_last_nonzero` returns the last index whose cell is positive, or `n`
when every cell is zero. -/
theorem Holds.findLastNonzero_spec :
    (bit.findLastNonzero = n ∧ ∀ i < n.toNat, cell i = 0) ∨
      (bit.findLastNonzero < n ∧ 0 < cell bit.findLastNonzero.toNat ∧
        ∀ i, bit.findLastNonzero.toNat < i → i < n.toNat → cell i = 0) := by
  rw [findLastNonzero, hholds.prefixSum_last hn]
  split
  case isTrue hzero =>
    refine Or.inl ⟨rfl, fun i hi => ?_⟩
    have htotal : total cell n.toNat ≤ total cell 0 := by
      simpa [total] using hzero
    exact cell_eq_zero_of_total_eq hcell htotal (Nat.zero_le i) hi
  case isFalse hpos =>
    obtain ⟨hlast, hbelow, habove⟩ :=
      lift_spec hholds hbound hn (by omega) (le_refl (total cell n.toNat))
    refine Or.inr ⟨hlast, ?_, fun i hlow hhigh => ?_⟩
    · rw [total_succ] at habove
      omega
    · exact cell_eq_zero_of_total_eq hcell habove hlow hhigh

/-- `find_first_nonzero` returns the first index whose cell is positive, or `n`
when every cell is zero. -/
theorem Holds.findFirstNonzero_spec :
    (bit.findFirstNonzero = n ∧ ∀ i < n.toNat, cell i = 0) ∨
      (bit.findFirstNonzero < n ∧ 0 < cell bit.findFirstNonzero.toNat ∧
        ∀ i < bit.findFirstNonzero.toNat, cell i = 0) := by
  rw [findFirstNonzero, hholds.prefixSum_last hn]
  split
  case isTrue hzero =>
    refine Or.inl ⟨rfl, fun i hi => ?_⟩
    have htotal : total cell n.toNat ≤ total cell 0 := by
      simpa [total] using hzero
    exact cell_eq_zero_of_total_eq hcell htotal (Nat.zero_le i) hi
  case isFalse hpos =>
    obtain ⟨hlast, hbelow, habove⟩ :=
      lift_spec hholds hbound hn one_pos (by omega)
    refine Or.inr ⟨hlast, ?_, fun i hhigh => ?_⟩
    · rw [total_succ] at habove
      omega
    · have htotal : total cell (lift n bit.tree 32 (highestBit n) 0 1).toNat ≤
        total cell 0 := by
        simp only [total, Finset.range_zero, Finset.sum_empty] at hbelow ⊢
        omega
      exact cell_eq_zero_of_total_eq hcell htotal (Nat.zero_le i) hhigh

end Search

end MarketDataPipeline.FenwickTree
