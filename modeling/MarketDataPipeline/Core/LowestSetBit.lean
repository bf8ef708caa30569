import Mathlib

/-!
# The lowest set bit and the intervals it defines

A binary indexed tree stores at node `i` the sum of the `lowbit i` cells that
end at `i`.  These lemmas say how such intervals nest: which nodes cover a
cell, and into which intervals a prefix splits.
-/

namespace MarketDataPipeline.LowestSetBit

/-- The largest power of two that divides `n`, for `n ≠ 0`. -/
def lowbit (n : ℕ) : ℕ := 2 ^ padicValNat 2 n

theorem lowbit_pos (n : ℕ) : 0 < lowbit n := Nat.two_pow_pos _

theorem lowbit_two_pow_mul (exponent : ℕ) {cofactor : ℕ} (hodd : Odd cofactor) :
    lowbit (2 ^ exponent * cofactor) = 2 ^ exponent := by
  have hcofactor : cofactor ≠ 0 := hodd.pos.ne'
  have hval : padicValNat 2 cofactor = 0 :=
    padicValNat.eq_zero_of_not_dvd hodd.not_two_dvd_nat
  rw [lowbit, padicValNat.mul (by positivity) hcofactor,
    padicValNat.prime_pow, hval, Nat.add_zero]

/-- Every positive number is its lowest set bit times an odd number. -/
theorem exists_odd_cofactor {n : ℕ} (hn : 0 < n) :
    ∃ exponent cofactor, Odd cofactor ∧ n = 2 ^ exponent * cofactor ∧
      lowbit n = 2 ^ exponent := by
  obtain ⟨exponent, cofactor, hodd, rfl⟩ := Nat.exists_eq_two_pow_mul_odd hn.ne'
  exact ⟨exponent, cofactor, hodd, rfl, lowbit_two_pow_mul exponent hodd⟩

theorem lowbit_le {n : ℕ} (hn : 0 < n) : lowbit n ≤ n := by
  obtain ⟨exponent, cofactor, hodd, rfl, hlow⟩ := exists_odd_cofactor hn
  rw [hlow]
  exact Nat.le_mul_of_pos_right _ hodd.pos

/-- Below the lowest set bit of `n`, the bits of `n + rest` are those
of `rest`. -/
theorem lowbit_add_of_lt {n rest : ℕ} (hn : 0 < n) (hrest : 0 < rest)
    (hlt : rest < lowbit n) : lowbit (n + rest) = lowbit rest := by
  obtain ⟨exponent, cofactor, hodd, rfl, hlow⟩ := exists_odd_cofactor hn
  obtain ⟨low, part, hpart, rfl, hlowRest⟩ := exists_odd_cofactor hrest
  rw [hlow] at hlt
  have hexponent : low < exponent := by
    by_contra hge
    have hpow : 2 ^ exponent ≤ 2 ^ low :=
      Nat.pow_le_pow_right (by omega) (by omega)
    have : 2 ^ low ≤ 2 ^ low * part := Nat.le_mul_of_pos_right _ hpart.pos
    omega
  obtain ⟨gap, rfl⟩ := Nat.exists_eq_add_of_lt hexponent
  have hsum : 2 ^ (low + gap + 1) * cofactor + 2 ^ low * part =
      2 ^ low * (2 * (2 ^ gap * cofactor) + part) := by ring
  rw [hsum, lowbit_two_pow_mul _ (Even.add_odd (even_two_mul _) hpart),
    hlowRest]

/-- The node that follows `n` on an update path covers all that `n` covers. -/
theorem sub_lowbit_add_lowbit_le {n : ℕ} (hn : 0 < n) :
    n + lowbit n - lowbit (n + lowbit n) ≤ n - lowbit n := by
  obtain ⟨exponent, cofactor, hodd, rfl, hlow⟩ := exists_odd_cofactor hn
  rw [hlow]
  obtain ⟨half, rfl⟩ := hodd
  have hsum : 2 ^ exponent * (2 * half + 1) + 2 ^ exponent =
      2 ^ (exponent + 1) * (half + 1) := by ring
  obtain ⟨shift, part, hpart, hhalf, hlowHalf⟩ :=
    exists_odd_cofactor (Nat.add_one_pos half)
  have hprod : 2 ^ (exponent + 1) * (half + 1) =
      2 ^ (exponent + 1 + shift) * part := by
    rw [hhalf, pow_add _ (exponent + 1) shift, mul_assoc]
  rw [hsum, hprod, lowbit_two_pow_mul _ hpart, ← hprod]
  have hgrow : 2 ^ (exponent + 1) ≤ 2 ^ (exponent + 1 + shift) :=
    Nat.pow_le_pow_right (by omega) (by omega)
  have hring : 2 ^ (exponent + 1) * (half + 1) =
      2 ^ exponent * (2 * half + 1) + 2 ^ exponent :=
    hsum.symm
  rw [pow_succ] at hgrow hring ⊢
  omega

/-- Node `node` of the tree covers the cell `cell` (cells count from 0, nodes
from 1). -/
def Covers (node cell : ℕ) : Prop := node - lowbit node ≤ cell ∧ cell < node

instance (node cell : ℕ) : Decidable (Covers node cell) :=
  inferInstanceAs (Decidable (_ ∧ _))

theorem covers_self_add_one (cell : ℕ) : Covers (cell + 1) cell :=
  ⟨by have := lowbit_pos (cell + 1); omega, Nat.lt_succ_self cell⟩

/-- The next node on an update path still covers the cell. -/
theorem Covers.next {node cell : ℕ} (hcovers : Covers node cell) :
    Covers (node + lowbit node) cell := by
  have hnode : 0 < node := by have := hcovers.2; omega
  have := sub_lowbit_add_lowbit_le hnode
  exact ⟨this.trans hcovers.1, by have := hcovers.2; omega⟩

/-- No node strictly between two consecutive nodes of an update path covers
the cell. -/
theorem not_covers_of_between {node other cell : ℕ} (hcovers : Covers node cell)
    (hlow : node < other) (hhigh : other < node + lowbit node) :
    ¬ Covers other cell := by
  obtain ⟨rest, rfl⟩ := Nat.exists_eq_add_of_lt hlow
  have hnode : 0 < node := by have := hcovers.2; omega
  have heq : lowbit (node + (rest + 1)) = lowbit (rest + 1) :=
    lowbit_add_of_lt hnode (by omega) (by omega)
  have hle := lowbit_le (Nat.add_one_pos rest)
  intro hother
  have hleft := hother.1
  have := hcovers.2
  rw [add_assoc, heq] at hleft
  omega

/-! ## Machine arithmetic -/

theorem land_two_pow_sub_one_sub {width n : ℕ} (hn : n < 2 ^ width) :
    n &&& (2 ^ width - 1 - n) = 0 := by
  apply Nat.eq_of_testBit_eq
  intro index
  have hsub : 2 ^ width - 1 - n = 2 ^ width - (n + 1) := by omega
  rw [Nat.testBit_and, hsub, Nat.testBit_two_pow_sub_succ hn, Nat.zero_testBit]
  cases n.testBit index <;> simp

theorem odd_land_two_pow_sub {width n : ℕ} (hodd : Odd n) (hn : n < 2 ^ width) :
    n &&& (2 ^ width - n) = 1 := by
  obtain ⟨half, rfl⟩ := hodd
  cases width with
  | zero => omega
  | succ width =>
      have hhalf : half < 2 ^ width := by rw [pow_succ] at hn; omega
      have hsub : 2 ^ (width + 1) - (2 * half + 1) =
          2 * (2 ^ width - 1 - half) + 1 := by
        rw [pow_succ]
        omega
      rw [hsub]
      have hland := land_two_pow_sub_one_sub hhalf
      apply Nat.eq_of_testBit_eq
      intro index
      rw [Nat.testBit_and]
      cases index with
      | zero => simp
      | succ index =>
          have hbit := congrArg (fun value => value.testBit index) hland
          simp only [Nat.testBit_and, Nat.zero_testBit] at hbit
          simpa [Nat.testBit_succ, Nat.mul_add_div] using hbit

/-- Masking a number with its two's complement leaves its lowest set bit. -/
theorem land_two_pow_sub {width n : ℕ} (hpos : 0 < n) (hn : n < 2 ^ width) :
    n &&& (2 ^ width - n) = lowbit n := by
  obtain ⟨exponent, cofactor, hodd, rfl, hlow⟩ := exists_odd_cofactor hpos
  have hexponent : exponent ≤ width := by
    by_contra hgt
    have hpow : 2 ^ width ≤ 2 ^ exponent :=
      Nat.pow_le_pow_right (by omega) (by omega)
    have := Nat.le_mul_of_pos_right (2 ^ exponent) hodd.pos
    omega
  obtain ⟨rest, rfl⟩ := Nat.exists_eq_add_of_le hexponent
  have hcofactor : cofactor < 2 ^ rest := by
    rw [pow_add] at hn
    exact Nat.lt_of_mul_lt_mul_left hn
  rw [hlow, pow_add, ← Nat.mul_sub, mul_comm (2 ^ exponent) cofactor,
    mul_comm (2 ^ exponent) (2 ^ rest - cofactor), ← Nat.shiftLeft_eq,
    ← Nat.shiftLeft_eq,
    ← Nat.shiftLeft_and_distrib, odd_land_two_pow_sub hodd hcofactor,
    Nat.shiftLeft_eq, one_mul]

end MarketDataPipeline.LowestSetBit
