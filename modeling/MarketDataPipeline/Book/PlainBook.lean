import MarketDataPipeline.Book.BookWithBIT
import MarketDataPipeline.Book.SharedPool

/-!
# The plain book

`MBOBook` keeps the 32-bit level quantities but no trees: after a removal it
scans the levels for the next best price.  Its `clear` frees all orders before
it forgets any queue, which comes to the same as `MBOBookWithBIT::clear`.
-/

namespace MarketDataPipeline

variable {size : UInt32}

/-- What `MBOBook` keeps beside its queues. -/
structure PlainTally where
  qty : Side → UInt32 → UInt32
  best : Side → UInt32
  totalAdds : UInt64
  totalTrades : UInt64
  totalCancels : UInt64

namespace PlainTally

def init : PlainTally where
  qty _ _ := 0
  best := Side.noPrice
  totalAdds := 0
  totalTrades := 0
  totalCancels := 0

/-- The loop of `update_best_bid`: down to the next level with quantity. -/
def scanDown (qty : UInt32 → UInt32) : ℕ → UInt32 → UInt32
  | 0, best => best
  | fuel + 1, best =>
      if best > 0 ∧ qty best = 0 then scanDown qty fuel (best - 1) else best

/-- The loop of `update_best_ask`: up to the next level with quantity. -/
def scanUp (qty : UInt32 → UInt32) : ℕ → UInt32 → UInt32
  | 0, best => best
  | fuel + 1, best =>
      if best < maxPriceLevels ∧ qty best = 0 then scanUp qty fuel (best + 1)
      else best

def updateBestBid (tally : PlainTally) : PlainTally :=
  let best := scanDown (tally.qty .bid) (tally.best .bid).toNat
    (tally.best .bid)
  { tally with
    best := Function.update tally.best .bid
      (if tally.qty .bid best = 0 then 0 else best) }

def updateBestAsk (tally : PlainTally) : PlainTally :=
  let best := scanUp (tally.qty .ask) maxPriceLevels.toNat (tally.best .ask)
  { tally with
    best := Function.update tally.best .ask
      (if best ≥ maxPriceLevels ∨ tally.qty .ask best = 0 then invalidPrice
       else best) }

def updateBest (tally : PlainTally) : Side → PlainTally
  | .bid => tally.updateBestBid
  | .ask => tally.updateBestAsk

def add (tally : PlainTally) (side : Side) (price qty : UInt32) : PlainTally :=
  { tally with
    qty := setAt tally.qty side price (tally.qty side price + qty)
    best :=
      if side.improves price (tally.best side) then
        Function.update tally.best side price
      else tally.best
    totalAdds := tally.totalAdds + 1 }

def subtract (tally : PlainTally) (side : Side) (price qty : UInt32) :
    PlainTally :=
  let level := tally.qty side price
  { tally with
    qty := setAt tally.qty side price (if level ≥ qty then level - qty else 0)
    totalCancels := tally.totalCancels + 1 }

def remove (tally : PlainTally) (side : Side) (price qty : UInt32) :
    PlainTally :=
  let subtracted := tally.subtract side price qty
  if price = subtracted.best side ∧ subtracted.qty side price = 0 then
    subtracted.updateBest side
  else subtracted

def reduce (tally : PlainTally) (side : Side) (price qty : UInt32) :
    PlainTally :=
  { tally with qty := setAt tally.qty side price (tally.qty side price - qty) }

def clear (tally : PlainTally) : PlainTally :=
  { tally with
    qty := fun side price =>
      if price < maxPriceLevels then 0 else tally.qty side price
    best := Side.noPrice }

instance : LevelTally PlainTally where
  add := add
  remove := remove
  reduce := reduce
  countTrade tally := { tally with totalTrades := tally.totalTrades + 1 }
  clear := clear

end PlainTally

abbrev MBOBook := OrderBook PlainTally

/-! ## Clearing in two passes -/

namespace Queues

/-- The first `count` rounds of the first loop of `MBOBook::clear`. -/
def freeLevels (queues : Queues) (pool : OrderPool size) : ℕ → OrderPool size
  | 0 => pool
  | count + 1 => queues.freeLevel (queues.freeLevels pool count) (.ofNat count)

/-- The first `count` rounds of the second loop of `MBOBook::clear`. -/
def resetLevels (queues : Queues) : ℕ → Queues
  | 0 => queues
  | count + 1 => (queues.resetLevels count).resetLevel (.ofNat count)

/-- Forgetting the first levels leaves the heads of the later ones. -/
theorem resetLevels_head (queues : Queues) (side : Side) {count : ℕ}
    {price : UInt32} (hprice : count ≤ price.toNat) :
    (queues.resetLevels count).head side price = queues.head side price := by
  induction count with
  | zero => rfl
  | succ count ih =>
      have hne : price ≠ .ofNat count := by
        rintro rfl
        rw [UInt32.toNat_ofNat'] at hprice
        have := Nat.mod_le count (2 ^ 32)
        omega
      rw [resetLevels, resetLevel]
      exact (if_neg hne).trans (ih (by omega))

/-- Freeing and forgetting level by level is freeing all, then
forgetting all. -/
theorem clearLevels_eq (queues : Queues) (pool : OrderPool size) {count : ℕ}
    (hcount : count ≤ 2 ^ 32) :
    queues.clearLevels pool count =
      (queues.resetLevels count, queues.freeLevels pool count) := by
  induction count with
  | zero => rfl
  | succ count ih =>
      have hthis : count ≤ (UInt32.ofNat count).toNat := by
        rw [UInt32.toNat_ofNat', Nat.mod_eq_of_lt (by omega)]
      rw [clearLevels, ih (by omega), resetLevels, freeLevels]
      simp only [freeLevel, queues.resetLevels_head _ hthis]

end Queues

namespace MBOBook

def init : MBOBook := ⟨.init, .init⟩

/-- `MBOBook::clear`. -/
def clear (book : MBOBook) (pool : OrderPool size) : MBOBook × OrderPool size :=
  (⟨book.queues.resetLevels maxPriceLevels.toNat, LevelTally.clear book.tally⟩,
    book.queues.freeLevels pool maxPriceLevels.toNat)

def apply (book : MBOBook) (pool : OrderPool size) :
    BookOp → UInt32 × MBOBook × OrderPool size
  | .enqueue side price orderId qty => book.enqueue pool side price orderId qty
  | .trade side price qty => book.trade pool side price qty
  | .dequeue idx => (0, book.dequeue pool idx)
  | .clear => (0, clear book pool)

/-- The two passes of `clear` make no difference to any call. -/
theorem apply_eq (book : MBOBook) (pool : OrderPool size) (op : BookOp) :
    apply book pool op = OrderBook.apply book pool op := by
  cases op with
  | clear =>
      have hclear :=
        book.queues.clearLevels_eq pool (Nat.le_of_lt maxPriceLevels.toNat_lt)
      simp only [apply, OrderBook.apply, clear, OrderBook.clear, hclear]
  | _ => rfl

def getBestBid (book : MBOBook) : UInt32 := book.tally.best .bid

def getBestAsk (book : MBOBook) : UInt32 := book.tally.best .ask

end MBOBook

/-! ## What the scans find -/

namespace PlainTally

/-- Scanning down stops at the highest level with quantity, or at 0. -/
theorem scanDown_spec (qty : UInt32 → UInt32) (fuel : ℕ) (best : UInt32)
    (hfuel : best.toNat ≤ fuel) :
    (∀ price, scanDown qty fuel best < price → price ≤ best → qty price = 0) ∧
      (qty (scanDown qty fuel best) = 0 → scanDown qty fuel best = 0) := by
  induction fuel generalizing best with
  | zero =>
      have hzero : best = 0 := UInt32.toNat_inj.mp (by simpa using hfuel)
      subst hzero
      refine ⟨fun price hlt hle => ?_, fun _ => rfl⟩
      exact absurd hlt (UInt32.not_lt.mpr hle)
  | succ fuel ih =>
      rw [scanDown]
      split
      case isTrue hgo =>
        have hpos := UInt32.lt_iff_toNat_lt.mp hgo.1
        have hone : (1 : UInt32) ≤ best := by
          rw [UInt32.le_iff_toNat_le, UInt32.toNat_one]
          exact hpos
        have hpred : (best - 1).toNat = best.toNat - 1 := by
          rw [UInt32.toNat_sub_of_le _ _ hone, UInt32.toNat_one]
        obtain ⟨habove, hstop⟩ := ih (best - 1) (by omega)
        refine ⟨fun price hlt hle => ?_, hstop⟩
        by_cases hprice : price = best
        · rw [hprice, hgo.2]
        · refine habove price hlt ?_
          have hne : price.toNat ≠ best.toNat :=
            fun heq => hprice (UInt32.toNat_inj.mp heq)
          rw [UInt32.le_iff_toNat_le] at hle ⊢
          omega
      case isFalse hstop =>
        refine ⟨fun price hlt hle => absurd hlt (UInt32.not_lt.mpr hle),
          fun hqty => ?_⟩
        by_contra hne
        exact hstop ⟨UInt32.pos_iff_ne_zero.mpr hne, hqty⟩

/-- Scanning up stops at the lowest level with quantity, or past the last. -/
theorem scanUp_spec (qty : UInt32 → UInt32) (fuel : ℕ) (best : UInt32)
    (hbest : best ≤ maxPriceLevels)
    (hfuel : maxPriceLevels.toNat ≤ best.toNat + fuel) :
    (∀ price, best ≤ price → price < scanUp qty fuel best → qty price = 0) ∧
      (qty (scanUp qty fuel best) = 0 → maxPriceLevels ≤
        scanUp qty fuel best) := by
  induction fuel generalizing best with
  | zero =>
      refine ⟨fun price hle hlt =>
        absurd hlt (UInt32.not_lt.mpr hle), fun _ => ?_⟩
      rw [scanUp, UInt32.le_iff_toNat_le]
      omega
  | succ fuel ih =>
      rw [scanUp]
      split
      case isTrue hgo =>
        have hlt := UInt32.lt_iff_toNat_lt.mp hgo.1
        have hbound := maxPriceLevels.toNat_lt
        have hnext : (best + 1).toNat = best.toNat + 1 := by
          rw [UInt32.toNat_add, UInt32.toNat_one, Nat.mod_eq_of_lt (by omega)]
        have hle : best + 1 ≤ maxPriceLevels := by
          rw [UInt32.le_iff_toNat_le, hnext]
          omega
        obtain ⟨hbelow, hstop⟩ := ih (best + 1) hle (by omega)
        refine ⟨fun price hge hlt' => ?_, hstop⟩
        by_cases hprice : price = best
        · rw [hprice, hgo.2]
        · refine hbelow price ?_ hlt'
          have hne : price.toNat ≠ best.toNat :=
            fun heq => hprice (UInt32.toNat_inj.mp heq)
          rw [UInt32.le_iff_toNat_le] at hge ⊢
          omega
      case isFalse hstop =>
        refine ⟨fun price hge hlt => absurd hlt (UInt32.not_lt.mpr hge),
          fun hqty => ?_⟩
        by_contra hlt
        exact hstop ⟨UInt32.not_le.mp hlt, hqty⟩

end PlainTally

end MarketDataPipeline
