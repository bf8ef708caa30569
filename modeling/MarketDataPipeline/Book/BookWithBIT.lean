import MarketDataPipeline.Book.BookSteps
import MarketDataPipeline.Fenwick.BinaryLifting

/-!
# The book with Fenwick trees

`MBOBookWithBIT` adds to the queues a tally: the 32-bit quantity of every
level, a Fenwick tree per side, the best prices and two counters.  The two
sides of the source are one definition each, indexed by side; `enqueueBid` and
the like are its instances under the source's names.
-/

namespace MarketDataPipeline

namespace Side

/-- The value of `best_bid` / `best_ask` when the side has no price. -/
def noPrice : Side → UInt32
  | bid => 0
  | ask => invalidPrice

/-- The comparison with which an enqueue improves the best price. -/
def improves : Side → UInt32 → UInt32 → Prop
  | bid, price, best => price > best
  | ask, price, best => price < best

instance (side : Side) (price best : UInt32) :
    Decidable (side.improves price best) :=
  match side with
  | bid => inferInstanceAs (Decidable (price > best))
  | ask => inferInstanceAs (Decidable (price < best))

theorem improves_irrefl (side : Side) (price : UInt32) :
    ¬ side.improves price price := by
  cases side <;> exact UInt32.lt_irrefl price

/-- A price no better than the old best is no better than an improved one. -/
theorem not_improves_of_improves {side : Side} {price best other : UInt32}
    (himproves : side.improves price best)
    (hother : ¬ side.improves other best) :
    ¬ side.improves other price := by
  cases side <;> simp only [improves] at * <;> grind

end Side

/-- What `MBOBookWithBIT` keeps beside its queues. -/
structure DepthTally where
  qty : Side → UInt32 → UInt32
  bit : Side → FenwickTree maxPriceLevels
  best : Side → UInt32
  totalAdds : UInt64
  totalTrades : UInt64

namespace DepthTally

def init : DepthTally where
  qty _ _ := 0
  bit _ := .init
  best := Side.noPrice
  totalAdds := 0
  totalTrades := 0

def updateBestBid (tally : DepthTally) : DepthTally :=
  let idx := (tally.bit .bid).findLastNonzero
  { tally with
    best := Function.update tally.best .bid
      (if idx < maxPriceLevels then idx else 0) }

def updateBestAsk (tally : DepthTally) : DepthTally :=
  let idx := (tally.bit .ask).findFirstNonzero
  { tally with
    best := Function.update tally.best .ask
      (if idx < maxPriceLevels then idx else invalidPrice) }

def updateBest (tally : DepthTally) : Side → DepthTally
  | .bid => tally.updateBestBid
  | .ask => tally.updateBestAsk

/-- `xxx_bit.update(price, delta)`. -/
def updateBit (tally : DepthTally) (side : Side) (price : UInt32) (delta : ℤ) :
    DepthTally :=
  { tally with
    bit := Function.update tally.bit side
      ((tally.bit side).update price delta) }

/-- What an enqueue records after linking the order. -/
def add (tally : DepthTally) (side : Side) (price qty : UInt32) : DepthTally :=
  let summed :=
    { tally with
      qty := setAt tally.qty side price (tally.qty side price + qty) }
  let updated := summed.updateBit side price qty.toNat
  { updated with
    best :=
      if side.improves price (tally.best side) then
        Function.update tally.best side price
      else tally.best
    totalAdds := tally.totalAdds + 1 }

/-- What `dequeue` records before it looks at the best price. -/
def subtract (tally : DepthTally) (side : Side) (price qty : UInt32) :
    DepthTally :=
  let level := tally.qty side price
  let reduced :=
    { tally with
      qty := setAt tally.qty side price
        (if level ≥ qty then level - qty else 0) }
  reduced.updateBit side price (-(qty.toNat : ℤ))

/-- What `dequeue` records in all. -/
def remove (tally : DepthTally) (side : Side) (price qty : UInt32) :
    DepthTally :=
  let subtracted := tally.subtract side price qty
  if price = subtracted.best side ∧ subtracted.qty side price = 0 then
    subtracted.updateBest side
  else subtracted

/-- What a partial fill records. -/
def reduce (tally : DepthTally) (side : Side) (price qty : UInt32) :
    DepthTally :=
  let reduced :=
    { tally with
      qty := setAt tally.qty side price (tally.qty side price - qty) }
  reduced.updateBit side price (-(qty.toNat : ℤ))

/-- What `clear` resets; the counters stay. -/
def clear (tally : DepthTally) : DepthTally :=
  { tally with
    qty := fun side price =>
      if price < maxPriceLevels then 0 else tally.qty side price
    bit := fun _ => .init
    best := Side.noPrice }

instance : LevelTally DepthTally where
  add := add
  remove := remove
  reduce := reduce
  countTrade tally := { tally with totalTrades := tally.totalTrades + 1 }
  clear := clear

end DepthTally

abbrev MBOBookWithBIT := OrderBook DepthTally

namespace MBOBookWithBIT

def init : MBOBookWithBIT := ⟨.init, .init⟩

/-! ## Queries -/

def getBestBid (book : MBOBookWithBIT) : UInt32 := book.tally.best .bid

def getBestAsk (book : MBOBookWithBIT) : UInt32 := book.tally.best .ask

/-- `get_bid_qty` and `get_ask_qty`. -/
def getQty (book : MBOBookWithBIT) (side : Side) (price : UInt32) : UInt32 :=
  book.tally.qty side price

/-- `cumulative_bid_volume` and `cumulative_ask_volume`. -/
def cumulativeVolume (book : MBOBookWithBIT) (side : Side)
    (price : UInt32) : ℤ :=
  (book.tally.bit side).prefixSum price

/-- `bid_volume_range` and `ask_volume_range`. -/
def volumeRange (book : MBOBookWithBIT) (side : Side) (low high : UInt32) : ℤ :=
  (book.tally.bit side).rangeSum low high

def bidDepth (book : MBOBookWithBIT) (levels : UInt32) : ℤ :=
  if book.getBestBid = 0 then 0
  else
    let low := if book.getBestBid > levels then book.getBestBid - levels else 0
    (book.tally.bit .bid).rangeSum low book.getBestBid

def askDepth (book : MBOBookWithBIT) (levels : UInt32) : ℤ :=
  if book.getBestAsk = invalidPrice then 0
  else
    let high :=
      if book.getBestAsk + levels < maxPriceLevels then book.getBestAsk + levels
      else maxPriceLevels - 1
    (book.tally.bit .ask).rangeSum book.getBestAsk high

def spread (book : MBOBookWithBIT) : UInt32 :=
  if book.getBestAsk = invalidPrice ∨ book.getBestBid = 0 then 0
  else book.getBestAsk - book.getBestBid

end MBOBookWithBIT

end MarketDataPipeline
