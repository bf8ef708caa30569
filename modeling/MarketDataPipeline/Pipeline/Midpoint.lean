import MarketDataPipeline.Book.Quotes
import MarketDataPipeline.Pipeline.HotLoop

/-!
# The midpoint

The loop infers the side of a message from the midpoint of the best prices, a
32-bit computation in which the value for an empty side takes part.  Here its
exact value is worked out, and with it the side of each price.
-/

namespace MarketDataPipeline

open AbstractBook

/-- Where the midpoint of the best prices puts a price that `side` trades at, in
exact numbers.  An empty ask side makes the midpoint half of the best bid. -/
def MidpointPuts (bestBid bestAsk price : UInt32) : Side → Prop
  | .bid =>
      if bestAsk = invalidPrice then
        bestBid.toNat ≤ 2 ∨ 2 * price.toNat < bestBid.toNat
      else bestBid.toNat + bestAsk.toNat ≤ 1 ∨
        2 * price.toNat ≤ bestBid.toNat + bestAsk.toNat
  | .ask =>
      if bestBid.toNat + bestAsk.toNat ≤ 1 then 50000 < price.toNat
      else bestBid.toNat + bestAsk.toNat < 2 * price.toNat

/-- The midpoint of two prices. -/
theorem midPrice_toNat {book : MBOBookWithBIT}
    (hbid : book.getBestBid < maxPriceLevels)
    (hask : book.getBestAsk < maxPriceLevels) :
    (midPrice book).toNat =
      if book.getBestBid.toNat + book.getBestAsk.toNat ≤ 1 then 50000
      else (book.getBestBid.toNat + book.getBestAsk.toNat) / 2 := by
  have hmax : maxPriceLevels.toNat = 100000 := rfl
  rw [UInt32.lt_iff_toNat_lt, hmax] at hbid hask
  have hsum : (book.getBestBid + book.getBestAsk).toNat =
      book.getBestBid.toNat + book.getBestAsk.toNat := by
    rw [UInt32.toNat_add, Nat.mod_eq_of_lt (by omega)]
  have hmid : ((book.getBestBid + book.getBestAsk) / 2).toNat =
      (book.getBestBid.toNat + book.getBestAsk.toNat) / 2 := by
    rw [UInt32.toNat_div, hsum]
    rfl
  simp only [midPrice, ← UInt32.toNat_inj, hmid, UInt32.toNat_zero]
  split
  · rw [if_pos (by omega)]
    rfl
  · rw [if_neg (by omega), hmid]

/-- Without an ask price the midpoint is half of what is below the best bid. -/
theorem midPrice_toNat_of_no_ask {book : MBOBookWithBIT}
    (hbid : book.getBestBid < maxPriceLevels)
    (hask : book.getBestAsk = invalidPrice) :
    (midPrice book).toNat =
      if book.getBestBid.toNat = 0 then 2 ^ 31 - 1
      else if book.getBestBid.toNat ≤ 2 then 50000
      else (book.getBestBid.toNat - 1) / 2 := by
  have hmax : maxPriceLevels.toNat = 100000 := rfl
  have hinvalid : invalidPrice.toNat = 2 ^ 32 - 1 := rfl
  rw [UInt32.lt_iff_toNat_lt, hmax] at hbid
  have hmid : ((book.getBestBid + book.getBestAsk) / 2).toNat =
      (book.getBestBid.toNat + (2 ^ 32 - 1)) % 2 ^ 32 / 2 := by
    rw [UInt32.toNat_div, UInt32.toNat_add, hask, hinvalid]
    rfl
  simp only [midPrice, ← UInt32.toNat_inj, hmid, UInt32.toNat_zero]
  by_cases hzero : book.getBestBid.toNat = 0
  · rw [if_pos hzero, if_neg (by omega), hmid]
    omega
  · rw [if_neg hzero]
    by_cases hsmall : book.getBestBid.toNat ≤ 2
    · rw [if_pos hsmall, if_pos (by omega)]
      rfl
    · rw [if_neg hsmall, if_neg (by omega), hmid]
      omega

theorem routedSide_eq_bid_iff {book : MBOBookWithBIT} {price : UInt32} :
    routedSide book price = .bid ↔ price.toNat ≤ (midPrice book).toNat := by
  rw [← UInt32.le_iff_toNat_le, routedSide]
  split <;> simp_all

theorem routedSide_eq_ask_iff {book : MBOBookWithBIT} {price : UInt32} :
    routedSide book price = .ask ↔ (midPrice book).toNat < price.toNat := by
  rw [← UInt32.lt_iff_toNat_lt, ← UInt32.not_le, routedSide]
  split <;> simp_all

theorem DepthTally.Quoted.bestBid_lt {book : MBOBookWithBIT}
    (hquoted : book.tally.Quoted) :
    book.getBestBid < maxPriceLevels := by
  rcases hquoted .bid with hnone | hlt
  · rw [MBOBookWithBIT.getBestBid, hnone]
    decide
  · exact hlt

/-- Among the prices that `side` trades at, the midpoint puts exactly these on
`side`. -/
theorem routedSide_eq_iff {book : MBOBookWithBIT} (hquoted : book.tally.Quoted)
    {side : Side} {price : UInt32} (hprice : price < maxPriceLevels)
    (hbound : ¬ side.improves price (book.tally.best side)) :
    routedSide book price = side ↔
      MidpointPuts book.getBestBid book.getBestAsk price side := by
  have hmax : maxPriceLevels.toNat = 100000 := rfl
  have hinvalid : invalidPrice.toNat = 2 ^ 32 - 1 := rfl
  have hbid := hquoted.bestBid_lt
  have hbidNat := UInt32.lt_iff_toNat_lt.mp hbid
  have hpriceNat := UInt32.lt_iff_toNat_lt.mp hprice
  cases side with
  | bid =>
      have hle : price.toNat ≤ book.getBestBid.toNat := by
        have hnot : ¬ price > book.getBestBid := hbound
        rwa [gt_iff_lt, UInt32.not_lt, UInt32.le_iff_toNat_le] at hnot
      rw [routedSide_eq_bid_iff, MidpointPuts]
      by_cases hask : book.getBestAsk = invalidPrice
      · rw [if_pos hask, midPrice_toNat_of_no_ask hbid hask]
        split
        · omega
        · split <;> omega
      · have haskLt : book.getBestAsk < maxPriceLevels :=
          (hquoted .ask).resolve_left hask
        rw [if_neg hask, midPrice_toNat hbid haskLt]
        split <;> omega
  | ask =>
      have hle : book.getBestAsk.toNat ≤ price.toNat := by
        have hnot : ¬ price < book.getBestAsk := hbound
        rwa [UInt32.not_lt, UInt32.le_iff_toNat_le] at hnot
      have haskLt : book.getBestAsk < maxPriceLevels := by
        rw [UInt32.lt_iff_toNat_lt]
        omega
      rw [routedSide_eq_ask_iff, MidpointPuts, midPrice_toNat hbid haskLt]
      split <;> omega

end MarketDataPipeline
