import MarketDataPipeline.Pipeline.BookRuns
import MarketDataPipeline.Pipeline.Midpoint

/-!
# Crossed books

The loop puts every Add message on one side of the midpoint, so between two best
prices a book stays uncrossed.  What can cross it is the first order of a side,
for which the value of the empty side takes part in the midpoint.  This module
says which messages these are.
-/

namespace MarketDataPipeline

open AbstractBook

variable {size : UInt32}

/-! ## First orders -/

/-- The midpoint puts a first order on `side` at a price that leaves the best
prices crossed, locked or at the value of an empty bid side. -/
def OpensCrossed (bestBid bestAsk price : UInt32) : Side → Prop
  | .bid =>
      if bestBid.toNat + bestAsk.toNat ≤ 1 then price.toNat ≤ 50000
      else 2 * price.toNat ≤ bestBid.toNat + bestAsk.toNat ∧
        (bestAsk ≤ bestBid ∨ bestBid = 0 ∧ price = 0)
  | .ask =>
      if bestAsk = invalidPrice then
        2 < bestBid.toNat ∧ bestBid.toNat ≤ 2 * price.toNat ∧ price ≤ bestBid
      else if bestBid.toNat + bestAsk.toNat ≤ 1 then 50000 < price.toNat
      else bestBid.toNat + bestAsk.toNat < 2 * price.toNat ∧
        (bestBid = 0 ∨ bestAsk ≤ bestBid)

theorem opensCrossed_bid_iff {book : MBOBookWithBIT}
    (hbid : book.getBestBid < maxPriceLevels)
    (hask : book.getBestAsk < maxPriceLevels) (price : UInt32) :
    OpensCrossed book.getBestBid book.getBestAsk price .bid ↔
      routedSide book price = .bid ∧
        ¬ (0 < max book.getBestBid.toNat price.toNat ∧
          max book.getBestBid.toNat price.toNat < book.getBestAsk.toNat) := by
  rw [routedSide_eq_bid_iff, OpensCrossed, midPrice_toNat hbid hask,
    UInt32.le_iff_toNat_le, ← UInt32.toNat_inj, ← UInt32.toNat_inj,
    UInt32.toNat_zero]
  split <;> omega

theorem opensCrossed_ask_iff {book : MBOBookWithBIT}
    (hquoted : book.tally.Quoted) {price : UInt32}
    (hprice : price < maxPriceLevels) :
    OpensCrossed book.getBestBid book.getBestAsk price .ask ↔
      routedSide book price = .ask ∧
        ¬ (0 < book.getBestBid.toNat ∧
          book.getBestBid.toNat < min book.getBestAsk.toNat price.toNat) := by
  have hbid := hquoted.bestBid_lt
  have hmax : maxPriceLevels.toNat = 100000 := rfl
  have hinvalid : invalidPrice.toNat = 2 ^ 32 - 1 := rfl
  have hpriceNat := UInt32.lt_iff_toNat_lt.mp hprice
  have hbidNat := UInt32.lt_iff_toNat_lt.mp hbid
  rw [routedSide_eq_ask_iff, OpensCrossed]
  simp only [UInt32.le_iff_toNat_le, ← UInt32.toNat_inj, UInt32.toNat_zero]
  by_cases hnone : book.getBestAsk = invalidPrice
  · rw [if_pos (congrArg UInt32.toNat hnone),
      midPrice_toNat_of_no_ask hbid hnone, hnone]
    split
    · omega
    · split <;> omega
  · have hask : book.getBestAsk < maxPriceLevels :=
      (hquoted .ask).resolve_left hnone
    have haskNat := UInt32.lt_iff_toNat_lt.mp hask
    rw [if_neg (by omega), midPrice_toNat hbid hask]
    split <;> omega

/-- Between two best prices the midpoint lies above the bid and below
the ask. -/
theorem midPrice_between {book : MBOBookWithBIT}
    (hpos : 0 < book.getBestBid.toNat)
    (hlt : book.getBestBid.toNat < book.getBestAsk.toNat)
    (hask : book.getBestAsk < maxPriceLevels) :
    book.getBestBid.toNat ≤ (midPrice book).toNat ∧
      (midPrice book).toNat < book.getBestAsk.toNat := by
  have hbid : book.getBestBid < maxPriceLevels :=
    UInt32.lt_trans (UInt32.lt_iff_toNat_lt.mpr hlt) hask
  rw [midPrice_toNat hbid hask, if_neg (by omega)]
  omega

/-! ## Uncrossed books -/

def AbstractBook.HasVolume (book : AbstractBook) (side : Side) : Prop :=
  ∃ price, 0 < book.volume side price

/-- Where both sides have volume, the best bid is a price and below the best
ask. -/
def Uncrossed (tally : DepthTally) (book : AbstractBook) : Prop :=
  book.HasVolume .bid → book.HasVolume .ask →
    0 < (tally.best .bid).toNat ∧
      (tally.best .bid).toNat < (tally.best .ask).toNat

/-- A trade takes the last volume of the bids above 0, finds the 32-bit quantity
of their level no larger, and leaves volume at 0. -/
structure LeavesZeroBid (tally : DepthTally) (book : AbstractBook)
    (price qty : UInt32) :
    Prop where
  best : price = tally.best .bid
  orders : book .bid price ≠ []
  some : qty ≠ 0
  all : book.volume .bid price ≤ qty.toNat
  guard : (tally.qty .bid price).toNat ≤ book.volume .bid price
  zero : 0 < book.volume .bid 0
  others : ∀ p, p ≠ 0 → p ≠ price → book.volume .bid p = 0

/-- The messages that keep a book uncrossed, told from the book and the pool
before them.  The first order with a quantity on a side is put beyond the best
price of the other, and a trade does not leave bids at 0 alone. -/
def KeepsUncrossed (book : MBOBookWithBIT) (pool : OrderPool size)
    (message : ItchMessage) :
    Prop :=
  let resting : AbstractBook := book.queues.contents pool
  (message.type = addType → message.price < maxPriceLevels →
    pool.freeHead ≠ nullIdx →
    message.qty ≠ 0 → ∀ side, ¬ resting.HasVolume side →
      resting.HasVolume side.opposite →
      ¬ OpensCrossed book.getBestBid book.getBestAsk message.price side) ∧
  (message.type = tradeType → resting.HasVolume .ask →
    ¬ LeavesZeroBid book.tally resting message.price message.qty)

namespace DepthTally

variable {tally : DepthTally} {book : AbstractBook} {side : Side}
  {price qty : UInt32}

/-- A best price of a side with volume is valid. -/
theorem Tracks.bestAsk_lt (htracks : tally.Tracks book) (hpriced : book.Priced)
    (hask : book.HasVolume .ask) : tally.best .ask < maxPriceLevels := by
  obtain ⟨p, hp⟩ := hask
  exact UInt32.lt_of_le_of_lt (UInt32.not_lt.mp (htracks.best .ask p hp))
    (hpriced.lt hp)

theorem add_bestBid_toNat (tally : DepthTally) (price qty : UInt32) :
    ((tally.add .bid price qty).best .bid).toNat =
      max (tally.best .bid).toNat price.toNat := by
  rw [add_best_self]
  split
  case isTrue himproves =>
    have hgt := UInt32.lt_iff_toNat_lt.mp himproves
    omega
  case isFalse hnot =>
    have hle := UInt32.le_iff_toNat_le.mp (UInt32.not_lt.mp hnot)
    omega

theorem add_bestAsk_toNat (tally : DepthTally) (price qty : UInt32) :
    ((tally.add .ask price qty).best .ask).toNat =
      min (tally.best .ask).toNat price.toNat := by
  rw [add_best_self]
  split
  case isTrue himproves =>
    have hlt := UInt32.lt_iff_toNat_lt.mp himproves
    omega
  case isFalse hnot =>
    have hge := UInt32.le_iff_toNat_le.mp (UInt32.not_lt.mp hnot)
    omega

end DepthTally

/-- An order gives its side volume when it has a quantity. -/
theorem AbstractBook.hasVolume_append (book : AbstractBook) (side s : Side)
    (price : UInt32) (r : Resting) :
    AbstractBook.HasVolume (setAt book side price (book side price ++ [r])) s ↔
      book.HasVolume s ∨ s = side ∧ r.qty ≠ 0 := by
  have hlevel : AbstractBook.volume
      (setAt book side price (book side price ++ [r])) side price =
      book.volume side price + r.qty.toNat := by
    simp [AbstractBook.volume]
  have hqty : r.qty ≠ 0 ↔ 0 < r.qty.toNat := by
    rw [Ne, ← UInt32.toNat_inj, UInt32.toNat_zero]
    omega
  constructor
  · rintro ⟨p, hp⟩
    by_cases hother : s = side ∧ p = price
    · obtain ⟨rfl, rfl⟩ := hother
      rw [hlevel] at hp
      by_cases hold : 0 < book.volume s p
      · exact Or.inl ⟨p, hold⟩
      · exact Or.inr ⟨rfl, hqty.mpr (by omega)⟩
    · rw [volume_setAt_other book _ s p hother] at hp
      exact Or.inl ⟨p, hp⟩
  · rintro (⟨p, hp⟩ | ⟨rfl, hsome⟩)
    · refine ⟨p, ?_⟩
      by_cases hother : s = side ∧ p = price
      · obtain ⟨rfl, rfl⟩ := hother
        omega
      · rwa [volume_setAt_other book _ s p hother]
    · exact ⟨price, by have := hqty.mp hsome; omega⟩

/-! ## What one message does -/

section Messages

variable {book : MBOBookWithBIT} {a : AbstractBook} {price : UInt32}
  (huncrossed : Uncrossed book.tally a) (htracks : book.tally.Tracks a)
  (hpriced : a.Priced) (hquoted : book.tally.Quoted)
  (hprice : price < maxPriceLevels)

include huncrossed htracks hpriced hquoted hprice

/-- A new bid crosses a book only as the first one. -/
theorem Uncrossed.add_bid_iff (hside : routedSide book price = .bid)
    (r : Resting) :
    Uncrossed (book.tally.add .bid price r.qty)
      (setAt a .bid price (a .bid price ++ [r])) ↔
      (r.qty ≠ 0 → ∀ s, ¬ a.HasVolume s → a.HasVolume s.opposite →
        ¬ OpensCrossed book.getBestBid book.getBestAsk price s) := by
  have hask : ∀ s, s = Side.ask →
      ¬ OpensCrossed book.getBestBid book.getBestAsk price s := by
    rintro s rfl hopens
    have hasked := ((opensCrossed_ask_iff hquoted hprice).mp hopens).1
    rw [hside] at hasked
    exact Side.noConfusion hasked
  simp only [Uncrossed, hasVolume_append, DepthTally.add_bestBid_toNat,
    DepthTally.add_best_of_ne _ (show Side.ask ≠ .bid from Side.noConfusion)]
  by_cases hasks : a.HasVolume .ask
  case neg =>
    refine iff_of_true ?_ ?_
    · rintro - (hold | ⟨hwrong, -⟩)
      · exact absurd hold hasks
      · exact Side.noConfusion hwrong
    · rintro - s - hopposite
      cases s with
      | bid => exact absurd hopposite hasks
      | ask => exact hask .ask rfl
  have hvalid := htracks.bestAsk_lt hpriced hasks
  by_cases hbids : a.HasVolume .bid
  · obtain ⟨hpos, hlt⟩ := huncrossed hbids hasks
    have hbetween := (midPrice_between hpos hlt hvalid).2
    have hle := routedSide_eq_bid_iff.mp hside
    refine iff_of_true (fun _ _ => ?_) ?_
    · rw [MBOBookWithBIT.getBestAsk] at hbetween
      omega
    · rintro - s hnone -
      cases s with
      | bid => exact absurd hbids hnone
      | ask => exact absurd hasks hnone
  · have hopens := opensCrossed_bid_iff hquoted.bestBid_lt hvalid price
    constructor
    · rintro hafter hsome s - -
      cases s with
      | bid =>
          intro hcrossed
          exact (hopens.mp hcrossed).2
            (hafter (Or.inr ⟨trivial, hsome⟩) (Or.inl hasks))
      | ask => exact hask .ask rfl
    · rintro hkeeps (hold | ⟨-, hsome⟩) -
      · exact absurd hold hbids
      · have hnot := hkeeps hsome .bid hbids hasks
        rw [hopens] at hnot
        by_contra hcrossed
        exact hnot ⟨hside, hcrossed⟩

/-- A new ask crosses a book only as the first one. -/
theorem Uncrossed.add_ask_iff (hside : routedSide book price = .ask)
    (r : Resting) :
    Uncrossed (book.tally.add .ask price r.qty)
      (setAt a .ask price (a .ask price ++ [r])) ↔
      (r.qty ≠ 0 → ∀ s, ¬ a.HasVolume s → a.HasVolume s.opposite →
        ¬ OpensCrossed book.getBestBid book.getBestAsk price s) := by
  simp only [Uncrossed, hasVolume_append, DepthTally.add_bestAsk_toNat,
    DepthTally.add_best_of_ne _ (show Side.bid ≠ .ask from Side.noConfusion)]
  have hbid : a.HasVolume .ask →
      ¬ OpensCrossed book.getBestBid book.getBestAsk price .bid := by
    intro hasks hopens
    have hvalid := htracks.bestAsk_lt hpriced hasks
    have hbidded :=
      ((opensCrossed_bid_iff hquoted.bestBid_lt hvalid price).mp hopens).1
    rw [hside] at hbidded
    exact Side.noConfusion hbidded
  by_cases hbids : a.HasVolume .bid
  case neg =>
    refine iff_of_true ?_ ?_
    · rintro (hold | ⟨hwrong, -⟩)
      · exact absurd hold hbids
      · exact Side.noConfusion hwrong
    · rintro - s - hopposite
      cases s with
      | bid => exact hbid hopposite
      | ask => exact absurd hopposite hbids
  by_cases hasks : a.HasVolume .ask
  · obtain ⟨hpos, hlt⟩ := huncrossed hbids hasks
    have hbetween :=
      (midPrice_between hpos hlt (htracks.bestAsk_lt hpriced hasks)).1
    have hlt' := routedSide_eq_ask_iff.mp hside
    refine iff_of_true (fun _ _ => ?_) ?_
    · rw [MBOBookWithBIT.getBestBid] at hbetween
      omega
    · rintro - s hnone -
      cases s with
      | bid => exact absurd hbids hnone
      | ask => exact absurd hasks hnone
  · have hopens := opensCrossed_ask_iff hquoted hprice
    constructor
    · rintro hafter hsome s hnone hopposite
      cases s with
      | bid => exact hbid hopposite
      | ask =>
          intro hcrossed
          exact (hopens.mp hcrossed).2
            (hafter (Or.inl hbids) (Or.inr ⟨trivial, hsome⟩))
    · rintro hkeeps - (hold | ⟨-, hsome⟩)
      · exact absurd hold hasks
      · have hnot := hkeeps hsome .ask hasks hbids
        rw [hopens] at hnot
        by_contra hcrossed
        exact hnot ⟨hside, hcrossed⟩

end Messages

section Trades

variable {tally : DepthTally} {a : AbstractBook} {price : UInt32}

/-- A trade takes its fill off its level. -/
theorem AbstractBook.volume_traded (a : AbstractBook) (side : Side)
    (price qty : UInt32) :
    AbstractBook.volume (setAt a side price (consume qty (a side price))) side
      price + min qty.toNat (a.volume side price) = a.volume side price := by
  rw [AbstractBook.volume, setAt_self]
  exact quantity_consume qty (a side price)

theorem AbstractBook.volume_traded_le (a : AbstractBook) (side s : Side)
    (price p qty : UInt32) :
    AbstractBook.volume (setAt a side price (consume qty (a side price))) s p ≤
      a.volume s p := by
  by_cases hlevel : s = side ∧ p = price
  · obtain ⟨rfl, rfl⟩ := hlevel
    have htraded := a.volume_traded s p qty
    omega
  · rw [volume_setAt_other a _ s p hlevel]

theorem AbstractBook.HasVolume.of_traded {side s : Side} {qty : UInt32}
    (hafter : AbstractBook.HasVolume
      (setAt a side price (consume qty (a side price))) s) :
    a.HasVolume s := by
  obtain ⟨p, hp⟩ := hafter
  exact ⟨p, lt_of_lt_of_le hp (a.volume_traded_le side s price p qty)⟩

theorem AbstractBook.volume_traded_other (a : AbstractBook) {side s : Side}
    {price p : UInt32} (qty : UInt32) (hlevel : ¬ (s = side ∧ p = price)) :
    AbstractBook.volume (setAt a side price (consume qty (a side price))) s p =
      a.volume s p :=
  volume_setAt_other a _ s p hlevel

variable (htracks : tally.Tracks a) (hpriced : a.Priced)
  (hprice : price < maxPriceLevels)

include htracks hpriced hprice

/-- After a trade that leaves bids at 0 alone the best bid is 0. -/
theorem LeavesZeroBid.best_eq_zero {qty : UInt32}
    (hleaves : LeavesZeroBid tally a price qty) (hsome : price ≠ 0) :
    (recordTrade .bid price qty (a .bid price) tally).best .bid = 0 := by
  have hpositive : price ≠ Side.noPrice .bid := hsome
  have hexact := htracks.recordTrade_isBest hpriced hprice hpositive
    hleaves.best rfl
    hleaves.orders hleaves.some hleaves.all hleaves.guard
  generalize (recordTrade .bid price qty (a .bid price) tally).best .bid =
    best at hexact ⊢
  rcases hexact with ⟨hvolume, -⟩ | ⟨-, hnone⟩
  · have hlevel := a.volume_traded .bid price qty
    have hall := hleaves.all
    by_contra hbest
    by_cases hsame : best = price
    · rw [hsame] at hvolume
      omega
    · rw [a.volume_traded_other qty fun heq => hsame heq.2,
        hleaves.others best hbest hsame] at hvolume
      exact lt_irrefl 0 hvolume
  · exact hnone

/-- Where the best bid was above 0 and bids are left, only such a trade moves it
to 0. -/
theorem leavesZeroBid_of_best_eq_zero {qty : UInt32}
    (hpos : 0 < (tally.best .bid).toNat)
    (hzero : (recordTrade .bid price qty (a .bid price) tally).best .bid = 0)
    (hbids : AbstractBook.HasVolume
      (setAt a .bid price (consume qty (a .bid price))) .bid) :
    LeavesZeroBid tally a price qty := by
  have hreceded :=
    @DepthTally.Tracks.receded tally a .bid price htracks hpriced hprice qty
  have hlevel := a.volume_traded .bid price qty
  have hmoved : (recordTrade .bid price qty (a .bid price) tally).best .bid ≠
      tally.best .bid := by
    intro heq
    rw [← heq, hzero] at hpos
    exact lt_irrefl 0 hpos
  have hbest : price = tally.best .bid := by
    by_contra hne
    exact hmoved (hreceded.away hne)
  have hsome : price ≠ 0 := by
    rintro rfl
    rw [← hbest] at hpos
    exact lt_irrefl 0 hpos
  have hqueue : a .bid price = a .bid price ++ [] := (List.append_nil _).symm
  have htracks' := htracks.recordTrade hprice qty hpriced hqueue
  rw [List.append_nil] at htracks'
  -- The rescan found nothing above 0, so the trade emptied the only level
  -- there.
  have honly : ∀ p, p ≠ 0 →
      AbstractBook.volume (setAt a .bid price (consume qty (a .bid price))) .bid
        p = 0 := by
    intro p hp
    by_contra hvolume
    have hbound := htracks'.best .bid p (Nat.pos_of_ne_zero hvolume)
    rw [hzero] at hbound
    exact hbound (UInt32.pos_iff_ne_zero.mpr hp)
  have hemptied := honly price hsome
  refine ⟨hbest, ?_, ?_, by omega, ?_, ?_, fun p hp hne => ?_⟩
  · intro hnil
    rw [hnil] at hmoved
    exact hmoved rfl
  · rintro rfl
    rw [recordTrade_zero] at hmoved
    exact hmoved rfl
  · by_contra hlarge
    exact hmoved
      (congrFun (DepthTally.recordTrade_best_of_lt (not_le.mp hlarge)) .bid)
  · obtain ⟨p, hp⟩ := hbids
    have hp0 : p = 0 := by
      by_contra hne
      rw [honly p hne] at hp
      exact lt_irrefl 0 hp
    rw [hp0] at hp
    rwa [a.volume_traded_other qty fun heq => hsome heq.2.symm] at hp
  · rw [← a.volume_traded_other qty fun heq => hne heq.2]
    exact honly p hp

variable (huncrossed : Uncrossed tally a)

include huncrossed

/-- A trade on the ask side moves the best ask away from the best bid. -/
theorem Uncrossed.trade_ask (qty : UInt32) :
    Uncrossed (recordTrade .ask price qty (a .ask price) tally)
      (setAt a .ask price (consume qty (a .ask price))) := by
  intro hbids hasks
  have hreceded :=
    @DepthTally.Tracks.receded tally a .ask price htracks hpriced hprice qty
  obtain ⟨hpos, hlt⟩ := huncrossed hbids.of_traded hasks.of_traded
  have hback := UInt32.le_iff_toNat_le.mp (UInt32.not_lt.mp hreceded.back)
  rw [hreceded.other .bid Side.noConfusion]
  exact ⟨hpos, lt_of_lt_of_le hlt hback⟩

/-- A trade on the bid side keeps a book uncrossed unless it leaves bids at 0
alone. -/
theorem Uncrossed.trade_bid_iff (qty : UInt32) :
    Uncrossed (recordTrade .bid price qty (a .bid price) tally)
        (setAt a .bid price (consume qty (a .bid price))) ↔
      (a.HasVolume .ask → ¬ LeavesZeroBid tally a price qty) := by
  have hasks : AbstractBook.HasVolume
      (setAt a .bid price (consume qty (a .bid price))) .ask ↔
      a.HasVolume .ask :=
    exists_congr fun p => by
      rw [a.volume_traded_other qty fun hwrong => Side.noConfusion hwrong.1]
  constructor
  · intro hdone hask hleaves
    have hpos := (huncrossed ⟨0, hleaves.zero⟩ hask).1
    have hsome : price ≠ 0 := by
      rintro rfl
      rw [← hleaves.best] at hpos
      exact lt_irrefl 0 hpos
    have hzero : 0 <
        AbstractBook.volume
          (setAt a .bid price (consume qty (a .bid price))) .bid 0 := by
      rw [a.volume_traded_other qty fun heq => hsome heq.2.symm]
      exact hleaves.zero
    have hbest := (hdone ⟨0, hzero⟩ (hasks.mpr hask)).1
    rw [hleaves.best_eq_zero htracks hpriced hprice hsome] at hbest
    exact lt_irrefl 0 hbest
  · intro hkeeps hbids hask
    have hreceded :=
      @DepthTally.Tracks.receded tally a .bid price htracks hpriced hprice qty
    obtain ⟨hpos, hlt⟩ := huncrossed hbids.of_traded (hasks.mp hask)
    have hback := UInt32.le_iff_toNat_le.mp (UInt32.not_lt.mp hreceded.back)
    have hsame := hreceded.other .ask Side.noConfusion
    refine ⟨?_, by rw [hsame]; exact lt_of_le_of_lt hback hlt⟩
    by_contra hnot
    have hzero :
        (recordTrade .bid price qty (a .bid price) tally).best .bid = 0 :=
      UInt32.toNat_inj.mp (Nat.eq_zero_of_not_pos hnot)
    exact hkeeps (hasks.mp hask)
      (leavesZeroBid_of_best_eq_zero htracks hpriced hprice hpos hzero hbids)

end Trades

theorem route_none {book : MBOBookWithBIT} {message : ItchMessage}
    (hroute : route book message = none) :
    message.type ≠ addType ∧ message.type ≠ tradeType := by
  rw [route] at hroute
  split at hroute
  case isTrue => simp at hroute
  case isFalse hadd =>
    split at hroute
    case isTrue => simp at hroute
    case isFalse htrade => exact ⟨hadd, htrade⟩

/-- A delivered message keeps its book uncrossed exactly when it meets the
condition. -/
theorem Uncrossed.deliver_iff {ι : Type*} [DecidableEq ι]
    {books : Books ι DepthTally size} {a : ι → AbstractBook} {slot : ι}
    {message : ItchMessage} {book' : AbstractBook} (hsound : books.Sound a)
    (hdelivered : books.Delivered a slot message
      (books.deliver slot message) book')
    (hquoted : (books.book slot).tally.Quoted)
    (huncrossed : Uncrossed (books.book slot).tally (a slot)) :
    Uncrossed ((books.deliver slot message).book slot).tally book' ↔
      KeepsUncrossed (books.book slot) books.pool message := by
  have hrep := hsound.holds.represents slot
  have htracks := hsound.tracks slot
  have hpriced := hrep.isPriced
  rw [KeepsUncrossed, hrep.contents_eq_book]
  generalize books.deliver slot message = after at hdelivered ⊢
  cases hdelivered with
  | ignored hroute =>
      obtain ⟨hadd, htrade⟩ := route_none hroute
      exact iff_of_true huncrossed
        ⟨fun htype => absurd htype hadd, fun htype => absurd htype htrade⟩
  | @step op free free' _ hroute hfree hstep =>
      generalize ((books.apply slot op).2.book slot).tally = tally' at hstep ⊢
      generalize (books.apply slot op).1 = ret at hstep
      rcases route_eq_some hroute with ⟨htype, rfl⟩ | ⟨htype, rfl⟩
      · have hnotTrade : ¬ message.type = tradeType := fun htrade =>
          addType_ne_tradeType (htype.symm.trans htrade)
        cases hstep with
        | invalid hprice =>
            exact iff_of_true huncrossed
              ⟨fun _ hvalid => absurd hprice (UInt32.not_le.mpr hvalid),
              fun htrade => absurd htrade hnotTrade⟩
        | full _ hnone =>
            exact iff_of_true huncrossed
              ⟨fun _ _ hsome => absurd (hfree.head_iff.mpr hnone) hsome,
              fun htrade => absurd htrade hnotTrade⟩
        | @placed _ _ _ _ idx rest hprice _ hhead =>
            have hsome : books.pool.freeHead ≠ nullIdx := by
              rw [Ne, hfree.head_iff, hhead]
              exact List.cons_ne_nil _ _
            rw [and_iff_left fun htrade => absurd htrade hnotTrade]
            simp only [htype, hprice, hsome, ne_eq, not_false_eq_true,
              forall_const]
            cases hside : routedSide (books.book slot) message.price with
            | bid =>
                exact huncrossed.add_bid_iff htracks hpriced
                  hquoted hprice hside
                  ⟨_, orderIdOf message, message.qty⟩
            | ask =>
                exact huncrossed.add_ask_iff htracks hpriced
                  hquoted hprice hside
                  ⟨_, orderIdOf message, message.qty⟩
      · have hnotAdd : ¬ message.type = addType :=
            fun hadd => addType_ne_tradeType (hadd.symm.trans htype)
        rw [and_iff_right fun hadd => absurd hadd hnotAdd]
        simp only [htype, forall_const]
        cases hstep with
        | untraded hprice =>
            refine iff_of_true huncrossed fun _ hleaves => ?_
            exact hleaves.orders (hrep.nil_of_invalid .bid message.price hprice)
        | traded hprice hfilled =>
            cases hside : routedSide (books.book slot) message.price with
            | bid =>
                exact huncrossed.trade_bid_iff htracks hpriced
                  hprice message.qty
            | ask =>
                refine iff_of_true (huncrossed.trade_ask htracks hpriced hprice
                  message.qty) ?_
                intro hask hleaves
                obtain ⟨hpos, hlt⟩ := huncrossed ⟨0, hleaves.zero⟩ hask
                have hbetween :=
                  midPrice_between hpos hlt (htracks.bestAsk_lt hpriced hask)
                have hgt := routedSide_eq_ask_iff.mp hside
                rw [hleaves.best] at hgt
                exact absurd hgt (not_lt.mpr hbetween.1)

/-! ## Runs -/

theorem init_uncrossed : Uncrossed .init AbstractBook.empty := by
  rintro ⟨price, hprice⟩
  simp [AbstractBook.volume, AbstractBook.empty] at hprice

/-- In an uncrossed book with both sides the spread is the difference of the
best prices. -/
theorem MBOBookWithBIT.spread_exact_iff {book : MBOBookWithBIT}
    (hask : book.getBestAsk < maxPriceLevels) :
    (book.getBestBid < book.getBestAsk ∧ 0 < book.spread.toNat ∧
      book.spread.toNat + book.getBestBid.toNat = book.getBestAsk.toNat) ↔
      0 < book.getBestBid.toNat ∧
        book.getBestBid.toNat < book.getBestAsk.toNat := by
  have hmax : maxPriceLevels.toNat = 100000 := rfl
  have hinvalid : invalidPrice.toNat = 2 ^ 32 - 1 := rfl
  have haskNat := UInt32.lt_iff_toNat_lt.mp hask
  have hvalid : book.getBestAsk ≠ invalidPrice := by
    rw [Ne, ← UInt32.toNat_inj]
    omega
  rw [UInt32.lt_iff_toNat_lt, spread]
  by_cases hzero : book.getBestBid = 0
  · simp [hzero]
  · have hpos := UInt32.pos_iff_ne_zero.mpr hzero
    rw [UInt32.lt_iff_toNat_lt, UInt32.toNat_zero] at hpos
    rw [if_neg (by simp [hvalid, hzero])]
    constructor
    · rintro ⟨hlt, -, -⟩
      exact ⟨hpos, hlt⟩
    · rintro ⟨-, hlt⟩
      have hle : book.getBestBid ≤ book.getBestAsk :=
        UInt32.le_iff_toNat_le.mpr hlt.le
      have hsub := UInt32.toNat_sub_of_le _ _ hle
      omega

namespace Pipeline

/-- In every run of the loop, the cached books with volume on both sides are
uncrossed in all states reached, and their spread is the positive difference of
the best prices, if and only if every message keeps the book it
meets uncrossed. -/
theorem books_uncrossed_iff (memory : UInt32 → LFUNode)
    (orders : UInt32 → Order) (messages : List ItchMessage) :
    (∀ done, done <+: messages →
      let state := (machine maxOrders).run (init memory orders) done
      ∀ bookId, state.cache.index.isCached bookId = true →
        let book := state.bookOf bookId
        (state.restingOf bookId).HasVolume .bid →
          (state.restingOf bookId).HasVolume .ask →
          book.getBestBid < book.getBestAsk ∧ 0 < book.spread.toNat ∧
            book.spread.toNat + book.getBestBid.toNat = book.getBestAsk.toNat) ↔
    (machine maxOrders).Each (Meets KeepsUncrossed) (init memory orders)
      messages := by
  have hrule := cached_books_always_iff (fun tally _ => tally.Quoted)
    init_uncrossed
    (fun _ _ _ _ _ hsound hdelivered hold huncrossed =>
      huncrossed.deliver_iff hsound hdelivered hold)
    DepthTally.init_quoted (fun _ _ _ _ _ _ hdelivered hold =>
      hdelivered.quoted hold)
    maxOrders_pos memory orders messages
  rw [← hrule]
  refine forall_congr' fun done => forall_congr' fun _ => ?_
  have hreachable :
      ((machine maxOrders).run (init memory orders) done).Reachable :=
    ⟨memory, orders, done, rfl⟩
  obtain ⟨a, hsound, -⟩ := hreachable.quoted maxOrders_pos
  generalize (machine maxOrders).run (init memory orders) done =
    state at hsound ⊢
  refine forall_congr' fun bookId => forall_congr' fun _ => ?_
  have hresting := hsound.restingOf_eq bookId
  obtain ⟨reference, hcache⟩ := hsound
  have htracks :=
    hcache.books.tracks (state.cache.index.bookToSlot bookId.toUInt32)
  have hpriced := (hcache.books.holds.represents
    (state.cache.index.bookToSlot bookId.toUInt32)).isPriced
  rw [← hresting] at htracks hpriced
  refine forall_congr' fun _ => forall_congr' fun hasks => ?_
  exact MBOBookWithBIT.spread_exact_iff (htracks.bestAsk_lt hpriced hasks)

/-- Two orders at one price lock a book: the first is a bid, the second
an ask. -/
theorem two_adds_lock_book :
    ¬ ∀ (memory : UInt32 → LFUNode) (orders : UInt32 →
      Order) (messages : List ItchMessage),
      (∀ message ∈ messages, message.type = addType ∨
        message.type = tradeType) →
      let state := (machine maxOrders).run (init memory orders) messages
      ∀ bookId, state.cache.index.isCached bookId = true →
        let book := state.bookOf bookId
        (state.restingOf bookId).HasVolume .bid →
          (state.restingOf bookId).HasVolume .ask →
          book.getBestBid < book.getBestAsk := by
  intro hclaim
  let adds : List ItchMessage :=
    [⟨addType, btcUsdt, 1, 100, 5⟩, ⟨addType, btcUsdt, 2, 100, 7⟩]
  obtain ⟨hserves, hbooks⟩ :=
    stateAfter_serves adds (by simp [adds]) (by simp [adds])
  have hbids : ((stateAfter adds).restingOf 0).HasVolume .bid := by
    refine ⟨100, ?_⟩
    rw [hserves.restingOf_eq, hbooks]
    decide +kernel
  have hasks : ((stateAfter adds).restingOf 0).HasVolume .ask := by
    refine ⟨100, ?_⟩
    rw [hserves.restingOf_eq, hbooks]
    decide +kernel
  have hlt := hclaim _ _ adds (by simp [adds]) 0 hserves.cached hbids hasks
  change ((stateAfter adds).bookOf 0).getBestBid <
    ((stateAfter adds).bookOf 0).getBestAsk at hlt
  rw [hserves.bookOf_eq, hbooks] at hlt
  revert hlt
  decide +kernel

end Pipeline

end MarketDataPipeline
