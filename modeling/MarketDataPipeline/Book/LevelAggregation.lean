import MarketDataPipeline.Book.BookAgreement
import MarketDataPipeline.Book.LevelTotals
import MarketDataPipeline.Book.PriceLevelTrades

/-!
# The price level book aggregates the order book

`PriceLevelBook` reads the messages that an order book would read and keeps of
each level its quantity alone.  Beside an order book that takes every Add for a
bid, it shows what that book holds.
-/

namespace MarketDataPipeline

open AbstractBook DepthTally

variable {size : UInt32}

namespace PriceLevelBook

variable {levels : PriceLevelBook} {tally tally' : DepthTally}
  {book book' : AbstractBook} {price qty : UInt32} {tsNs : UInt64}

theorem processAdd_of_noAsks (hnone : levels.NoAsks)
    (hprice : price < maxPriceLevels) :
    levels.processAdd price qty tsNs =
      { levels.addBid price qty with
        lastTsNs := tsNs, totalAdds := levels.totalAdds + 1 } := by
  have hbid : levels.isBid price := Or.inl hnone.best
  rw [processAdd, if_neg (UInt32.not_le.mpr hprice), if_pos hbid]

theorem processTrade_of_noAsks (hnone : levels.NoAsks)
    (hprice : price < maxPriceLevels) :
    levels.processTrade price qty tsNs =
      { (if price ≤ levels.best .bid ∧ levels.qty .bid price > 0 then
            levels.tradeBid price qty
          else levels) with
          lastTsNs := tsNs, totalTrades := levels.totalTrades + 1 } := by
  have hask : ¬ (price ≥ levels.best .ask ∧ levels.qty .ask price > 0) := by
    rw [hnone.qty]
    exact fun htraded => UInt32.lt_irrefl 0 htraded.2
  rw [processTrade, if_neg (UInt32.not_le.mpr hprice), if_neg hask]

/-- Without the order it was looked at for, `trade_bid` finds the best bid
again. -/
theorem tradeBid_isBest (hexact : ∀ p, (levels.qty .bid p).toNat =
    book.volume .bid p)
    (hbest : book.IsBest .bid (levels.best .bid))
    (hprice : price < maxPriceLevels) (hpriced : book'.Priced)
    (hexact' : ∀ p, ((levels.tradeBid price qty).qty .bid p).toNat =
      book'.volume .bid p)
    (hle : ∀ p, book'.volume .bid p ≤ book.volume .bid p) :
    book'.IsBest .bid ((levels.tradeBid price qty).best .bid) := by
  rw [tradeBid, trade_qty] at hexact'
  rw [tradeBid, trade]
  dsimp only
  generalize (if levels.qty .bid price ≥ qty then levels.qty .bid price - qty
              else 0) = left at *
  split
  case isTrue hrescan =>
    -- the scan is the one of the plain book
    have hscan : book'.IsBest .bid ((PlainTally.updateBest
        ⟨setAt levels.qty .bid price left, levels.best, 0, 0,
          0⟩ .bid).best .bid) := by
      refine PlainTally.updateBest_isBest hexact' (fun p hpos => ?_) ?_ hpriced
      · exact hbest.bound (Nat.lt_of_lt_of_le hpos (hle p))
      · have hvalid : levels.best .bid < maxPriceLevels := hrescan.1 ▸ hprice
        exact hvalid
    exact hscan
  case isFalse hkeep =>
    refine hbest.of_le hle fun hpos => ?_
    rw [← hexact']
    by_cases hat : price = levels.best .bid
    · have hleft : setAt levels.qty .bid price left .bid price ≠ 0 :=
        fun hzero =>
        hkeep ⟨hat, hzero⟩
      rw [← hat]
      exact UInt32.lt_iff_toNat_lt.mp (UInt32.pos_iff_ne_zero.mpr hleft)
    · rw [setAt_of_ne levels.qty left fun hlevel => hat hlevel.2.symm, hexact]
      exact hpos

/-- The levels of a book without asks, as the order book's tally has them. -/
structure Shows (levels : PriceLevelBook) (tally : DepthTally)
    (book : AbstractBook) : Prop where
  noAsks : levels.NoAsks
  asks : ∀ price, book .ask price = []
  exact : ∀ price, (levels.qty .bid price).toNat = book.volume .bid price
  best : levels.best .bid = tally.best .bid
  totalAdds : levels.totalAdds = tally.totalAdds
  totalTrades : levels.totalTrades = tally.totalTrades

theorem init_shows : init.Shows .init AbstractBook.empty where
  noAsks := init_noAsks
  asks _ := rfl
  exact _ := rfl
  best := rfl
  totalAdds := rfl
  totalTrades := rfl

/-- An Add that its level can hold. -/
theorem Shows.processAdd (hshows : levels.Shows tally book)
    (hprice : price < maxPriceLevels) (r : Resting)
    (hfits : book.volume .bid price + r.qty.toNat < 2 ^ 32) :
    (levels.processAdd price r.qty tsNs).Shows
      (LevelTally.add tally .bid price r.qty)
      (setAt book .bid price (book .bid price ++ [r])) := by
  have hadded := hshows.noAsks.addBid price r.qty
  rw [processAdd_of_noAsks hshows.noAsks hprice]
  refine ⟨⟨hadded.best, hadded.qty⟩, fun p => ?_, fun p => ?_, ?_, ?_,
    hshows.totalTrades⟩
  · rw [setAt_of_ne _ _ fun hlevel => Side.noConfusion hlevel.1]
    exact hshows.asks p
  · have hqty : (levels.addBid price r.qty).qty =
        setAt levels.qty .bid price (levels.qty .bid price + r.qty) := rfl
    dsimp only
    rw [hqty]
    by_cases hp : p = price
    · subst hp
      rw [setAt_self, UInt32.toNat_add, hshows.exact, Nat.mod_eq_of_lt hfits]
      simp [AbstractBook.volume]
    · have hlevel : ¬ (Side.bid = .bid ∧ p = price) := fun heq => hp heq.2
      rw [setAt_of_ne _ _ hlevel, volume_setAt_other book _ _ _ hlevel,
        hshows.exact]
  · have hbest : (levels.addBid price r.qty).best .bid =
        if Side.improves .bid price (levels.best .bid) then price
        else levels.best .bid := by
      change (if Side.improves .bid price (levels.best .bid) then
        Function.update levels.best .bid price else levels.best) .bid = _
      split
      · exact Function.update_self ..
      · rfl
    have hadd := tally.add_best_self .bid price r.qty
    rw [← hshows.best] at hadd
    exact hbest.trans hadd.symm
  · exact congrArg (· + 1) hshows.totalAdds

theorem tradeBid_totalAdds (levels : PriceLevelBook) (price qty : UInt32) :
    (levels.tradeBid price qty).totalAdds = levels.totalAdds := by
  rw [tradeBid, trade]
  dsimp only
  generalize (if levels.qty .bid price ≥ qty then levels.qty .bid price - qty
              else 0) = left
  split
  · rfl
  · rfl

/-- A trade, whether or not anything rests at its price. -/
theorem Shows.processTrade (hshows : levels.Shows tally book)
    (hbest : tally.Exact book) (hpriced : book.Priced)
    (hprice : price < maxPriceLevels)
    (hbook' : book' = setAt book .bid price (consume qty (book .bid price)))
    (hbest' : tally'.Exact book') (hadds : tally'.totalAdds = tally.totalAdds)
    (htrades : tally'.totalTrades = tally.totalTrades + 1) :
    (levels.processTrade price qty tsNs).Shows tally' book' := by
  have hshown : book.IsBest .bid (levels.best .bid) := hshows.best ▸ hbest .bid
  have hpriced' : book'.Priced := hbook' ▸ hpriced.setAt hprice _
  have hasks : ∀ p, book' .ask p = [] := by
    intro p
    rw [hbook', setAt_of_ne _ _ fun heq => Side.noConfusion heq.1]
    exact hshows.asks p
  have hother : ∀ p, p ≠ price → book'.volume .bid p = book.volume .bid p := by
    intro p hp
    rw [hbook', volume_setAt_other book _ _ _ fun heq => hp heq.2]
  have hlevel : book'.volume .bid price =
      book.volume .bid price - min qty.toNat (book.volume .bid price) := by
    have hconsumed := quantity_consume qty (book .bid price)
    rw [fill] at hconsumed
    rw [hbook', volume_setAt, if_pos ⟨rfl, rfl⟩, AbstractBook.volume]
    omega
  have hcount : levels.totalTrades + 1 = tally'.totalTrades := by
    rw [htrades, hshows.totalTrades]
  rw [processTrade_of_noAsks hshows.noAsks hprice]
  by_cases hrests : 0 < book.volume .bid price
  · -- what rests is no better than the best bid
    have hreach : price ≤ levels.best .bid :=
      UInt32.not_lt.mp (hshown.bound hrests)
    have hsome : levels.qty .bid price > 0 := by
      rw [← hshows.exact] at hrests
      exact UInt32.lt_iff_toNat_lt.mpr hrests
    have hhits := trade_hits levels .bid price qty
    have hexact : ∀ p, ((levels.tradeBid price qty).qty .bid p).toNat =
        book'.volume .bid p := by
      intro p
      rw [tradeBid]
      by_cases hp : p = price
      · rw [hp, hhits.level, hlevel, hshows.exact]
      · rw [hhits.others _ _ fun heq => hp heq.2, hother p hp, hshows.exact]
    have hle : ∀ p, book'.volume .bid p ≤ book.volume .bid p := by
      intro p
      by_cases hp : p = price
      · rw [hp, hlevel]
        exact Nat.sub_le _ _
      · exact (hother p hp).le
    have hfound :=
      tradeBid_isBest hshows.exact hshown hprice hpriced' hexact hle
    have hnone := hshows.noAsks.tradeBid price qty
    rw [if_pos ⟨hreach, hsome⟩]
    exact ⟨⟨hnone.best, hnone.qty⟩, hasks, hexact, hfound.unique (hbest' .bid),
      (tradeBid_totalAdds ..).trans (hshows.totalAdds.trans hadds.symm), hcount⟩
  · -- nothing rests at the price, so the trade takes nothing from either
    have hsame : ∀ p, book'.volume .bid p = book.volume .bid p := by
      intro p
      by_cases hp : p = price
      · rw [hp, hlevel]
        omega
      · exact hother p hp
    have hnone : ¬ (price ≤ levels.best .bid ∧ levels.qty .bid price > 0) := by
      intro htraded
      rw [← hshows.exact] at hrests
      exact hrests (UInt32.lt_iff_toNat_lt.mp htraded.2)
    rw [if_neg hnone]
    exact ⟨⟨hshows.noAsks.best, hshows.noAsks.qty⟩, hasks,
      fun p => (hshows.exact p).trans (hsame p).symm,
      (hshown.congr hsame).unique (hbest' .bid),
      hshows.totalAdds.trans hadds.symm, hcount⟩

theorem processAdd_of_invalid (hprice : maxPriceLevels ≤ price) :
    levels.processAdd price qty tsNs = levels := if_pos hprice

theorem processTrade_of_invalid (hprice : maxPriceLevels ≤ price) :
    levels.processTrade price qty tsNs = levels := if_pos hprice

variable {free free' : List UInt32} {ret : UInt32} {orderId : UInt64}

theorem Shows.enqueue (hshows : levels.Shows tally book)
    (hstep : Step free book tally (.enqueue .bid price orderId qty) ret free'
      book' tally')
    (hroom : price < maxPriceLevels → free ≠ [])
    (hfits : price < maxPriceLevels → book.volume .bid price +
      qty.toNat < 2 ^ 32) :
    (levels.processAdd price qty tsNs).Shows tally' book' := by
  cases hstep with
  | invalid hprice => rwa [processAdd_of_invalid hprice]
  | full hprice hnone => exact absurd hnone (hroom hprice)
  | placed hprice =>
      exact hshows.processAdd hprice ⟨ret, orderId, qty⟩ (hfits hprice)

theorem recordTrade_counters (side : Side) (price qty : UInt32)
    (queue : List Resting) (tally : DepthTally) :
    (AbstractBook.recordTrade side price qty queue tally).totalAdds =
    tally.totalAdds ∧
      (AbstractBook.recordTrade side price qty queue tally).totalTrades =
        tally.totalTrades := by
  induction queue generalizing qty tally with
  | nil => exact ⟨rfl, rfl⟩
  | cons r rest ih =>
      rw [AbstractBook.recordTrade]
      split
      case isTrue => exact ⟨rfl, rfl⟩
      split
      case isTrue =>
        have hremoved : (LevelTally.remove tally side price r.qty).totalAdds =
            tally.totalAdds ∧
            (LevelTally.remove tally side price r.qty).totalTrades =
              tally.totalTrades := by
          change (tally.remove side price r.qty).totalAdds = _ ∧
            (tally.remove side price r.qty).totalTrades = _
          rw [DepthTally.remove]
          split
          · cases side <;> exact ⟨rfl, rfl⟩
          · exact ⟨rfl, rfl⟩
        have hrest :=
          ih (qty - r.qty) (LevelTally.remove tally side price r.qty)
        exact ⟨hrest.1.trans hremoved.1, hrest.2.trans hremoved.2⟩
      case isFalse => exact ⟨rfl, rfl⟩

theorem Shows.trade (hshows : levels.Shows tally book)
    (hbest : tally.Exact book) (hpriced : book.Priced)
    (hstep : Step free book tally (.trade .bid price qty) ret free'
      book' tally')
    (hbest' : tally'.Exact book') :
    (levels.processTrade price qty tsNs).Shows tally' book' := by
  cases hstep with
  | untraded hprice => rwa [processTrade_of_invalid hprice]
  | traded hprice =>
      obtain ⟨hadds, htrades⟩ :=
        recordTrade_counters .bid price qty (book .bid price) tally
      exact hshows.processTrade hbest hpriced hprice rfl hbest' hadds
        (congrArg (· + 1) htrades)

end PriceLevelBook

/-! ## Beside an order book -/

/-- A book that takes every Add for a bid and every Trade for one of
its bids. -/
def bidCall (orderId : ItchMessage → UInt64) (message : ItchMessage) :
    Option BookOp :=
  if message.type = addType then
    some (.enqueue .bid message.price (orderId message) message.qty)
  else if message.type = tradeType then
    some (.trade .bid message.price message.qty)
  else none

/-- One order book under messages.  An Add for one of its levels comes with a
quantity, finds a slot free, and its level can hold it. -/
def MBOBookWithBIT.bids (orderId : ItchMessage → UInt64) (size : UInt32) :
    Machine (MBOBookWithBIT × OrderPool size) ItchMessage where
  allowed state message :=
    message.type = addType → message.price < maxPriceLevels →
    0 < message.qty ∧ state.2.freeHead ≠ nullIdx ∧
      quantity (state.1.queues.contents state.2 .bid message.price) +
        message.qty.toNat < 2 ^ 32
  step state message :=
    match bidCall orderId message with
    | some op => (OrderBook.apply state.1 state.2 op).2
    | none => state

/-- An order book and the levels that show it. -/
structure Mirrors (levels : PriceLevelBook)
    (state : MBOBookWithBIT × OrderPool size) (free : List UInt32)
    (book : AbstractBook) : Prop where
  represents : Represents state.1.queues state.2 book
  freeList : state.2.FreeList free
  tracks : state.1.tally.Tracks book
  best : state.1.tally.Exact book
  totals : state.1.tally.Agrees book
  shows : levels.Shows state.1.tally book

namespace Mirrors

variable {levels : PriceLevelBook} {state : MBOBookWithBIT × OrderPool size}
  {free : List UInt32} {book : AbstractBook} {orderId : ItchMessage → UInt64}

/-- A call that keeps the order book's aggregates exact. -/
theorem apply (hmirrors : Mirrors levels state free book) {op : BookOp}
    (hallowed : op.Allowed state.1.queues state.2)
    (hbest : op.KeepsBest state.2 state.1.tally book)
    (htotals : op.KeepsTotals state.2 book) {levels' : PriceLevelBook}
    (hlevels : ∀ ret free' book' tally',
      Step free book state.1.tally op ret free' book' tally' →
      tally'.Exact book' → levels'.Shows tally' book') :
    ∃ free' book', Mirrors levels' (OrderBook.apply state.1 state.2 op).2
      free' book' := by
  obtain ⟨free', book', hfollows, hstep⟩ :=
    hmirrors.represents.apply_step hmirrors.freeList hallowed
  have hbest' :=
    (hmirrors.best.step_iff hmirrors.tracks hmirrors.represents
      hmirrors.freeList
    hstep).mpr hbest
  exact ⟨free', book', hfollows.represents, hfollows.freeList,
    hmirrors.tracks.step hmirrors.represents.isPriced hstep, hbest',
    (hmirrors.totals.step_iff hmirrors.freeList hstep).mpr htotals,
    hlevels _ _ _ _ hstep hbest'⟩

/-- Totals that agree guard the best price from every trade. -/
theorem keepsBest_trade (hmirrors : Mirrors levels state free book)
    (side : Side) (price qty : UInt32) :
    (BookOp.trade side price qty).KeepsBest state.2 state.1.tally book := by
  intro hpos _ _ _
  exact (hmirrors.totals side price (hmirrors.represents.isPriced.lt hpos)).le

theorem step (hmirrors : Mirrors levels state free book) {message : ItchMessage}
    (hallowed : (MBOBookWithBIT.bids orderId size).allowed state message) :
    ∃ free' book', Mirrors (levels.process message)
      ((MBOBookWithBIT.bids orderId size).step state message) free' book' := by
  by_cases hadd : message.type = addType
  · have hcall : bidCall orderId message =
        some (.enqueue .bid message.price (orderId message) message.qty) :=
          if_pos hadd
    have hlevel := hmirrors.represents.contents_eq .bid message.price
    have hmessage := hallowed hadd
    rw [hlevel] at hmessage
    have hanytime : BookOp.Allowed state.1.queues state.2
        (.enqueue .bid message.price (orderId message) message.qty) := trivial
    simp only [MBOBookWithBIT.bids, hcall]
    rw [PriceLevelBook.process, if_pos hadd]
    refine hmirrors.apply hanytime ?_ ?_
      fun ret free' book' tally' hstep _ => ?_
    · intro hprice _ _
      exact UInt32.lt_iff_toNat_lt.mp (hmessage hprice).1
    · intro hprice _
      exact (hmessage hprice).2.2
    · refine hmirrors.shows.enqueue hstep (fun hprice => ?_) fun hprice =>
        (hmessage hprice).2.2
      exact fun hnone => (hmessage hprice).2.1
        (hmirrors.freeList.head_iff.mpr hnone)
  by_cases htrade : message.type = tradeType
  · have hcall : bidCall orderId message =
      some (.trade .bid message.price message.qty) := by
      rw [bidCall, if_neg hadd, if_pos htrade]
    have hanytime : BookOp.Allowed state.1.queues state.2
        (.trade .bid message.price message.qty) := trivial
    simp only [MBOBookWithBIT.bids, hcall]
    rw [PriceLevelBook.process, if_neg hadd, if_pos htrade]
    have hguarded := hmirrors.keepsBest_trade .bid message.price message.qty
    refine hmirrors.apply hanytime hguarded trivial
      fun ret free' book' tally' hstep hbest' => ?_
    exact hmirrors.shows.trade hmirrors.best hmirrors.represents.isPriced hstep
      hbest'
  · have hcall : bidCall orderId message = none := by
      rw [bidCall, if_neg hadd, if_neg htrade]
    simp only [MBOBookWithBIT.bids, hcall]
    rw [PriceLevelBook.process, if_neg hadd, if_neg htrade]
    exact ⟨free, book, hmirrors⟩

/-- What the levels show is what the order book reports. -/
theorem reports (hmirrors : Mirrors levels state free book) (side : Side) :
    (∀ price < maxPriceLevels, levels.qty side price =
      state.1.tally.qty side price ∧
      (levels.qty side price).toNat =
        quantity (state.1.queues.contents state.2 side price)) ∧
    levels.best side = state.1.tally.best side := by
  have hvolume : ∀ price, (levels.qty side price).toNat =
      book.volume side price := by
    intro price
    cases side with
    | bid => exact hmirrors.shows.exact price
    | ask =>
        rw [hmirrors.shows.noAsks.qty, AbstractBook.volume,
          hmirrors.shows.asks]; rfl
  refine ⟨fun price hprice => ⟨?_, ?_⟩, ?_⟩
  · exact UInt32.toNat_inj.mp
      ((hvolume price).trans (hmirrors.totals side price hprice).symm)
  · rw [hvolume, hmirrors.represents.contents_eq, AbstractBook.volume]
  · cases side with
    | bid => exact hmirrors.shows.best
    | ask =>
        have hempty : book.IsBest .ask invalidPrice :=
          Or.inr ⟨fun p => by rw [AbstractBook.volume,
            hmirrors.shows.asks]; rfl, rfl⟩
        rw [hmirrors.shows.noAsks.best]
        exact hempty.unique (hmirrors.best .ask)

end Mirrors

/-- `PriceLevelBook` is the aggregate of the order book: on every run of
messages that the order book can take whole, its level quantities are the sums
of the orders in the queues, its best prices, spread and counters those of the
order book. -/
theorem MBOBookWithBIT.levels_aggregate_orders (orderId : ItchMessage → UInt64)
    (memory : UInt32 → Order) (messages : List ItchMessage)
    (hlegal : (bids orderId maxOrders).Legal
      (MBOBookWithBIT.init, .init memory) messages) :
    let levels := PriceLevelBook.machine.run .init messages
    let state :=
      (bids orderId maxOrders).run (MBOBookWithBIT.init, .init memory) messages
    (∀ side, ∀ price < maxPriceLevels, levels.qty side price =
      state.1.getQty side price ∧
      (levels.qty side price).toNat =
        quantity (state.1.queues.contents state.2 side price)) ∧
    levels.best .bid = state.1.getBestBid ∧
      levels.best .ask = state.1.getBestAsk ∧
    levels.spread = state.1.spread ∧
      levels.totalAdds = state.1.tally.totalAdds ∧
    levels.totalTrades = state.1.tally.totalTrades := by
  intro levels state
  have hinit : Mirrors .init
      (MBOBookWithBIT.init, (.init memory : OrderPool maxOrders))
      ((List.range maxOrders.toNat).map UInt32.ofNat) AbstractBook.empty :=
    ⟨Represents.init _, OrderPool.init_freeList maxOrders_pos memory,
      init_tracks,
      fun _ => Or.inr ⟨fun _ => rfl, rfl⟩, init_agrees,
      PriceLevelBook.init_shows⟩
  have hrun : ∃ free book, Mirrors levels state free book :=
    Machine.simulation (fun state levels => ∃ free book,
      Mirrors levels state free book)
      (fun _ _ _ ⟨_, _, hmirrors⟩ hallowed => hmirrors.step hallowed)
        ⟨_, _, hinit⟩ hlegal
  obtain ⟨free, book, hmirrors⟩ := hrun
  have hbid := (hmirrors.reports .bid).2
  have hask := (hmirrors.reports .ask).2
  refine ⟨fun side => (hmirrors.reports side).1, hbid, hask, ?_,
    hmirrors.shows.totalAdds,
    hmirrors.shows.totalTrades⟩
  rw [PriceLevelBook.spread, hbid, hask]
  rfl

/-- An order of 5 of which 2 were traded. -/
theorem MBOBookWithBIT.levels_aggregate_orders_trade :
    let messages : List ItchMessage :=
      [⟨addType, 0, 1, 50, 5⟩, ⟨tradeType, 0, 2, 50, 2⟩]
    let levels := PriceLevelBook.machine.run .init messages
    let state := (bids ItchMessage.tsNs maxOrders).run
      (MBOBookWithBIT.init, .init fun _ => default) messages
    levels.qty .bid 50 = 3 ∧
      quantity (state.1.queues.contents state.2 .bid 50) = 3 ∧
      state.1.getQty .bid 50 = 3 ∧ levels.best .bid = state.1.getBestBid := by
  intro messages levels state
  have hempty : quantity (MBOBookWithBIT.init.queues.contents
      (.init fun _ => default : OrderPool maxOrders) .bid 50) = 0 := by
    rw [MBOBookWithBIT.init, (Represents.init _).contents_eq]
    rfl
  have hlegal : (bids ItchMessage.tsNs maxOrders).Legal
      (MBOBookWithBIT.init, .init fun _ => default) messages := by
    refine ⟨fun _ _ => ⟨by decide, by decide, ?_⟩, fun hadd =>
      absurd hadd (by decide), trivial⟩
    exact hempty ▸ by decide
  obtain ⟨hlevels, hbid, -⟩ :=
    levels_aggregate_orders ItchMessage.tsNs (fun _ => default) messages hlegal
  obtain ⟨hqty, hcontents⟩ := hlevels .bid 50 (by decide)
  have hshown : levels.qty .bid 50 = 3 := by decide
  refine ⟨hshown, ?_, ?_, hbid⟩
  · exact hcontents.symm.trans (congrArg UInt32.toNat hshown)
  · exact hqty.symm.trans hshown

end MarketDataPipeline
