import MarketDataPipeline.Pipeline.BookRuns
import MarketDataPipeline.Pipeline.Midpoint

/-!
# Trades and the liquidity they are for

A Trade message carries no side.  It reaches the orders that rest at its price
exactly when the midpoint of the best prices puts the price on their side.
-/

namespace MarketDataPipeline

open AbstractBook

variable {size : UInt32}

/-- A trade at a valid price takes what is there, up to its quantity. -/
theorem AbstractBook.Step.trade_filled {T : Type*} [LevelTally T]
    {book book' : AbstractBook} {tally tally' : T} {free free' : List UInt32}
    {side : Side} {price qty filled : UInt32} (hprice : price < maxPriceLevels)
    (hstep : Step free book tally (.trade side price qty) filled free'
      book' tally') :
    filled.toNat = min qty.toNat (book.volume side price) := by
  cases hstep with
  | untraded hinvalid => exact absurd hprice (UInt32.not_lt.mpr hinvalid)
  | traded _ hfilled => exact hfilled

namespace Pipeline

/-- What rests at the price of a message in the book of its symbol. -/
def volumeFor (state : Pipeline size) (message : ItchMessage)
    (side : Side) : ℕ :=
  (state.restingOf (state.bookIdOf message)).volume side message.price

/-- The loop sends a Trade message to `side` of its book, where it takes
`filled`. -/
def TradesOn (state : Pipeline size) (message : ItchMessage) (side : Side)
    (filled : ℕ) : Prop :=
  let slot := state.cache.index.bookToSlot (state.bookIdOf message).toUInt32
  let done :=
    state.cache.books.apply slot (.trade side message.price message.qty)
  (state.processMessage message).cache.books = done.2 ∧
    route (state.bookOf (state.bookIdOf message)) message =
      some (.trade side message.price message.qty) ∧
    done.1.toNat = filled

/-- In every reachable state, a Trade message at a price where one side of its
cached book holds volume goes to that side and takes what is there, up to its
quantity, if and only if the midpoint of the best prices puts the price on that
side. -/
theorem trade_reaches_liquidity_iff {state : Pipeline maxOrders}
    (hreachable : state.Reachable) {message : ItchMessage} {side : Side}
    (hcached : state.cache.index.isCached (state.bookIdOf message) = true)
    (htype : message.type = tradeType) (hprice : message.price < maxPriceLevels)
    (hvolume : 0 < state.volumeFor message side) :
    state.TradesOn message side
      (min message.qty.toNat (state.volumeFor message side)) ↔
      MidpointPuts (state.bookOf (state.bookIdOf message)).getBestBid
        (state.bookOf (state.bookIdOf message)).getBestAsk
          message.price side := by
  obtain ⟨a, ⟨reference, hsound⟩, hquoted⟩ := hreachable.quoted maxOrders_pos
  let slot := state.cache.index.bookToSlot (state.bookIdOf message).toUInt32
  have hlevel : state.volumeFor message side =
      (a slot).volume side message.price :=
    (hsound.books.holds.represents slot).volume_eq side message.price
  have hbound : ¬ side.improves message.price
      ((state.bookOf (state.bookIdOf message)).tally.best side) := by
    rw [hlevel] at hvolume
    exact (hsound.books.tracks slot).best side message.price hvolume
  have hvalid : (state.bookOf (state.bookIdOf message)).tally.Quoted :=
    hquoted slot
  rw [← routedSide_eq_iff hvalid hprice hbound]
  have hroute : route (state.bookOf (state.bookIdOf message)) message =
      some (.trade (routedSide (state.bookOf (state.bookIdOf message))
        message.price) message.price
        message.qty) := by
    rw [route, htype, if_neg (by decide), if_pos rfl]
  constructor
  · rintro ⟨-, hsame, -⟩
    have hop := Option.some.inj (hroute.symm.trans hsame)
    exact (BookOp.trade.inj hop).1
  · intro hside
    rw [hside] at hroute
    have hallowed :
        BookOp.Allowed (state.bookOf (state.bookIdOf message)).queues
        state.cache.books.pool
        (.trade side message.price message.qty) := trivial
    obtain ⟨_, _, _, _, -, hstep⟩ := hsound.books.holds.apply_step hallowed
    refine ⟨?_, hroute, hlevel ▸ hstep.trade_filled hprice⟩
    rw [processMessage_of_cached hcached]
    exact Books.deliver_of_route hroute

/-- A bid far below the best one is reached. -/
theorem trade_reaches_liquidity_iff_low_bid :
    (stateAfter [⟨addType, btcUsdt, 1, 40, 5⟩,
      ⟨addType, btcUsdt, 2, 10, 3⟩]).TradesOn
      ⟨tradeType, btcUsdt, 3, 10, 2⟩ .bid 2 := by
  let adds : List ItchMessage :=
    [⟨addType, btcUsdt, 1, 40, 5⟩, ⟨addType, btcUsdt, 2, 10, 3⟩]
  let trade : ItchMessage := ⟨tradeType, btcUsdt, 3, 10, 2⟩
  obtain ⟨hserves, hbooks⟩ :=
    stateAfter_serves adds (by simp [adds]) (by simp [adds])
  have hsymbol : trade.symbol = btcUsdt := rfl
  have hcached := hserves.isCached_bookIdOf hsymbol
  have hvolume : (stateAfter adds).volumeFor trade .bid = 3 := by
    rw [volumeFor, hserves.bookIdOf_eq hsymbol, hserves.restingOf_eq, hbooks]
    decide +kernel
  have hbid :
      ((stateAfter adds).bookOf ((stateAfter adds).bookIdOf trade)).getBestBid =
        40 := by
    rw [hserves.bookIdOf_eq hsymbol, hserves.bookOf_eq, hbooks]
    decide +kernel
  have hask :
      ((stateAfter adds).bookOf ((stateAfter adds).bookIdOf trade)).getBestAsk =
        invalidPrice := by
    rw [hserves.bookIdOf_eq hsymbol, hserves.bookOf_eq, hbooks]
    decide +kernel
  have hpositive : 0 < (stateAfter adds).volumeFor trade .bid := by
    rw [hvolume]
    decide
  have hiff :=
    trade_reaches_liquidity_iff (stateAfter_reachable adds) hcached rfl
      (by decide) hpositive
  rw [hvolume, hbid, hask] at hiff
  refine hiff.mpr ?_
  rw [MidpointPuts]
  decide

/-- A trade at the price of the only resting bid goes to the ask side. -/
theorem trade_misses_only_bid :
    ¬ ∀ (state : Pipeline maxOrders) (message : ItchMessage) (side : Side),
      state.Reachable →
      state.cache.index.isCached (state.bookIdOf message) = true →
        message.type = tradeType →
      message.price < maxPriceLevels → 0 < state.volumeFor message side →
      state.volumeFor message side.opposite = 0 →
      state.TradesOn message side
        (min message.qty.toNat (state.volumeFor message side)) := by
  intro hclaim
  let adds : List ItchMessage := [⟨addType, btcUsdt, 1, 100, 5⟩]
  let trade : ItchMessage := ⟨tradeType, btcUsdt, 2, 100, 5⟩
  obtain ⟨hserves, hbooks⟩ :=
    stateAfter_serves adds (by simp [adds]) (by simp [adds])
  have hsymbol : trade.symbol = btcUsdt := rfl
  have hcached := hserves.isCached_bookIdOf hsymbol
  have hbid : 0 < (stateAfter adds).volumeFor trade .bid := by
    rw [volumeFor, hserves.bookIdOf_eq hsymbol, hserves.restingOf_eq, hbooks]
    decide +kernel
  have hask : (stateAfter adds).volumeFor trade .ask = 0 := by
    rw [volumeFor, hserves.bookIdOf_eq hsymbol, hserves.restingOf_eq, hbooks]
    decide +kernel
  obtain ⟨-, hroute, -⟩ :=
    hclaim (stateAfter adds) trade .bid (stateAfter_reachable adds) hcached
    rfl (by decide) hbid hask
  rw [hserves.bookIdOf_eq hsymbol, hserves.bookOf_eq, hbooks] at hroute
  have hside : routedSide ((booksAfter adds).book 0) 100 = .ask := by
    decide +kernel
  rcases route_eq_some hroute with ⟨hadd, -⟩ | ⟨-, htrade⟩
  · exact absurd hadd (by decide)
  · have hbidSide : Side.bid = routedSide ((booksAfter adds).book 0) 100 :=
      (BookOp.trade.inj htrade).1
    rw [hside] at hbidSide
    exact Side.noConfusion hbidSide

end Pipeline

end MarketDataPipeline
