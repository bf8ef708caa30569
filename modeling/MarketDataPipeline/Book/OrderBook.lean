import MarketDataPipeline.Book.QueueSteps

/-!
# An order book

Both books of the source run the same code on their queues and differ in what
they record beside them.  `OrderBook` takes the record as a parameter, with one
update for each event; `MBOBook` and `MBOBookWithBIT` are its two instances.
The two sides of the source are one definition indexed by side; `enqueueBid`
and the like are its instances under the source's names.
-/

namespace MarketDataPipeline

variable {size : UInt32} {T : Type*}

class LevelTally (T : Type*) where
  /-- An order with a quantity joined a level. -/
  add : T → Side → UInt32 → UInt32 → T
  /-- An order with a quantity left a level. -/
  remove : T → Side → UInt32 → UInt32 → T
  /-- A partial fill took a quantity off an order. -/
  reduce : T → Side → UInt32 → UInt32 → T
  countTrade : T → T
  clear : T → T

structure OrderBook (T : Type*) where
  queues : Queues
  tally : T

inductive BookOp
  | enqueue (side : Side) (price : UInt32) (orderId : UInt64) (qty : UInt32)
  | trade (side : Side) (price qty : UInt32)
  | dequeue (idx : UInt32)
  | clear

namespace OrderBook

variable [LevelTally T]

/-- `enqueue_bid` and `enqueue_ask`. -/
def enqueue (book : OrderBook T) (pool : OrderPool size) (side : Side)
    (price : UInt32) (orderId : UInt64)
    (qty : UInt32) : UInt32 × OrderBook T × OrderPool size :=
  let placed := book.queues.place pool side price orderId qty
  if placed.1 = nullIdx then (nullIdx, book, placed.2.2)
  else (placed.1, ⟨placed.2.1, LevelTally.add book.tally side price qty⟩,
    placed.2.2)

def enqueueBid (book : OrderBook T) (pool : OrderPool size) (price : UInt32)
    (orderId : UInt64) (qty : UInt32) : UInt32 × OrderBook T × OrderPool size :=
  book.enqueue pool .bid price orderId qty

def enqueueAsk (book : OrderBook T) (pool : OrderPool size) (price : UInt32)
    (orderId : UInt64) (qty : UInt32) : UInt32 × OrderBook T × OrderPool size :=
  book.enqueue pool .ask price orderId qty

def dequeue (book : OrderBook T) (pool : OrderPool size) (idx : UInt32) :
    OrderBook T × OrderPool size :=
  let o := pool.orders idx
  if idx = nullIdx ∨ o.active = false then (book, pool)
  else
    let removed := book.queues.remove pool idx
    (⟨removed.1, LevelTally.remove book.tally (.ofIsBid o.isBid) o.price o.qty⟩,
      removed.2)

/-- The `while` loop of `trade_bid` and `trade_ask`, from what is left to
trade and what was filled so far; out of fuel it returns the state reached. -/
def tradeLoop (side : Side) (price : UInt32) :
    ℕ → UInt32 → UInt32 → OrderBook T →
    OrderPool size → UInt32 × OrderBook T × OrderPool size
  | 0, _, filled, book, pool => (filled, book, pool)
  | fuel + 1, qty, filled, book, pool =>
      let idx := book.queues.head side price
      if qty > 0 ∧ idx ≠ nullIdx then
        let o := pool.orders idx
        if o.qty ≤ qty then
          let dequeued := book.dequeue pool idx
          tradeLoop side price fuel (qty - o.qty) (filled + o.qty)
            dequeued.1 dequeued.2
        else
          tradeLoop side price fuel 0 (filled + qty)
            ⟨book.queues, LevelTally.reduce book.tally side price qty⟩
            (pool.modify idx fun o => { o with qty := o.qty - qty })
      else (filled, book, pool)

/-- `trade_bid` and `trade_ask`.  Every round but the last removes an order, so
one unit of fuel for each slot suffices. -/
def trade (book : OrderBook T) (pool : OrderPool size) (side : Side)
    (price qty : UInt32) :
    UInt32 × OrderBook T × OrderPool size :=
  if price ≥ maxPriceLevels then (0, book, pool)
  else
    let traded := tradeLoop side price size.toNat qty 0 book pool
    (traded.1, ⟨traded.2.1.queues, LevelTally.countTrade traded.2.1.tally⟩,
      traded.2.2)

def tradeBid (book : OrderBook T) (pool : OrderPool size) (price qty : UInt32) :
    UInt32 × OrderBook T × OrderPool size :=
  book.trade pool .bid price qty

def tradeAsk (book : OrderBook T) (pool : OrderPool size) (price qty : UInt32) :
    UInt32 × OrderBook T × OrderPool size :=
  book.trade pool .ask price qty

/-- `MBOBookWithBIT::clear`; for `MBOBook::clear` see `MBOBook.clear`. -/
def clear (book : OrderBook T) (pool : OrderPool size) :
    OrderBook T × OrderPool size :=
  let cleared := book.queues.clearLevels pool maxPriceLevels.toNat
  (⟨cleared.1, LevelTally.clear book.tally⟩, cleared.2)

/-- The call, with what it returns (0 where the source returns nothing). -/
def apply (book : OrderBook T) (pool : OrderPool size) :
    BookOp → UInt32 × OrderBook T × OrderPool size
  | .enqueue side price orderId qty => book.enqueue pool side price orderId qty
  | .trade side price qty => book.trade pool side price qty
  | .dequeue idx => (0, book.dequeue pool idx)
  | .clear => (0, book.clear pool)

end OrderBook

/-! ## What an operation can do -/

namespace AbstractBook

/-- What a trade of `qty` takes from a queue. -/
def fill (qty : UInt32) (queue : List Resting) : ℕ :=
  min qty.toNat (quantity queue)

/-- What a trade of `qty` records while it consumes a queue. -/
def recordTrade [LevelTally T] (side : Side) (price : UInt32) :
    UInt32 → List Resting → T → T
  | _, [], tally => tally
  | qty, r :: rest, tally =>
      if qty = 0 then tally
      else if r.qty ≤ qty then
        recordTrade side price (qty - r.qty) rest
          (LevelTally.remove tally side price r.qty)
      else LevelTally.reduce tally side price qty

/-- The free list after a trade of `qty` consumed a queue. -/
def releaseTraded : UInt32 → List Resting → List UInt32 → List UInt32
  | _, [], free => free
  | qty, r :: rest, free =>
      if qty = 0 then free
      else if r.qty ≤ qty then releaseTraded (qty - r.qty) rest (r.idx :: free)
      else free

/-- The transitions of a book: the free list, the abstract book and the tally
before, the call, what it returns, and the three after it. -/
inductive Step [LevelTally T] (free : List UInt32) (book : AbstractBook)
    (tally : T) :
    BookOp → UInt32 → List UInt32 → AbstractBook → T → Prop
  | invalid {side : Side} {price : UInt32} {orderId : UInt64} {qty : UInt32}
      (hprice : maxPriceLevels ≤ price) :
      Step free book tally (.enqueue side price orderId qty) nullIdx
        free book tally
  | full {side : Side} {price : UInt32} {orderId : UInt64} {qty : UInt32}
      (hprice : price < maxPriceLevels) (hfree : free = []) :
      Step free book tally (.enqueue side price orderId qty) nullIdx
        free book tally
  | placed {side : Side} {price : UInt32} {orderId : UInt64} {qty idx : UInt32}
      {rest : List UInt32} (hprice : price < maxPriceLevels)
        (hidx : idx ≠ nullIdx)
      (hfree : free = idx :: rest) :
      Step free book tally (.enqueue side price orderId qty) idx rest
        (setAt book side price (book side price ++ [⟨idx, orderId, qty⟩]))
        (LevelTally.add tally side price qty)
  | untraded {side : Side} {price qty : UInt32}
      (hprice : maxPriceLevels ≤ price) :
      Step free book tally (.trade side price qty) 0 free book tally
  | traded {side : Side} {price qty filled : UInt32}
      (hprice : price < maxPriceLevels)
      (hfilled : filled.toNat = fill qty (book side price)) :
      Step free book tally (.trade side price qty) filled
        (releaseTraded qty (book side price) free)
        (setAt book side price (consume qty (book side price)))
        (LevelTally.countTrade
          (recordTrade side price qty (book side price) tally))
  | dequeued {side : Side} {price : UInt32} {r : Resting}
      {before after : List Resting}
      (hprice : price < maxPriceLevels)
        (hsplit : book side price = before ++ r :: after) :
      Step free book tally (.dequeue r.idx) 0 (r.idx :: free)
        (setAt book side price (before ++ after))
        (LevelTally.remove tally side price r.qty)
  | cleared :
      Step free book tally .clear 0 (book.release free maxPriceLevels.toNat)
        AbstractBook.empty (LevelTally.clear tally)

end AbstractBook

end MarketDataPipeline
