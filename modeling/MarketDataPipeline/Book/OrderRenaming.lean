import MarketDataPipeline.Book.SharedPool

/-!
# Order ids are opaque

No operation of a book or of the pool looks at the id of an order.  So renaming
the ids in a pool and in the calls renames them in the result, whatever the
state is, and makes no other difference.
-/

namespace MarketDataPipeline

variable {size : UInt32} (f : UInt64 → UInt64)

def Order.rename (order : Order) : Order :=
  { order with orderId := f order.orderId }

namespace OrderPool

variable (pool : OrderPool size)

def rename : OrderPool size :=
  { pool with orders := fun i => (pool.orders i).rename f }

theorem rename_orders (i : UInt32) :
    (pool.rename f).orders i = (pool.orders i).rename f := rfl

theorem update_rename (orders : UInt32 → Order) (idx : UInt32) (order : Order) :
    Function.update (fun i => (orders i).rename f) idx (order.rename f) =
      fun i => (Function.update orders idx order i).rename f := by
  funext i
  by_cases hi : i = idx
  · rw [hi, Function.update_self, Function.update_self]
  · rw [Function.update_of_ne hi, Function.update_of_ne hi]

theorem modify_rename (idx : UInt32) (write write' : Order → Order)
    (hwrite : ∀ order, write' (order.rename f) = (write order).rename f) :
    (pool.rename f).modify idx write' = (pool.modify idx write).rename f := by
  have horders := update_rename f pool.orders idx (write (pool.orders idx))
  rw [modify, rename_orders, hwrite]
  exact congrArg (fun orders => { pool with orders }) horders

theorem alloc_rename :
    (pool.rename f).alloc = (pool.alloc.1, pool.alloc.2.rename f) := by
  by_cases hnull : pool.freeHead = nullIdx
  · have hrenamed : (pool.rename f).freeHead = nullIdx := hnull
    rw [alloc, alloc, if_pos hrenamed, if_pos hnull]
  · have hrenamed : ¬ (pool.rename f).freeHead = nullIdx := hnull
    rw [alloc, alloc, if_neg hrenamed, if_neg hnull]
    have horders := update_rename f pool.orders pool.freeHead
      { pool.orders pool.freeHead with
        active := true, prevIdx := nullIdx, nextIdx := nullIdx }
    exact congrArg (fun orders =>
      (pool.freeHead, (⟨orders, (pool.orders pool.freeHead).nextIdx,
      pool.activeCount + 1⟩ : OrderPool size))) horders

theorem free_rename (idx : UInt32) :
    (pool.rename f).free idx = (pool.free idx).rename f := by
  have hactive : ((pool.rename f).orders idx).active =
    (pool.orders idx).active := rfl
  by_cases hkept : idx ≥ size ∨ (pool.orders idx).active = false
  · rw [free, free, if_pos (hactive ▸ hkept), if_pos hkept]
  · rw [free, free, if_neg (hactive ▸ hkept), if_neg hkept]
    have horders := update_rename f pool.orders idx
      { pool.orders idx with active := false, nextIdx := pool.freeHead }
    exact congrArg (fun orders =>
      (⟨orders, idx, pool.activeCount - 1⟩ : OrderPool size)) horders

end OrderPool

/-- The pool that comes with a result renamed. -/
def renamed {α : Type*} (done : α × OrderPool size) : α × OrderPool size :=
  (done.1, done.2.rename f)

namespace Queues

variable (queues : Queues) (pool : OrderPool size)

theorem setNext_rename (side : Side) (price idx link : UInt32) :
    queues.setNext (pool.rename f) side price idx link =
      renamed f (queues.setNext pool side price idx link) := by
  rw [setNext, setNext]
  split
  · exact congrArg (Prod.mk queues) (pool.modify_rename f idx
      (fun o => { o with nextIdx := link })
      (fun o => { o with nextIdx := link }) fun _ => rfl)
  · rfl

theorem setPrev_rename (side : Side) (price idx link : UInt32) :
    queues.setPrev (pool.rename f) side price idx link =
      renamed f (queues.setPrev pool side price idx link) := by
  rw [setPrev, setPrev]
  split
  · exact congrArg (Prod.mk queues) (pool.modify_rename f idx
      (fun o => { o with prevIdx := link })
      (fun o => { o with prevIdx := link }) fun _ => rfl)
  · rfl

theorem pushBack_rename (side : Side) (price : UInt32) (orderId : UInt64)
    (qty idx : UInt32) :
    queues.pushBack (pool.rename f) side price (f orderId) qty idx =
      renamed f (queues.pushBack pool side price orderId qty idx) := by
  have hfilled := pool.modify_rename f idx
    (fun o => { o with
      orderId, qty, price, isBid := side.isBid
      prevIdx := queues.tail side price
      nextIdx := nullIdx })
    (fun o => { o with
      orderId := f orderId, qty, price, isBid := side.isBid
      prevIdx := queues.tail side price
      nextIdx := nullIdx }) fun _ => rfl
  rw [pushBack]
  dsimp only
  rw [hfilled, setNext_rename]
  rfl

theorem place_rename (side : Side) (price : UInt32) (orderId : UInt64)
    (qty : UInt32) :
    queues.place (pool.rename f) side price (f orderId) qty =
      ((queues.place pool side price orderId qty).1,
        renamed f (queues.place pool side price orderId qty).2) := by
  rw [place, place]
  split
  · rfl
  · dsimp only
    rw [pool.alloc_rename f]
    dsimp only
    split
    · rfl
    · rw [pushBack_rename]

theorem unlink_rename (idx : UInt32) :
    queues.unlink (pool.rename f) idx = renamed f (queues.unlink pool idx) := by
  simp only [unlink, OrderPool.rename_orders, Order.rename, setNext_rename,
    setPrev_rename, renamed]

theorem remove_rename (idx : UInt32) :
    queues.remove (pool.rename f) idx = renamed f (queues.remove pool idx) := by
  rw [remove, unlink_rename]
  exact congrArg (Prod.mk _) ((queues.unlink pool idx).2.free_rename f idx)

theorem freeChain_rename (fuel : ℕ) (idx : UInt32) :
    freeChain fuel idx (pool.rename f) =
      (freeChain fuel idx pool).rename f := by
  induction fuel generalizing idx pool with
  | zero => rfl
  | succ fuel ih =>
      rw [freeChain, freeChain]
      split
      · rfl
      · rw [pool.free_rename, ih]
        rfl

theorem clearLevels_rename (count : ℕ) :
    queues.clearLevels (pool.rename f) count =
      renamed f (queues.clearLevels pool count) := by
  induction count with
  | zero => rfl
  | succ count ih =>
      rw [clearLevels, ih, clearLevels]
      dsimp only [renamed]
      rw [freeLevel, freeChain_rename, freeChain_rename]
      rfl

end Queues

/-- The id of the order that a call places renamed. -/
def BookOp.rename : BookOp → BookOp
  | .enqueue side price orderId qty => .enqueue side price (f orderId) qty
  | .trade side price qty => .trade side price qty
  | .dequeue idx => .dequeue idx
  | .clear => .clear

namespace OrderBook

variable {T : Type*} [LevelTally T] (book : OrderBook T) (pool : OrderPool size)

theorem enqueue_rename (side : Side) (price : UInt32) (orderId : UInt64)
    (qty : UInt32) :
    book.enqueue (pool.rename f) side price (f orderId) qty =
      ((book.enqueue pool side price orderId qty).1,
        renamed f (book.enqueue pool side price orderId qty).2) := by
  rw [enqueue, enqueue, Queues.place_rename]
  dsimp only
  split <;> rfl

theorem dequeue_rename (idx : UInt32) :
    book.dequeue (pool.rename f) idx = renamed f (book.dequeue pool idx) := by
  by_cases hkept : idx = nullIdx ∨ (pool.orders idx).active = false
  · have hrenamed : idx = nullIdx ∨
      ((pool.rename f).orders idx).active = false := hkept
    rw [dequeue, dequeue, if_pos hrenamed, if_pos hkept]
    rfl
  · have hrenamed : ¬ (idx = nullIdx ∨ ((pool.rename f).orders idx).active =
      false) := hkept
    rw [dequeue, dequeue, if_neg hrenamed, if_neg hkept, Queues.remove_rename]
    rfl

theorem tradeLoop_rename (side : Side) (price : UInt32) (fuel : ℕ)
    (qty filled : UInt32) :
    tradeLoop side price fuel qty filled book (pool.rename f) =
      ((tradeLoop side price fuel qty filled book pool).1,
        renamed f (tradeLoop side price fuel qty filled book pool).2) := by
  induction fuel generalizing qty filled book pool with
  | zero => rfl
  | succ fuel ih =>
      rw [tradeLoop, tradeLoop]
      by_cases htrades : qty > 0 ∧ book.queues.head side price ≠ nullIdx
      case neg =>
        rw [if_neg htrades, if_neg htrades]
        rfl
      rw [if_pos htrades, if_pos htrades]
      by_cases hwhole : (pool.orders (book.queues.head side price)).qty ≤ qty
      · have hrenamed :
            ((pool.rename f).orders (book.queues.head side price)).qty ≤ qty :=
          hwhole
        dsimp only
        rw [if_pos hrenamed, if_pos hwhole, dequeue_rename]
        exact ih _ _ _ _
      · have hrenamed :
            ¬ ((pool.rename f).orders (book.queues.head side price)).qty ≤
              qty :=
          hwhole
        dsimp only
        rw [if_neg hrenamed, if_neg hwhole, pool.modify_rename f _
          (fun o => { o with qty := o.qty - qty })
          (fun o => { o with qty := o.qty - qty })
          fun _ => rfl]
        exact ih _ _ _ _

theorem trade_rename (side : Side) (price qty : UInt32) :
    book.trade (pool.rename f) side price qty =
      ((book.trade pool side price qty).1,
        renamed f (book.trade pool side price qty).2) := by
  rw [trade, trade]
  split
  · rfl
  · rw [tradeLoop_rename]
    rfl

theorem apply_rename (op : BookOp) :
    book.apply (pool.rename f) (op.rename f) =
      ((book.apply pool op).1, renamed f (book.apply pool op).2) := by
  cases op with
  | enqueue side price orderId qty =>
      exact book.enqueue_rename f pool side price orderId qty
  | trade side price qty => exact book.trade_rename f pool side price qty
  | dequeue idx => exact congrArg (Prod.mk 0) (book.dequeue_rename f pool idx)
  | clear =>
      rw [BookOp.rename, apply, apply, clear, Queues.clearLevels_rename]
      rfl

end OrderBook

namespace Books

variable {ι T : Type*} [DecidableEq ι] [LevelTally T] (books : Books ι T size)

def rename : Books ι T size := { books with pool := books.pool.rename f }

/-- A call with a renamed id on books with renamed ids. -/
theorem apply_rename (i : ι) (op : BookOp) :
    (books.rename f).apply i (op.rename f) =
      ((books.apply i op).1, (books.apply i op).2.rename f) := by
  have hbook := (books.book i).apply_rename f books.pool op
  rw [apply, apply]
  change (let done := (books.book i).apply (books.pool.rename f) (op.rename f)
    (done.1, (⟨Function.update books.book i done.2.1, done.2.2⟩ : Books ι
      T size))) = _
  rw [hbook]
  rfl

end Books

end MarketDataPipeline
