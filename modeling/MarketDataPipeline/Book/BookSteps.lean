import MarketDataPipeline.Book.OrderBook

/-!
# Every call on a book is a step

One lemma per call says what it does to the queues, the pool and the tally of a
book that holds an abstract book.  Together they are `Represents.apply_step`,
from which the results on books are derived without unfolding a call again.
-/

namespace MarketDataPipeline

open LinkRing AbstractBook

variable {size : UInt32} {T : Type*}

theorem Follows.trans {queues' queues'' : Queues}
    {pool pool' pool'' : OrderPool size} {book book' book'' : AbstractBook}
    {free' free'' : List UInt32}
    (hfirst : Follows queues' pool' book' free' pool book)
    (hsecond : Follows queues'' pool'' book'' free'' pool' book') :
    Follows queues'' pool'' book'' free'' pool book :=
  ⟨hsecond.represents, hsecond.freeList, hfirst.isLocal.trans hsecond.isLocal⟩

theorem Follows.refl {queues : Queues} {pool : OrderPool size}
    {book : AbstractBook} {free : List UInt32}
    (hrep : Represents queues pool book) (hfree : pool.FreeList free) :
    Follows queues pool book free pool book :=
      ⟨hrep, hfree, Local.refl pool book⟩

/-- The calls a client may make: an order is dequeued only while it rests in
the book. -/
def BookOp.Allowed (queues : Queues) (pool : OrderPool size) : BookOp → Prop
  | .dequeue idx => queues.Rests pool idx
  | _ => True

variable [LevelTally T] {book : OrderBook T} {pool : OrderPool size}
  {a : AbstractBook} {free : List UInt32} {side : Side} {price : UInt32}

/-! ## Dequeue -/

theorem Represents.dequeue_eq (hrep : Represents book.queues pool a)
    {r : Resting} (hr : r ∈ a side price) :
    book.dequeue pool r.idx =
      (⟨(book.queues.remove pool r.idx).1,
        LevelTally.remove book.tally side price r.qty⟩,
        (book.queues.remove pool r.idx).2) := by
  have hstored := (hrep.stored side price r hr).2
  rw [OrderBook.dequeue, if_neg]
  · rw [hstored.isBid, hstored.price, hstored.qty, Side.ofIsBid_isBid]
  · rw [hstored.active]
    simp [hrep.ne_nullIdx hr]

/-! ## Trade -/

@[simp]
theorem AbstractBook.consume_zero (queue : List Resting) :
    consume 0 queue = queue := by
  cases queue <;> simp [consume]

@[simp]
theorem AbstractBook.recordTrade_zero (queue : List Resting) (tally : T) :
    recordTrade side price 0 queue tally = tally := by
  cases queue <;> simp [recordTrade]

@[simp]
theorem AbstractBook.releaseTraded_zero (queue : List Resting)
    (free : List UInt32) :
    releaseTraded 0 queue free = free := by
  cases queue <;> simp [releaseTraded]

@[simp]
theorem AbstractBook.fill_zero (queue : List Resting) : fill 0 queue = 0 := by
  simp [fill]

/-- A trade takes its fill off the queue. -/
theorem AbstractBook.quantity_consume (qty : UInt32) (queue : List Resting) :
    quantity (consume qty queue) + fill qty queue = quantity queue := by
  induction queue generalizing qty with
  | nil => simp [consume, fill]
  | cons r rest ih =>
      rw [consume]
      split
      case isTrue hzero => simp [hzero]
      case isFalse =>
        split
        case isTrue hle =>
          have hrest := ih (qty - r.qty)
          have hleNat := UInt32.le_iff_toNat_le.mp hle
          rw [fill, UInt32.toNat_sub_of_le _ _ hle] at hrest
          rw [fill, quantity_cons]
          omega
        case isFalse hlt =>
          have hltNat := UInt32.lt_iff_toNat_lt.mp (UInt32.not_le.mp hlt)
          have hsub :=
            UInt32.toNat_sub_of_le _ _ (UInt32.le_of_lt (UInt32.not_le.mp hlt))
          rw [fill, quantity_cons, quantity_cons, hsub]
          omega

/-- What removals from the front of a queue and a last partial fill preserve, a
trade preserves. -/
theorem AbstractBook.recordTrade_preserves (property : AbstractBook → T → Prop)
    (hremove : ∀ book tally r rest, property book tally →
      book side price = r :: rest →
      property (setAt book side price rest)
        (LevelTally.remove tally side price r.qty))
    (hreduce : ∀ book tally r rest qty, property book tally →
      book side price = r :: rest →
      qty < r.qty →
      property (setAt book side price ({ r with qty := r.qty - qty } :: rest))
        (LevelTally.reduce tally side price qty))
    {book : AbstractBook} {tally : T} (hstart : property book tally)
      (qty : UInt32)
    {front back : List Resting} (hqueue : book side price = front ++ back) :
    property (setAt book side price (consume qty front ++ back))
      (recordTrade side price qty front tally) := by
  induction front generalizing tally book qty with
  | nil => rwa [setAt_eq_self _ _ _ (by simp [hqueue, consume])]
  | cons r rest ih =>
      rw [recordTrade, consume]
      split
      case isTrue => rwa [setAt_eq_self _ _ _ hqueue.symm]
      case isFalse =>
        split
        case isTrue =>
          have hremoved := hremove book tally r (rest ++ back) hstart hqueue
          have hdone := ih hremoved (qty - r.qty) (setAt_self ..)
          rwa [setAt_setAt] at hdone
        case isFalse hlt =>
          exact hreduce book tally r (rest ++ back) qty hstart hqueue
            (UInt32.not_le.mp hlt)

/-- Nothing left to trade ends the loop. -/
theorem OrderBook.tradeLoop_zero (fuel : ℕ) (filled : UInt32)
    (book : OrderBook T) (pool : OrderPool size) :
    tradeLoop side price fuel 0 filled book pool = (filled, book, pool) := by
  cases fuel <;> simp [tradeLoop]

section Rounds

variable {qty : UInt32} (fuel : ℕ) (filled : UInt32)

/-- An empty level ends the loop. -/
theorem Represents.tradeLoop_nil (hrep : Represents book.queues pool a)
    (hqueue : a side price = []) :
    OrderBook.tradeLoop side price fuel qty filled book pool =
      (filled, book, pool) := by
  have hhead := hrep.head_eq side price
  rw [hqueue] at hhead
  cases fuel with
  | zero => rfl
  | succ fuel =>
      rw [OrderBook.tradeLoop]
      exact if_neg (by simp [hhead])

/-- The book after the round that takes a whole order. -/
def OrderBook.filledRound (book : OrderBook T) (pool : OrderPool size)
    (side : Side) (price : UInt32) (r : Resting) : OrderBook T :=
  ⟨(book.queues.remove pool r.idx).1,
    LevelTally.remove book.tally side price r.qty⟩

@[simp]
theorem OrderBook.filledRound_tally (book : OrderBook T) (pool : OrderPool size)
    (side : Side) (price : UInt32) (r : Resting) :
    (book.filledRound pool side price r).tally =
      LevelTally.remove book.tally side price r.qty := rfl

/-- The round that takes a whole order. -/
theorem Represents.tradeLoop_filled (hrep : Represents book.queues pool a)
    {r : Resting} {rest : List Resting} (hqueue : a side price = r :: rest)
    (hqty : qty ≠ 0) (hle : r.qty ≤ qty) :
    OrderBook.tradeLoop side price (fuel + 1) qty filled book pool =
      OrderBook.tradeLoop side price fuel (qty - r.qty) (filled + r.qty)
        (book.filledRound pool side price r)
        (book.queues.remove pool r.idx).2 := by
  obtain ⟨hidx, hne, hstored⟩ := hrep.head_of_cons hqueue
  have hgo : qty > 0 ∧ r.idx ≠ nullIdx := ⟨UInt32.pos_iff_ne_zero.mpr hqty, hne⟩
  rw [OrderBook.tradeLoop]
  simp only [hidx, if_pos hgo, hstored.qty, if_pos hle]
  rw [hrep.dequeue_eq (hqueue ▸ List.mem_cons_self)]
  rfl

/-- The round that takes part of an order is the last. -/
theorem Represents.tradeLoop_partial (hrep : Represents book.queues pool a)
    {r : Resting} {rest : List Resting} (hqueue : a side price = r :: rest)
    (hqty : qty ≠ 0) (hle : ¬ r.qty ≤ qty) :
    OrderBook.tradeLoop side price (fuel + 1) qty filled book pool =
      (filled + qty, ⟨book.queues, LevelTally.reduce book.tally side price qty⟩,
        pool.modify r.idx fun o => { o with qty := o.qty - qty }) := by
  obtain ⟨hidx, hne, hstored⟩ := hrep.head_of_cons hqueue
  have hgo : qty > 0 ∧ r.idx ≠ nullIdx := ⟨UInt32.pos_iff_ne_zero.mpr hqty, hne⟩
  rw [OrderBook.tradeLoop]
  simp only [hidx, if_pos hgo, hstored.qty, if_neg hle,
    OrderBook.tradeLoop_zero]

/-- The queues after the round that takes a whole order. -/
theorem Represents.filledRound (hrep : Represents book.queues pool a)
    (hfree : pool.FreeList free) {r : Resting} {rest : List Resting}
    (hqueue : a side price = r :: rest) :
    Follows (book.filledRound pool side price r).queues
      (book.queues.remove pool r.idx).2
      (setAt a side price rest) (r.idx :: free) pool a := by
  have hsplit : a side price = [] ++ r :: rest := hqueue
  exact hrep.remove hfree hsplit

end Rounds

/-- Rounds of the trade loop consume the front of the queue, also when the
loop is stopped early. -/
theorem Represents.tradeLoop_spec (hrep : Represents book.queues pool a)
    (hfree : pool.FreeList free) (side : Side) (price : UInt32) (fuel : ℕ)
    (qty filled : UInt32) (hsum : filled.toNat + qty.toNat < 2 ^ 32) :
    Follows (OrderBook.tradeLoop side price fuel qty filled book
      pool).2.1.queues
        (OrderBook.tradeLoop side price fuel qty filled book pool).2.2
        (setAt a side price
          (consume qty ((a side price).take fuel) ++ (a side price).drop fuel))
        (releaseTraded qty ((a side price).take fuel) free) pool a ∧
      (OrderBook.tradeLoop side price fuel qty filled book pool).2.1.tally =
        recordTrade side price qty ((a side price).take fuel) book.tally ∧
      (OrderBook.tradeLoop side price fuel qty filled book pool).1.toNat =
        filled.toNat + fill qty ((a side price).take fuel) := by
  induction fuel generalizing qty filled book pool a free with
  | zero =>
      refine ⟨?_, rfl, by simp [OrderBook.tradeLoop, fill]⟩
      rw [setAt_eq_self _ _ _ (by simp [consume])]
      exact Follows.refl hrep hfree
  | succ fuel ih =>
      by_cases hqty : qty = 0
      · subst hqty
        rw [OrderBook.tradeLoop_zero]
        refine ⟨?_, by simp, by simp⟩
        rw [setAt_eq_self _ _ _ (by simp), releaseTraded_zero]
        exact Follows.refl hrep hfree
      cases hqueue : a side price with
      | nil =>
          rw [hrep.tradeLoop_nil (fuel + 1) filled hqueue]
          refine ⟨?_, rfl, by simp [fill]⟩
          rw [setAt_eq_self _ _ _ (by simp [hqueue, consume])]
          exact Follows.refl hrep hfree
      | cons r rest =>
          by_cases hle : r.qty ≤ qty
          · have hfirst := hrep.filledRound hfree hqueue
            have hrest : setAt a side price rest side price = rest := by simp
            have hleNat := UInt32.le_iff_toNat_le.mp hle
            have hqtyNat := UInt32.toNat_sub_of_le _ _ hle
            have hfilledNat : (filled + r.qty).toNat =
                filled.toNat + r.qty.toNat := by
              rw [UInt32.toNat_add, Nat.mod_eq_of_lt (by omega)]
            obtain ⟨hfollows, htally, hfilled⟩ :=
              ih hfirst.represents hfirst.freeList
              (qty - r.qty) (filled + r.qty) (by omega)
            rw [hrest] at hfollows htally hfilled
            rw [hrep.tradeLoop_filled fuel filled hqueue hqty hle]
            refine ⟨?_, ?_, ?_⟩
            · have := hfirst.trans hfollows
              rw [setAt_setAt] at this
              simpa [consume, releaseTraded, hqty, hle] using this
            · simpa [recordTrade, hqty, hle] using htally
            · rw [hfilled, hfilledNat, List.take_succ_cons, fill, fill,
                quantity_cons, hqtyNat]
              omega
          · have hsplit : a side price = [] ++ r :: rest := hqueue
            have hfollows := hrep.reduce hfree hsplit qty
            have hlt := UInt32.lt_iff_toNat_lt.mp (UInt32.not_le.mp hle)
            rw [hrep.tradeLoop_partial fuel filled hqueue hqty hle]
            refine ⟨?_, ?_, ?_⟩
            · simpa [consume, releaseTraded, hqty, hle] using hfollows
            · simp [recordTrade, hqty, hle]
            · rw [UInt32.toNat_add, Nat.mod_eq_of_lt (by omega),
                List.take_succ_cons, fill, quantity_cons]
              omega

/-- Fuel for every order of the level is enough: more rounds change nothing. -/
theorem Represents.tradeLoop_stops (hrep : Represents book.queues pool a)
    (hfree : pool.FreeList free) {fuel : ℕ} (hfuel : (a side price).length ≤
      fuel) (more : ℕ)
    (qty filled : UInt32) :
    OrderBook.tradeLoop side price (fuel + more) qty filled book pool =
      OrderBook.tradeLoop side price fuel qty filled book pool := by
  induction fuel generalizing qty filled book pool a free with
  | zero =>
      have hqueue := List.eq_nil_of_length_eq_zero (Nat.le_zero.mp hfuel)
      rw [hrep.tradeLoop_nil _ filled hqueue,
        hrep.tradeLoop_nil _ filled hqueue]
  | succ fuel ih =>
      rw [Nat.add_right_comm]
      by_cases hqty : qty = 0
      · rw [hqty, OrderBook.tradeLoop_zero, OrderBook.tradeLoop_zero]
      cases hqueue : a side price with
      | nil =>
          rw [hrep.tradeLoop_nil _ filled hqueue,
            hrep.tradeLoop_nil _ filled hqueue]
      | cons r rest =>
          by_cases hle : r.qty ≤ qty
          · have hfirst := hrep.filledRound hfree hqueue
            have hlength : (setAt a side price rest side price).length ≤
                fuel := by
              rw [setAt_self]
              rw [hqueue, List.length_cons] at hfuel
              omega
            rw [hrep.tradeLoop_filled _ filled hqueue hqty hle,
              hrep.tradeLoop_filled _ filled hqueue hqty hle]
            exact ih hfirst.represents hfirst.freeList hlength _ _
          · rw [hrep.tradeLoop_partial _ filled hqueue hqty hle,
              hrep.tradeLoop_partial _ filled hqueue hqty hle]

/-! ## The calls -/

/-- A call returned, and it led to the state its step describes. -/
structure Performs (free : List UInt32) (a : AbstractBook) (tally : T)
    (pool : OrderPool size) (op : BookOp)
    (done : UInt32 × OrderBook T × OrderPool size) (free' : List UInt32)
    (a' : AbstractBook) : Prop where
  follows : Follows done.2.1.queues done.2.2 a' free' pool a
  step : Step free a tally op done.1 free' a' done.2.1.tally

theorem Represents.enqueue_step (hrep : Represents book.queues pool a)
    (hfree : pool.FreeList free) (side : Side) (price : UInt32)
    (orderId : UInt64) (qty : UInt32) :
    ∃ free' a', Performs free a book.tally pool
      (.enqueue side price orderId qty)
      (book.enqueue pool side price orderId qty) free' a' := by
  have hrefused : book.queues.place pool side price orderId qty =
      (nullIdx, book.queues, pool) →
      book.enqueue pool side price orderId qty = (nullIdx, book, pool) := by
    intro hplace
    rw [OrderBook.enqueue, hplace]
    exact if_pos rfl
  by_cases hprice : price < maxPriceLevels
  case neg =>
    have hge := UInt32.not_lt.mp hprice
    rw [hrefused (Queues.place_of_ge hge orderId qty)]
    exact ⟨free, a, Follows.refl hrep hfree, Step.invalid hge⟩
  cases free with
  | nil =>
      rw [hrefused (Queues.place_full hfree side price orderId qty)]
      exact ⟨[], a, Follows.refl hrep hfree, Step.full hprice rfl⟩
  | cons idx free =>
      obtain ⟨hidx, hfollows⟩ := hrep.place hfree side hprice orderId qty
      have hne :=
        OrderPool.ne_nullIdx_of_lt ((hfree.mem_iff idx).mp (by simp)).1
      rw [OrderBook.enqueue, if_neg (hidx ▸ hne), hidx]
      exact ⟨free, _, hfollows, Step.placed hprice hne rfl⟩

theorem Represents.trade_step (hrep : Represents book.queues pool a)
    (hfree : pool.FreeList free) (side : Side) (price qty : UInt32) :
    ∃ free' a', Performs free a book.tally pool (.trade side price qty)
      (book.trade pool side price qty) free' a' := by
  by_cases hprice : price < maxPriceLevels
  case neg =>
    have hge := UInt32.not_lt.mp hprice
    rw [OrderBook.trade, if_pos hge]
    exact ⟨free, a, Follows.refl hrep hfree, Step.untraded hge⟩
  have hlength := hrep.length_le side price
  rw [List.length_map] at hlength
  obtain ⟨hfollows, htally, hfilled⟩ :=
    hrep.tradeLoop_spec hfree side price size.toNat qty 0
      (by simpa using qty.toNat_lt)
  rw [List.take_of_length_le hlength] at hfollows htally hfilled
  rw [List.drop_eq_nil_of_le hlength, List.append_nil] at hfollows
  rw [UInt32.toNat_zero, Nat.zero_add] at hfilled
  rw [OrderBook.trade, if_neg (UInt32.not_le.mpr hprice)]
  dsimp only
  rw [htally]
  exact ⟨_, _, hfollows, Step.traded hprice hfilled⟩

theorem Represents.dequeue_step (hrep : Represents book.queues pool a)
    (hfree : pool.FreeList free) {idx : UInt32}
    (hrests : book.queues.Rests pool idx) :
    ∃ free' a', Performs free a book.tally pool (.dequeue idx)
      (0, book.dequeue pool idx)
      free' a' := by
  obtain ⟨side, price, r, hr, rfl⟩ := (hrep.rests_iff idx).mp hrests
  obtain ⟨before, after, hsplit⟩ := List.append_of_mem hr
  have hprice := hrep.priced side price (List.ne_nil_of_mem hr)
  rw [hrep.dequeue_eq hr]
  exact ⟨_, _, hrep.remove hfree hsplit, Step.dequeued hprice hsplit⟩

/-- Every allowed call is a step of the abstract book. -/
theorem Represents.apply_step (hrep : Represents book.queues pool a)
    (hfree : pool.FreeList free) {op : BookOp}
    (hallowed : op.Allowed book.queues pool) :
    ∃ free' a', Performs free a book.tally pool op (book.apply pool op)
      free' a' := by
  cases op with
  | enqueue side price orderId qty =>
      exact hrep.enqueue_step hfree side price orderId qty
  | trade side price qty => exact hrep.trade_step hfree side price qty
  | dequeue idx => exact hrep.dequeue_step hfree hallowed
  | clear => exact ⟨_, _, hrep.clearLevels hfree, Step.cleared⟩

end MarketDataPipeline
