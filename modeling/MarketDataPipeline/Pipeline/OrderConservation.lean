import MarketDataPipeline.Book.TradeExecution
import MarketDataPipeline.Cache.PoolPartition
import MarketDataPipeline.Pipeline.Accounting
import MarketDataPipeline.Pipeline.BookRuns

/-!
# Orders that came and went

`total_adds` is bumped for every Add message that reaches a book, also when the
book refuses the order.  Beside a run we count the orders that trades remove and
those that evictions free.  The active count of the pool is what came less what
went exactly as long as no Add is refused.
-/

namespace MarketDataPipeline

open AbstractBook

variable {size : UInt32} {ι : Type*}

/-! ## What a call does to the active count -/

theorem AbstractBook.LeavesSuffix.slots {queue gone left : List Resting}
    (hleaves : LeavesSuffix queue gone left) :
    queue.map Resting.idx = gone.map Resting.idx ++ left.map Resting.idx := by
  rcases hleaves with rfl | ⟨r, rest, qty, rfl, rfl, -, -⟩ <;> simp

/-- The slots that were on a queue and are not any more. -/
def gone (before after : List UInt32) : List UInt32 :=
  before.filter fun idx => idx ∉ after

theorem gone_self (slots : List UInt32) : gone slots slots = [] := by
  rw [gone, List.filter_eq_nil_iff]
  intro idx hidx
  simpa using hidx

theorem gone_append {front back : List UInt32}
    (hnodup : (front ++ back).Nodup) :
    gone (front ++ back) back = front := by
  have hapart := List.disjoint_of_nodup_append hnodup
  have hfront : gone front back = front := by
    rw [gone, List.filter_eq_self]
    intro idx hidx
    simpa using hapart hidx
  have hback := gone_self back
  rw [gone] at hfront hback ⊢
  rw [List.filter_append, hfront, hback, List.append_nil]

namespace Books

variable [DecidableEq ι] {books : Books ι DepthTally size}
  {a : ι → AbstractBook}

/-- How many orders a call removes by trading: those gone from its queue. -/
def removedBy (books : Books ι DepthTally size) (slot : ι) : BookOp → ℕ
  | .trade side price qty =>
      let done := (books.apply slot (.trade side price qty)).2
      (gone ((books.book slot).queues.slots books.pool side price)
        ((done.book slot).queues.slots done.pool side price)).length
  | _ => 0

def removedOn (books : Books ι DepthTally size) (slot : ι)
    (message : ItchMessage) : ℕ :=
  match route (books.book slot) message with
  | some op => books.removedBy slot op
  | none => 0

/-- An enqueue takes a slot exactly when the price is valid and a slot
is free. -/
theorem Holds.enqueue_activeCount (hholds : books.Holds a) (slot : ι)
    (side : Side) (price : UInt32) (orderId : UInt64) (qty : UInt32) :
    (books.apply slot
      (.enqueue side price orderId qty)).2.pool.activeCount.toNat =
      books.pool.activeCount.toNat +
        if price < maxPriceLevels ∧ books.pool.freeHead ≠ nullIdx then 1
        else 0 := by
  obtain ⟨free, hfree⟩ := hholds.freeList
  have hallowed : BookOp.Allowed (books.book slot).queues books.pool
      (.enqueue side price orderId qty) := trivial
  obtain ⟨free', a', hfollows, hstep⟩ :=
    (hholds.represents slot).apply_step hfree hallowed
  have hcount := hfree.count
  have hcount' := hfollows.freeList.count
  have hpath := hfree.path
  change (((books.book slot).apply books.pool _).2.2).activeCount.toNat = _
  generalize ((books.book slot).apply books.pool
    (.enqueue side price orderId qty)).1 = ret at hstep
  generalize ((books.book slot).apply books.pool
    (.enqueue side price orderId qty)).2.1.tally =
    tally' at hstep
  cases hstep with
  | invalid hprice =>
      rw [if_neg fun hboth => UInt32.not_lt.mpr hprice hboth.1]
      omega
  | full _ hnone =>
      rw [hnone] at hpath
      rw [if_neg fun hboth => hboth.2 hpath]
      omega
  | placed hprice hidx hsome =>
      rw [hsome] at hpath hcount
      rw [List.length_cons] at hcount
      rw [if_pos ⟨hprice, hpath.1 ▸ hidx⟩]
      omega

/-- A trade frees the slots of the orders that it removes. -/
theorem Holds.trade_activeCount (hholds : books.Holds a) (slot : ι)
    (side : Side) (price qty : UInt32) :
    (books.apply slot (.trade side price qty)).2.pool.activeCount.toNat +
      books.removedBy slot (.trade side price qty) =
        books.pool.activeCount.toNat := by
  rw [removedBy]
  by_cases hprice : price < maxPriceLevels
  · obtain ⟨free, hfree, hfree', hholds', -⟩ :=
      hholds.trade slot side hprice qty
    have hbefore := (hholds.represents slot).slots_eq side price
    have hafter := (hholds'.represents slot).slots_eq side price
    rw [Function.update_self, setAt_self] at hafter
    obtain ⟨taken, hleaves, hfreed⟩ :=
      consume_leavesSuffix qty (a slot side price) free
    have hnodup := (hholds.represents slot).slots_nodup side price
    have hcount := hfree.count
    have hcount' := hfree'.count
    rw [hleaves.slots] at hbefore hnodup
    rw [hfreed, List.length_append, List.length_reverse] at hcount'
    rw [hbefore, hafter, gone_append hnodup]
    omega
  · have htrade : books.apply slot (.trade side price qty) =
        (0, ⟨Function.update books.book slot (books.book slot),
          books.pool⟩) := by
      rw [Books.apply, OrderBook.apply, OrderBook.trade,
        if_pos (UInt32.not_lt.mp hprice)]
    rw [htrade]
    dsimp only
    rw [Function.update_self, gone_self]
    rfl

end Books

/-! ## What an access does to the active count -/

namespace LFUCache

/-- How many orders an access frees: those in the book that it resets. -/
def freedBy (cache : LFUCache size) (bookId : UInt16) (symbol : Symbol) : ℕ :=
  match (cache.index.access bookId symbol).1 with
  | .miss slot =>
      ((cache.books.book slot).queues.allSlots cache.books.pool).length
  | _ => 0

theorem Sound.access_activeCount {cache : LFUCache size}
    {reference : ReferenceCache} {a : UInt32 → AbstractBook}
    (hsound : cache.Sound reference a) (bookId : UInt16) (symbol : Symbol) :
    (cache.access bookId symbol).2.books.pool.activeCount.toNat +
    cache.freedBy bookId symbol =
      cache.books.pool.activeCount.toNat := by
  rw [LFUCache.access, freedBy]
  cases hlookup : (cache.index.access bookId symbol).1 with
  | refused => rfl
  | hit slot => rfl
  | miss slot =>
      obtain ⟨free, hfree⟩ := hsound.books.holds.freeList
      obtain ⟨free', hfree'⟩ := (hsound.books.reset slot).holds.freeList
      have hlength := (hsound.books.reset_freeList hfree hfree').length_eq
      have hcount := hfree.count
      have hcount' := hfree'.count
      rw [List.length_append] at hlength
      dsimp only
      omega

end LFUCache

/-! ## Conservation -/

/-- The orders that came and went, counted beside a run. -/
structure OrderCounts where
  totalAdds : ℕ
  /-- Orders that trades removed. -/
  removed : ℕ
  /-- Orders that evictions freed. -/
  freed : ℕ

namespace Pipeline

def countOrders (state : Pipeline size) (message : ItchMessage)
    (counts : OrderCounts) :
    OrderCounts :=
  match (state.accessed message).1 with
  | none => counts
  | some slot =>
      let opened := (state.accessed message).2.books
      { totalAdds :=
          if message.type = addType then counts.totalAdds + 1
          else counts.totalAdds
        removed := counts.removed + opened.removedOn slot message
        freed := counts.freed +
          state.cache.freedBy (state.bookIdOf message) message.symbol }

/-- The active count is what came less what went. -/
def Conserved (ledger : Pipeline size × OrderCounts) : Prop :=
  (ledger.1.cache.books.pool.activeCount.toNat : ℤ) =
    ledger.2.totalAdds - ledger.2.removed - ledger.2.freed

/-- An Add finds a valid price and a free slot. -/
def Placeable (_book : MBOBookWithBIT) (pool : OrderPool size)
    (message : ItchMessage) : Prop :=
  message.type = addType →
    message.price < maxPriceLevels ∧ pool.freeHead ≠ nullIdx

/-- What a delivered message does to the active count. -/
theorem deliver_activeCount {books : Books UInt32 DepthTally size}
    {a : UInt32 → AbstractBook} (hsound : books.Sound a) (slot : UInt32)
    (message : ItchMessage) :
    (books.deliver slot message).pool.activeCount.toNat +
      books.removedOn slot message =
      books.pool.activeCount.toNat +
        if message.type = addType ∧ message.price < maxPriceLevels ∧
            books.pool.freeHead ≠ nullIdx then
          1
        else 0 := by
  rw [Books.removedOn]
  cases hroute : route (books.book slot) message with
  | none =>
      have htype : message.type ≠ addType := by
        intro hadd
        rw [route, if_pos hadd] at hroute
        simp at hroute
      rw [Books.deliver, hroute, if_neg fun hall => htype hall.1]
  | some op =>
      rw [Books.deliver_of_route hroute]
      rcases route_eq_some hroute with ⟨htype, rfl⟩ | ⟨htype, rfl⟩
      · have henqueue := hsound.holds.enqueue_activeCount slot
          (routedSide (books.book slot) message.price) message.price
          (orderIdOf message) message.qty
        simp only [htype, true_and]
        exact henqueue
      · have hnot : message.type ≠ addType := by
          rw [htype]
          exact addType_ne_tradeType.symm
        rw [if_neg fun hall => hnot hall.1]
        exact hsound.holds.trade_activeCount slot _ _ _

/-- While the orders are conserved, a message conserves them exactly when it is
placeable. -/
theorem Conserved.processMessage_iff {ledger : Pipeline size × OrderCounts}
    {a : UInt32 → AbstractBook} (hsound : ledger.1.Sound a)
    (hconserved : Conserved ledger) (message : ItchMessage) :
    Conserved (((machine size).observed countOrders).step ledger message) ↔
      Meets Placeable ledger.1 message := by
  obtain ⟨state, counts⟩ := ledger
  obtain ⟨reference, hcache⟩ := hsound
  have hprocess := state.processMessage_cache message
  have hstep : ((machine size).observed countOrders).step
      (state, counts) message =
      (state.processMessage message, state.countOrders message counts) := rfl
  have haccess := hcache.access_activeCount (state.bookIdOf message)
    message.symbol
  change (state.accessed message).2.books.pool.activeCount.toNat + _ =
    _ at haccess
  rw [hstep]
  rw [Conserved] at hconserved ⊢
  dsimp only at hconserved hcache haccess ⊢
  rw [hprocess, countOrders, Meets]
  by_cases hid : (state.bookIdOf message).toUInt32 < maxSymbols
  case neg =>
    have hrefused : state.accessed message = (none, state.cache) :=
      state.cache.access_of_ge (UInt32.not_lt.mp hid) message.symbol
    rw [hrefused]
    exact iff_of_true hconserved fun slot hslot => by simp at hslot
  obtain ⟨slot, reference', a', hslot, -, -, -, hsound'⟩ :=
    hcache.access_accepted hid message.symbol
  change (state.accessed message).1 = some slot at hslot
  change (state.accessed message).2.Sound reference' a' at hsound'
  have hdeliver := deliver_activeCount hsound'.books slot message
  generalize hopened : (state.accessed message).2.books = opened at *
  rw [hslot]
  simp only [Option.some.injEq, forall_eq', Placeable]
  by_cases hadd : message.type = addType
  · by_cases hplaced : message.price < maxPriceLevels ∧
      opened.pool.freeHead ≠ nullIdx
    · rw [if_pos ⟨hadd, hplaced⟩] at hdeliver
      refine iff_of_true ?_ fun _ => hplaced
      rw [if_pos hadd]
      omega
    · rw [if_neg fun hall => hplaced hall.2] at hdeliver
      refine iff_of_false ?_ fun hall => hplaced (hall hadd)
      rw [if_pos hadd]
      omega
  · rw [if_neg fun hall => hadd hall.1] at hdeliver
    refine iff_of_true ?_ fun hall => absurd hall hadd
    rw [if_neg hadd]
    omega

theorem countOrders_reads {state : Pipeline size} {counts : OrderCounts}
    (hreads : state.totalAdds = .ofNat counts.totalAdds)
    (message : ItchMessage) :
    (state.processMessage message).totalAdds =
      .ofNat (state.countOrders message counts).totalAdds := by
  rw [processMessage, countOrders, accessed, bookIdOf]
  dsimp only
  generalize state.cache.access _ message.symbol = accessed
  obtain ⟨_ | slot, cache⟩ := accessed
  · exact hreads
  dsimp only
  split
  · exact counter_succ hreads
  · exact hreads

/-- The state after a run, with the orders that came and went. -/
def ledgerAfter (memory : UInt32 → LFUNode) (orders : UInt32 → Order)
    (messages : List ItchMessage) : Pipeline maxOrders × OrderCounts :=
  ((machine maxOrders).observed countOrders).run
    (init memory orders, ⟨0, 0, 0⟩) messages

theorem ledgerAfter_state (memory : UInt32 → LFUNode) (orders : UInt32 → Order)
    (messages : List ItchMessage) : (ledgerAfter memory orders messages).1 =
      (machine maxOrders).run (init memory orders) messages :=
  (machine maxOrders).observed_run_fst countOrders (init memory orders)
    ⟨0, 0, 0⟩ messages

/-- In every run, `total_adds` is the number of Adds that reached a book, modulo
2^64, and the active count is that number less the orders that trades removed
and evictions freed, in all states reached, exactly when every Add
is placeable. -/
theorem orders_conserved_iff (memory : UInt32 → LFUNode)
    (orders : UInt32 → Order) (messages : List ItchMessage) :
    (ledgerAfter memory orders messages).1 =
      (machine maxOrders).run (init memory orders) messages ∧
    (ledgerAfter memory orders messages).1.totalAdds =
      .ofNat (ledgerAfter memory orders messages).2.totalAdds ∧
    ((∀ done, done <+: messages → Conserved (ledgerAfter memory orders done)) ↔
      (machine maxOrders).Each (Meets Placeable) (init memory orders)
        messages) := by
  let start : Pipeline maxOrders × OrderCounts :=
    (init memory orders, ⟨0, 0, 0⟩)
  have hlegal : ((machine maxOrders).observed countOrders).Legal
      start messages :=
    Machine.legal_of_forall (fun _ _ => trivial) _ messages
  have hsound : ∃ a, start.1.Sound a :=
    ⟨_, init_sound maxOrders_pos memory orders⟩
  refine ⟨ledgerAfter_state memory orders messages, ?_, ?_⟩
  · refine Machine.invariant (fun ledger : Pipeline maxOrders × OrderCounts =>
      ledger.1.totalAdds = .ofNat ledger.2.totalAdds) ?_ rfl hlegal
    exact fun ledger message hreads _ => countOrders_reads hreads message
  · have heach : ((machine maxOrders).observed countOrders).Each
        (fun ledger message => Meets Placeable ledger.1 message)
        start messages ↔
        (machine maxOrders).Each (Meets Placeable)
          (init memory orders) messages :=
      Machine.observed_each_iff
    rw [← heach]
    refine Machine.always_iff_each
        (fun ledger : Pipeline maxOrders × OrderCounts =>
      ∃ a, ledger.1.Sound a) Conserved _ ?_ ?_ hsound rfl hlegal
    · rintro ledger message ⟨a, hledger⟩ -
      obtain ⟨a', -, hledger'⟩ := hledger.processMessage message
      exact ⟨a', hledger'⟩
    · rintro ledger message ⟨a, hledger⟩ - hconserved
      exact hconserved.processMessage_iff hledger message

/-- An Add whose price is out of range is counted and places no order. -/
theorem refused_add_counted :
    ¬ ∀ done, done <+: [⟨addType, btcUsdt, 0, 100000, 1⟩] →
      Conserved (ledgerAfter (fun _ => default) (fun _ => default) done) := by
  intro hclaim
  have hdone := hclaim _ (List.prefix_refl _)
  have hsound : (init (fun _ => default) fun _ =>
      default : Pipeline maxOrders).Sound
      fun _ => empty := init_sound maxOrders_pos _ _
  have hstart : Conserved
      ((init (fun _ => default) fun _ => default : Pipeline maxOrders),
      ⟨0, 0, 0⟩) := rfl
  have hmeets :=
    (hstart.processMessage_iff hsound ⟨addType, btcUsdt, 0, 100000, 1⟩).mp hdone
  exact absurd ((hmeets 0 (by decide +kernel)) rfl).1 (by decide)

end Pipeline

end MarketDataPipeline
