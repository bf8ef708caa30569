import MarketDataPipeline.Book.BookWithBIT
import MarketDataPipeline.Book.SharedPool

/-!
# The execution of a trade

A trade takes orders from the front of a queue until its quantity is used up or
the queue is empty.  The last order it meets may be filled in part.  It returns
what it took, frees the slots of the orders that are gone and touches no other
queue.
-/

namespace MarketDataPipeline

open AbstractBook

variable {size : UInt32} {ι : Type*}

namespace AbstractBook

/-- `left` is `queue` without the orders `gone` at its front, and of its first
order a positive part may be missing. -/
def LeavesSuffix (queue gone left : List Resting) : Prop :=
  queue = gone ++ left ∨ ∃ r rest qty, queue = gone ++ r :: rest ∧
    left = { r with qty := qty } :: rest ∧ 0 < qty ∧ qty < r.qty

/-- What a trade consumes is a front of the queue; it frees its slots. -/
theorem consume_leavesSuffix (qty : UInt32) (queue : List Resting)
    (free : List UInt32) :
    ∃ gone, LeavesSuffix queue gone (consume qty queue) ∧
      releaseTraded qty queue free =
        (gone.map Resting.idx).reverse ++ free := by
  induction queue generalizing qty free with
  | nil => exact ⟨[], Or.inl rfl, rfl⟩
  | cons r rest ih =>
      rw [consume, releaseTraded]
      split
      case isTrue => exact ⟨[], Or.inl rfl, rfl⟩
      case isFalse hqty =>
        split
        case isTrue =>
          obtain ⟨gone, hleaves, hfreed⟩ := ih (qty - r.qty) (r.idx :: free)
          refine ⟨r :: gone, ?_, by simp [hfreed]⟩
          rcases hleaves with hsuffix | ⟨s, back, left, hqueue, hleft⟩
          · exact Or.inl (by rw [List.cons_append, ← hsuffix])
          · exact Or.inr ⟨s, back,
              left, by rw [List.cons_append, ← hqueue], hleft⟩
        case isFalse hle =>
          have hlt := UInt32.not_le.mp hle
          have hsub := UInt32.toNat_sub_of_le _ _ (UInt32.le_of_lt hlt)
          have hltNat := UInt32.lt_iff_toNat_lt.mp hlt
          have hpos :=
            UInt32.lt_iff_toNat_lt.mp (UInt32.pos_iff_ne_zero.mpr hqty)
          rw [UInt32.toNat_zero] at hpos
          refine ⟨[], Or.inr ⟨r, rest, r.qty - qty, rfl, rfl, ?_, ?_⟩, rfl⟩
          · rw [UInt32.lt_iff_toNat_lt, hsub, UInt32.toNat_zero]
            omega
          · rw [UInt32.lt_iff_toNat_lt, hsub]
            omega

/-- A trade of more than a queue holds empties it. -/
theorem consume_eq_nil {qty : UInt32} {queue : List Resting}
    (hmore : quantity queue < qty.toNat) :
    consume qty queue = [] := by
  induction queue generalizing qty with
  | nil => rfl
  | cons r rest ih =>
      rw [quantity_cons] at hmore
      have hle : r.qty ≤ qty := by
        rw [UInt32.le_iff_toNat_le]
        omega
      have hsub := UInt32.toNat_sub_of_le _ _ hle
      rw [consume, if_pos hle]
      split
      case isTrue hzero => simp [hzero] at hmore
      case isFalse => exact ih (by omega)

end AbstractBook

namespace Books

variable [DecidableEq ι]

variable {books : Books ι DepthTally size} {a : ι → AbstractBook}

/-- What a trade does to books that hold abstract books. -/
theorem Holds.trade (hholds : books.Holds a) (i : ι) (side : Side)
    {price : UInt32} (hprice : price < maxPriceLevels) (qty : UInt32) :
    ∃ free, books.pool.FreeList free ∧
      (books.apply i (.trade side price qty)).2.pool.FreeList
        (releaseTraded qty (a i side price) free) ∧
      (books.apply i (.trade side price qty)).2.Holds
        (Function.update a i
          (setAt (a i) side price (consume qty (a i side price)))) ∧
      (books.apply i (.trade side price qty)).1.toNat =
        fill qty (a i side price) := by
  obtain ⟨free, hfree⟩ := hholds.freeList
  have hallowed : BookOp.Allowed (books.book i).queues books.pool
    (.trade side price qty) := trivial
  obtain ⟨free', a', hfollows, hstep⟩ :=
    (hholds.represents i).apply_step hfree hallowed
  refine ⟨free, hfree, ?_⟩
  have hdone : (books.apply i (.trade side price qty)).1 =
      ((books.book i).apply books.pool (.trade side price qty)).1 := rfl
  have hholds' := hholds.update hfollows
    ((books.book i).apply books.pool (.trade side price qty)).2.1.tally
  have hfree' := hfollows.freeList
  rw [hdone]
  generalize ((books.book i).apply books.pool (.trade side price qty)).1 =
    filled at hstep ⊢
  generalize ((books.book i).apply books.pool
    (.trade side price qty)).2.1.tally = tally' at hstep
  cases hstep with
  | untraded hinvalid => exact absurd hprice (UInt32.not_lt.mpr hinvalid)
  | traded _ hfilled => exact ⟨hfree', hholds', hfilled⟩

/-- The exact effect of a trade, after every legal run of calls on any number of
books.  It takes what is asked for or all there is, from the front of the queue;
what it leaves is the rest of the queue; the slots it frees are those of the
orders it took whole; no other queue of any book changes.  Its loop stops within
one round for each slot of the pool. -/
theorem trade_executes (memory : UInt32 → Order) (calls : List (ι × BookOp))
    (hlegal : (ghostMachine ι DepthTally maxOrders).Legal
      (init .init memory, fun _ => empty) calls)
    (i : ι) (side : Side) {price : UInt32} (hprice : price < maxPriceLevels)
    (qty : UInt32) :
    let before := ((ghostMachine ι DepthTally maxOrders).run
      (init .init memory, fun _ => empty) calls).1
    let done := before.apply i (.trade side price qty)
    let queue := (before.book i).queues.contents before.pool side price
    let left := (done.2.book i).queues.contents done.2.pool side price
    done.1.toNat = min qty.toNat (quantity queue) ∧
      quantity left + done.1.toNat = quantity queue ∧
      (quantity queue < qty.toNat → left = []) ∧
      (∃ gone, LeavesSuffix queue gone left ∧ ∀ idx < maxOrders,
        (before.pool.active idx = true ∧ done.2.pool.active idx = false ↔
          idx ∈ gone.map Resting.idx) ∧
        (done.2.pool.active idx = true → before.pool.active idx = true)) ∧
      (∀ j s p, ¬ (j = i ∧ s = side ∧ p = price) →
        (done.2.book j).queues.contents done.2.pool s p =
          (before.book j).queues.contents before.pool s p) ∧
      (done.1 = qty ∨ (done.2.book i).queues.head side price = nullIdx) ∧
      ∀ more, OrderBook.tradeLoop side price (maxOrders.toNat + more) qty 0
          (before.book i)
          before.pool =
        OrderBook.tradeLoop side price maxOrders.toNat qty 0 (before.book i)
          before.pool := by
  intro before done queue left
  have hholds := run_holds maxOrders_pos DepthTally.init memory hlegal
  generalize ((ghostMachine ι DepthTally maxOrders).run
    (init .init memory, fun _ => empty) calls).2 = a at hholds
  change before.Holds a at hholds
  obtain ⟨free, hfree, hfree', hholds', hfilled⟩ :=
    hholds.trade i side hprice qty
  change done.2.pool.FreeList _ at hfree'
  change done.2.Holds _ at hholds'
  have hqueue : queue = a i side price :=
    (hholds.represents i).contents_eq side price
  have hcontents : ∀ j s p, (done.2.book j).queues.contents done.2.pool s p =
      Function.update a i
        (setAt (a i) side price (consume qty (a i side price))) j s p :=
    fun j => (hholds'.represents j).contents_eq
  have hleft : left = consume qty queue := by
    rw [hqueue]
    refine (hcontents i side price).trans ?_
    rw [Function.update_self, setAt_self]
  have hreturn : done.1.toNat = min qty.toNat (quantity queue) :=
    hqueue ▸ hfilled
  have hsum : quantity left + done.1.toNat = quantity queue := by
    rw [hleft, hreturn]
    exact quantity_consume qty queue
  have hempty : quantity queue < qty.toNat → left = [] := fun hmore =>
    hleft.trans (consume_eq_nil hmore)
  refine ⟨hreturn, hsum, hempty, ?_, ?_, ?_, ?_⟩
  · obtain ⟨gone, hsuffix, hfreed⟩ := consume_leavesSuffix qty queue free
    refine ⟨gone, hleft ▸ hsuffix, fun idx hidx => ?_⟩
    rw [← hqueue, hfreed] at hfree'
    have hfreedIff := hfree.freed_iff hfree' hidx
    rwa [List.mem_reverse] at hfreedIff
  · intro j s p hother
    rw [hcontents, (hholds.represents j).contents_eq]
    by_cases hj : j = i
    · subst hj
      rw [Function.update_self, setAt_of_ne _ _ fun hlevel =>
        hother ⟨rfl, hlevel⟩]
    · rw [Function.update_of_ne hj]
  · by_cases hmore : quantity queue < qty.toNat
    · refine Or.inr ?_
      have hhead := (hholds'.represents i).head_eq side price
      rw [← hcontents] at hhead
      change _ = (left.map Resting.idx).headD nullIdx at hhead
      rwa [hempty hmore] at hhead
    · exact Or.inl (UInt32.toNat_inj.mp (by omega))
  · intro more
    have hlength := (hholds.represents i).length_le side price
    rw [List.length_map] at hlength
    exact (hholds.represents i).tradeLoop_stops hfree hlength more qty 0

/-- A trade that meets an order without quantity, takes one order whole and part
of another. -/
theorem trade_executes_partial :
    let calls : List (Unit × BookOp) :=
      [((), .enqueue .bid 100 7 0), ((), .enqueue .bid 100 8 5),
        ((), .enqueue .bid 100 9 4)]
    let before := ((ghostMachine Unit DepthTally maxOrders).run
      (init .init fun _ => default, fun _ => empty) calls).1
    (before.apply () (.trade .bid 100 6)).1.toNat =
      min 6 (quantity
        ((before.book ()).queues.contents before.pool .bid 100)) :=
  (trade_executes (fun _ => default) [((), .enqueue .bid 100 7 0),
    ((), .enqueue .bid 100 8 5),
    ((), .enqueue .bid 100 9 4)] ⟨trivial, trivial, trivial, trivial⟩ () .bid
      (by decide) 6).1

end Books

end MarketDataPipeline
