import MarketDataPipeline.Book.BookWithBIT
import MarketDataPipeline.Book.SharedPool

/-!
# Price-time priority

At every level of every book the links, read forwards from the head and
backwards from the tail, pass exactly through the surviving orders in the order
of their arrival.  A call changes the queue of one level only.
-/

namespace MarketDataPipeline

open LinkRing AbstractBook

variable {size : UInt32} {ι T : Type*}

/-- The arrays and links of one level hold `queue`, first order first. -/
structure LevelHolds (queues : Queues) (pool : OrderPool size) (side : Side)
    (price : UInt32) (queue : List Resting) : Prop where
  forward : IsPath pool.nextIdx nullIdx (queues.head side price)
    (queue.map Resting.idx)
  backward : IsPath pool.prevIdx nullIdx (queues.tail side price)
    (queue.map Resting.idx).reverse
  head_null : queues.head side price = nullIdx ↔ queue = []
  tail_null : queues.tail side price = nullIdx ↔ queue = []
  stored : ∀ r ∈ queue, r.idx < size ∧ Stores (pool.orders r.idx) side price r

theorem Represents.levelHolds {queues : Queues} {pool : OrderPool size}
    {book : AbstractBook} (hrep : Represents queues pool book) (side : Side)
    (price : UInt32) :
    LevelHolds queues pool side price (book side price) := by
  have hring := hrep.ring side price
  have hnotMem := hring.null_notMem
  refine ⟨hrep.path side price, ?backward, ?head, ?tail, hrep.stored side price⟩
  case backward =>
    have hpath := hring.reverse.isPath
    rw [Queues.prevRing_null] at hpath
    refine hpath.congr fun idx hidx => ?_
    have hne : idx ≠ nullIdx :=
      fun heq => hnotMem (heq ▸ List.mem_reverse.mp hidx)
    exact (Queues.prevRing_of_ne queues pool side price hne).symm
  case head =>
    rw [hrep.head_eq side price]
    cases hqueue : book side price with
    | nil => simp
    | cons r rest =>
        have hne : r.idx ≠ nullIdx := hrep.ne_nullIdx (by rw [hqueue]; simp)
        simp [hne]
  case tail =>
    rw [hrep.tail_eq side price]
    rcases List.eq_nil_or_concat
      (book side price) with hqueue | ⟨rest, r, hqueue⟩
    · simp [hqueue]
    · have hne : r.idx ≠ nullIdx := hrep.ne_nullIdx (by rw [hqueue]; simp)
      simp [hqueue, hne]

namespace BookOp

/-- The level a call works on; `clear` works on all of them. -/
def level (pool : OrderPool size) : BookOp → Option (Side × UInt32)
  | .enqueue side price _ _ => some (side, price)
  | .trade side price _ => some (side, price)
  | .dequeue idx =>
      some (.ofIsBid (pool.orders idx).isBid, (pool.orders idx).price)
  | .clear => none

end BookOp

/-- A call on one level leaves the queues of all others as they were. -/
theorem Represents.apply_of_level_ne {queues : Queues} {pool : OrderPool size}
    {book : AbstractBook} (hrep : Represents queues pool book) {op : BookOp}
    (ret : UInt32) (hallowed : op.Allowed queues pool) {side s : Side}
    {price p : UInt32} (hlevel : op.level pool = some (side, price))
    (hother : ¬ (s = side ∧ p = price)) :
    book.apply op ret s p = book s p := by
  cases op with
  | enqueue side' price' orderId qty =>
      obtain ⟨rfl, rfl⟩ := Prod.mk.inj (Option.some.inj hlevel)
      rw [AbstractBook.apply]
      split
      · rfl
      · exact setAt_of_ne _ _ hother
  | trade side' price' qty =>
      obtain ⟨rfl, rfl⟩ := Prod.mk.inj (Option.some.inj hlevel)
      exact setAt_of_ne _ _ hother
  | dequeue idx =>
      obtain ⟨rfl, rfl⟩ := Prod.mk.inj (Option.some.inj hlevel)
      obtain ⟨side', price', r, hr, rfl⟩ := (hrep.rests_iff idx).mp hallowed
      have hstored := (hrep.stored side' price' r hr).2
      rw [hstored.isBid, hstored.price, Side.ofIsBid_isBid] at hother
      refine filter_ne_of_notMem fun hidx => ?_
      exact hrep.ne_of_level_ne hother hidx (List.mem_map_of_mem hr) rfl
  | clear => simp [BookOp.level] at hlevel

namespace Books

variable [DecidableEq ι]

/-- After every legal run, the intrusive lists of each book hold the surviving
orders of each level in the order of their arrival.  Whatever allowed call comes
next, the queues of all other levels and of all other books stay in place. -/
theorem queues_hold_surviving_orders (memory : UInt32 → Order)
    (calls : List (ι × BookOp))
    (hlegal : (ghostMachine ι DepthTally maxOrders).Legal
      (init .init memory, fun _ => empty) calls) :
    let state := (ghostMachine ι DepthTally maxOrders).run
      (init .init memory, fun _ => empty) calls
    (∀ i side price, LevelHolds (state.1.book i).queues state.1.pool side price
      (state.2 i side price)) ∧
    ∀ i op, op.Allowed (state.1.book i).queues state.1.pool →
      let after := (state.1.apply i op).2
      (∀ j, j ≠ i → ∀ side price,
        LevelHolds (after.book j).queues after.pool side price
          (state.2 j side price)) ∧
      ∀ level, op.level state.1.pool = some level →
        ∀ side price, (side, price) ≠ level →
        LevelHolds (after.book i).queues after.pool side price
          (state.2 i side price) := by
  intro state
  have hholds : state.1.Holds state.2 :=
    run_holds maxOrders_pos DepthTally.init memory hlegal
  refine ⟨fun i side price => (hholds.represents i).levelHolds side price, ?_⟩
  intro i op hallowed after
  have hafter := hholds.apply hallowed
  refine ⟨fun j hj side price => ?_, fun level hlevel side price hne => ?_⟩
  · have hrep := hafter.represents j
    rw [Function.update_of_ne hj] at hrep
    exact hrep.levelHolds side price
  · have hrep := hafter.represents i
    rw [Function.update_self] at hrep
    have hother : ¬ (side = level.1 ∧ price = level.2) := by
      rintro ⟨rfl, rfl⟩
      exact hne rfl
    have hsame := (hholds.represents i).apply_of_level_ne
      (state.1.apply i op).1 hallowed
      hlevel hother
    exact hsame ▸ hrep.levelHolds side price

/-- One book that enqueues a bid and an ask and trades against the bid. -/
theorem queues_hold_surviving_orders_trade :
    let state := (ghostMachine Unit DepthTally maxOrders).run
      (init .init fun _ => default, fun _ => empty)
      [((), .enqueue .bid 100 7 5), ((), .enqueue .ask 101 8 2),
        ((), .trade .bid 100 3)]
    ∀ side price, LevelHolds (state.1.book ()).queues state.1.pool side price
      (state.2 () side price) :=
  (queues_hold_surviving_orders (fun _ => default)
    [((), .enqueue .bid 100 7 5), ((), .enqueue .ask 101 8 2),
      ((), .trade .bid 100 3)]
    ⟨trivial, trivial, trivial, trivial⟩).1 ()

end Books

end MarketDataPipeline
