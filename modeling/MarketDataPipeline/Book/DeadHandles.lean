import MarketDataPipeline.Book.VolumeQueries

/-!
# Cancelling a dead handle

A caller keeps the slot that `enqueue` returned as the handle of its order.
`dequeue` tests only whether the slot is in use, and the pool hands a freed slot
out again at once, to any book.  A dead handle is therefore harmless exactly
until its slot is taken again.
-/

namespace MarketDataPipeline

variable {size : UInt32} {ι T : Type*}

theorem OrderPool.free_active_self (pool : OrderPool size) {idx : UInt32}
    (hidx : idx < size) :
    (pool.free idx).active idx = false := by
  rw [OrderPool.free]
  split
  case isTrue hfreed => exact hfreed.resolve_left (UInt32.not_le.mpr hidx)
  case isFalse => simp [OrderPool.active]

namespace Books

variable [DecidableEq ι] [LevelTally T] {books : Books ι T size}
  {a : ι → AbstractBook} {i : ι} {idx : UInt32}

/-- The books under callers that cancel by handle: a dequeue names no slot, an
order of its own book, or a slot that is not in use. -/
def handleMachine (ι T : Type*) [DecidableEq ι] [LevelTally T] (size : UInt32) :
    Machine (Books ι T size) (ι × BookOp) where
  allowed books call :=
    match call.2 with
    | .dequeue idx =>
        idx = nullIdx ∨ (books.book call.1).queues.Rests books.pool idx ∨
        idx < size ∧ books.pool.active idx = false
    | _ => True
  step books call := (books.apply call.1 call.2).2

/-- A slot that is not in use is not dequeued. -/
theorem apply_dequeue_of_inactive (books : Books ι T size) (i : ι)
    (hidle : idx = nullIdx ∨ books.pool.active idx = false) :
    (books.apply i (.dequeue idx)).2 = books := by
  have hdequeue : (books.book i).dequeue books.pool idx =
      (books.book i, books.pool) :=
    if_pos hidle
  simp [apply, OrderBook.apply, hdequeue]

/-- A slot in use is freed, whoever owns it. -/
theorem apply_dequeue_active (books : Books ι T size) (i : ι)
    (hidx : idx < size) (hactive : books.pool.active idx = true) :
    (books.apply i (.dequeue idx)).2.pool.active idx = false := by
  have hbusy : ¬ (idx = nullIdx ∨ books.pool.active idx = false) := by
    simp [OrderPool.ne_nullIdx_of_lt hidx, hactive]
  have hdequeue : ((books.book i).dequeue books.pool idx).2 =
      ((books.book i).queues.unlink books.pool idx).2.free idx := by
    rw [OrderBook.dequeue]
    exact congrArg Prod.snd (if_neg hbusy)
  change ((books.book i).dequeue books.pool idx).2.active idx = false
  rw [hdequeue]
  exact OrderPool.free_active_self _ hidx

/-- Such a call changes nothing, or it is a call on the caller's own orders. -/
theorem handleMachine_step_cases {call : ι × BookOp}
    (hallowed : (handleMachine ι T size).allowed books call) :
    (handleMachine ι T size).step books call = books ∨
      call.2.Allowed (books.book call.1).queues books.pool := by
  obtain ⟨i, op⟩ := call
  cases op with
  | dequeue idx =>
      rcases hallowed with hnull | hrests | ⟨-, hidle⟩
      · exact Or.inl (apply_dequeue_of_inactive books i (.inl hnull))
      · exact Or.inr hrests
      · exact Or.inl (apply_dequeue_of_inactive books i (.inr hidle))
  | enqueue => exact Or.inr trivial
  | trade => exact Or.inr trivial
  | clear => exact Or.inr trivial

/-- What the calls on the callers' own orders keep holds after every run. -/
theorem handleMachine_invariant (property : Books ι T size → Prop)
    (hcall : ∀ books i op, property books →
      op.Allowed (books.book i).queues books.pool →
      property (books.apply i op).2)
    {start : Books ι T size} (hstart : property start)
    {calls : List (ι × BookOp)}
    (hlegal : (handleMachine ι T size).Legal start calls) :
    property ((handleMachine ι T size).run start calls) := by
  refine Machine.invariant property (fun books call hproperty hallowed => ?_)
    hstart hlegal
  rcases handleMachine_step_cases hallowed with hsame | hown
  · rw [hsame]
    exact hproperty
  · exact hcall books call.1 call.2 hproperty hown

theorem handleMachine_run_holds (hsize : 0 < size.toNat) (tally : T)
    (memory : UInt32 → Order) {calls : List (ι × BookOp)}
    (hlegal : (handleMachine ι T size).Legal (init tally memory) calls) :
    ∃ a, ((handleMachine ι T size).run (init tally memory) calls).Holds a :=
  handleMachine_invariant (fun books => ∃ a, books.Holds a)
    (fun _ _ _ ⟨_, hholds⟩ hown => ⟨_, hholds.apply hown⟩)
    ⟨_, init_holds hsize tally memory⟩ hlegal

omit [DecidableEq ι] [LevelTally T] in
/-- The queues of some book lead to every slot in use. -/
theorem Holds.active_iff_rests (hholds : books.Holds a) (hidx : idx < size) :
    books.pool.active idx = true ↔
      ∃ j, (books.book j).queues.Rests books.pool idx := by
  rw [hholds.active_iff hidx]
  exact exists_congr fun j => ((hholds.represents j).rests_iff idx).symm

/-- In a legal run no order rests in a slot that is not in use. -/
theorem not_rests_of_inactive (hsize : 0 < size.toNat) (tally : T)
    (memory : UInt32 → Order) {calls : List (ι × BookOp)}
    (hlegal : (handleMachine ι T size).Legal (init tally memory) calls)
    (hidx : idx < size)
    (hidle : ((handleMachine ι T size).run (init tally memory)
      calls).pool.active idx = false)
    (j : ι) :
    ¬ (((handleMachine ι T size).run (init tally memory) calls).book
      j).queues.Rests
      ((handleMachine ι T size).run (init tally memory) calls).pool idx := by
  obtain ⟨a, hholds⟩ := handleMachine_run_holds hsize tally memory hlegal
  intro hrests
  rw [(hholds.active_iff_rests hidx).mpr ⟨j, hrests⟩] at hidle
  exact Bool.noConfusion hidle

/-- An enqueue returns a slot of the pool, or `nullIdx`. -/
theorem Holds.enqueue_lt (hholds : books.Holds a) {side : Side} {price : UInt32}
    {orderId : UInt64} {qty : UInt32}
    (hidx : (books.apply i (.enqueue side price orderId qty)).1 = idx)
    (hnull : idx ≠ nullIdx) :
    idx < size := by
  have hallowed : BookOp.Allowed (books.book i).queues books.pool
      (.enqueue side price orderId qty) := trivial
  obtain ⟨free, _, _, hfree, -, hstep⟩ := hholds.apply_step hallowed
  rw [hidx] at hstep
  generalize ((books.apply i (.enqueue side price orderId qty)).2.book
    i).tally = tally' at hstep
  cases hstep with
  | invalid => exact absurd rfl hnull
  | full => exact absurd rfl hnull
  | placed _ _ hhead => exact ((hfree.mem_iff idx).mp (by simp [hhead])).1

/-- The enqueue on book `i` after the calls `before` returned the handle `idx`,
and the order it placed has left the book in the course of `after`. -/
structure DeadHandle (start : Books ι T size) (before : List (ι × BookOp))
    (i : ι) (side : Side) (price : UInt32) (orderId : UInt64) (qty : UInt32)
    (after : List (ι × BookOp)) (idx : UInt32) : Prop where
  issued : (((handleMachine ι T size).run start before).apply i
    (.enqueue side price orderId qty)).1 = idx
  placed : idx ≠ nullIdx
  left : ∃ done, done <+: after ∧
    let books := (handleMachine ι T size).run start
      (before ++ (i, .enqueue side price orderId qty) :: done)
    ¬ (books.book i).queues.Rests books.pool idx

/-- Dequeuing a dead handle changes nothing exactly when no order, of whatever
book, rests in the slot by then. -/
theorem dead_handle_inert_iff (memory : UInt32 → Order)
    (before : List (ι × BookOp)) (i : ι) (side : Side) (price : UInt32)
    (orderId : UInt64) (qty : UInt32) (after : List (ι × BookOp)) (idx : UInt32)
    (hlegal : (handleMachine ι DepthTally maxOrders).Legal (init .init memory)
      (before ++ (i, .enqueue side price orderId qty) :: after))
    (hdead : DeadHandle (init .init memory : Books ι DepthTally maxOrders)
      before i side price
      orderId qty after idx) :
    let books := (handleMachine ι DepthTally maxOrders).run (init .init memory)
      (before ++ (i, .enqueue side price orderId qty) :: after)
    (books.apply i (.dequeue idx)).2 = books ↔
      ∀ j, ¬ (books.book j).queues.Rests books.pool idx := by
  intro books
  obtain ⟨a, hbefore⟩ :=
    handleMachine_run_holds maxOrders_pos DepthTally.init memory
    ((Machine.legal_append ..).mp hlegal).1
  obtain ⟨a', hholds⟩ :=
    handleMachine_run_holds maxOrders_pos DepthTally.init memory hlegal
  have hidx : idx < maxOrders := hbefore.enqueue_lt hdead.issued hdead.placed
  rw [← not_exists, ← hholds.active_iff_rests hidx, Bool.not_eq_true]
  constructor
  · intro hsame
    by_contra hactive
    rw [Bool.not_eq_false] at hactive
    have hfreed := apply_dequeue_active books i hidx hactive
    rw [hsame, hactive] at hfreed
    exact Bool.noConfusion hfreed
  · intro hidle
    exact apply_dequeue_of_inactive books i (.inr hidle)

/-- An order placed and filled, its slot free again. -/
theorem dead_handle_inert_iff_filled :
    let books := (handleMachine (Fin 2) DepthTally maxOrders).run
      (init .init fun _ => default) [(0, .enqueue .bid 100 7 5),
        (0, .trade .bid 100 5)]
    (books.apply 0 (.dequeue 0)).2 = books := by
  have hlegal : (handleMachine (Fin 2) DepthTally maxOrders).Legal
      (init .init fun _ => default)
      [(0, .enqueue .bid 100 7 5), (0, .trade .bid 100 5)] :=
        ⟨trivial, trivial, trivial⟩
  have hrests := not_rests_of_inactive maxOrders_pos DepthTally.init
    (fun _ => default) hlegal
    (by decide : (0 : UInt32) < maxOrders) (by decide +kernel)
  exact (dead_handle_inert_iff (fun _ => default) [] 0 .bid 100 7 5
    [(0, .trade .bid 100 5)] 0
    hlegal ⟨by decide +kernel, by decide, [(0,
      .trade .bid 100 5)], by simp, hrests 0⟩).mpr hrests

/-- The slot of a filled order of book 0 is given to an order of book 1; the
old handle then cancels that order from book 0. -/
theorem dead_handle_frees_other_order :
    DeadHandle (init .init fun _ =>
      default : Books (Fin 2) DepthTally maxOrders) [] 0 .bid 100 7 5
      [(0, .trade .bid 100 5), (1, .enqueue .bid 200 8 9)] 0 ∧
    let books := (handleMachine (Fin 2) DepthTally maxOrders).run
      (init .init fun _ => default)
      [(0, .enqueue .bid 100 7 5), (0, .trade .bid 100 5),
        (1, .enqueue .bid 200 8 9)]
    (books.book 1).queues.Rests books.pool 0 ∧
      (books.apply 0 (.dequeue 0)).2 ≠ books := by
  have hlegal : (handleMachine (Fin 2) DepthTally maxOrders).Legal
      (init .init fun _ => default)
      [(0, .enqueue .bid 100 7 5), (0, .trade .bid 100 5)] :=
        ⟨trivial, trivial, trivial⟩
  have hrests := not_rests_of_inactive maxOrders_pos DepthTally.init
    (fun _ => default) hlegal
    (by decide : (0 : UInt32) < maxOrders) (by decide +kernel) 0
  refine ⟨⟨by decide +kernel, by decide, [(0,
    .trade .bid 100 5)], by simp, hrests⟩,
    ⟨.bid, 200, by decide, by decide +kernel⟩, fun hsame => ?_⟩
  have hfreed := congrArg (fun books => books.pool.active 0) hsame
  revert hfreed
  decide +kernel

end Books

end MarketDataPipeline
