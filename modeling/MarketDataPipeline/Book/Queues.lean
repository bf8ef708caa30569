import MarketDataPipeline.Book.OrderPool

/-!
# The order queues of a book

`MBOBook` and `MBOBookWithBIT` hold the same intrusive queues: per side and
price a head and a tail, with the links in the shared order pool.  The code
they share is here once.  An array `bid_x` / `ask_x` of the source is one
array `x` indexed by side and price.
-/

namespace MarketDataPipeline

open LinkRing

def maxPriceLevels : UInt32 := 100000

def invalidPrice : UInt32 := 0xFFFFFFFF

inductive Side
  | bid
  | ask
  deriving DecidableEq, Repr

namespace Side

/-- The value of `Order::is_bid` on this side. -/
def isBid : Side → Bool
  | bid => true
  | ask => false

/-- The side an order's `is_bid` selects. -/
def ofIsBid (isBid : Bool) : Side := if isBid then bid else ask

def opposite : Side → Side
  | bid => ask
  | ask => bid

@[simp]
theorem ofIsBid_isBid (side : Side) : ofIsBid side.isBid = side := by
  cases side <;> rfl

theorem isBid_injective : Function.Injective isBid := by
  intro left right heq
  rw [← ofIsBid_isBid left, heq, ofIsBid_isBid]

end Side

/-- Assignment to one entry of an array indexed by side and price. -/
def setAt {α : Type*} (array : Side → UInt32 → α) (side : Side) (price : UInt32)
    (value : α) :
    Side → UInt32 → α :=
  fun s p => if s = side ∧ p = price then value else array s p

@[simp]
theorem setAt_self {α : Type*} (array : Side → UInt32 → α) (side : Side)
    (price : UInt32)
    (value : α) : setAt array side price value side price = value :=
  if_pos ⟨rfl, rfl⟩

theorem setAt_of_ne {α : Type*} (array : Side → UInt32 → α) {side s : Side}
    {price p : UInt32} (value : α) (hne : ¬ (s = side ∧ p = price)) :
    setAt array side price value s p = array s p := if_neg hne

@[simp]
theorem setAt_setAt {α : Type*} (array : Side → UInt32 → α) (side : Side)
    (price : UInt32) (value later : α) :
    setAt (setAt array side price value) side price later =
      setAt array side price later := by
  funext s p
  simp only [setAt]
  split <;> rfl

theorem setAt_eq_self {α : Type*} (array : Side → UInt32 → α) (side : Side)
    (price : UInt32) {value : α} (hvalue : value = array side price) :
    setAt array side price value = array := by
  funext s p
  simp only [setAt]
  split
  case isTrue heq => rw [hvalue, heq.1, heq.2]
  case isFalse => rfl

/-- `bid_head`, `bid_tail`, `ask_head` and `ask_tail`. -/
structure Queues where
  head : Side → UInt32 → UInt32
  tail : Side → UInt32 → UInt32

namespace Queues

variable {size : UInt32}

def init : Queues := ⟨fun _ _ => nullIdx, fun _ _ => nullIdx⟩

/-- `if (idx != NULL_IDX) (*pool)[idx].next_idx = link; else head[price] =
link`: the order `idx`, or the head of the level when there is none, links to
`link`. -/
def setNext (queues : Queues) (pool : OrderPool size) (side : Side)
    (price idx link : UInt32) :
    Queues × OrderPool size :=
  if idx ≠ nullIdx then
    (queues, pool.modify idx fun o => { o with nextIdx := link })
  else ({ queues with head := setAt queues.head side price link }, pool)

/-- The same for `prev_idx` and the tail of the level. -/
def setPrev (queues : Queues) (pool : OrderPool size) (side : Side)
    (price idx link : UInt32) :
    Queues × OrderPool size :=
  if idx ≠ nullIdx then
    (queues, pool.modify idx fun o => { o with prevIdx := link })
  else ({ queues with tail := setAt queues.tail side price link }, pool)

/-- Filling in the allocated order and linking it at the tail of its level, as
`enqueue_bid` and `enqueue_ask` do. -/
def pushBack (queues : Queues) (pool : OrderPool size) (side : Side)
    (price : UInt32) (orderId : UInt64)
    (qty idx : UInt32) : Queues × OrderPool size :=
  let tail := queues.tail side price
  let filled := pool.modify idx fun o =>
    { o with
      orderId, qty, price, isBid := side.isBid, prevIdx := tail,
      nextIdx := nullIdx }
  let linked := queues.setNext filled side price tail idx
  ({ linked.1 with tail := setAt linked.1.tail side price idx }, linked.2)

/-- The start of both enqueue functions: the price check, the allocation and
the linking.  `nullIdx` reports that nothing was placed. -/
def place (queues : Queues) (pool : OrderPool size) (side : Side)
    (price : UInt32) (orderId : UInt64)
    (qty : UInt32) : UInt32 × Queues × OrderPool size :=
  if price ≥ maxPriceLevels then (nullIdx, queues, pool)
  else
    let allocated := pool.alloc
    if allocated.1 = nullIdx then (nullIdx, queues, allocated.2)
    else (allocated.1, queues.pushBack allocated.2 side price orderId
      qty allocated.1)

/-- Unlinking an order: its neighbours, or the head and tail of its level, skip
it.  The source reads the order through a reference, so the second half sees
what the first wrote. -/
def unlink (queues : Queues) (pool : OrderPool size) (idx : UInt32) :
    Queues × OrderPool size :=
  let o := pool.orders idx
  let forward :=
    queues.setNext pool (.ofIsBid o.isBid) o.price o.prevIdx o.nextIdx
  let o' := forward.2.orders idx
  forward.1.setPrev forward.2 (.ofIsBid o.isBid) o.price o'.nextIdx o'.prevIdx

/-- Unlinking an order and freeing its slot, as `dequeue` does. -/
def remove (queues : Queues) (pool : OrderPool size) (idx : UInt32) :
    Queues × OrderPool size :=
  let unlinked := queues.unlink pool idx
  (unlinked.1, unlinked.2.free idx)

/-- The `while (idx != NULL_IDX)` loop of `clear`: free the rest of a queue. -/
def freeChain : ℕ → UInt32 → OrderPool size → OrderPool size
  | 0, _, pool => pool
  | fuel + 1, idx, pool =>
      if idx = nullIdx then pool
      else freeChain fuel (pool.orders idx).nextIdx (pool.free idx)

/-- Freeing the orders of both sides at one price. -/
def freeLevel (queues : Queues) (pool : OrderPool size) (price : UInt32) :
    OrderPool size :=
  freeChain size.toNat (queues.head .ask price)
    (freeChain size.toNat (queues.head .bid price) pool)

def resetLevel (queues : Queues) (price : UInt32) : Queues where
  head side p := if p = price then nullIdx else queues.head side p
  tail side p := if p = price then nullIdx else queues.tail side p

/-- The first `count` rounds of the loop of `MBOBookWithBIT::clear`: free the
orders of a price, then forget its queues. -/
def clearLevels (queues : Queues) (pool : OrderPool size) :
    ℕ → Queues × OrderPool size
  | 0 => (queues, pool)
  | count + 1 =>
      let cleared := queues.clearLevels pool count
      (cleared.1.resetLevel (.ofNat count), cleared.1.freeLevel cleared.2
        (.ofNat count))

/-- The slots of a level from head to tail. -/
def slots (queues : Queues) (pool : OrderPool size) (side : Side)
    (price : UInt32) :
    List UInt32 :=
  walk pool.nextIdx nullIdx size.toNat (queues.head side price)

/-- The order in slot `idx` rests in the book: its slot lies on a queue. -/
def Rests (queues : Queues) (pool : OrderPool size) (idx : UInt32) : Prop :=
  ∃ side price, price < maxPriceLevels ∧ idx ∈ queues.slots pool side price

end Queues

/-! ## The abstract book -/

/-- An order as its owner knows it: the slot returned for it, its id and what
is left of its quantity. -/
structure Resting where
  idx : UInt32
  orderId : UInt64
  qty : UInt32
  deriving DecidableEq

/-- The orders of a level from head to tail, as the pool stores them. -/
def Queues.contents {size : UInt32} (queues : Queues) (pool : OrderPool size)
    (side : Side) (price : UInt32) : List Resting :=
  (queues.slots pool side price).map fun idx =>
    ⟨idx, (pool.orders idx).orderId, (pool.orders idx).qty⟩

/-- What the book is for: per side and price the surviving orders in the order
in which they arrived. -/
abbrev AbstractBook := Side → UInt32 → List Resting

namespace AbstractBook

def empty : AbstractBook := fun _ _ => []

def Rests (book : AbstractBook) (idx : UInt32) : Prop :=
  ∃ side price, ∃ r ∈ book side price, r.idx = idx

theorem not_rests_empty (idx : UInt32) : ¬ empty.Rests idx := by
  rintro ⟨side, price, r, hr, -⟩
  exact List.not_mem_nil hr

def quantity (queue : List Resting) : ℕ := (queue.map fun r => r.qty.toNat).sum

def volume (book : AbstractBook) (side : Side) (price : UInt32) : ℕ :=
  quantity (book side price)

/-- A queue after a trade took `qty` from its front. -/
def consume : UInt32 → List Resting → List Resting
  | _, [] => []
  | qty, r :: rest =>
      if qty = 0 then r :: rest
      else if r.qty ≤ qty then consume (qty - r.qty) rest
      else { r with qty := r.qty - qty } :: rest

@[simp]
theorem quantity_nil : quantity [] = 0 := rfl

@[simp]
theorem quantity_cons (r : Resting) (queue : List Resting) :
    quantity (r :: queue) = r.qty.toNat + quantity queue := by
  simp [quantity]

@[simp]
theorem quantity_append (front back : List Resting) :
    quantity (front ++ back) = quantity front + quantity back := by
  simp [quantity]

end AbstractBook

/-- The quantity resting at a level, as the links and the pool have it. -/
def Queues.volume {size : UInt32} (queues : Queues) (pool : OrderPool size)
    (side : Side) (price : UInt32) : ℕ :=
  AbstractBook.quantity (queues.contents pool side price)

end MarketDataPipeline
