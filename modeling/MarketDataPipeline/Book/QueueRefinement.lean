import MarketDataPipeline.Book.Queues

/-!
# The intrusive queues refine the abstract book

`Represents` ties the level arrays and the pool to an abstract book: at every
level the links form a ring through exactly the resting orders.  Each edit of
the queues is followed on the abstract lists, together with a frame: slots
that are in use elsewhere keep their contents.
-/

namespace MarketDataPipeline

open LinkRing AbstractBook

variable {size : UInt32}

namespace Queues

/-- The forward links of one level; the sentinel's is the head. -/
def nextRing (queues : Queues) (pool : OrderPool size) (side : Side)
    (price : UInt32) :
    UInt32 → UInt32 :=
  Function.update pool.nextIdx nullIdx (queues.head side price)

/-- The backward links of one level; the sentinel's is the tail. -/
def prevRing (queues : Queues) (pool : OrderPool size) (side : Side)
    (price : UInt32) :
    UInt32 → UInt32 :=
  Function.update pool.prevIdx nullIdx (queues.tail side price)

@[simp]
theorem nextRing_null (queues : Queues) (pool : OrderPool size) (side : Side)
    (price : UInt32) :
    queues.nextRing pool side price nullIdx = queues.head side price :=
  Function.update_self ..

@[simp]
theorem prevRing_null (queues : Queues) (pool : OrderPool size) (side : Side)
    (price : UInt32) :
    queues.prevRing pool side price nullIdx = queues.tail side price :=
  Function.update_self ..

theorem nextRing_of_ne (queues : Queues) (pool : OrderPool size) (side : Side)
    (price : UInt32) {idx : UInt32} (hidx : idx ≠ nullIdx) :
    queues.nextRing pool side price idx = (pool.orders idx).nextIdx :=
  Function.update_of_ne hidx ..

theorem prevRing_of_ne (queues : Queues) (pool : OrderPool size) (side : Side)
    (price : UInt32) {idx : UInt32} (hidx : idx ≠ nullIdx) :
    queues.prevRing pool side price idx = (pool.orders idx).prevIdx :=
  Function.update_of_ne hidx ..

end Queues

/-- The order `o` stores the resting order `r` at its level. -/
structure Stores (o : Order) (side : Side) (price : UInt32) (r : Resting) :
    Prop where
  orderId : o.orderId = r.orderId
  qty : o.qty = r.qty
  price : o.price = price
  isBid : o.isBid = side.isBid
  active : o.active = true

/-- The queues and the pool hold exactly the orders of `book`. -/
structure Represents (queues : Queues) (pool : OrderPool size)
    (book : AbstractBook) : Prop where
  ring : ∀ side price, IsRing (queues.nextRing pool side price)
    (queues.prevRing pool side price) nullIdx
    ((book side price).map Resting.idx)
  stored : ∀ side price, ∀ r ∈ book side price,
    r.idx < size ∧ Stores (pool.orders r.idx) side price r
  priced : ∀ side price, book side price ≠ [] → price < maxPriceLevels

/-- A slot in use that does not rest in `book`. -/
def Foreign (pool : OrderPool size) (book : AbstractBook) (idx : UInt32) :
    Prop :=
  pool.active idx = true ∧ ¬ book.Rests idx

/-- A step on one book leaves the slots of all others alone. -/
structure Local (pool : OrderPool size) (book : AbstractBook)
    (pool' : OrderPool size) (book' : AbstractBook) : Prop where
  frame : ∀ idx, Foreign pool book idx → pool'.orders idx = pool.orders idx
  foreign_iff : ∀ idx, Foreign pool' book' idx ↔ Foreign pool book idx

theorem Local.refl (pool : OrderPool size) (book : AbstractBook) :
    Local pool book pool book :=
  ⟨fun _ _ => rfl, fun _ => Iff.rfl⟩

theorem Local.trans {pool pool' pool'' : OrderPool size}
    {book book' book'' : AbstractBook} (hfirst : Local pool book pool' book')
    (hsecond : Local pool' book' pool'' book'') :
    Local pool book pool'' book'' where
  frame idx hidx := by
    rw [hsecond.frame idx ((hfirst.foreign_iff idx).mpr hidx),
      hfirst.frame idx hidx]
  foreign_iff idx := (hsecond.foreign_iff idx).trans (hfirst.foreign_iff idx)

namespace Represents

variable {queues queues' : Queues} {pool pool' : OrderPool size}
  {book : AbstractBook}

theorem init (pool : OrderPool size) :
    Represents Queues.init pool AbstractBook.empty where
  ring side price := by
    change IsRing _ _ nullIdx []
    rw [isRing_nil_iff]
    exact ⟨Queues.nextRing_null .., Queues.prevRing_null ..⟩
  stored side price r hr := by simp [AbstractBook.empty] at hr
  priced side price hne := absurd rfl hne

/-- A resting slot tells its level. -/
theorem level_unique (hrep : Represents queues pool book) {side side' : Side}
    {price price' : UInt32} {r r' : Resting} (hr : r ∈ book side price)
    (hr' : r' ∈ book side' price') (hidx : r.idx = r'.idx) :
    side' = side ∧ price' = price := by
  have hleft := (hrep.stored side price r hr).2
  have hright := (hrep.stored side' price' r' hr').2
  rw [hidx] at hleft
  refine ⟨Side.isBid_injective ?_, ?_⟩
  · rw [← hright.isBid, hleft.isBid]
  · rw [← hright.price, hleft.price]

theorem ne_nullIdx (hrep : Represents queues pool book) {side : Side}
    {price : UInt32} {r : Resting}
    (hr : r ∈ book side price) : r.idx ≠ nullIdx :=
  OrderPool.ne_nullIdx_of_lt (hrep.stored side price r hr).1

theorem active (hrep : Represents queues pool book) {idx : UInt32}
    (hidx : book.Rests idx) :
    pool.active idx = true := by
  obtain ⟨side, price, r, hr, rfl⟩ := hidx
  exact (hrep.stored side price r hr).2.active

/-- No order rests in a slot that is not in use. -/
theorem not_rests (hrep : Represents queues pool book) {idx : UInt32}
    (hinactive : pool.active idx = false) : ¬ book.Rests idx := by
  intro hrests
  rw [hrep.active hrests] at hinactive
  exact Bool.noConfusion hinactive

theorem lt_size (hrep : Represents queues pool book) {idx : UInt32}
    (hidx : book.Rests idx) :
    idx < size := by
  obtain ⟨side, price, r, hr, rfl⟩ := hidx
  exact (hrep.stored side price r hr).1

theorem slots_nodup (hrep : Represents queues pool book) (side : Side)
    (price : UInt32) :
    ((book side price).map Resting.idx).Nodup :=
  (List.nodup_cons.mp (hrep.ring side price).nodup).2

/-- The links lead from the head of a level through its orders. -/
theorem path (hrep : Represents queues pool book) (side : Side)
    (price : UInt32) :
    IsPath pool.nextIdx nullIdx (queues.head side price)
      ((book side price).map Resting.idx) := by
  have hring := hrep.ring side price
  have hpath := hring.isPath
  rw [Queues.nextRing_null] at hpath
  refine hpath.congr fun idx hidx => ?_
  have hne : idx ≠ nullIdx := fun heq => hring.null_notMem (heq ▸ hidx)
  exact (Queues.nextRing_of_ne queues pool side price hne).symm

theorem length_le (hrep : Represents queues pool book) (side : Side)
    (price : UInt32) :
    ((book side price).map Resting.idx).length ≤ size.toNat := by
  refine OrderPool.length_le_of_nodup (hrep.slots_nodup side price)
    fun idx hidx => ?_
  obtain ⟨r, hr, rfl⟩ := List.mem_map.mp hidx
  exact (hrep.stored side price r hr).1

/-- Walking from the head meets the slots of the resting orders in order. -/
theorem slots_eq (hrep : Represents queues pool book) (side : Side)
    (price : UInt32) :
    queues.slots pool side price = (book side price).map Resting.idx :=
  (hrep.path side price).walk_eq (hrep.length_le side price)

theorem contents_eq (hrep : Represents queues pool book) (side : Side)
    (price : UInt32) :
    queues.contents pool side price = book side price := by
  rw [Queues.contents, hrep.slots_eq, List.map_map]
  refine (List.map_congr_left fun r hr => ?_).trans (List.map_id _)
  have hstored := (hrep.stored side price r hr).2
  simp only [Function.comp_apply, hstored.orderId, hstored.qty, id]

theorem contents_eq_book (hrep : Represents queues pool book) :
    queues.contents pool = book := by
  funext side price
  exact hrep.contents_eq side price

theorem volume_eq (hrep : Represents queues pool book) (side : Side)
    (price : UInt32) :
    queues.volume pool side price = book.volume side price := by
  rw [Queues.volume, hrep.contents_eq, AbstractBook.volume]

theorem rests_iff (hrep : Represents queues pool book) (idx : UInt32) :
    queues.Rests pool idx ↔ book.Rests idx := by
  constructor
  · rintro ⟨side, price, -, hidx⟩
    rw [hrep.slots_eq] at hidx
    obtain ⟨r, hr, rfl⟩ := List.mem_map.mp hidx
    exact ⟨side, price, r, hr, rfl⟩
  · rintro ⟨side, price, r, hr, rfl⟩
    refine ⟨side, price, hrep.priced side price (List.ne_nil_of_mem hr), ?_⟩
    rw [hrep.slots_eq]
    exact List.mem_map.mpr ⟨r, hr, rfl⟩

/-- The head is null exactly when the level is empty. -/
theorem head_eq (hrep : Represents queues pool book) (side : Side)
    (price : UInt32) :
    queues.head side price =
      ((book side price).map Resting.idx).headD nullIdx := by
  rw [← (hrep.ring side price).next_null, Queues.nextRing_null]

/-- The head of a level is the first order of its queue. -/
theorem head_of_cons (hrep : Represents queues pool book) {side : Side}
    {price : UInt32} {r : Resting} {rest : List Resting}
    (hqueue : book side price = r :: rest) :
    queues.head side price = r.idx ∧ r.idx ≠ nullIdx ∧
      Stores (pool.orders r.idx) side price r := by
  have hhead := hrep.head_eq side price
  have hmem : r ∈ book side price := by simp [hqueue]
  rw [hqueue] at hhead
  exact ⟨hhead, hrep.ne_nullIdx hmem, (hrep.stored side price r hmem).2⟩

theorem tail_eq (hrep : Represents queues pool book) (side : Side)
    (price : UInt32) :
    queues.tail side price =
      ((book side price).map Resting.idx).getLastD nullIdx := by
  rw [← (hrep.ring side price).prev_null, Queues.prevRing_null]

/-- A pool that agrees on the resting slots holds the same book. -/
theorem congr (hrep : Represents queues pool book)
    (horders : ∀ idx, book.Rests idx → pool'.orders idx = pool.orders idx) :
    Represents queues pool' book where
  ring side price := by
    have hrests : ∀ idx ∈ (book side price).map Resting.idx,
        book.Rests idx := by
      intro idx hidx
      obtain ⟨r, hr, rfl⟩ := List.mem_map.mp hidx
      exact ⟨side, price, r, hr, rfl⟩
    have hring := hrep.ring side price
    refine hring.congr (fun idx hidx => ?_) (fun idx hidx => ?_)
    all_goals
      rcases List.mem_cons.mp hidx with rfl | hidx
      · simp
      · have hne : idx ≠ nullIdx := fun heq => hring.null_notMem (heq ▸ hidx)
        simp [Queues.nextRing_of_ne, Queues.prevRing_of_ne, hne,
          horders idx (hrests idx hidx)]
  stored side price r hr := by
    rw [horders r.idx ⟨side, price, r, hr, rfl⟩]
    exact hrep.stored side price r hr
  priced := hrep.priced

/-- Another book's step leaves this book's representation alone. -/
theorem of_local {other other' : AbstractBook}
    (hrep : Represents queues pool book)
    (hlocal : Local pool other pool' other')
    (hdisjoint : ∀ idx, book.Rests idx → ¬ other.Rests idx) :
    Represents queues pool' book :=
  hrep.congr fun idx hidx =>
    hlocal.frame idx ⟨hrep.active hidx, hdisjoint idx hidx⟩

end Represents

end MarketDataPipeline
