import MarketDataPipeline.Book.DepthTally
import MarketDataPipeline.Book.SharedPool

/-!
# The pool bounds what a book can hold

The slots of a book, level by level, are distinct slots of the pool.  Hence the
orders of a side are at most as many as the pool has slots, and their
quantities add up to far less than a 64-bit integer holds.
-/

namespace MarketDataPipeline

open AbstractBook

variable {size : UInt32}

namespace AbstractBook

/-- The slots on the queues of one side, price by price. -/
def sideSlots (book : AbstractBook) (side : Side) : List UInt32 :=
  (List.range maxPriceLevels.toNat).flatMap fun price =>
    (book side (.ofNat price)).map Resting.idx

def slots (book : AbstractBook) : List UInt32 :=
  book.sideSlots .bid ++ book.sideSlots .ask

theorem quantity_le (queue : List Resting) :
    quantity queue ≤ queue.length * (2 ^ 32 - 1) := by
  induction queue with
  | nil => simp
  | cons r rest ih =>
      have hqty := r.qty.toNat_lt
      rw [quantity_cons, List.length_cons]
      omega

/-- The volume of a side is bounded by the number of its orders. -/
theorem sum_volume_le (book : AbstractBook) (side : Side) :
    ∑ price ∈ Finset.range maxPriceLevels.toNat,
      book.volume side (.ofNat price) ≤
      (book.sideSlots side).length * (2 ^ 32 - 1) := by
  rw [sideSlots]
  induction maxPriceLevels.toNat with
  | zero => simp
  | succ count ih =>
      have hlevel := quantity_le (book side (.ofNat count))
      rw [Finset.sum_range_succ, List.range_succ, List.flatMap_append,
        List.length_append, add_mul, List.flatMap_singleton, List.length_map]
      exact Nat.add_le_add ih hlevel

end AbstractBook

namespace Represents

variable {queues : Queues} {pool : OrderPool size} {book : AbstractBook}

theorem mem_sideSlots (hrep : Represents queues pool book) (side : Side)
    (idx : UInt32) :
    idx ∈ book.sideSlots side ↔
      ∃ price, ∃ r ∈ book side price, r.idx = idx := by
  rw [sideSlots, List.mem_flatMap]
  constructor
  · rintro ⟨price, -, hidx⟩
    obtain ⟨r, hr, rfl⟩ := List.mem_map.mp hidx
    exact ⟨_, r, hr, rfl⟩
  · rintro ⟨price, r, hr, rfl⟩
    have hprice := hrep.priced side price (List.ne_nil_of_mem hr)
    refine ⟨price.toNat,
      List.mem_range.mpr (UInt32.lt_iff_toNat_lt.mp hprice), ?_⟩
    rw [UInt32.ofNat_toNat]
    exact List.mem_map_of_mem hr

theorem mem_slots (hrep : Represents queues pool book) (idx : UInt32) :
    idx ∈ book.slots ↔ book.Rests idx := by
  rw [slots, List.mem_append, hrep.mem_sideSlots, hrep.mem_sideSlots]
  constructor
  · rintro (hidx | hidx)
    · exact ⟨.bid, hidx⟩
    · exact ⟨.ask, hidx⟩
  · rintro ⟨side, hidx⟩
    cases side with
    | bid => exact Or.inl hidx
    | ask => exact Or.inr hidx

theorem sideSlots_nodup (hrep : Represents queues pool book) (side : Side) :
    (book.sideSlots side).Nodup := by
  rw [sideSlots, List.nodup_flatMap]
  refine ⟨fun price _ => hrep.slots_nodup side _, ?_⟩
  refine List.Pairwise.imp_of_mem ?_ List.nodup_range
  intro price price' hprice hprice' hne idx hidx hidx'
  have hlt := maxPriceLevels.toNat_lt
  rw [List.mem_range] at hprice hprice'
  refine hrep.ne_of_level_ne ?_ hidx hidx' rfl
  rintro ⟨-, heq⟩
  apply hne
  have := congrArg UInt32.toNat heq
  rwa [UInt32.toNat_ofNat', UInt32.toNat_ofNat', Nat.mod_eq_of_lt (by omega),
    Nat.mod_eq_of_lt (by omega)] at this

theorem slots_nodup_all (hrep : Represents queues pool book) :
    book.slots.Nodup := by
  refine List.nodup_append.mpr
    ⟨hrep.sideSlots_nodup .bid, hrep.sideSlots_nodup .ask, ?_⟩
  intro idx hidx idx' hidx' heq
  obtain ⟨_, r, hr, rfl⟩ := (hrep.mem_sideSlots .bid idx).mp hidx
  obtain ⟨_, r', hr', rfl⟩ := (hrep.mem_sideSlots .ask idx').mp hidx'
  exact Side.noConfusion (hrep.level_unique hr hr' heq).1

/-- The volume of a side is bounded by the capacity of the pool. -/
theorem sum_volume_le (hrep : Represents queues pool book) (side : Side) :
    ∑ price ∈ Finset.range maxPriceLevels.toNat,
      book.volume side (.ofNat price) ≤
      size.toNat * (2 ^ 32 - 1) := by
  refine (book.sum_volume_le side).trans (Nat.mul_le_mul_right _ ?_)
  refine OrderPool.length_le_of_nodup (hrep.sideSlots_nodup side)
    fun idx hidx => ?_
  obtain ⟨price, r, hr, rfl⟩ := (hrep.mem_sideSlots side idx).mp hidx
  exact (hrep.stored side price r hr).1

end Represents

end MarketDataPipeline
