import MarketDataPipeline.Book.Capacity
import MarketDataPipeline.Fenwick.Int64Range

/-!
# Volume queries are exact

The trees follow the exact volumes through every step of a book, and so do all
states that a trade passes through.  Range queries therefore return the sum of
what rests in the range, computed without overflow.
-/

namespace MarketDataPipeline

open AbstractBook DepthTally

variable {size : UInt32} {ι : Type*}

/-! ## The tally along a step -/

namespace AbstractBook

theorem Priced.setAt {book : AbstractBook} (hpriced : book.Priced) {side : Side}
    {price : UInt32} (hprice : price < maxPriceLevels) (queue : List Resting) :
    AbstractBook.Priced (setAt book side price queue) := by
  intro s p hp
  rw [volume_setAt_other]
  · exact hpriced s p hp
  · rintro ⟨-, rfl⟩
    exact UInt32.not_lt.mpr hp hprice

end AbstractBook

namespace DepthTally

variable {tally tally' : DepthTally} {book book' : AbstractBook}

theorem Tracks.countTrade (htracks : tally.Tracks book) :
    (LevelTally.countTrade tally : DepthTally).Tracks book :=
  ⟨htracks.bit, htracks.best⟩

/-- Consuming the front of a queue keeps the tally exact, order by order. -/
theorem Tracks.recordTrade {side : Side} {price : UInt32}
    (hprice : price < maxPriceLevels) {front back : List Resting} (qty : UInt32)
    (htracks : tally.Tracks book) (hpriced : book.Priced)
    (hqueue : book side price = front ++ back) :
    (AbstractBook.recordTrade side price qty front tally).Tracks
      (setAt book side price (consume qty front ++ back)) := by
  let property : AbstractBook → DepthTally → Prop :=
    fun book tally => tally.Tracks book ∧ book.Priced
  have hremove : ∀ book tally r rest, property book tally →
      book side price = r :: rest →
      property (setAt book side price rest)
        (LevelTally.remove tally side price r.qty) := by
    rintro book tally r rest ⟨htracks, hpriced⟩ hqueue
    have hpriced' : AbstractBook.Priced (setAt book side price rest) :=
      hpriced.setAt hprice rest
    have hsplit : book side price = [] ++ r :: rest := hqueue
    exact ⟨htracks.remove hprice (volume_setAt_other book _)
      (volume_removed hsplit) hpriced',
      hpriced'⟩
  have hreduce : ∀ book tally r rest qty, property book tally →
      book side price = r :: rest →
      qty < r.qty →
        property (setAt book side price ({ r with qty := r.qty - qty } :: rest))
        (LevelTally.reduce tally side price qty) := by
    rintro book tally r rest qty ⟨htracks, hpriced⟩ hqueue hlt
    exact ⟨htracks.reduce hprice (volume_setAt_other book _)
      (volume_reduced hqueue hlt),
      hpriced.setAt hprice _⟩
  have hstart : property book tally := ⟨htracks, hpriced⟩
  exact (recordTrade_preserves property hremove hreduce hstart qty hqueue).1

/-- Every step of a book keeps its tally exact. -/
theorem Tracks.step {free free' : List UInt32} {op : BookOp} {ret : UInt32}
    (htracks : tally.Tracks book) (hpriced : book.Priced)
    (hstep : Step free book tally op ret free' book' tally') :
    tally'.Tracks book' := by
  cases hstep with
  | invalid => exact htracks
  | full => exact htracks
  | @placed side price orderId qty _ _ hprice =>
      exact htracks.add hprice ⟨ret, orderId, qty⟩
  | untraded => exact htracks
  | @traded side price qty filled hprice =>
      have htraded := htracks.recordTrade hprice qty hpriced
        (List.append_nil (book side price)).symm
      rw [List.append_nil] at htraded
      exact htraded.countTrade
  | @dequeued side price r before after hprice hsplit =>
      exact htracks.remove hprice (volume_setAt_other book _)
        (volume_removed hsplit)
        (hpriced.setAt hprice _)
  | cleared => exact Tracks.clear tally

/-- The capacity of the pool keeps both trees within 64 bits. -/
theorem Tracks.withinInt64 {queues : Queues} {pool : OrderPool size}
    (hsize : size.toNat ≤ 2 ^ 31) (htracks : tally.Tracks book)
    (hrep : Represents queues pool book) (side : Side) :
    (tally.bit side).WithinInt64 := by
  refine (htracks.bit side).withinInt64 maxPriceLevels_pos
    (cells_nonneg book side) ?_
  have hvolume :=
    (hrep.sum_volume_le side).trans (Nat.mul_le_mul_right (2 ^ 32 - 1) hsize)
  have hcast : FenwickTree.total (cells book side) maxPriceLevels.toNat =
      (∑ price ∈ Finset.range maxPriceLevels.toNat,
        book.volume side (.ofNat price) : ℕ) := by
    rw [FenwickTree.total, Nat.cast_sum]
    rfl
  rw [hcast]
  omega

end DepthTally

/-! ## The queries -/

namespace AbstractBook

/-- The quantity resting on a side at the prices from `low` to `high`. -/
def volumeBetween (book : AbstractBook) (side : Side) (low high : UInt32) : ℕ :=
  ∑ price ∈ Finset.range maxPriceLevels.toNat with
      low.toNat ≤ price ∧ price ≤ high.toNat,
    book.volume side (.ofNat price)

theorem volumeBetween_self (book : AbstractBook) (side : Side) {price : UInt32}
    (hprice : price < maxPriceLevels) :
    book.volumeBetween side price price = book.volume side price := by
  have hlevels : (Finset.range maxPriceLevels.toNat).filter
      (fun p => price.toNat ≤ p ∧ p ≤ price.toNat) = {price.toNat} := by
    ext p
    have hlt := UInt32.lt_iff_toNat_lt.mp hprice
    simp only [Finset.mem_filter, Finset.mem_range, Finset.mem_singleton]
    omega
  rw [volumeBetween, hlevels, Finset.sum_singleton, UInt32.ofNat_toNat]

end AbstractBook

namespace DepthTally

variable {tally : DepthTally} {book : AbstractBook}

theorem Tracks.rangeSum_eq (htracks : tally.Tracks book) (side : Side)
    (low high : UInt32) :
    (tally.bit side).rangeSum low high = book.volumeBetween side low high := by
  rw [(htracks.bit side).rangeSum_eq maxPriceLevels_pos, volumeBetween,
    Nat.cast_sum]
  refine Finset.sum_congr ?_ fun price _ => rfl
  ext price
  simp only [Finset.mem_Ico, Finset.mem_filter, Finset.mem_range]
  omega

theorem Tracks.prefixSum_eq (htracks : tally.Tracks book) (side : Side)
    (price : UInt32) :
    (tally.bit side).prefixSum price = book.volumeBetween side 0 price := by
  rw [← htracks.rangeSum_eq, FenwickTree.rangeSum, if_neg (by simp), if_pos rfl]

end DepthTally

namespace Books

variable [DecidableEq ι] {books : Books ι DepthTally size}
  {a : ι → AbstractBook} {i : ι}

/-- The books hold the abstract books, and their tallies are exact. -/
structure Sound (books : Books ι DepthTally size) (a : ι → AbstractBook) :
    Prop where
  holds : books.Holds a
  tracks : ∀ i, (books.book i).tally.Tracks (a i)

omit [DecidableEq ι] in
theorem init_sound (hsize : 0 < size.toNat) (memory : UInt32 → Order) :
    (init .init memory : Books ι DepthTally size).Sound fun _ => empty :=
  ⟨init_holds hsize DepthTally.init memory, fun _ => init_tracks⟩

theorem Sound.apply (hsound : books.Sound a) {op : BookOp}
    (hallowed : op.Allowed (books.book i).queues books.pool) :
    (books.apply i op).2.Sound
      (Function.update a i ((a i).apply op (books.apply i op).1)) := by
  refine ⟨hsound.holds.apply hallowed, fun j => ?_⟩
  by_cases hj : j = i
  · subst hj
    obtain ⟨_, _, a', -, -, hstep⟩ := hsound.holds.apply_step hallowed
    have hrep := hsound.holds.represents j
    rw [Function.update_self,
      ← hstep.apply_eq hrep.distinct hrep.nil_of_invalid]
    exact (hsound.tracks j).step hrep.isPriced hstep
  · rw [Function.update_of_ne hj]
    simpa [Books.apply, hj] using hsound.tracks j

theorem run_sound (hsize : 0 < size.toNat) (memory : UInt32 → Order)
    {calls : List (ι × BookOp)}
    (hlegal : (ghostMachine ι DepthTally size).Legal
      (init .init memory, fun _ => empty) calls) :
    ((ghostMachine ι DepthTally size).run (init .init memory, fun _ => empty)
      calls).1.Sound
      ((ghostMachine ι DepthTally size).run (init .init memory, fun _ =>
        empty) calls).2 :=
  Machine.invariant (fun state => state.1.Sound state.2)
    (fun _ _ hsound hallowed => hsound.apply hallowed)
    (init_sound hsize memory) hlegal

omit [DecidableEq ι] in
/-- A trade stopped after any number of rounds leaves exact trees. -/
theorem Sound.tradeLoop_withinInt64 (hsize : size.toNat ≤ 2 ^ 31)
    (hsound : books.Sound a) (i : ι) (side : Side) {price : UInt32}
    (hprice : price < maxPriceLevels) (qty : UInt32) (rounds : ℕ) (s : Side) :
    ((OrderBook.tradeLoop side price rounds qty 0 (books.book i)
      books.pool).2.1.tally.bit s).WithinInt64 := by
  obtain ⟨free, hfree⟩ := hsound.holds.freeList
  have hrep := hsound.holds.represents i
  obtain ⟨hfollows, htally, -⟩ :=
    hrep.tradeLoop_spec hfree side price rounds qty 0
    (by simpa using qty.toNat_lt)
  have htracks := (hsound.tracks i).recordTrade hprice qty hrep.isPriced
    (List.take_append_drop rounds (a i side price)).symm
  rw [← htally] at htracks
  exact htracks.withinInt64 hsize hfollows.represents s

/-- After every legal run, range and prefix queries return the exact sum of the
remaining quantities in their range.  No tree leaves the 64-bit range, not even
in the middle of a trade. -/
theorem volume_queries_exact (memory : UInt32 → Order)
    (calls : List (ι × BookOp))
    (hlegal : (ghostMachine ι DepthTally maxOrders).Legal
      (init .init memory, fun _ => empty) calls) (i : ι) :
    let state := (ghostMachine ι DepthTally maxOrders).run
      (init .init memory, fun _ => empty) calls
    let book := state.1.book i
    (∀ side low high, MBOBookWithBIT.volumeRange book side low high =
      (state.2 i).volumeBetween side low high) ∧
    (∀ side price, MBOBookWithBIT.cumulativeVolume book side price =
      (state.2 i).volumeBetween side 0 price) ∧
    (∀ side, (book.tally.bit side).WithinInt64) ∧
    ∀ side price qty rounds, price < maxPriceLevels → ∀ s,
      ((OrderBook.tradeLoop side price rounds qty 0 book
        state.1.pool).2.1.tally.bit s).WithinInt64 := by
  intro state book
  have hsize : maxOrders.toNat ≤ 2 ^ 31 := by decide
  have hsound : state.1.Sound state.2 := run_sound maxOrders_pos memory hlegal
  have htracks := hsound.tracks i
  refine ⟨htracks.rangeSum_eq, htracks.prefixSum_eq, ?_, ?_⟩
  · exact htracks.withinInt64 hsize (hsound.holds.represents i)
  · intro side price qty rounds hprice s
    exact hsound.tradeLoop_withinInt64 hsize i side hprice qty rounds s

/-- One book with orders of the largest quantity and a partial fill. -/
theorem volume_queries_exact_large :
    let state := (ghostMachine Unit DepthTally maxOrders).run
      (init .init fun _ => default, fun _ => empty)
      [((), .enqueue .bid 100 7 0xFFFFFFFF),
        ((), .enqueue .bid 100 8 0xFFFFFFFF),
        ((), .trade .bid 100 3)]
    ∀ side low high, MBOBookWithBIT.volumeRange (state.1.book ())
      side low high =
      (state.2 ()).volumeBetween side low high :=
  (volume_queries_exact (fun _ => default)
    [((), .enqueue .bid 100 7 0xFFFFFFFF), ((), .enqueue .bid 100 8 0xFFFFFFFF),
      ((), .trade .bid 100 3)]
    ⟨trivial, trivial, trivial, trivial⟩ ()).1

end Books

end MarketDataPipeline
