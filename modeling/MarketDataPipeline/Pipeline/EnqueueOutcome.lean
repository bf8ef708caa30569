import MarketDataPipeline.Pipeline.BookRuns

/-!
# An enqueue places an order or changes nothing

Both failures of an enqueue are found before anything is written: the price is
checked first, and an exhausted pool allocates nothing.  A successful enqueue
puts a slot that no book had at the tail of one queue.
-/

namespace MarketDataPipeline

open AbstractBook

variable {size : UInt32} {ι T : Type*} [LevelTally T]

/-- The slot is the tail of one level of book `i`, and on no other queue. -/
structure PlacedAtTail (books : Books ι T size) (i : ι) (side : Side)
    (price idx : UInt32) :
    Prop where
  tail : (books.book i).queues.tail side price = idx
  last : ((books.book i).queues.slots books.pool side price).getLast? = some idx
  only : ∀ j s p, idx ∈ (books.book j).queues.slots books.pool s p ↔
    j = i ∧ s = side ∧ p = price

/-- An order rests in each slot of a queue. -/
theorem AbstractBook.rests_of_mem_slots {book : AbstractBook} {side : Side}
    {price idx : UInt32}
    (hmem : idx ∈ (book side price).map Resting.idx) : book.Rests idx := by
  obtain ⟨r, hr, hidx⟩ := List.mem_map.mp hmem
  exact ⟨side, price, r, hr, hidx⟩

namespace Books

variable [DecidableEq ι] {books : Books ι T size} {a : ι → AbstractBook} {i : ι}
  {side : Side} {price : UInt32}

/-- A refused order leaves the books and the pool as they were. -/
theorem apply_enqueue_refused {orderId : UInt64} {qty : UInt32}
    (hplace : (books.book i).queues.place books.pool side price orderId qty =
      (nullIdx, (books.book i).queues, books.pool)) :
    books.apply i (.enqueue side price orderId qty) = (nullIdx, books) := by
  have henqueue : (books.book i).enqueue books.pool side price orderId qty =
      (nullIdx, books.book i, books.pool) := by
    rw [OrderBook.enqueue, hplace]
    exact if_pos rfl
  simp [apply, OrderBook.apply, henqueue]

/-- An order is refused where its price is invalid or the pool is full. -/
theorem Holds.enqueue_refused (hholds : books.Holds a)
    (hrefused : maxPriceLevels ≤ price ∨ ∀ idx < size,
      books.pool.active idx = true)
    (i : ι) (side : Side) (orderId : UInt64) (qty : UInt32) :
    books.apply i (.enqueue side price orderId qty) = (nullIdx, books) := by
  rcases hrefused with hprice | hfull
  · exact apply_enqueue_refused (Queues.place_of_ge hprice orderId qty)
  · obtain ⟨free, hfree⟩ := hholds.freeList
    have hnil : free = [] := hfree.eq_nil_iff.mpr hfull
    exact apply_enqueue_refused
      (Queues.place_full (hnil ▸ hfree) side price orderId qty)

/-- An order that is placed makes the book and the pool those of
the placement. -/
theorem apply_enqueue_placed {orderId : UInt64} {qty idx : UInt32}
    (hidx : ((books.book i).queues.place books.pool side price orderId qty).1 =
      idx)
    (hne : idx ≠ nullIdx) :
    let placed := (books.book i).queues.place books.pool side price orderId qty
    books.apply i (.enqueue side price orderId qty) =
      (idx, ⟨Function.update books.book i
      ⟨placed.2.1, LevelTally.add (books.book i).tally side price qty⟩,
        placed.2.2⟩) := by
  intro placed
  have henqueue : (books.book i).enqueue books.pool side price orderId qty =
      (idx, ⟨placed.2.1, LevelTally.add (books.book i).tally side price qty⟩,
        placed.2.2) := by
    rw [OrderBook.enqueue, if_neg (hidx ▸ hne), hidx]
  simp only [Books.apply, OrderBook.apply, henqueue]

omit [LevelTally T] in
/-- An order behind a queue of book `i`, in a slot where none rested before. -/
theorem Holds.placedAtTail {later : Books ι T size} {r : Resting}
    (hafter : later.Holds
      (Function.update a i (setAt (a i) side price (a i side price ++ [r]))))
    (hunused : ∀ j, ¬ (a j).Rests r.idx) :
    PlacedAtTail later i side price r.idx := by
  refine ⟨?_, ?_, fun j s p => ?_⟩
  · rw [(hafter.represents i).tail_eq, Function.update_self, setAt_self,
      List.map_append, List.map_singleton, List.getLastD_concat]
  · rw [(hafter.represents i).slots_eq, Function.update_self, setAt_self,
      List.map_append, List.map_singleton, List.getLast?_concat]
  · rw [(hafter.represents j).slots_eq]
    by_cases hj : j = i
    · subst hj
      rw [Function.update_self]
      by_cases hlevel : s = side ∧ p = price
      · obtain ⟨rfl, rfl⟩ := hlevel
        simp
      · rw [setAt_of_ne _ _ hlevel]
        exact iff_of_false (fun hmem => hunused j (rests_of_mem_slots hmem))
          fun hall => hlevel hall.2
    · rw [Function.update_of_ne hj]
      exact iff_of_false (fun hmem => hunused j (rests_of_mem_slots hmem))
        fun hall => hj hall.1

/-- Otherwise the order gets a slot that no queue had, at the tail of its
level. -/
theorem Holds.enqueue_placed (hholds : books.Holds a)
    (hprice : price < maxPriceLevels)
    (hroom : ∃ idx < size, books.pool.active idx = false) (i : ι) (side : Side)
    (orderId : UInt64) (qty : UInt32) :
    let done := books.apply i (.enqueue side price orderId qty)
    done.1 ≠ nullIdx ∧
      (∀ j s p, done.1 ∉ (books.book j).queues.slots books.pool s p) ∧
      PlacedAtTail done.2 i side price done.1 := by
  intro done
  obtain ⟨free, hfree⟩ := hholds.freeList
  obtain ⟨idle, hidle⟩ := hroom
  obtain ⟨idx, rest, rfl⟩ := List.exists_cons_of_ne_nil
    (List.ne_nil_of_mem ((hfree.mem_iff idle).mpr hidle))
  obtain ⟨hidx, hfollows⟩ :=
    (hholds.represents i).place hfree side hprice orderId qty
  obtain ⟨hlt, hinactive⟩ := (hfree.mem_iff idx).mp (by simp)
  have hne := OrderPool.ne_nullIdx_of_lt hlt
  have hunused : ∀ j, ¬ (a j).Rests idx :=
    fun j => (hholds.represents j).not_rests hinactive
  have hafter :=
    hholds.update hfollows (LevelTally.add (books.book i).tally side price qty)
  have hdone : done = _ := apply_enqueue_placed hidx hne
  rw [hdone]
  refine ⟨hne, fun j s p hmem => ?_, hafter.placedAtTail hunused⟩
  rw [(hholds.represents j).slots_eq] at hmem
  exact hunused j (rests_of_mem_slots hmem)

end Books

namespace Pipeline

/-- In every reachable state, an enqueue on a book returns `nullIdx` exactly
when its price is invalid or all slots of the pool are in use.  Then nothing has
changed; otherwise the slot it returns was on no queue of any book and is now
the tail of the level it names, and on no other queue. -/
theorem enqueue_places_or_refuses (state : Pipeline maxOrders)
    (hreachable : state.Reachable) (slot : UInt32) (side : Side)
    (price : UInt32) (orderId : UInt64) (qty : UInt32) :
    let books := state.cache.books
    let done := books.apply slot (.enqueue side price orderId qty)
    (done.1 = nullIdx ↔
      maxPriceLevels ≤ price ∨
        ∀ idx < maxOrders, books.pool.active idx = true) ∧
    (done.1 = nullIdx → done.2 = books) ∧
    (done.1 ≠ nullIdx →
      (∀ other s p, done.1 ∉ (books.book other).queues.slots books.pool s p) ∧
        PlacedAtTail done.2 slot side price done.1) := by
  intro books done
  obtain ⟨a, ⟨_, hcache⟩, -⟩ := hreachable.quoted maxOrders_pos
  have hholds : books.Holds a := hcache.books.holds
  by_cases hrefused : maxPriceLevels ≤ price ∨
    ∀ idx < maxOrders, books.pool.active idx = true
  · have hdone : done = (nullIdx, books) :=
      hholds.enqueue_refused hrefused slot side orderId qty
    rw [hdone]
    exact ⟨iff_of_true rfl hrefused, fun _ => rfl, fun hne => absurd rfl hne⟩
  · have hroom : price < maxPriceLevels ∧
      ∃ idx < maxOrders, books.pool.active idx = false := by
      simpa using hrefused
    obtain ⟨hne, hunused, hplaced⟩ :=
      hholds.enqueue_placed hroom.1 hroom.2 slot side orderId qty
    exact ⟨iff_of_false hne hrefused, fun hnull => absurd hnull hne,
      fun _ => ⟨hunused, hplaced⟩⟩

/-- Beside the first resting order there is room for a second one, but not at a
price without a level. -/
theorem enqueue_places_or_refuses_second :
    let books := (stateAfter [⟨addType, btcUsdt, 1, 100, 5⟩]).cache.books
    let done := books.apply 0 (.enqueue .bid 100 7 9)
    PlacedAtTail done.2 0 .bid 100 done.1 ∧
      books.apply 0 (.enqueue .bid 100000 8 9) = (nullIdx, books) := by
  intro books done
  have hreachable := stateAfter_reachable [⟨addType, btcUsdt, 1, 100, 5⟩]
  obtain ⟨-, hbooks⟩ :=
    stateAfter_serves [⟨addType, btcUsdt, 1, 100, 5⟩] (by simp) (by simp)
  have hidle : books.pool.active 1 = false := by
    change (stateAfter [⟨addType, btcUsdt, 1, 100, 5⟩]).cache.books.pool.active
      1 = false
    rw [hbooks]
    decide +kernel
  obtain ⟨hnull, -, hplaced⟩ :=
    enqueue_places_or_refuses _ hreachable 0 .bid 100 7 9
  obtain ⟨hinvalid, hsame, -⟩ :=
    enqueue_places_or_refuses _ hreachable 0 .bid 100000 8 9
  refine ⟨(hplaced fun hdone => ?_).2, ?_⟩
  · rcases hnull.mp hdone with hprice | hfull
    · revert hprice
      decide
    · exact absurd ((hfull 1 (by decide)).symm.trans hidle) (by decide)
  · have hrefused := hinvalid.mpr (Or.inl (by decide))
    exact Prod.ext hrefused (hsame hrefused)

end Pipeline

end MarketDataPipeline
