import MarketDataPipeline.Book.QueueRefinement

/-!
# Edits of the queues

Appending, removing and reducing an order, each followed on the abstract
book.  All link writes go through `setNext` and `setPrev`, which change one
link of one ring.
-/

namespace MarketDataPipeline

open LinkRing AbstractBook

variable {size : UInt32}

def Order.detached (o : Order) : Order :=
  { o with prevIdx := nullIdx, nextIdx := nullIdx }

theorem Stores.of_detached {o o' : Order} {side : Side} {price : UInt32}
    {r : Resting} (hstores : Stores o side price r)
    (hdetached : o'.detached = o.detached) :
    Stores o' side price r := by
  simp only [Order.detached, Order.mk.injEq] at hdetached
  obtain ⟨horderId, hqty, -, -, hprice, hisBid, hactive⟩ := hdetached
  exact ⟨horderId.trans hstores.orderId, hqty.trans hstores.qty,
    hprice.trans hstores.price,
    hisBid.trans hstores.isBid, hactive.trans hstores.active⟩

theorem OrderPool.active_of_detached {o o' : Order}
    (hdetached : o'.detached = o.detached) :
    o'.active = o.active := by
  simp only [Order.detached, Order.mk.injEq] at hdetached
  exact hdetached.2.2.2.2.2.2

/-- Link writes to slots in use leave the free list alone. -/
theorem OrderPool.FreeList.of_detached {pool pool' : OrderPool size}
    {free : List UInt32} (hfree : pool.FreeList free)
    (hhead : pool'.freeHead = pool.freeHead)
    (hcount : pool'.activeCount = pool.activeCount)
    (hdetached : ∀ i, (pool'.orders i).detached = (pool.orders i).detached)
    (hframe : ∀ i, pool.active i = false → pool'.orders i = pool.orders i) :
    pool'.FreeList free := by
  refine hfree.congr hhead hcount
    (fun i => OrderPool.active_of_detached (hdetached i)) ?_
  intro i hi
  rw [OrderPool.nextIdx, hframe i hi]
  rfl

namespace Queues

variable (queues : Queues) (pool : OrderPool size) (side : Side)
  (price idx link : UInt32)

theorem setNext_detached (i : UInt32) :
    ((queues.setNext pool side price idx link).2.orders i).detached =
      (pool.orders i).detached := by
  rw [setNext]
  split
  · rw [OrderPool.modify_orders]
    split <;> rfl
  · rfl

theorem setPrev_detached (i : UInt32) :
    ((queues.setPrev pool side price idx link).2.orders i).detached =
      (pool.orders i).detached := by
  rw [setPrev]
  split
  · rw [OrderPool.modify_orders]
    split <;> rfl
  · rfl

theorem setNext_orders_of_ne {i : UInt32} (hi : idx ≠ nullIdx → i ≠ idx) :
    (queues.setNext pool side price idx link).2.orders i = pool.orders i := by
  rw [setNext]
  split
  case isTrue hidx => rw [OrderPool.modify_orders, if_neg (hi hidx)]
  case isFalse => rfl

theorem setPrev_orders_of_ne {i : UInt32} (hi : idx ≠ nullIdx → i ≠ idx) :
    (queues.setPrev pool side price idx link).2.orders i = pool.orders i := by
  rw [setPrev]
  split
  case isTrue hidx => rw [OrderPool.modify_orders, if_neg (hi hidx)]
  case isFalse => rfl

/-- `setNext` writes one forward link of the ring of its level. -/
theorem setNext_nextRing :
    (queues.setNext pool side price idx link).1.nextRing
        (queues.setNext pool side price idx link).2 side price =
      Function.update (queues.nextRing pool side price) idx link := by
  funext i
  by_cases hidx : idx = nullIdx
  · subst hidx
    by_cases hi : i = nullIdx
    · subst hi
      simp [setNext]
    · simp [setNext, nextRing_of_ne, hi]
  · by_cases hi : i = nullIdx
    · subst hi
      simp [setNext, hidx, Function.update_of_ne (Ne.symm hidx)]
    · by_cases hi' : i = idx
      · subst hi'
        simp [setNext, nextRing_of_ne, OrderPool.modify_orders, hi]
      · simp [setNext, nextRing_of_ne, OrderPool.modify_orders, hi, hi', hidx]

theorem setNext_prevRing (s : Side) (p : UInt32) :
    (queues.setNext pool side price idx link).1.prevRing
        (queues.setNext pool side price idx link).2 s p =
          queues.prevRing pool s p := by
  funext i
  by_cases hi : i = nullIdx
  · subst hi
    rw [setNext]
    split <;> simp
  · rw [setNext]
    split
    · simp only [prevRing_of_ne _ _ _ _ hi, OrderPool.modify_orders]
      split <;> rfl
    · simp [prevRing_of_ne _ _ _ _ hi]

/-- `setPrev` writes one backward link of the ring of its level. -/
theorem setPrev_prevRing :
    (queues.setPrev pool side price idx link).1.prevRing
        (queues.setPrev pool side price idx link).2 side price =
      Function.update (queues.prevRing pool side price) idx link := by
  funext i
  by_cases hidx : idx = nullIdx
  · subst hidx
    by_cases hi : i = nullIdx
    · subst hi
      simp [setPrev]
    · simp [setPrev, prevRing_of_ne, hi]
  · by_cases hi : i = nullIdx
    · subst hi
      simp [setPrev, hidx, Function.update_of_ne (Ne.symm hidx)]
    · by_cases hi' : i = idx
      · subst hi'
        simp [setPrev, prevRing_of_ne, OrderPool.modify_orders, hi]
      · simp [setPrev, prevRing_of_ne, OrderPool.modify_orders, hi, hi', hidx]

theorem setPrev_nextRing (s : Side) (p : UInt32) :
    (queues.setPrev pool side price idx link).1.nextRing
        (queues.setPrev pool side price idx link).2 s p =
          queues.nextRing pool s p := by
  funext i
  by_cases hi : i = nullIdx
  · subst hi
    rw [setPrev]
    split <;> simp
  · rw [setPrev]
    split
    · simp only [nextRing_of_ne _ _ _ _ hi, OrderPool.modify_orders]
      split <;> rfl
    · simp [nextRing_of_ne _ _ _ _ hi]

/-- On another level only the slot written to can see a difference. -/
theorem setNext_nextRing_other {s : Side} {p i : UInt32}
    (hlevel : ¬ (s = side ∧ p = price)) (hi : i = nullIdx ∨ i ≠ idx) :
    (queues.setNext pool side price idx link).1.nextRing
        (queues.setNext pool side price idx link).2 s p i =
          queues.nextRing pool s p i := by
  by_cases hnull : i = nullIdx
  · subst hnull
    rw [setNext]
    split <;> simp [setAt_of_ne _ _ hlevel]
  · have hne := hi.resolve_left hnull
    rw [nextRing_of_ne _ _ _ _ hnull, nextRing_of_ne _ _ _ _ hnull,
      setNext_orders_of_ne _ _ _ _ _ _ fun _ => hne]

theorem setPrev_prevRing_other {s : Side} {p i : UInt32}
    (hlevel : ¬ (s = side ∧ p = price)) (hi : i = nullIdx ∨ i ≠ idx) :
    (queues.setPrev pool side price idx link).1.prevRing
        (queues.setPrev pool side price idx link).2 s p i =
          queues.prevRing pool s p i := by
  by_cases hnull : i = nullIdx
  · subst hnull
    rw [setPrev]
    split <;> simp [setAt_of_ne _ _ hlevel]
  · have hne := hi.resolve_left hnull
    rw [prevRing_of_ne _ _ _ _ hnull, prevRing_of_ne _ _ _ _ hnull,
      setPrev_orders_of_ne _ _ _ _ _ _ fun _ => hne]

@[simp]
theorem setNext_freeHead :
    (queues.setNext pool side price idx link).2.freeHead = pool.freeHead := by
  rw [setNext]
  split <;> rfl

@[simp]
theorem setPrev_freeHead :
    (queues.setPrev pool side price idx link).2.freeHead = pool.freeHead := by
  rw [setPrev]
  split <;> rfl

@[simp]
theorem setNext_activeCount :
    (queues.setNext pool side price idx link).2.activeCount =
      pool.activeCount := by
  rw [setNext]
  split <;> rfl

@[simp]
theorem setPrev_activeCount :
    (queues.setPrev pool side price idx link).2.activeCount =
      pool.activeCount := by
  rw [setPrev]
  split <;> rfl

end Queues

namespace AbstractBook

theorem rests_of_mem {book : AbstractBook} {side : Side} {price : UInt32}
    {r : Resting}
    (hr : r ∈ book side price) : book.Rests r.idx := ⟨side, price, r, hr, rfl⟩

theorem not_mem_of_not_rests {book : AbstractBook} {idx : UInt32}
    (hidx : ¬ book.Rests idx) (side : Side) (price : UInt32) :
    idx ∉ (book side price).map Resting.idx := by
  intro hmem
  obtain ⟨r, hr, rfl⟩ := List.mem_map.mp hmem
  exact hidx (rests_of_mem hr)

theorem rests_setAt_append (book : AbstractBook) (side : Side) (price : UInt32)
    (r : Resting) (idx : UInt32) :
    AbstractBook.Rests (setAt book side price (book side price ++ [r])) idx ↔
      idx = r.idx ∨ book.Rests idx := by
  constructor
  · rintro ⟨s, p, r', hr', rfl⟩
    by_cases hlevel : s = side ∧ p = price
    · obtain ⟨rfl, rfl⟩ := hlevel
      rw [setAt_self, List.mem_append, List.mem_singleton] at hr'
      rcases hr' with hr' | rfl
      · exact Or.inr (rests_of_mem hr')
      · exact Or.inl rfl
    · rw [setAt_of_ne _ _ hlevel] at hr'
      exact Or.inr (rests_of_mem hr')
  · rintro (rfl | ⟨s, p, r', hr', rfl⟩)
    · exact ⟨side, price, r, by simp, rfl⟩
    · by_cases hlevel : s = side ∧ p = price
      · obtain ⟨rfl, rfl⟩ := hlevel
        exact ⟨s, p, r', by simp [hr'], rfl⟩
      · exact ⟨s, p, r', by rwa [setAt_of_ne _ _ hlevel], rfl⟩

end AbstractBook

namespace Represents

variable {queues : Queues} {pool : OrderPool size} {book : AbstractBook}

/-- The tail of a level is null or a resting slot of that level. -/
theorem tail_mem_cons (hrep : Represents queues pool book) (side : Side)
    (price : UInt32) :
    queues.tail side price ∈ nullIdx :: (book side price).map Resting.idx := by
  rw [hrep.tail_eq]
  exact List.getLastD_mem_cons

/-- Members of different levels are different slots. -/
theorem ne_of_level_ne (hrep : Represents queues pool book) {side s : Side}
    {price p i j : UInt32} (hlevel : ¬ (s = side ∧ p = price))
    (hi : i ∈ (book s p).map Resting.idx)
    (hj : j ∈ (book side price).map Resting.idx) :
    i ≠ j := by
  obtain ⟨r, hr, rfl⟩ := List.mem_map.mp hi
  obtain ⟨r', hr', rfl⟩ := List.mem_map.mp hj
  intro heq
  exact hlevel (hrep.level_unique hr' hr heq.symm)

/-- What one level links is no slot of another. -/
theorem ne_of_level_ne_cons (hrep : Represents queues pool book) {side s : Side}
    {price p i j : UInt32} (hlevel : ¬ (s = side ∧ p = price))
    (hi : i ∈ nullIdx :: (book s p).map Resting.idx)
    (hj : j ∈ nullIdx :: (book side price).map Resting.idx) :
    i = nullIdx ∨ i ≠ j := by
  rcases List.mem_cons.mp hi with heq | hmem
  · exact Or.inl heq
  right
  rcases List.mem_cons.mp hj with rfl | hmem'
  · exact fun heq => (hrep.ring s p).null_notMem (heq ▸ hmem)
  · exact hrep.ne_of_level_ne hlevel hmem hmem'

/-- The rule for an edit of one level: its ring is the one of the new queue, its
orders are stored, and nothing is seen of the edit on the other levels. -/
theorem edit (hrep : Represents queues pool book) {queues' : Queues}
    {pool' : OrderPool size} {side : Side} {price : UInt32}
    {queue : List Resting} (hring : IsRing (queues'.nextRing pool' side price)
      (queues'.prevRing pool' side price)
      nullIdx (queue.map Resting.idx))
    (hnext : ∀ s p, ¬ (s = side ∧ p = price) →
      ∀ i ∈ nullIdx :: (book s p).map Resting.idx,
      queues'.nextRing pool' s p i = queues.nextRing pool s p i)
    (hprev : ∀ s p, ¬ (s = side ∧ p = price) →
      ∀ i ∈ nullIdx :: (book s p).map Resting.idx,
      queues'.prevRing pool' s p i = queues.prevRing pool s p i)
    (hstored : ∀ r ∈ queue, r.idx < size ∧
      Stores (pool'.orders r.idx) side price r)
    (hkept : ∀ s p, ¬ (s = side ∧ p = price) → ∀ r ∈ book s p,
      (pool'.orders r.idx).detached = (pool.orders r.idx).detached)
    (hprice : price < maxPriceLevels) :
    Represents queues' pool' (setAt book side price queue) where
  ring s p := by
    by_cases hlevel : s = side ∧ p = price
    · obtain ⟨rfl, rfl⟩ := hlevel
      rw [setAt_self]
      exact hring
    · rw [setAt_of_ne _ _ hlevel]
      exact (hrep.ring s p).congr (hnext s p hlevel) (hprev s p hlevel)
  stored s p r hr := by
    by_cases hlevel : s = side ∧ p = price
    · obtain ⟨rfl, rfl⟩ := hlevel
      rw [setAt_self] at hr
      exact hstored r hr
    · rw [setAt_of_ne _ _ hlevel] at hr
      obtain ⟨hlt, hold⟩ := hrep.stored s p r hr
      exact ⟨hlt, hold.of_detached (hkept s p hlevel r hr)⟩
  priced s p hne := by
    by_cases hlevel : s = side ∧ p = price
    · obtain ⟨rfl, rfl⟩ := hlevel
      exact hprice
    · rw [setAt_of_ne _ _ hlevel] at hne
      exact hrep.priced s p hne

theorem active_of_mem (hrep : Represents queues pool book) {side : Side}
    {price idx : UInt32} (hidx : idx ∈ (book side price).map Resting.idx) :
    pool.active idx = true := by
  obtain ⟨r, hr, rfl⟩ := List.mem_map.mp hidx
  exact (hrep.stored side price r hr).2.active

/-- Linking a filled slot at the tail appends its order to the level. -/
theorem link (hrep : Represents queues pool book) {side : Side} {price : UInt32}
    {r : Resting} (hidx : r.idx < size)
    (hstores : Stores (pool.orders r.idx) side price r)
    (hprevIdx : (pool.orders r.idx).prevIdx = queues.tail side price)
    (hnextIdx : (pool.orders r.idx).nextIdx = nullIdx)
    (hfresh : ¬ book.Rests r.idx) (hprice : price < maxPriceLevels) :
    let linked := queues.setNext pool side price (queues.tail side price) r.idx
    Represents { linked.1 with tail := setAt linked.1.tail side price r.idx }
      linked.2 (setAt book side price (book side price ++ [r])) := by
  intro linked
  have hnull : r.idx ≠ nullIdx := OrderPool.ne_nullIdx_of_lt hidx
  have htail := hrep.tail_mem_cons side price
  have hring := hrep.ring side price
  have hnotMem := not_mem_of_not_rests hfresh side price
  have htailNe : r.idx ≠ queues.tail side price := by
    intro heq
    exact (List.mem_cons.mp htail).elim (fun hnone => hnull (heq.trans hnone))
      fun hmem => hnotMem (heq ▸ hmem)
  have hnext : Queues.nextRing
      { linked.1 with tail := setAt linked.1.tail side price r.idx }
      linked.2 side price =
        Function.update (queues.nextRing pool side price)
          (queues.tail side price) r.idx :=
    Queues.setNext_nextRing queues pool side price
      (queues.tail side price) r.idx
  have hprevOf : ∀ s p i, i ≠ nullIdx ∨ ¬ (s = side ∧ p = price) →
      Queues.prevRing
        { linked.1 with tail := setAt linked.1.tail side price r.idx } linked.2
        s p i = queues.prevRing pool s p i := by
    intro s p i hi
    rw [← Queues.setNext_prevRing queues pool side price
      (queues.tail side price) r.idx s p]
    by_cases hinull : i = nullIdx
    · subst hinull
      rw [Queues.prevRing_null, Queues.prevRing_null]
      exact setAt_of_ne _ _ (hi.resolve_left (by simp))
    · rw [Queues.prevRing_of_ne _ _ _ _ hinull,
        Queues.prevRing_of_ne _ _ _ _ hinull]
  have hdetached : ∀ i, (linked.2.orders i).detached =
      (pool.orders i).detached :=
    Queues.setNext_detached queues pool side price
      (queues.tail side price) r.idx
  refine hrep.edit ?_ (fun s p hlevel i hi => ?_) (fun s p hlevel i _ => ?_)
    (fun r' hr' => ?_)
    (fun s p _ r' _ => hdetached r'.idx) hprice
  · rw [List.map_append]
    refine IsRing.insert (by simpa using hring) ?_ ?_ ?_ ?_ ?_ ?_ ?_
    · simpa [hnull] using hnotMem
    · rw [hnext, ← hrep.tail_eq, Function.update_self]
    · simp
    · rw [hnext, Function.update_of_ne htailNe,
        Queues.nextRing_of_ne _ _ _ _ hnull, hnextIdx]
      rfl
    · rw [hprevOf side price r.idx (Or.inl hnull),
        Queues.prevRing_of_ne _ _ _ _ hnull, hprevIdx, ← hrep.tail_eq]
    · intro i _ hne
      rw [← hrep.tail_eq] at hne
      rw [hnext, Function.update_of_ne hne]
    · intro i _ hne
      exact hprevOf side price i (Or.inl hne)
  · exact Queues.setNext_nextRing_other queues pool side price _ r.idx hlevel
      (hrep.ne_of_level_ne_cons hlevel hi htail)
  · exact hprevOf s p i (Or.inr hlevel)
  · rcases List.mem_append.mp hr' with hold | hnew
    · obtain ⟨hlt, hold⟩ := hrep.stored side price r' hold
      exact ⟨hlt, hold.of_detached (hdetached r'.idx)⟩
    · obtain rfl := List.mem_singleton.mp hnew
      exact ⟨hidx, hstores.of_detached (hdetached r'.idx)⟩

/-- Filling in and linking a fresh active slot appends its order to
the level. -/
theorem pushBack (hrep : Represents queues pool book) {side : Side}
    {price idx : UInt32} (orderId : UInt64) (qty : UInt32) (hidx : idx < size)
    (hactive : pool.active idx = true) (hfresh : ¬ book.Rests idx)
    (hprice : price < maxPriceLevels) :
    Represents (queues.pushBack pool side price orderId qty idx).1
      (queues.pushBack pool side price orderId qty idx).2
      (setAt book side price (book side price ++ [⟨idx, orderId, qty⟩])) := by
  let fill : Order → Order := fun o =>
    { o with
      orderId, qty, price, isBid := side.isBid,
      prevIdx := queues.tail side price,
      nextIdx := nullIdx }
  have hfilled : (pool.modify idx fill).orders idx = fill (pool.orders idx) :=
    (OrderPool.modify_orders pool idx fill idx).trans (if_pos rfl)
  have hrep' : Represents queues (pool.modify idx fill) book := by
    refine hrep.congr fun i hi => ?_
    rw [OrderPool.modify_orders, if_neg]
    rintro rfl
    exact hfresh hi
  refine hrep'.link (r := ⟨idx, orderId, qty⟩) hidx ?_ ?_ ?_ hfresh hprice
  · rw [hfilled]
    exact ⟨rfl, rfl, rfl, rfl, hactive⟩
  · rw [hfilled]
  · rw [hfilled]

/-- Unlinking takes one order out of its level. -/
theorem unlink (hrep : Represents queues pool book) {side : Side}
    {price : UInt32} {r : Resting} {before after : List Resting}
    (hsplit : book side price = before ++ r :: after) :
    Represents (queues.unlink pool r.idx).1 (queues.unlink pool r.idx).2
        (setAt book side price (before ++ after)) ∧
      (∀ i, ((queues.unlink pool r.idx).2.orders i).detached =
        (pool.orders i).detached) ∧
      (∀ i, i ∉ (before ++ after).map Resting.idx →
        (queues.unlink pool r.idx).2.orders i = pool.orders i) := by
  have hmem : r ∈ book side price := by simp [hsplit]
  have hsub : ∀ r' ∈ before ++ after, r' ∈ book side price :=
    fun r' => mem_of_split hsplit
  have hsubCons : ∀ i ∈ nullIdx :: (before ++ after).map Resting.idx,
      i ∈ nullIdx :: (book side price).map Resting.idx := fun i hi =>
    List.mem_cons.mpr ((List.mem_cons.mp hi).imp_right fun hmem' =>
      List.map_subset _ hsub hmem')
  have hstored := (hrep.stored side price r hmem).2
  have hnull := hrep.ne_nullIdx hmem
  have hring := hrep.ring side price
  rw [hsplit, List.map_append, List.map_cons] at hring
  let next := (pool.orders r.idx).nextIdx
  let prev := (pool.orders r.idx).prevIdx
  have hself := hring.notMem_others
  have hprevMem := hring.prev_mem_others
  have hnextMem := hring.next_mem_others
  rw [Queues.prevRing_of_ne _ _ _ _ hnull, ← List.map_append] at hprevMem
  rw [Queues.nextRing_of_ne _ _ _ _ hnull, ← List.map_append] at hnextMem
  rw [← List.map_append] at hself
  let forward := queues.setNext pool side price prev next
  -- The order itself is none of its neighbours, so the second read finds it
  -- unchanged.
  have hreread : forward.2.orders r.idx = pool.orders r.idx := by
    refine Queues.setNext_orders_of_ne queues pool side price prev
      next fun _ heq => ?_
    exact hself (heq ▸ hprevMem)
  have hunlink : queues.unlink pool r.idx =
      forward.1.setPrev forward.2 side price next prev := by
    have hside : Side.ofIsBid (pool.orders r.idx).isBid = side := by
      rw [hstored.isBid, Side.ofIsBid_isBid]
    simp only [Queues.unlink, hside, hstored.price]
    change forward.1.setPrev forward.2 side price
      (forward.2.orders r.idx).nextIdx
      (forward.2.orders r.idx).prevIdx = _
    rw [hreread]
  have hdetached : ∀ i, ((queues.unlink pool r.idx).2.orders i).detached =
      (pool.orders i).detached := by
    intro i
    rw [hunlink, Queues.setPrev_detached, Queues.setNext_detached]
  have hframe : ∀ i, i ∉ (before ++ after).map Resting.idx →
      (queues.unlink pool r.idx).2.orders i = pool.orders i := by
    intro i hi
    rw [hunlink, Queues.setPrev_orders_of_ne, Queues.setNext_orders_of_ne]
    · exact fun hne heq =>
        hi (heq ▸ (List.mem_cons.mp hprevMem).resolve_left hne)
    · exact fun hne heq =>
        hi (heq ▸ (List.mem_cons.mp hnextMem).resolve_left hne)
  have hnextRing : (queues.unlink pool r.idx).1.nextRing
      (queues.unlink pool r.idx).2 side price =
      Function.update (queues.nextRing pool side price) prev next := by
    rw [hunlink, Queues.setPrev_nextRing, Queues.setNext_nextRing]
  have hprevRing : (queues.unlink pool r.idx).1.prevRing
      (queues.unlink pool r.idx).2 side price =
      Function.update (queues.prevRing pool side price) next prev := by
    rw [hunlink, Queues.setPrev_prevRing, Queues.setNext_prevRing]
  refine ⟨hrep.edit ?_ (fun s p hlevel i hi => ?_) (fun s p hlevel i hi => ?_)
    (fun r' hr' => ?_)
    (fun s p _ r' _ => hdetached r'.idx)
      (hrep.priced side price (List.ne_nil_of_mem hmem)),
    hdetached, hframe⟩
  · rw [List.map_append, hnextRing, hprevRing]
    refine hring.remove ?_ ?_ (fun i _ hne => ?_) (fun i _ hne => ?_)
    · rw [Queues.prevRing_of_ne _ _ _ _ hnull,
        Queues.nextRing_of_ne _ _ _ _ hnull, Function.update_self]
    · rw [Queues.prevRing_of_ne _ _ _ _ hnull,
        Queues.nextRing_of_ne _ _ _ _ hnull, Function.update_self]
    · rw [Queues.prevRing_of_ne _ _ _ _ hnull] at hne
      exact Function.update_of_ne hne ..
    · rw [Queues.nextRing_of_ne _ _ _ _ hnull] at hne
      exact Function.update_of_ne hne ..
  · rw [hunlink, Queues.setPrev_nextRing]
    exact Queues.setNext_nextRing_other _ _ _ _ _ _ hlevel
      (hrep.ne_of_level_ne_cons hlevel hi (hsubCons prev hprevMem))
  · rw [hunlink, Queues.setPrev_prevRing_other _ _ _ _ _ _ hlevel
      (hrep.ne_of_level_ne_cons hlevel hi (hsubCons next hnextMem)),
        Queues.setNext_prevRing]
  · obtain ⟨hlt, hstores⟩ := hrep.stored side price r' (hsub r' hr')
    exact ⟨hlt, hstores.of_detached (hdetached r'.idx)⟩

end Represents

end MarketDataPipeline
