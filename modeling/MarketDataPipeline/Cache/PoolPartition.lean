import MarketDataPipeline.Cache.LFUCache

/-!
# The cache loses no order slot

In every state the slots of the pool are divided between the free list and the
queues of the cached books.  A miss hands back the slots of the book it resets.
-/

namespace MarketDataPipeline

open LinkRing AbstractBook

variable {size : UInt32}

/-- The slots on all queues of a book, side by side and price by price. -/
def Queues.allSlots (queues : Queues) (pool : OrderPool size) : List UInt32 :=
  ((List.range maxPriceLevels.toNat).flatMap fun price =>
      queues.slots pool .bid (.ofNat price)) ++
    (List.range maxPriceLevels.toNat).flatMap fun price =>
      queues.slots pool .ask (.ofNat price)

theorem Represents.allSlots_eq {queues : Queues} {pool : OrderPool size}
    {book : AbstractBook} (hrep : Represents queues pool book) :
    queues.allSlots pool = book.slots := by
  simp only [Queues.allSlots, hrep.slots_eq]
  rfl

/-- After a reset a slot is in use when another book holds it. -/
theorem exists_rests_reset_iff (a : UInt32 → AbstractBook) (slot idx : UInt32) :
    (∃ i, (Function.update a slot AbstractBook.empty i).Rests idx) ↔
      ∃ i, i ≠ slot ∧ (a i).Rests idx := by
  constructor
  · rintro ⟨i, hrests⟩
    by_cases hi : i = slot
    · rw [hi, Function.update_self] at hrests
      exact absurd hrests (not_rests_empty idx)
    · rw [Function.update_of_ne hi] at hrests
      exact ⟨i, hi, hrests⟩
  · rintro ⟨i, hi, hrests⟩
    refine ⟨i, ?_⟩
    rwa [Function.update_of_ne hi]

/-- No slot of a book is on the free list. -/
theorem Represents.slots_append_free_nodup {queues : Queues}
    {pool : OrderPool size} {book : AbstractBook}
    (hrep : Represents queues pool book) {free : List UInt32}
    (hfree : pool.FreeList free) : (book.slots ++ free).Nodup := by
  refine List.nodup_append.mpr ⟨hrep.slots_nodup_all, hfree.nodup, ?_⟩
  rintro idx hqueued _ hfreeIdx rfl
  have hactive := hrep.active ((hrep.mem_slots idx).mp hqueued)
  rw [((hfree.mem_iff idx).mp hfreeIdx).2] at hactive
  exact Bool.noConfusion hactive

/-- Resetting a book hands its slots back to the free list, and no others. -/
theorem Books.Sound.reset_freeList {books : Books UInt32 DepthTally size}
    {a : UInt32 → AbstractBook} (hsound : books.Sound a) {slot : UInt32}
    {free free' : List UInt32} (hfree : books.pool.FreeList free)
    (hfree' : (books.reset slot).pool.FreeList free') :
    free'.Perm ((books.book slot).queues.allSlots books.pool ++ free) := by
  have hholds := hsound.holds
  have hholds' := (hsound.reset slot).holds
  have hrep := hholds.represents slot
  rw [hrep.allSlots_eq]
  have hnodup := hrep.slots_append_free_nodup hfree
  refine (List.perm_ext_iff_of_nodup hfree'.nodup hnodup).mpr fun idx => ?_
  rw [List.mem_append, hrep.mem_slots, hfree'.mem_iff, hfree.mem_iff]
  constructor
  · rintro ⟨hidx, hgone⟩
    rw [hholds'.inactive_iff hidx, exists_rests_reset_iff] at hgone
    by_cases hrests : (a slot).Rests idx
    · exact Or.inl hrests
    · refine Or.inr ⟨hidx, (hholds.inactive_iff hidx).mpr ?_⟩
      rintro ⟨i, hi⟩
      exact hgone ⟨i, fun heq => hrests (heq ▸ hi), hi⟩
  · rintro (hrests | ⟨hidx, hunused⟩)
    · have hidx := hrep.lt_size hrests
      refine ⟨hidx, (hholds'.inactive_iff hidx).mpr ?_⟩
      rw [exists_rests_reset_iff]
      rintro ⟨i, hi, hother⟩
      exact hholds.apart i slot hi idx hother hrests
    · refine ⟨hidx, (hholds'.inactive_iff hidx).mpr ?_⟩
      rw [hholds.inactive_iff hidx] at hunused
      rw [exists_rests_reset_iff]
      rintro ⟨i, -, hother⟩
      exact hunused ⟨i, hother⟩

namespace LFUCache

def queued (cache : LFUCache size) : List UInt32 :=
  (List.range maxCacheSize.toNat).flatMap fun slot =>
    (cache.books.book (.ofNat slot)).queues.allSlots cache.books.pool

namespace Sound

variable {cache : LFUCache size} {reference : ReferenceCache}
  {a : UInt32 → AbstractBook}

theorem queued_eq (hsound : cache.Sound reference a) :
    cache.queued = (List.range maxCacheSize.toNat).flatMap fun slot =>
      (a (.ofNat slot)).slots := by
  have hslots := fun slot =>
    (hsound.books.holds.represents (.ofNat slot)).allSlots_eq
  simp only [queued, hslots]

/-- The queued slots are those that rest in some book. -/
theorem mem_queued (hsound : cache.Sound reference a) (idx : UInt32) :
    idx ∈ cache.queued ↔ ∃ slot, (a slot).Rests idx := by
  rw [hsound.queued_eq, List.mem_flatMap]
  constructor
  · rintro ⟨slot, -, hidx⟩
    exact ⟨_, ((hsound.books.holds.represents _).mem_slots idx).mp hidx⟩
  · rintro ⟨slot, hrests⟩
    have hslot : slot < maxCacheSize := by
      by_contra hge
      rw [hsound.unused slot (UInt32.not_lt.mp hge)] at hrests
      exact not_rests_empty idx hrests
    refine ⟨slot.toNat, List.mem_range.mpr
      (UInt32.lt_iff_toNat_lt.mp hslot), ?_⟩
    rw [UInt32.ofNat_toNat]
    exact ((hsound.books.holds.represents slot).mem_slots idx).mpr hrests

/-- No slot is queued twice. -/
theorem queued_nodup (hsound : cache.Sound reference a) :
    cache.queued.Nodup := by
  have hholds := hsound.books.holds
  rw [hsound.queued_eq, List.nodup_flatMap]
  refine ⟨fun slot _ => (hholds.represents _).slots_nodup_all, ?_⟩
  refine List.Pairwise.imp_of_mem ?_ List.nodup_range
  intro slot slot' hslot hslot' hne idx hidx hidx'
  have hsize : maxCacheSize.toNat = 5 := rfl
  rw [List.mem_range] at hslot hslot'
  have hapart : UInt32.ofNat slot ≠ UInt32.ofNat slot' := by
    intro heq
    rw [← UInt32.toNat_inj, UInt32.toNat_ofNat', UInt32.toNat_ofNat',
      Nat.mod_eq_of_lt (by omega), Nat.mod_eq_of_lt (by omega)] at heq
    exact hne heq
  exact hholds.apart _ _ hapart idx
    (((hholds.represents _).mem_slots idx).mp hidx)
    (((hholds.represents _).mem_slots idx).mp hidx')

theorem active_iff (hsound : cache.Sound reference a) {idx : UInt32}
    (hidx : idx < size) :
    cache.books.pool.active idx = true ↔ idx ∈ cache.queued := by
  rw [hsound.books.holds.active_iff hidx, hsound.mem_queued]

/-- The free list and the queues divide the slots of the pool. -/
theorem partition (hsound : cache.Sound reference a) {free : List UInt32}
    (hfree : cache.books.pool.FreeList free) :
    (free ++ cache.queued).Perm (OrderPool.allSlots size) := by
  have hlt : ∀ idx ∈ cache.queued, idx < size := by
    intro idx hidx
    obtain ⟨slot, hrests⟩ := (hsound.mem_queued idx).mp hidx
    exact (hsound.books.holds.represents slot).lt_size hrests
  have hnodup : (free ++ cache.queued).Nodup := by
    refine List.nodup_append.mpr ⟨hfree.nodup, hsound.queued_nodup, ?_⟩
    rintro idx hfreeIdx _ hqueued rfl
    obtain ⟨hidx, hinactive⟩ := (hfree.mem_iff idx).mp hfreeIdx
    rw [(hsound.active_iff hidx).mpr hqueued] at hinactive
    exact Bool.noConfusion hinactive
  refine (List.perm_ext_iff_of_nodup hnodup (OrderPool.allSlots_nodup size)).mpr
    fun idx => ?_
  rw [List.mem_append, OrderPool.mem_allSlots, hfree.mem_iff]
  constructor
  · rintro (⟨hidx, -⟩ | hqueued)
    · exact hidx
    · exact hlt idx hqueued
  · intro hidx
    cases hactive : cache.books.pool.active idx with
    | false => exact Or.inl ⟨hidx, rfl⟩
    | true => exact Or.inr ((hsound.active_iff hidx).mp hactive)

/-- The active count is the number of queued orders. -/
theorem activeCount_eq (hsound : cache.Sound reference a) :
    cache.books.pool.activeCount.toNat = cache.queued.length := by
  obtain ⟨free, hfree⟩ := hsound.books.holds.freeList
  have hlength := (hsound.partition hfree).length_eq
  have hcount := hfree.count
  rw [List.length_append, OrderPool.allSlots_length] at hlength
  omega

end Sound

theorem access_of_miss {cache : LFUCache size} {bookId : UInt16}
    {symbol : Symbol} {slot : UInt32}
    (hmiss : (cache.index.access bookId symbol).1 = .miss slot) :
    (cache.access bookId symbol).2.books = cache.books.reset slot := by
  rw [access, hmiss]

/-- The slots of the pool, in every state of the cache.  Every queue leads from
its head through its slots to the end.  The free list leads from its head
through the slots that are on no queue, so that free list and queues divide the
slots of the pool; active are those on a queue, and the count is theirs.  An
access that misses adds to the free list the slots of the book it resets. -/
theorem pool_partition (memory : UInt32 → LFUNode) (orders : UInt32 → Order)
    (ops : List CacheOp)
    (hlegal : (machine maxOrders).Legal (init memory orders) ops) :
    let cache := (machine maxOrders).run (init memory orders) ops
    let pool := cache.books.pool
    (∀ slot side price, IsPath pool.nextIdx nullIdx
      ((cache.books.book slot).queues.head side price)
      ((cache.books.book slot).queues.slots pool side price)) ∧
    (∀ idx < maxOrders, pool.active idx = true ↔ idx ∈ cache.queued) ∧
    pool.activeCount.toNat = cache.queued.length ∧
    ∃ free, IsPath pool.nextIdx nullIdx pool.freeHead free ∧
      (free ++ cache.queued).Perm (OrderPool.allSlots maxOrders) ∧
      ∀ bookId symbol slot, (cache.index.access bookId symbol).1 = .miss slot →
        let pool' := (cache.access bookId symbol).2.books.pool
        ∃ free', IsPath pool'.nextIdx nullIdx pool'.freeHead free' ∧
          free'.Perm
            ((cache.books.book slot).queues.allSlots pool ++ free) := by
  intro cache pool
  obtain ⟨reference, a, hsound⟩ : ∃ reference a, cache.Sound reference a :=
    run_sound maxOrders_pos memory orders hlegal
  obtain ⟨free, hfree⟩ := hsound.books.holds.freeList
  refine ⟨fun slot side price => ?_, fun idx hidx => hsound.active_iff hidx,
    hsound.activeCount_eq, free, hfree.path, hsound.partition hfree, ?_⟩
  · have hrep := hsound.books.holds.represents slot
    rw [hrep.slots_eq]
    exact hrep.path side price
  · intro bookId symbol slot hmiss pool'
    have hpool : pool' = (cache.books.reset slot).pool :=
      congrArg Books.pool (access_of_miss hmiss)
    obtain ⟨free', hfree'⟩ := (hsound.books.reset slot).holds.freeList
    rw [hpool]
    exact ⟨free', hfree'.path, hsound.books.reset_freeList hfree hfree'⟩

/-- A symbol is admitted, its book takes a bid and trades part of it. -/
theorem pool_partition_trade :
    let cache :=
      (machine maxOrders).run (init (fun _ => default) fun _ => default)
      [.access 7 default, .call 0 (.enqueue .bid 100 1 5),
        .call 0 (.trade .bid 100 3)]
    cache.books.pool.activeCount.toNat = cache.queued.length :=
  (pool_partition (fun _ => default) (fun _ => default)
    [.access 7 default, .call 0 (.enqueue .bid 100 1 5),
      .call 0 (.trade .bid 100 3)]
    ⟨trivial, ⟨by decide, trivial⟩, ⟨by decide, trivial⟩, trivial⟩).2.2.1

end LFUCache

end MarketDataPipeline
