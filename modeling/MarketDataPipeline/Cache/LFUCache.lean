import MarketDataPipeline.Book.VolumeQueries
import MarketDataPipeline.Cache.IndexInvariant

/-!
# The LFU cache of books

`LFUCache` is the index together with the books of its slots, all drawing on
one order pool.  A miss resets the book of the slot it assigns.  `Sound` joins
the invariants of the index and of the books.
-/

namespace MarketDataPipeline

open AbstractBook LFUPolicy

variable {size : UInt32}

namespace Books

/-- `books[slot].clear(); books[slot].init(pool);` -/
def reset (books : Books UInt32 DepthTally size) (slot : UInt32) :
    Books UInt32 DepthTally size :=
  let cleared := (books.apply slot .clear).2
  { cleared with book := Function.update cleared.book slot MBOBookWithBIT.init }

variable {books : Books UInt32 DepthTally size} {a : UInt32 → AbstractBook}

theorem reset_book_self (books : Books UInt32 DepthTally size) (slot : UInt32) :
    (books.reset slot).book slot = MBOBookWithBIT.init :=
  Function.update_self ..

theorem reset_book_of_ne (books : Books UInt32 DepthTally size)
    {slot other : UInt32} (hne : other ≠ slot) :
    (books.reset slot).book other = books.book other := by
  simp [reset, apply, hne]

/-- Clearing empty queues changes nothing. -/
theorem clearLevels_init (pool : OrderPool size) (count : ℕ) :
    Queues.init.clearLevels pool count = (Queues.init, pool) := by
  have hchain : ∀ fuel, Queues.freeChain fuel nullIdx pool = pool := by
    intro fuel
    cases fuel with
    | zero => rfl
    | succ fuel => exact if_pos rfl
  have hlevel : ∀ price, Queues.init.resetLevel price = Queues.init := by
    intro price
    simp [Queues.resetLevel, Queues.init]
  induction count with
  | zero => rfl
  | succ count ih =>
      rw [Queues.clearLevels, ih, hlevel]
      simp [Queues.freeLevel, Queues.init, hchain]

/-- Resetting one of fresh books changes nothing. -/
theorem reset_init (orders : UInt32 → Order) (slot : UInt32) :
    (init .init orders : Books UInt32 DepthTally size).reset slot =
    init .init orders := by
  have hcleared : (init .init orders : Books UInt32 DepthTally size).apply
      slot .clear =
      (0, ⟨Function.update (fun _ => MBOBookWithBIT.init) slot
        ⟨.init, LevelTally.clear .init⟩, .init orders⟩) := by
    simp only [apply, init, OrderBook.apply, OrderBook.clear, clearLevels_init]
    rfl
  rw [reset, hcleared]
  dsimp only
  rw [Function.update_idem]
  exact congrArg (fun book =>
    (⟨book, .init orders⟩ : Books UInt32 DepthTally size))
    (Function.update_eq_self slot fun _ => MBOBookWithBIT.init)

/-- A reset leaves a fresh book and all others as they were. -/
theorem Sound.reset (hsound : books.Sound a) (slot : UInt32) :
    (books.reset slot).Sound (Function.update a slot empty) := by
  have hallowed : BookOp.Allowed (books.book slot).queues books.pool .clear :=
    trivial
  have hcleared : (books.apply slot .clear).2.Sound
      (Function.update a slot empty) :=
    hsound.apply hallowed
  refine ⟨⟨fun i => ?_, hcleared.holds.apart, hcleared.holds.covered,
    hcleared.holds.freeList⟩,
    fun i => ?_⟩
  · by_cases hi : i = slot
    · subst hi
      rw [reset_book_self, Function.update_self]
      exact Represents.init _
    · have hrep := hcleared.holds.represents i
      simpa [Books.reset, hi] using hrep
  · by_cases hi : i = slot
    · subst hi
      rw [reset_book_self, Function.update_self]
      exact DepthTally.init_tracks
    · rw [reset_book_of_ne _ hi, Function.update_of_ne hi]
      exact hsound.tracks i

end Books

structure LFUCache (size : UInt32) where
  index : LFUIndex
  books : Books UInt32 DepthTally size

inductive CacheOp
  | access (bookId : UInt16) (symbol : Symbol)
  | call (slot : UInt32) (op : BookOp)

namespace LFUCache

/-- The pool and the cache after their `init`, on whatever the arrays hold. -/
def init (memory : UInt32 → LFUNode) (orders : UInt32 → Order) :
    LFUCache size :=
  ⟨.init memory, .init .init orders⟩

/-- `access`, with the slot of the book it returns. -/
def access (cache : LFUCache size) (bookId : UInt16) (symbol : Symbol) :
    Option UInt32 × LFUCache size :=
  let done := cache.index.access bookId symbol
  match done.1 with
  | .refused => (none, ⟨done.2, cache.books⟩)
  | .hit slot => (some slot, ⟨done.2, cache.books⟩)
  | .miss slot => (some slot, ⟨done.2, cache.books.reset slot⟩)

def machine (size : UInt32) : Machine (LFUCache size) CacheOp where
  allowed cache
    | .access _ _ => True
    | .call slot op => slot < cache.index.cacheSize ∧
        op.Allowed (cache.books.book slot).queues cache.books.pool
  step cache
    | .access bookId symbol => (cache.access bookId symbol).2
    | .call slot op => { cache with books := (cache.books.apply slot op).2 }

/-- The index holds a reference cache and the books hold abstract books; the
slots the cache never uses stay empty. -/
structure Sound (cache : LFUCache size) (reference : ReferenceCache)
    (a : UInt32 → AbstractBook) : Prop where
  index : cache.index.Refines reference
  books : cache.books.Sound a
  unused : ∀ slot, maxCacheSize ≤ slot → a slot = empty

theorem init_sound (hsize : 0 < size.toNat) (memory : UInt32 → LFUNode)
    (orders : UInt32 → Order) :
    (init memory orders : LFUCache size).Sound Cache.empty fun _ => empty :=
  ⟨LFUIndex.init_refines memory, Books.init_sound hsize orders, fun _ _ => rfl⟩

variable {cache : LFUCache size} {reference : ReferenceCache}
  {a : UInt32 → AbstractBook}

/-- Every book that `access` returns is that of a slot of the cache. -/
theorem Sound.slot_lt (hsound : cache.Sound reference a) {bookId : UInt16}
    (symbol : Symbol) {slot : UInt32}
    (hslot : (cache.index.access bookId symbol).1.slot =
      some slot) :
    slot < maxCacheSize := by
  by_cases hid : bookId.toUInt32 < maxSymbols
  case neg =>
    rw [cache.index.access_of_ge (UInt32.not_lt.mp hid)] at hslot
    simp [Lookup.slot] at hslot
  obtain ⟨hrefines, -⟩ := hsound.index.access hid symbol
  rw [cache.index.access_slot hid, Option.some.injEq] at hslot
  have hcached := hsound.index.access_isCached hid symbol
  rw [LFUIndex.isCached_eq _ hid] at hcached
  have hpaired := hrefines.slotsPaired
  rw [← hslot]
  exact UInt32.lt_of_lt_of_le (hpaired.slot _ ⟨hid, hcached⟩).1 hpaired.size

/-- The abstract books after an access: a miss empties that of its slot. -/
def booksAfter (a : UInt32 → AbstractBook) : Lookup → UInt32 → AbstractBook
  | .miss slot => Function.update a slot empty
  | _ => a

theorem Sound.access (hsound : cache.Sound reference a) (bookId : UInt16)
    (symbol : Symbol) :
    ∃ reference', (cache.access bookId symbol).2.Sound reference'
      (booksAfter a (cache.index.access bookId symbol).1) := by
  obtain ⟨reference', hindex⟩ : ∃ reference',
      (cache.index.access bookId symbol).2.Refines reference' := by
    by_cases hid : bookId.toUInt32 < maxSymbols
    · exact ⟨_, (hsound.index.access hid symbol).1⟩
    · rw [cache.index.access_of_ge (UInt32.not_lt.mp hid)]
      exact ⟨reference, hsound.index⟩
  refine ⟨reference', ?_⟩
  rw [LFUCache.access]
  cases hlookup : (cache.index.access bookId symbol).1 with
  | refused => exact ⟨hindex, hsound.books, hsound.unused⟩
  | hit slot => exact ⟨hindex, hsound.books, hsound.unused⟩
  | miss slot =>
      refine ⟨hindex, hsound.books.reset slot, fun other hother => ?_⟩
      have hne : other ≠ slot := by
        rintro rfl
        exact UInt32.not_lt.mpr hother
          (hsound.slot_lt symbol (congrArg Lookup.slot hlookup))
      rw [booksAfter, Function.update_of_ne hne]
      exact hsound.unused other hother

theorem Sound.call (hsound : cache.Sound reference a) {slot : UInt32}
    {op : BookOp} (hslot : slot < maxCacheSize)
    (hallowed : op.Allowed (cache.books.book slot).queues cache.books.pool) :
    ({ cache with books := (cache.books.apply slot op).2 } : LFUCache
      size).Sound reference
      (Function.update a slot
        ((a slot).apply op (cache.books.apply slot op).1)) := by
  refine ⟨hsound.index, hsound.books.apply hallowed, fun other hother => ?_⟩
  have hne : other ≠ slot := by
    rintro rfl
    exact UInt32.not_lt.mpr hother hslot
  rw [Function.update_of_ne hne]
  exact hsound.unused other hother

/-- The cache is sound after every legal run. -/
theorem run_sound (hsize : 0 < size.toNat) (memory : UInt32 → LFUNode)
    (orders : UInt32 → Order) {ops : List CacheOp}
    (hlegal : (machine size).Legal (init memory orders) ops) :
    ∃ reference a, ((machine size).run (init memory orders) ops).Sound
      reference a := by
  refine Machine.invariant (fun cache => ∃ reference a,
    cache.Sound reference a) ?_
    ⟨_, _, init_sound hsize memory orders⟩ hlegal
  rintro cache op ⟨reference, a, hsound⟩ hallowed
  cases op with
  | access bookId symbol =>
      obtain ⟨reference', hsound'⟩ := hsound.access bookId symbol
      exact ⟨reference', _, hsound'⟩
  | call slot op =>
      have hslot :=
        UInt32.lt_of_lt_of_le hallowed.1 hsound.index.slotsPaired.size
      exact ⟨reference, _, hsound.call hslot hallowed.2⟩

end LFUCache

end MarketDataPipeline
