import MarketDataPipeline.Pipeline.HotLoop

/-!
# What one message does

A message is refused by the cache, or it reaches the book of one slot: the book
its symbol had, or a fresh one.  All other books stay as they are.  The results
on runs of the hot loop rest on this case analysis.
-/

namespace MarketDataPipeline

open AbstractBook LFUPolicy

variable {size : UInt32}

/-! ## Accessing -/

namespace LFUCache

variable {cache : LFUCache size} {reference : ReferenceCache}
  {a : UInt32 → AbstractBook}

theorem access_index (cache : LFUCache size) (bookId : UInt16)
    (symbol : Symbol) :
    (cache.access bookId symbol).2.index =
      (cache.index.access bookId symbol).2 := by
  rw [access]
  split <;> rfl

theorem access_of_ge (cache : LFUCache size) {bookId : UInt16}
    (hid : maxSymbols ≤ bookId.toUInt32) (symbol : Symbol) :
    cache.access bookId symbol = (none, cache) := by
  rw [access, cache.index.access_of_ge hid]

/-- What an access that is not refused leads to. -/
inductive Reached (cache : LFUCache size) (a : UInt32 → AbstractBook)
    (bookId : UInt16) (slot : UInt32) :
    Books UInt32 DepthTally size → (UInt32 → AbstractBook) → Prop
  | kept (hcached : cache.index.isCached bookId = true)
      (hslot : cache.index.bookToSlot bookId.toUInt32 = slot) :
      Reached cache a bookId slot cache.books a
  | fresh (hcached : cache.index.isCached bookId = false) :
      Reached cache a bookId slot (cache.books.reset slot)
        (Function.update a slot empty)

theorem Reached.books_of_ne {bookId : UInt16} {slot other : UInt32}
    {books : Books UInt32 DepthTally size} {a' : UInt32 → AbstractBook}
    (hreached : cache.Reached a bookId slot books a') (hne : other ≠ slot) :
    books.book other = cache.books.book other ∧ a' other = a other := by
  cases hreached with
  | kept => exact ⟨rfl, rfl⟩
  | fresh => exact ⟨Books.reset_book_of_ne _ hne, Function.update_of_ne hne ..⟩

/-- An access that is not refused returns the book of a slot, which is the slot
of the symbol from then on. -/
theorem Sound.access_accepted (hsound : cache.Sound reference a)
    {bookId : UInt16} (hid : bookId.toUInt32 < maxSymbols) (symbol : Symbol) :
    ∃ slot reference' a', (cache.access bookId symbol).1 = some slot ∧
      slot < maxCacheSize ∧
      (cache.access bookId symbol).2.index.bookToSlot bookId.toUInt32 = slot ∧
      cache.Reached a bookId slot (cache.access bookId symbol).2.books a' ∧
      (cache.access bookId symbol).2.Sound reference' a' := by
  obtain ⟨reference', hsound'⟩ := hsound.access bookId symbol
  have hhit := cache.index.access_hit_iff hid symbol
  have hslot := cache.index.access_slot hid symbol
  have hanswers := (hsound.index.access hid symbol).2
  rw [access_index]
  cases hlookup : (cache.index.access bookId symbol).1 with
  | refused =>
      rw [hlookup] at hslot
      simp [Lookup.slot] at hslot
  | hit slot =>
      have haccess : cache.access bookId symbol =
          (some slot, ⟨(cache.index.access bookId symbol).2, cache.books⟩) := by
        rw [LFUCache.access, hlookup]
      rw [hlookup, Lookup.slot, Option.some.injEq] at hslot
      rw [haccess, hlookup] at hsound'
      have hcached := hhit.mp ⟨slot, hlookup⟩
      have hold : cache.index.bookToSlot bookId.toUInt32 = slot := by
        rw [hlookup] at hanswers
        generalize (reference.access bookId).1 = outcome at hanswers
        cases hanswers
        rfl
      rw [haccess]
      exact ⟨slot, reference', a, rfl,
        hsound.slot_lt symbol (congrArg Lookup.slot hlookup),
        hslot.symm, Reached.kept hcached hold, hsound'⟩
  | miss slot =>
      have haccess : cache.access bookId symbol =
          (some slot, ⟨(cache.index.access bookId symbol).2,
            cache.books.reset slot⟩) := by
        rw [LFUCache.access, hlookup]
      rw [hlookup, Lookup.slot, Option.some.injEq] at hslot
      rw [haccess, hlookup] at hsound'
      have hcached : cache.index.isCached bookId = false := by
        rw [← Bool.not_eq_true, ← hhit, hlookup]
        simp
      rw [haccess]
      exact ⟨slot, reference', _, rfl,
        hsound.slot_lt symbol (congrArg Lookup.slot hlookup),
        hslot.symm, Reached.fresh hcached, hsound'⟩

end LFUCache

/-! ## Delivering -/

/-- A message is routed to an enqueue or a trade. -/
theorem route_eq_some {book : MBOBookWithBIT} {message : ItchMessage}
    {op : BookOp} (hroute : route book message = some op) :
    (message.type = addType ∧ op = .enqueue (routedSide book message.price)
      message.price
      (orderIdOf message) message.qty) ∨
    (message.type = tradeType ∧
      op = .trade (routedSide book message.price) message.price
        message.qty) := by
  rw [route] at hroute
  split at hroute
  case isTrue hadd => exact Or.inl ⟨hadd, (Option.some.inj hroute).symm⟩
  case isFalse =>
    split at hroute
    case isTrue htrade => exact Or.inr ⟨htrade, (Option.some.inj hroute).symm⟩
    case isFalse => simp at hroute

theorem route_allowed {book : MBOBookWithBIT} {message : ItchMessage}
    {op : BookOp} (hroute : route book message = some op) (queues : Queues)
    (pool : OrderPool size) :
    op.Allowed queues pool := by
  rcases route_eq_some hroute with ⟨-, rfl⟩ | ⟨-, rfl⟩ <;> trivial

/-- The tally of a book decides how it routes. -/
theorem route_congr {book other : MBOBookWithBIT}
    (htally : other.tally = book.tally)
    (message : ItchMessage) : route other message = route book message := by
  cases book
  cases other
  dsimp only at htally
  subst htally
  rfl

namespace Books

variable {ι : Type*} [DecidableEq ι] {books : Books ι DepthTally size}
  {a : ι → AbstractBook}

theorem deliver_book_of_ne (books : Books ι DepthTally size) {slot other : ι}
    (hne : other ≠ slot) (message : ItchMessage) :
    (books.deliver slot message).book other = books.book other := by
  rw [deliver]
  split
  · exact Function.update_of_ne hne ..
  · rfl

theorem deliver_of_route {slot : ι} {message : ItchMessage} {op : BookOp}
    (hroute : route (books.book slot) message = some op) :
    books.deliver slot message = (books.apply slot op).2 := by
  rw [deliver, hroute]

/-- A delivered message is at most one step of the book it is delivered to. -/
inductive Delivered (books : Books ι DepthTally size)
    (a : ι → AbstractBook) (slot : ι)
    (message : ItchMessage) : Books ι DepthTally size → AbstractBook → Prop
  | ignored (hroute : route (books.book slot) message = none) :
      Delivered books a slot message books (a slot)
  | step {op : BookOp} {free free' : List UInt32} {book' : AbstractBook}
      (hroute : route (books.book slot) message = some op)
      (hfree : books.pool.FreeList free)
      (hstep : Step free (a slot) (books.book slot).tally op
        (books.apply slot op).1 free' book'
        ((books.apply slot op).2.book slot).tally) :
      Delivered books a slot message (books.apply slot op).2 book'

theorem Sound.deliver (hsound : books.Sound a) (slot : ι)
    (message : ItchMessage) :
    ∃ book', Delivered books a slot message (books.deliver slot message) book' ∧
      (books.deliver slot message).Sound (Function.update a slot book') := by
  rw [Books.deliver]
  cases hroute : route (books.book slot) message with
  | none =>
      refine ⟨a slot, Delivered.ignored hroute, ?_⟩
      rwa [Function.update_eq_self]
  | some op =>
      have hallowed := route_allowed hroute (books.book slot).queues books.pool
      obtain ⟨free, free', book', hfree, -, hstep⟩ :=
        hsound.holds.apply_step hallowed
      have hrep := hsound.holds.represents slot
      refine ⟨book', Delivered.step hroute hfree hstep, ?_⟩
      rw [hstep.apply_eq hrep.distinct hrep.nil_of_invalid]
      exact hsound.apply hallowed

end Books

/-! ## Processing -/

namespace Pipeline

def bookIdOf (state : Pipeline size) (message : ItchMessage) : UInt16 :=
  (state.trie.getOrCreate message.symbol).bookId

/-- The cache once the symbol of a message was accessed. -/
def accessed (state : Pipeline size) (message : ItchMessage) :
    Option UInt32 × LFUCache size :=
  state.cache.access (state.bookIdOf message) message.symbol

theorem processMessage_cache (state : Pipeline size) (message : ItchMessage) :
    (state.processMessage message).cache =
      match (state.accessed message).1 with
      | none => (state.accessed message).2
      | some slot =>
          { (state.accessed message).2 with
            books := (state.accessed message).2.books.deliver slot
              message } := by
  rw [processMessage, accessed, bookIdOf]
  dsimp only
  generalize state.cache.access _ _ = done
  rcases done with ⟨_ | slot, cache⟩ <;> rfl

theorem processMessage_index (state : Pipeline size) (message : ItchMessage) :
    (state.processMessage message).cache.index =
      (state.cache.index.access (state.bookIdOf message) message.symbol).2 := by
  rw [processMessage_cache, ← LFUCache.access_index, ← accessed]
  split <;> rfl

/-- The cache returns a book exactly for the ids that it has nodes for. -/
theorem accessed_isSome_iff (state : Pipeline size) (message : ItchMessage) :
    (∃ slot, (state.accessed message).1 = some slot) ↔
      (state.bookIdOf message).toUInt32 < maxSymbols := by
  constructor
  · rintro ⟨slot, hslot⟩
    by_contra hid
    rw [accessed, state.cache.access_of_ge (UInt32.not_lt.mp hid)] at hslot
    simp at hslot
  · intro hid
    have hlookup := state.cache.index.access_slot hid message.symbol
    rw [accessed, LFUCache.access]
    cases hfound :
      (state.cache.index.access (state.bookIdOf message) message.symbol).1 with
    | refused =>
        rw [hfound] at hlookup
        simp [Lookup.slot] at hlookup
    | hit slot => exact ⟨slot, rfl⟩
    | miss slot => exact ⟨slot, rfl⟩

theorem processMessage_trie (state : Pipeline size) (message : ItchMessage) :
    (state.processMessage message).trie =
      (state.trie.getOrCreate message.symbol).trie := by
  rw [processMessage]
  split <;> rfl

/-- A message of a cached symbol goes to the book of its slot. -/
theorem processMessage_of_cached {state : Pipeline size} {message : ItchMessage}
    (hcached : state.cache.index.isCached (state.bookIdOf message) = true) :
    (state.processMessage message).cache =
      ⟨{ state.cache.index with
         hits := state.cache.index.hits + 1 }.updateFrequency
          (state.bookIdOf message),
        state.cache.books.deliver
          (state.cache.index.bookToSlot (state.bookIdOf message).toUInt32)
          message⟩ := by
  rw [processMessage_cache, accessed, LFUCache.access,
    LFUIndex.access_of_isCached hcached]

/-- The caches that the loop can be in. -/
def Sound (state : Pipeline size) (a : UInt32 → AbstractBook) : Prop :=
  ∃ reference, state.cache.Sound reference a

theorem init_sound (hsize : 0 < size.toNat) (memory : UInt32 → LFUNode)
    (orders : UInt32 → Order) :
    (init memory orders : Pipeline size).Sound fun _ => empty :=
  ⟨_, LFUCache.init_sound hsize memory orders⟩

inductive Processed (state : Pipeline size) (a : UInt32 → AbstractBook)
    (message : ItchMessage) :
    LFUCache size → (UInt32 → AbstractBook) → Prop
  | refused (hid : maxSymbols ≤ (state.bookIdOf message).toUInt32) :
      Processed state a message state.cache a
  | delivered {slot : UInt32} {opened : Books UInt32 DepthTally size}
      {a' : UInt32 → AbstractBook} {index : LFUIndex} {book' : AbstractBook}
      (hid : (state.bookIdOf message).toUInt32 < maxSymbols)
      (hfound : (state.accessed message).1 = some slot)
      (hindex : index =
        (state.cache.index.access (state.bookIdOf message) message.symbol).2)
      (hslot : index.bookToSlot (state.bookIdOf message).toUInt32 = slot)
      (hopened : (state.accessed message).2.books = opened)
      (hreached : state.cache.Reached a (state.bookIdOf message) slot opened a')
      (hsound : opened.Sound a')
      (hdelivered : opened.Delivered a' slot message
        (opened.deliver slot message) book') :
      Processed state a message ⟨index, opened.deliver slot message⟩
        (Function.update a' slot book')

theorem Sound.processMessage {state : Pipeline size} {a : UInt32 → AbstractBook}
    (hsound : state.Sound a) (message : ItchMessage) :
    ∃ a', state.Processed a message (state.processMessage message).cache a' ∧
      (state.processMessage message).Sound a' := by
  obtain ⟨reference, hcache⟩ := hsound
  have hprocess := state.processMessage_cache message
  by_cases hid : (state.bookIdOf message).toUInt32 < maxSymbols
  case neg =>
    have hrefused : state.accessed message = (none, state.cache) :=
      state.cache.access_of_ge (UInt32.not_lt.mp hid) message.symbol
    rw [hrefused] at hprocess
    dsimp only at hprocess
    refine ⟨a, ?_, reference, ?_⟩
    · rw [hprocess]
      exact Processed.refused (UInt32.not_lt.mp hid)
    · rwa [hprocess]
  obtain ⟨slot, reference', a', hsome, hlt, hslot, hreached, hsound'⟩ :=
    hcache.access_accepted hid message.symbol
  change (state.accessed message).1 = some slot at hsome
  rw [hsome] at hprocess
  dsimp only at hprocess
  have hindex := state.cache.access_index (state.bookIdOf message)
    message.symbol
  obtain ⟨book', hdelivered, hbooks⟩ := hsound'.books.deliver slot message
  refine ⟨Function.update a' slot book', ?_, reference', ?_⟩
  · rw [hprocess]
    exact Processed.delivered hid hsome hindex hslot rfl hreached
      hsound'.books hdelivered
  · rw [hprocess]
    refine ⟨hsound'.index, hbooks, fun other hother => ?_⟩
    have hne : other ≠ slot := by
      rintro rfl
      exact UInt32.not_lt.mpr hother hlt
    rw [Function.update_of_ne hne]
    exact hsound'.unused other hother

def Reachable (state : Pipeline size) : Prop :=
  ∃ memory orders messages, state =
    (machine size).run (init memory orders) messages

end Pipeline

end MarketDataPipeline
