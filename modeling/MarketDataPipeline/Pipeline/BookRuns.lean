import MarketDataPipeline.Book.Quotes
import MarketDataPipeline.Pipeline.MessageStep

/-!
# Runs of the hot loop, book by book

A property of books is carried through a run of the loop by looking at the one
book a message is delivered to.  The rules for this are here: for all books, and
for the books of the cached symbols where the messages have to meet a condition.
At the end are the runs on the messages of a single symbol.
-/

namespace MarketDataPipeline

open AbstractBook LFUPolicy

variable {size : UInt32}

namespace Books

variable {ι : Type*} [DecidableEq ι] {books : Books ι DepthTally size}
  {a : ι → AbstractBook}

/-- A delivered message keeps the best prices valid. -/
theorem Delivered.quoted {slot : ι} {message : ItchMessage}
    {book' : AbstractBook} (hdelivered : books.Delivered a slot message
      (books.deliver slot message) book')
    (hquoted : (books.book slot).tally.Quoted) :
    ((books.deliver slot message).book slot).tally.Quoted := by
  generalize books.deliver slot message = after at hdelivered ⊢
  cases hdelivered with
  | ignored => exact hquoted
  | step _ _ hstep => exact hquoted.step hstep

end Books

namespace Pipeline

/-- The book of a symbol, where it is cached. -/
def bookOf (state : Pipeline size) (bookId : UInt16) : MBOBookWithBIT :=
  state.cache.books.book (state.cache.index.bookToSlot bookId.toUInt32)

def restingOf (state : Pipeline size) (bookId : UInt16) : AbstractBook :=
  (state.bookOf bookId).queues.contents state.cache.books.pool

theorem Sound.restingOf_eq {state : Pipeline size} {a : UInt32 → AbstractBook}
    (hsound : state.Sound a) (bookId : UInt16) :
    state.restingOf bookId =
      a (state.cache.index.bookToSlot bookId.toUInt32) := by
  obtain ⟨reference, hcache⟩ := hsound
  exact (hcache.books.holds.represents _).contents_eq_book

/-! ## Properties of all books -/

section Properties

variable (inv : DepthTally → AbstractBook → Prop)
  (hfresh : inv .init empty)
  (hstep : ∀ (books : Books UInt32 DepthTally size) (a : UInt32 →
    AbstractBook) slot message book',
    books.Sound a → books.Delivered a slot message
      (books.deliver slot message) book' →
    inv (books.book slot).tally (a slot) →
    inv ((books.deliver slot message).book slot).tally book')

include hfresh hstep

/-- A property of fresh books that each delivered message preserves holds of all
books after a message if it did before. -/
theorem Processed.forall_books {state : Pipeline size}
    {a after : UInt32 → AbstractBook} {message : ItchMessage}
    {cache' : LFUCache size}
    (hprocessed : state.Processed a message cache' after)
    (hall : ∀ slot, inv (state.cache.books.book slot).tally (a slot))
    (slot : UInt32) :
    inv (cache'.books.book slot).tally (after slot) := by
  cases hprocessed with
  | refused => exact hall slot
  | @delivered target opened a' index book' _ _ _ _ _ hreached hopenedSound
      hdelivered =>
      by_cases hslot : slot = target
      · subst hslot
        rw [Function.update_self]
        refine hstep opened a' slot message book' hopenedSound hdelivered ?_
        cases hreached with
        | kept => exact hall slot
        | fresh =>
            rw [Books.reset_book_self, Function.update_self]
            exact hfresh
      · obtain ⟨hbook, ha⟩ := hreached.books_of_ne hslot
        dsimp only
        rw [Function.update_of_ne hslot, Books.deliver_book_of_ne _ hslot,
          hbook, ha]
        exact hall slot

theorem books_invariant (hsize : 0 < size.toNat) (memory : UInt32 → LFUNode)
    (orders : UInt32 → Order) (messages : List ItchMessage) :
    ∃ a, ((machine size).run (init memory orders) messages).Sound a ∧ ∀ slot,
      inv (((machine size).run (init memory orders) messages).cache.books.book
        slot).tally
        (a slot) := by
  refine Machine.invariant
    (fun state : Pipeline size => ∃ a, state.Sound a ∧
      ∀ slot, inv (state.cache.books.book slot).tally (a slot)) ?_
    ⟨_, init_sound hsize memory orders, fun _ => hfresh⟩
    (Machine.legal_of_forall (fun _ _ => trivial) _ messages)
  rintro state message ⟨a, hsound, hall⟩ -
  obtain ⟨after, hprocessed, hsound'⟩ := hsound.processMessage message
  exact ⟨after, hsound', hprocessed.forall_books inv hfresh hstep hall⟩

end Properties

/-- In a reachable state the books hold abstract books and their best prices are
valid. -/
theorem Reachable.quoted {state : Pipeline size} (hsize : 0 < size.toNat)
    (hreachable : state.Reachable) :
    ∃ a, state.Sound a ∧
      ∀ slot, (state.cache.books.book slot).tally.Quoted := by
  obtain ⟨memory, orders, messages, rfl⟩ := hreachable
  exact books_invariant (fun tally _ => tally.Quoted) DepthTally.init_quoted
    (fun _ _ _ _ _ _ hdelivered hquoted => hdelivered.quoted hquoted) hsize
    memory orders messages

/-! ## Properties of the books of cached symbols -/

/-- A property of the books of all cached symbols is carried through a message:
the book that the message is delivered to had it or is fresh, and the others
stay as they are. -/
theorem Processed.forall_cached {state : Pipeline size}
    {a after : UInt32 → AbstractBook} {message : ItchMessage}
    {cache' : LFUCache size} {reference reference' : ReferenceCache}
    (before later : UInt16 → DepthTally → AbstractBook → Prop)
    (hcache : state.cache.Sound reference a)
    (hprocessed : state.Processed a message cache' after)
    (hcache' : cache'.Sound reference' after)
    (hother : ∀ bookId tally book, bookId ≠ state.bookIdOf message →
      state.cache.index.isCached bookId = true → before bookId tally book →
        later bookId tally book)
    (hfresh : state.cache.index.isCached (state.bookIdOf message) = false →
      before (state.bookIdOf message) .init empty)
    (hown : ∀ slot opened a' book', (state.accessed message).1 = some slot →
      (state.accessed message).2.books = opened → opened.Sound a' →
      opened.Delivered a' slot message (opened.deliver slot message) book' →
      before (state.bookIdOf message) (opened.book slot).tally (a' slot) →
        later (state.bookIdOf message)
          ((opened.deliver slot message).book slot).tally book')
    (hall : ∀ bookId, state.cache.index.isCached bookId = true →
      before bookId
        (state.cache.books.book
          (state.cache.index.bookToSlot bookId.toUInt32)).tally
        (a (state.cache.index.bookToSlot bookId.toUInt32)))
    (bookId : UInt16) (hcached : cache'.index.isCached bookId = true) :
    later bookId
      (cache'.books.book (cache'.index.bookToSlot bookId.toUInt32)).tally
      (after (cache'.index.bookToSlot bookId.toUInt32)) := by
  cases hprocessed with
  | refused hid =>
      have hne : bookId ≠ state.bookIdOf message := by
        rintro rfl
        exact UInt32.not_lt.mpr hid (LFUIndex.lt_maxSymbols_of_isCached hcached)
      exact hother _ _ _ hne hcached (hall bookId hcached)
  | @delivered slot opened a' index book' hid hfound hindex hslot hopened
      hreached hopenedSound
      hdelivered =>
      have hcachedAfter := hcached
      rw [hindex] at hcachedAfter
      dsimp only at hcached hslot ⊢
      by_cases hsame : bookId = state.bookIdOf message
      · subst hsame
        rw [hslot, Function.update_self]
        refine hown slot opened a' book' hfound hopened hopenedSound
          hdelivered ?_
        cases hreached with
        | kept hold hslotOld => exact hslotOld ▸ hall _ hold
        | fresh hnew =>
            rw [Books.reset_book_self, Function.update_self]
            exact hfresh hnew
      · -- Another symbol keeps its slot, and its book is not the one delivered
        -- to.
        obtain ⟨hold, hslotOld⟩ :=
          hcache.index.access_kept hid message.symbol hsame hcachedAfter
        rw [← hindex] at hslotOld
        have hne : index.bookToSlot bookId.toUInt32 ≠ slot := by
          rw [← hslot]
          exact hcache'.index.bookToSlot_ne
            (hindex ▸ hcache.index.access_isCached hid message.symbol)
            hcached hsame
        obtain ⟨hbook, ha⟩ := hreached.books_of_ne hne
        rw [Function.update_of_ne hne, Books.deliver_book_of_ne _ hne, hbook,
          ha, hslotOld]
        exact hother _ _ _ hsame hold (hall bookId hold)

/-! ## Conditions on messages -/

/-- A condition on a message and on the book and the pool it meets. -/
def Meets (good : MBOBookWithBIT → OrderPool size → ItchMessage → Prop)
    (state : Pipeline size) (message : ItchMessage) : Prop :=
  ∀ slot, (state.accessed message).1 = some slot →
    good ((state.accessed message).2.books.book slot)
      (state.accessed message).2.books.pool message

section Conditions

variable (inv : DepthTally → AbstractBook → Prop)
  {property : DepthTally → AbstractBook → Prop}
  {good : MBOBookWithBIT → OrderPool size → ItchMessage → Prop}

def CachedBooks (property : DepthTally → AbstractBook → Prop)
    (state : Pipeline size) : Prop :=
  ∀ bookId, state.cache.index.isCached bookId = true →
    property (state.bookOf bookId).tally (state.restingOf bookId)

/-- Where a delivered message keeps a property exactly under a condition on the
book, the pool and the message, so does the loop for the cached books. -/
theorem CachedBooks.processMessage_iff (hfresh : property .init empty)
    (hiff : ∀ (books : Books UInt32 DepthTally size) (a : UInt32 →
      AbstractBook) slot message book',
      books.Sound a → books.Delivered a slot message
        (books.deliver slot message) book' →
      inv (books.book slot).tally (a slot) →
        property (books.book slot).tally (a slot) →
      (property ((books.deliver slot message).book slot).tally book' ↔
        good (books.book slot) books.pool message))
    {state : Pipeline size} {a : UInt32 → AbstractBook} (hsound : state.Sound a)
    (hinvFresh : inv .init empty)
    (hall : ∀ slot, inv (state.cache.books.book slot).tally (a slot))
    (hproperty : state.CachedBooks property) (message : ItchMessage) :
    (state.processMessage message).CachedBooks property ↔
      Meets good state message := by
  have hcached : state.CachedBooks property ↔
      ∀ bookId, state.cache.index.isCached bookId = true →
      property (state.bookOf bookId).tally
        (a (state.cache.index.bookToSlot bookId.toUInt32)) := by
    simp only [CachedBooks, hsound.restingOf_eq]
  rw [hcached] at hproperty
  obtain ⟨reference, hcache⟩ := hsound
  obtain ⟨after, hprocessed, hsound'⟩ :=
    Sound.processMessage ⟨reference, hcache⟩ message
  have hcached' : (state.processMessage message).CachedBooks property ↔
      ∀ bookId,
      (state.processMessage message).cache.index.isCached bookId = true →
      property ((state.processMessage message).bookOf bookId).tally
        (after ((state.processMessage message).cache.index.bookToSlot
          bookId.toUInt32)) := by
    simp only [CachedBooks, hsound'.restingOf_eq]
  rw [hcached']
  obtain ⟨reference', hcache'⟩ := hsound'
  simp only [bookOf] at hproperty ⊢
  generalize (state.processMessage message).cache =
    cache' at hprocessed hcache' ⊢
  constructor
  · intro hafter slot hfound
    cases hprocessed with
    | refused hid =>
        have hrefused : state.accessed message = (none, state.cache) :=
          state.cache.access_of_ge hid message.symbol
        simp [hrefused] at hfound
    | @delivered target opened a' index book' hid htarget hindex hslot
        hopened hreached
        hopenedSound hdelivered =>
        obtain rfl : target = slot :=
          Option.some.inj (htarget.symm.trans hfound)
        have hopenedInv : inv (opened.book target).tally (a' target) ∧
            property (opened.book target).tally (a' target) := by
          cases hreached with
          | kept hold hslotOld =>
              exact ⟨hall target, hslotOld ▸ hproperty _ hold⟩
          | fresh =>
              rw [Books.reset_book_self, Function.update_self]
              exact ⟨hinvFresh, hfresh⟩
        have hdone := hafter (state.bookIdOf message)
          (hindex ▸ hcache.index.access_isCached hid message.symbol)
        dsimp only at hdone
        rw [hslot, Function.update_self] at hdone
        rw [hopened]
        exact (hiff opened a' target message book' hopenedSound
          hdelivered hopenedInv.1
          hopenedInv.2).mp hdone
  · intro hmeets
    refine hprocessed.forall_cached (fun _ tally book => inv tally book ∧
      property tally book)
      (fun _ => property) hcache hcache' (fun _ _ _ _ _ hboth => hboth.2)
      (fun _ => ⟨hinvFresh, hfresh⟩) ?_ fun bookId hcached =>
        ⟨hall _, hproperty bookId hcached⟩
    rintro slot opened a' book' hfound hopened hopenedSound hdelivered
      ⟨hinvOpened, hholds⟩
    refine (hiff opened a' slot message book' hopenedSound hdelivered hinvOpened
      hholds).mpr ?_
    rw [← hopened]
    exact hmeets slot hfound

/-- In every run, the cached books satisfy the property in all states reached
exactly when every message meets the condition. -/
theorem cached_books_always_iff (hfresh : property .init empty)
    (hiff : ∀ (books : Books UInt32 DepthTally size) (a : UInt32 →
      AbstractBook) slot message book',
      books.Sound a → books.Delivered a slot message
        (books.deliver slot message) book' →
      inv (books.book slot).tally (a slot) →
        property (books.book slot).tally (a slot) →
      (property ((books.deliver slot message).book slot).tally book' ↔
        good (books.book slot) books.pool message))
    (hinvFresh : inv .init empty)
    (hinv : ∀ (books : Books UInt32 DepthTally size) (a : UInt32 →
      AbstractBook) slot message book',
      books.Sound a → books.Delivered a slot message
        (books.deliver slot message) book' →
      inv (books.book slot).tally (a slot) →
        inv ((books.deliver slot message).book slot).tally book')
    (hsize : 0 < size.toNat) (memory : UInt32 → LFUNode)
    (orders : UInt32 → Order) (messages : List ItchMessage) :
    (∀ done, done <+: messages →
      ((machine size).run (init memory orders) done).CachedBooks property) ↔
    (machine size).Each (Meets good) (init memory orders) messages := by
  refine Machine.always_iff_each
    (fun state : Pipeline size => ∃ a, state.Sound a ∧
      ∀ slot, inv (state.cache.books.book slot).tally (a slot))
    (CachedBooks property) (Meets good) ?_ ?_
      ⟨_, init_sound hsize memory orders, fun _ => hinvFresh⟩
    ?_ (Machine.legal_of_forall (fun _ _ => trivial) _ messages)
  · rintro state message ⟨a, hsound, hall⟩ -
    obtain ⟨after, hprocessed, hsound'⟩ := hsound.processMessage message
    exact ⟨after, hsound', hprocessed.forall_books inv hinvFresh hinv hall⟩
  · rintro state message ⟨a, hsound, hall⟩ - hproperty
    exact hproperty.processMessage_iff inv hfresh hiff hsound
      hinvFresh hall message
  · intro bookId hcached
    simp [init, LFUCache.init, LFUIndex.init, LFUIndex.isCached] at hcached

end Conditions

/-! ## Messages of one symbol -/

/-- The symbol is registered under `bookId` and its book is that of `slot`. -/
structure Serves (state : Pipeline size) (symbol : Symbol) (bookId : UInt16)
    (slot : UInt32) :
    Prop where
  registered : state.trie.getOrCreate symbol = ⟨bookId, false, state.trie⟩
  cached : state.cache.index.isCached bookId = true
  slot_eq : state.cache.index.bookToSlot bookId.toUInt32 = slot

theorem Serves.bookIdOf_eq {state : Pipeline size} {symbol : Symbol}
    {bookId : UInt16} {slot : UInt32}
    (hserves : state.Serves symbol bookId slot) {message : ItchMessage}
    (hsymbol : message.symbol = symbol) : state.bookIdOf message = bookId := by
  rw [bookIdOf, hsymbol, hserves.registered]

theorem Serves.isCached_bookIdOf {state : Pipeline size} {symbol : Symbol}
    {bookId : UInt16} {slot : UInt32}
    (hserves : state.Serves symbol bookId slot) {message : ItchMessage}
    (hsymbol : message.symbol = symbol) :
    state.cache.index.isCached (state.bookIdOf message) = true := by
  rw [hserves.bookIdOf_eq hsymbol]
  exact hserves.cached

/-- Messages of one cached symbol all go to its book. -/
theorem Serves.run {state : Pipeline size} {symbol : Symbol} {bookId : UInt16}
    {slot : UInt32} (hserves : state.Serves symbol bookId slot)
    {messages : List ItchMessage}
    (hsymbol : ∀ message ∈ messages, message.symbol = symbol) :
    ((machine size).run state messages).Serves symbol bookId slot ∧
      ((machine size).run state messages).cache.books =
        messages.foldl (fun books message => books.deliver slot message)
          state.cache.books := by
  induction messages generalizing state with
  | nil => exact ⟨hserves, rfl⟩
  | cons message rest ih =>
      have hfirst := hsymbol message (by simp)
      have hcache := processMessage_of_cached (hserves.isCached_bookIdOf hfirst)
      rw [hserves.bookIdOf_eq hfirst, hserves.slot_eq] at hcache
      have htrie : (state.processMessage message).trie = state.trie := by
        rw [processMessage_trie, hfirst, hserves.registered]
      have hnext : (state.processMessage message).Serves symbol
          bookId slot := by
        refine ⟨?_, ?_, ?_⟩
        · rw [htrie]
          exact hserves.registered
        · rw [hcache]
          exact (LFUIndex.updateFrequency_isCached _ _ _).trans hserves.cached
        · rw [hcache]
          exact hserves.slot_eq
      obtain ⟨hserves', hbooks⟩ := ih hnext fun other hother =>
        hsymbol other (by simp [hother])
      refine ⟨hserves', ?_⟩
      rw [Machine.run_cons, List.foldl_cons]
      change ((machine size).run (state.processMessage message)
        rest).cache.books = _
      rw [hbooks, hcache]

/-- The first symbol that a fresh pipeline meets gets the book of slot 0. -/
theorem init_serves {message : ItchMessage}
    (hnew : (PrefixTrie.init.getOrCreate message.symbol).bookId = 0)
    (hagain : (PrefixTrie.init.getOrCreate message.symbol).trie.lookup
      message.symbol = 0)
    (memory : UInt32 → LFUNode) (orders : UInt32 → Order) :
    ((init memory orders : Pipeline size).processMessage message).Serves
      message.symbol 0 0 ∧
      ((init memory orders : Pipeline size).processMessage
        message).cache.books =
        (Books.init .init orders).deliver 0 message := by
  let state : Pipeline size := init memory orders
  have hmiss : ((LFUIndex.init memory).access 0 message.symbol).1 =
    .miss 0 := rfl
  have haccess : state.accessed message =
      (some 0, ⟨((LFUIndex.init memory).access 0 message.symbol).2,
        .init .init orders⟩) := by
    have hid : state.bookIdOf message = 0 := hnew
    have hindex : state.cache.index = .init memory := rfl
    rw [accessed, hid, LFUCache.access, hindex, hmiss]
    exact congrArg (fun books => (some 0, LFUCache.mk _ books))
      (Books.reset_init orders 0)
  have hcache := state.processMessage_cache message
  rw [haccess] at hcache
  refine ⟨⟨?_, ?_, ?_⟩, congrArg LFUCache.books hcache⟩
  · rw [processMessage_trie]
    exact PrefixTrie.getOrCreate_of_known hagain (by decide)
  · rw [hcache]
    rfl
  · rw [hcache]
    rfl

/-- Where all messages are of one symbol, its book is fed all of them. -/
theorem run_of_symbol {symbol : Symbol}
    (hnew : (PrefixTrie.init.getOrCreate symbol).bookId = 0)
    (hagain : (PrefixTrie.init.getOrCreate symbol).trie.lookup symbol = 0)
    (memory : UInt32 → LFUNode) (orders : UInt32 → Order)
    {messages : List ItchMessage}
    (hsymbol : ∀ message ∈ messages, message.symbol = symbol)
    (hsome : messages ≠ []) :
    ((machine size).run (init memory orders) messages).Serves symbol 0 0 ∧
      ((machine size).run (init memory orders) messages).cache.books =
        messages.foldl (fun books message => books.deliver 0 message)
          (.init .init orders) := by
  obtain ⟨message, rest, rfl⟩ := List.exists_cons_of_ne_nil hsome
  have hfirst := hsymbol message (by simp)
  subst hfirst
  obtain ⟨hserves, hbooks⟩ :=
    @init_serves size message hnew hagain memory orders
  rw [List.foldl_cons, ← hbooks]
  exact hserves.run fun other hother => hsymbol other (by simp [hother])

theorem Serves.bookOf_eq {state : Pipeline size} {symbol : Symbol}
    {bookId : UInt16} {slot : UInt32}
    (hserves : state.Serves symbol bookId slot) :
    state.bookOf bookId = state.cache.books.book slot := by
  rw [bookOf, hserves.slot_eq]

theorem Serves.restingOf_eq {state : Pipeline size} {symbol : Symbol}
    {bookId : UInt16} {slot : UInt32}
    (hserves : state.Serves symbol bookId slot) :
    state.restingOf bookId =
      (state.cache.books.book slot).queues.contents state.cache.books.pool := by
  rw [restingOf, hserves.bookOf_eq]

def btcUsdt : Symbol := #v[66, 84, 67, 47, 85, 83, 68, 84]

/-- The state after messages, on zeroed memory. -/
def stateAfter (messages : List ItchMessage) : Pipeline maxOrders :=
  (machine maxOrders).run (init (fun _ => default) fun _ => default) messages

theorem stateAfter_reachable (messages : List ItchMessage) :
    (stateAfter messages).Reachable :=
  ⟨_, _, messages, rfl⟩

/-- Fresh books, where that of slot 0 was fed messages. -/
def booksAfter (messages : List ItchMessage) :
    Books UInt32 DepthTally maxOrders :=
  messages.foldl (fun books message => books.deliver 0 message)
    (.init .init fun _ => default)

theorem stateAfter_serves (messages : List ItchMessage)
    (hsymbol : ∀ message ∈ messages, message.symbol = btcUsdt)
    (hsome : messages ≠ []) :
    (stateAfter messages).Serves btcUsdt 0 0 ∧
      (stateAfter messages).cache.books = booksAfter messages :=
  run_of_symbol (by decide +kernel) (by decide +kernel) _ _ hsymbol hsome

end Pipeline

end MarketDataPipeline
