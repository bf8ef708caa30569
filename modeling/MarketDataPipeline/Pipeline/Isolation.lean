import MarketDataPipeline.Pipeline.BookRuns
import MarketDataPipeline.Pipeline.SoloBook

/-!
# Symbols do not disturb each other

The book of a cached symbol looks like a book on a pool of its own that was fed
the messages of this symbol since it was last admitted, whatever the messages of
other symbols did to the cache and to the pool in between.
-/

namespace MarketDataPipeline

open AbstractBook LFUPolicy

variable {size : UInt32}

namespace Pipeline

/-- The messages each book was fed, after one more message.  A miss starts the
list of its id again.  An Add message whose allocation fails is left out. -/
def fedAfter (state : Pipeline size) (fed : UInt16 → List ItchMessage)
    (message : ItchMessage) :
    UInt16 → List ItchMessage :=
  let bookId := state.bookIdOf message
  let earlier := if state.cache.index.isCached bookId then fed bookId else []
  Function.update fed bookId
    (if AllocationFails (state.accessed message).2.books.pool message then
       earlier
    else earlier ++ [message])

def fedMachine (size : UInt32) :
    Machine (Pipeline size × (UInt16 → List ItchMessage)) ItchMessage where
  allowed _ _ := True
  step state message :=
    (state.1.processMessage message, state.1.fedAfter state.2 message)

/-- Each cached book is mirrored by a book alone that was fed its messages. -/
def Isolated (orders : UInt32 → Order) (state : Pipeline size)
    (fed : UInt16 → List ItchMessage) : Prop :=
  ∃ a, state.Sound a ∧ ∀ bookId, state.cache.index.isCached bookId = true →
    let slot := state.cache.index.bookToSlot bookId.toUInt32
    (soloRun size orders (fed bookId)).Mirrors (a slot)
      (state.cache.books.book slot).tally

theorem Isolated.processMessage {orders : UInt32 → Order}
    (hsize : 0 < size.toNat) {state : Pipeline size}
    {fed : UInt16 → List ItchMessage} (hisolated : state.Isolated orders fed)
    (message : ItchMessage) :
    (state.processMessage message).Isolated orders
      (state.fedAfter fed message) := by
  obtain ⟨a, hsound, hmirrors⟩ := hisolated
  obtain ⟨reference, hcache⟩ := hsound
  obtain ⟨after, hprocessed, hsound'⟩ :=
    Sound.processMessage ⟨reference, hcache⟩ message
  obtain ⟨reference', hcache'⟩ := hsound'
  refine ⟨after, ⟨reference', hcache'⟩, ?_⟩
  refine hprocessed.forall_cached
    (fun bookId tally book => (soloRun size orders
      (if state.cache.index.isCached bookId then fed bookId else [])).Mirrors
        book tally)
    (fun bookId tally book =>
      (soloRun size orders (state.fedAfter fed message bookId)).Mirrors book
        tally)
    hcache hcache' ?_ (fun hnew => ?_) ?_ fun bookId hcached => ?_
  · intro bookId tally book hne hcached hearlier
    rw [if_pos hcached] at hearlier
    rwa [fedAfter, Function.update_of_ne hne]
  · rw [hnew, if_neg Bool.false_ne_true]
    exact Books.init_mirrors hsize orders
  · intro slot opened a' book' _ hopened hopenedSound hdelivered hearlier
    have hdone := hearlier.deliver hopenedSound hdelivered
    rw [fedAfter, Function.update_self, hopened]
    split at hdone
    case isTrue hfails => rwa [if_pos hfails]
    case isFalse hfits => rwa [if_neg hfits, soloRun_concat]
  · rw [if_pos hcached]
    exact hmirrors bookId hcached

/-- After any sequence of messages, the book of a cached symbol is the book that
its own messages since its latest admission make of a fresh book on a fresh
pool: the same orders, by id and remaining quantity, in the same places of the
same queues, and the same tally, that is the same level quantities, trees, best
prices and counters. -/
theorem cached_book_isolated (memory : UInt32 → LFUNode)
    (orders soloOrders : UInt32 → Order) (messages : List ItchMessage)
    (bookId : UInt16)
    (hcached : ((fedMachine maxOrders).run (init memory orders, fun _ => [])
      messages).1.cache.index.isCached bookId = true) :
    let state :=
      (fedMachine maxOrders).run (init memory orders, fun _ => []) messages
    let cache := state.1.cache
    let book := cache.books.book (cache.index.bookToSlot bookId.toUInt32)
    let solo := soloRun maxOrders soloOrders (state.2 bookId)
    (∀ side price,
      (book.queues.contents cache.books.pool side price).map Resting.visible =
        ((solo.book ()).queues.contents solo.pool side price).map
          Resting.visible) ∧
      book.tally = (solo.book ()).tally := by
  intro state cache book solo
  have hisolated : state.1.Isolated soloOrders state.2 := by
    have hlegal :
        (fedMachine maxOrders).Legal (init memory orders, fun _ =>
        []) messages :=
      Machine.legal_of_forall (fun _ _ => trivial) _ messages
    refine Machine.invariant
      (fun state : Pipeline maxOrders × (UInt16 → List ItchMessage) =>
        state.1.Isolated soloOrders state.2)
      (fun _ message hstate _ => hstate.processMessage maxOrders_pos message) ?_
        hlegal
    refine ⟨_, init_sound maxOrders_pos memory orders, fun id hid => ?_⟩
    simp [init, LFUCache.init, LFUIndex.init, LFUIndex.isCached] at hid
  obtain ⟨a, ⟨reference, hsound⟩, hmirrors⟩ := hisolated
  obtain ⟨htally, own, hown, halike⟩ := hmirrors bookId hcached
  refine ⟨fun side price => ?_, htally.symm⟩
  have hrep :=
    hsound.books.holds.represents (cache.index.bookToSlot bookId.toUInt32)
  rw [hrep.contents_eq, (hown.holds.represents ()).contents_eq]
  exact (halike side price).symm

/-- Two symbols, the first of which adds an order and trades at a price where
none rests. -/
theorem cached_book_isolated_trade :
    let first : Symbol := #v[65, 65, 65, 65, 65, 65, 65, 65]
    let second : Symbol := #v[66, 66, 66, 66, 66, 66, 66, 66]
    let state := (fedMachine maxOrders).run (init (fun _ => default) fun _ =>
      default, fun _ => [])
      [⟨addType, first, 1, 100, 5⟩, ⟨addType, second, 2, 200, 7⟩,
        ⟨tradeType, first, 3, 40, 3⟩]
    let cache := state.1.cache
    (cache.books.book (cache.index.bookToSlot 0)).tally =
      ((soloRun maxOrders (fun _ => default) (state.2 0)).book ()).tally :=
  (cached_book_isolated (fun _ => default) (fun _ => default) (fun _ => default)
    [⟨addType, #v[65, 65, 65, 65, 65, 65, 65, 65], 1, 100, 5⟩,
      ⟨addType, #v[66, 66, 66, 66, 66, 66, 66, 66], 2, 200, 7⟩,
      ⟨tradeType, #v[65, 65, 65, 65, 65, 65, 65, 65], 3, 40, 3⟩] 0
        (by decide)).2

end Pipeline

end MarketDataPipeline
