import MarketDataPipeline.Book.OrderRenaming
import MarketDataPipeline.Pipeline.BookRuns

/-!
# What timestamps decide

The time of a message goes into the id of the order it places and nowhere else.
Two runs on messages that differ in their times lead to states that differ in
order ids at most.
-/

namespace MarketDataPipeline

variable {size : UInt32}

def ItchMessage.timeless (message : ItchMessage) : ItchMessage :=
  { message with tsNs := 0 }

namespace Books

def forgetIds {ι T : Type*} (books : Books ι T size) : Books ι T size :=
  books.rename fun _ => 0

theorem forgetIds_forgetIds {ι T : Type*} (books : Books ι T size) :
    books.forgetIds.forgetIds = books.forgetIds := rfl

theorem reset_rename (f : UInt64 → UInt64)
    (books : Books UInt32 DepthTally size) (slot : UInt32) :
    (books.rename f).reset slot = (books.reset slot).rename f := by
  have hcleared := books.apply_rename f slot .clear
  rw [reset]
  change (let cleared := ((books.rename f).apply slot (BookOp.clear.rename f)).2
    { cleared with
      book := Function.update cleared.book slot MBOBookWithBIT.init }) = _
  rw [hcleared]
  rfl

/-- The call of a message, but for the id of the order, does not depend on its
time. -/
theorem route_timeless (book : MBOBookWithBIT) (message : ItchMessage) :
    (route book message.timeless).map (BookOp.rename fun _ => 0) =
      (route book message).map (BookOp.rename fun _ => 0) := by
  rw [route, route]
  by_cases hadd : message.type = addType
  · have hadd' : message.timeless.type = addType := hadd
    rw [if_pos hadd, if_pos hadd', Option.map_some, Option.map_some]
    dsimp only [BookOp.rename]
    rfl
  · have hadd' : ¬ message.timeless.type = addType := hadd
    rw [if_neg hadd, if_neg hadd']
    by_cases htrade : message.type = tradeType
    · have htrade' : message.timeless.type = tradeType := htrade
      rw [if_pos htrade, if_pos htrade']
      rfl
    · have htrade' : ¬ message.timeless.type = tradeType := htrade
      rw [if_neg htrade, if_neg htrade']

theorem deliver_forgetIds {ι : Type*} [DecidableEq ι]
    (books : Books ι DepthTally size) (slot : ι)
    (message : ItchMessage) : (books.deliver slot message).forgetIds =
      (books.forgetIds.deliver slot message.timeless).forgetIds := by
  have hsame := route_timeless (books.book slot) message
  have hbook : books.forgetIds.book slot = books.book slot := rfl
  rw [deliver, deliver, hbook]
  cases hroute : route (books.book slot) message with
  | none =>
      rw [hroute, Option.map_none, Option.map_eq_none_iff] at hsame
      rw [hsame]
      rfl
  | some op =>
      rw [hroute, Option.map_some, Option.map_eq_some_iff] at hsame
      obtain ⟨op', hroute', hop⟩ := hsame
      rw [hroute']
      calc (books.apply slot op).2.forgetIds
          = (books.forgetIds.apply slot (op.rename fun _ => 0)).2 := by
            rw [forgetIds, forgetIds, apply_rename]
        _ = (books.forgetIds.forgetIds.apply slot
            (op'.rename fun _ => 0)).2 := by
            rw [forgetIds_forgetIds, hop]
        _ = (books.forgetIds.apply slot op').2.forgetIds := by
            rw [forgetIds.eq_def books.forgetIds, apply_rename]
            rfl

end Books

def LFUCache.forgetIds (cache : LFUCache size) : LFUCache size :=
  { cache with books := cache.books.forgetIds }

theorem LFUCache.access_forgetIds (cache : LFUCache size) (bookId : UInt16)
    (symbol : Symbol) :
    cache.forgetIds.access bookId symbol =
      ((cache.access bookId symbol).1,
        (cache.access bookId symbol).2.forgetIds) := by
  have hindex : cache.forgetIds.index = cache.index := rfl
  rw [access, access, hindex]
  cases (cache.index.access bookId symbol).1 with
  | refused => rfl
  | hit slot => rfl
  | miss slot =>
      have hreset := cache.books.reset_rename (fun _ => 0) slot
      exact congrArg (fun books =>
        (some slot, LFUCache.mk (cache.index.access bookId symbol).2
        books)) hreset

namespace Pipeline

/-- The state without the ids of its orders. -/
def forgetIds (state : Pipeline size) : Pipeline size :=
  { state with cache := state.cache.forgetIds }

theorem processMessage_forgetIds (state : Pipeline size)
    (message : ItchMessage) :
    (state.processMessage message).forgetIds =
      (state.forgetIds.processMessage message.timeless).forgetIds := by
  have haccess :=
    state.cache.access_forgetIds (state.trie.getOrCreate message.symbol).bookId
    message.symbol
  rw [processMessage, processMessage]
  dsimp only [forgetIds, ItchMessage.timeless]
  rw [haccess]
  generalize state.cache.access (state.trie.getOrCreate message.symbol).bookId
    message.symbol =
    accessed
  obtain ⟨_ | slot, cache⟩ := accessed
  · rfl
  · have hcache : LFUCache.forgetIds
      ⟨cache.index, cache.books.deliver slot message⟩ =
        LFUCache.forgetIds ⟨cache.index,
          cache.books.forgetIds.deliver slot message.timeless⟩ :=
      congrArg (LFUCache.mk cache.index)
        (cache.books.deliver_forgetIds slot message)
    dsimp only [ItchMessage.timeless, LFUCache.forgetIds] at hcache ⊢
    rw [hcache]
    rfl

/-- The times of messages decide the ids of orders and nothing else.  After two
sequences of messages that agree but for the times, the states agree but for the
ids of orders: the same symbols and book ids, cache, counters, free list, links,
quantities, level totals, trees and best prices. -/
theorem timestamps_immaterial (memory : UInt32 → LFUNode)
    (orders : UInt32 → Order) (messages later : List ItchMessage)
    (hsame : messages.map ItchMessage.timeless =
      later.map ItchMessage.timeless) :
    ((machine size).run (init memory orders) messages).forgetIds =
      ((machine size).run (init memory orders) later).forgetIds := by
  have hruns : ∀ messages later : List ItchMessage,
      messages.map ItchMessage.timeless =
      later.map ItchMessage.timeless → ∀ state other : Pipeline size,
      state.forgetIds = other.forgetIds →
        ((machine size).run state messages).forgetIds =
        ((machine size).run other later).forgetIds := by
    intro messages
    induction messages with
    | nil =>
        intro later hsame state other hstates
        rw [List.map_nil, eq_comm, List.map_eq_nil_iff] at hsame
        rw [hsame]
        exact hstates
    | cons message messages ih =>
        intro later hsame state other hstates
        rw [List.map_cons, eq_comm, List.map_eq_cons_iff] at hsame
        obtain ⟨message', later', rfl, hmessage, hlater⟩ := hsame
        rw [Machine.run_cons, Machine.run_cons]
        refine ih later' hlater.symm _ _ ?_
        calc (state.processMessage message).forgetIds
            = (state.forgetIds.processMessage message.timeless).forgetIds :=
              state.processMessage_forgetIds message
          _ = (other.forgetIds.processMessage message'.timeless).forgetIds := by
              rw [hstates, hmessage]
          _ = (other.processMessage message').forgetIds :=
              (other.processMessage_forgetIds message').symm
  exact hruns messages later hsame _ _ rfl

/-- Two orders and a trade, in order and with the times reversed. -/
theorem timestamps_immaterial_orders :
    ((machine maxOrders).run (init (fun _ => default) fun _ => default)
        [⟨addType, btcUsdt, 1, 100, 5⟩, ⟨addType, btcUsdt, 2, 40, 5⟩,
          ⟨tradeType, btcUsdt, 3, 40, 2⟩]).forgetIds =
      ((machine maxOrders).run (init (fun _ => default) fun _ => default)
        [⟨addType, btcUsdt, 9, 100, 5⟩, ⟨addType, btcUsdt, 8, 40, 5⟩,
          ⟨tradeType, btcUsdt, 7, 40, 2⟩]).forgetIds :=
  timestamps_immaterial (fun _ => default) (fun _ => default)
    [⟨addType, btcUsdt, 1, 100, 5⟩, ⟨addType, btcUsdt, 2, 40, 5⟩,
      ⟨tradeType, btcUsdt, 3, 40, 2⟩]
    [⟨addType, btcUsdt, 9, 100, 5⟩, ⟨addType, btcUsdt, 8, 40, 5⟩,
      ⟨tradeType, btcUsdt, 7, 40, 2⟩]
    rfl

end Pipeline

end MarketDataPipeline
