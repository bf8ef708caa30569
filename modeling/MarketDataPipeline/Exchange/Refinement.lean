import MarketDataPipeline.Exchange.Exchange
import MarketDataPipeline.Pipeline.LevelFlow
import MarketDataPipeline.Pipeline.TrieCapacity

/-!
# The hot loop refines the exchange

Trie, cache, books, level totals, trees and order pool together behave as the
exchange, message by message, while there are no more symbols than nodes, every
order has a quantity and no level outgrows 32 bits.
-/

namespace MarketDataPipeline

open AbstractBook LFUPolicy

variable {size : UInt32}

namespace Exchange

/-- The exchange is what the loop has in its trie and its cache. -/
structure Describes (x : Exchange) (state : Pipeline size) : Prop where
  trie : state.trie.Holds x.symbols
  cache : ∃ a, DescribesCache x.cache x.book state.cache a

theorem empty_describes (hsize : 0 < size.toNat) (memory : UInt32 → LFUNode)
    (orders : UInt32 → Order) :
    empty.Describes (Pipeline.init memory orders : Pipeline size) :=
  ⟨PrefixTrie.init_holds, _, DescribesCache.init hsize memory orders _⟩

variable {x : Exchange} {state : Pipeline size} {message : ItchMessage}

/-- A served message registers its symbol and is about the book of
its number. -/
theorem Describes.served (hdescribes : x.Describes state)
    (hserved : state.Served message) :
    (state.trie.getOrCreate message.symbol).trie.Holds
        (x.symbols.ensure (PrefixTrie.word message.symbol)) ∧
      PrefixTrie.idIn (x.symbols.ensure (PrefixTrie.word message.symbol))
        (PrefixTrie.word message.symbol) = state.bookIdOf message := by
  have hid := (Pipeline.served_iff state message).mp hserved
  obtain ⟨registry, hregistered, hholds⟩ :=
    hdescribes.trie.getOrCreate message.symbol
  change PrefixTrie.Registered _ _ (state.bookIdOf message)
    registry at hregistered
  generalize state.bookIdOf message = id at hid hregistered ⊢
  cases hregistered with
  | known hkey => rw [Registry.ensure_of_mem hkey]; exact ⟨hholds, rfl⟩
  | issued hnew =>
      rw [Registry.ensure_of_notMem hnew, PrefixTrie.idIn_add hnew, if_pos rfl]
      exact ⟨hholds, rfl⟩
  | refused => exact absurd hid (by decide)

/-- A served message does to the loop what it does to the exchange. -/
theorem Describes.processMessage (hdescribes : x.Describes state)
    (hserved : state.Served message)
    (hqty : message.type = addType → 0 < message.qty)
    (hfits : (x.step size.toNat message).Fits) :
    (x.step size.toNat message).Describes (state.processMessage message) := by
  have hid := (Pipeline.served_iff state message).mp hserved
  obtain ⟨htrie, hnumber⟩ := hdescribes.served hserved
  obtain ⟨a, hcache⟩ := hdescribes.cache
  obtain ⟨slot, a', hfound, hslot, hopened⟩ := hcache.access hid message.symbol
  have hown := hopened.sound.index
  have hcached : (state.accessed message).2.index.isCached
      (state.bookIdOf message) = true := by
    rw [Pipeline.accessed, LFUCache.access_index]
    exact hcache.sound.index.access_isCached hid message.symbol
  have hstep : x.step size.toNat message =
      ⟨x.symbols.ensure (PrefixTrie.word message.symbol),
        (x.cache.access (state.bookIdOf message)).2,
        Function.update (opened x.cache x.book (state.bookIdOf message))
          (state.bookIdOf message)
          ((opened x.cache x.book (state.bookIdOf message)
            (state.bookIdOf message)).process
            (resting (x.cache.access (state.bookIdOf message)).2
              (opened x.cache x.book (state.bookIdOf message)) <
                size.toNat) message)⟩ := by
    rw [step, hnumber]
  rw [hstep] at hfits ⊢
  have hlevel := hfits (state.bookIdOf message)
  dsimp only at hlevel
  rw [Function.update_self] at hlevel
  obtain ⟨after, hdelivered⟩ := hopened.deliver hcached hqty hlevel
  have hprocess := state.processMessage_cache message
  change (state.accessed message).1 = some slot at hfound
  rw [hfound] at hprocess
  dsimp only at hprocess
  refine ⟨?_, after, ?_⟩
  · rw [Pipeline.processMessage_trie]
    exact htrie
  · rw [hprocess]
    rw [hslot] at hdelivered
    exact hdelivered

/-- What a message executes: what waits at its price, up to its quantity. -/
noncomputable def executes (x : Exchange) (message : ItchMessage) : ℕ :=
  let symbol := PrefixTrie.word message.symbol
  let id := PrefixTrie.idIn (x.symbols.ensure symbol) symbol
  let book := opened x.cache x.book id id
  let price := message.price.toNat
  if message.type = tradeType then
    min message.qty.toNat (PriceTime.volume (book (book.sideOf price) price))
  else 0

/-- The loop executes what the exchange executes. -/
theorem Describes.executed_eq (hdescribes : x.Describes state)
    (hserved : state.Served message) :
    state.executed message = x.executes message := by
  have hid := (Pipeline.served_iff state message).mp hserved
  obtain ⟨-, hnumber⟩ := hdescribes.served hserved
  obtain ⟨a, hcache⟩ := hdescribes.cache
  obtain ⟨slot, a', hfound, hslot, hopened⟩ := hcache.access hid message.symbol
  have hcached : (state.accessed message).2.index.isCached
      (state.bookIdOf message) = true := by
    rw [Pipeline.accessed, LFUCache.access_index]
    exact hcache.sound.index.access_isCached hid message.symbol
  change (state.accessed message).1 = some slot at hfound
  change (state.accessed message).2.index.bookToSlot _ = slot at hslot
  change DescribesCache _ _ (state.accessed message).2 a' at hopened
  have hshown := hopened.shown (state.bookIdOf message) hcached
  have hsound := hopened.sound.books
  rw [hslot] at hshown
  rw [Pipeline.executed, hfound, executes]
  dsimp only
  rw [hnumber]
  generalize opened x.cache x.book (state.bookIdOf message)
    (state.bookIdOf message) = book at *
  generalize (state.accessed message).2.books = books at hshown hsound ⊢
  have hside : routedSide (books.book slot) message.price =
      book.sideOf message.price.toNat :=
    hshown.routedSide_eq (books.book slot).queues message.price
  by_cases htrade : message.type = tradeType
  case neg =>
    have hroute : ∀ side price qty, route (books.book slot) message ≠
        some (.trade side price qty) := by
      intro side price qty heq
      obtain ⟨-, hop⟩ | ⟨htype, -⟩ := route_eq_some heq
      · simp at hop
      · exact htrade htype
    rw [if_neg htrade]
    split
    case h_1 side price qty heq => exact absurd heq (hroute side price qty)
    case h_2 => rfl
  have hroute : route (books.book slot) message =
      some (.trade (book.sideOf message.price.toNat) message.price
        message.qty) := by
    rw [route, htrade, if_neg (by decide), if_pos rfl, hside]
  rw [if_pos htrade, hroute]
  dsimp only
  generalize book.sideOf message.price.toNat = side
  have hallowed : BookOp.Allowed (books.book slot).queues books.pool
      (.trade side message.price message.qty) := trivial
  obtain ⟨_, _, _, -, -, hstep⟩ := hsound.holds.apply_step hallowed
  generalize (books.apply slot _).1 = filled at hstep ⊢
  generalize ((books.apply slot _).2.book slot).tally = tally' at hstep
  rw [← hshown.volume_eq]
  cases hstep with
  | untraded hprice =>
      have hnone := hshown.valid side message.price.toNat
        (UInt32.le_iff_toNat_le.mp hprice)
      rw [hshown.volume_eq, hnone]
      exact (Nat.min_zero _).symm
  | traded _ hfilled => exact hfilled

end Exchange

namespace Pipeline

open Exchange

/-- While all messages are served, orders have quantities and levels fit, the
exchange describes the loop. -/
theorem describes_of_served (hsize : 0 < size.toNat) (memory : UInt32 → LFUNode)
    (orders : UInt32 → Order) {messages : List ItchMessage}
    (hserved : AllServed (init memory orders : Pipeline size) messages)
    (hqty : ∀ message ∈ messages, message.type = addType → 0 < message.qty)
    (hfits : ∀ done, done <+: messages →
      ((Exchange.machine size.toNat).run .empty done).Fits) :
    ((Exchange.machine size.toNat).run .empty messages).Describes
      ((machine size).run (init memory orders) messages) := by
  induction messages using List.reverseRecOn with
  | nil => exact Exchange.empty_describes hsize memory orders
  | append_singleton messages message ih =>
      have hprefix := List.prefix_append messages [message]
      have hdescribes := ih (hserved.of_prefix hprefix)
        (fun other hother => hqty other (List.mem_append_left _ hother))
        fun done hdone => hfits done (hdone.trans hprefix)
      have hlast := hfits _ List.prefix_rfl
      rw [Machine.run_append] at hlast
      rw [Machine.run_append, Machine.run_append]
      exact hdescribes.processMessage (hserved messages message List.prefix_rfl)
        (hqty message (by simp)) hlast

/-- The hot loop refines the exchange.  On messages about at most 256 symbols,
whose orders have quantities and never lift a level to 2^32, it numbers the
symbols as the exchange does, keeps the books that the exchange keeps, with the
same orders in the same queues, refuses an order only where the exchange has no
room, executes of every trade what the exchange executes, and reports of every
book what the exchange's book says. -/
theorem refines_exchange (memory : UInt32 → LFUNode) (orders : UInt32 → Order)
    (messages : List ItchMessage) (hfew : (symbolsOf messages).card ≤ 256)
    (hqty : ∀ message ∈ messages, message.type = addType → 0 < message.qty)
    (hfits : ∀ done, done <+: messages →
      ((Exchange.machine maxOrders.toNat).run .empty done).Fits) :
    let state := (machine maxOrders).run (init memory orders) messages
    let x := (Exchange.machine maxOrders.toNat).run .empty messages
    (∀ symbol, state.trie.lookup symbol = PrefixTrie.idIn x.symbols
      (PrefixTrie.word symbol)) ∧
      (∀ id, state.cache.index.isCached id = true ↔ id ∈ x.cache.keys) ∧
      state.cache.books.pool.activeCount.toNat = resting x.cache x.book ∧
      (∀ done message, done ++ [message] <+: messages →
        ((machine maxOrders).run (init memory orders) done).executed message =
          ((Exchange.machine maxOrders.toNat).run .empty done).executes
            message) ∧
      ∀ id ∈ x.cache.keys,
        (∀ side price, (state.restingOf id side price).map Resting.order =
          x.book id side price.toNat) ∧
        (x.book id).Reports (state.bookOf id) := by
  intro state x
  have hserved := @allServed_of_few maxOrders memory orders messages hfew
  obtain ⟨htrie, a, hcache⟩ :=
    describes_of_served maxOrders_pos memory orders hserved hqty hfits
  change DescribesCache x.cache x.book state.cache a at hcache
  refine ⟨htrie.lookup_eq, hcache.sound.index.isCached_iff,
    hcache.activeCount_eq,
    fun done message hpre => ?_, fun id hid => ?_⟩
  · have hdone := (List.prefix_append done [message]).trans hpre
    have hearlier :=
      describes_of_served maxOrders_pos memory orders (hserved.of_prefix hdone)
      (fun other hother => hqty other (hdone.subset hother))
      fun first hfirst => hfits first (hfirst.trans hdone)
    exact hearlier.executed_eq (hserved done message hpre)
  have hshown := hcache.shown id ((hcache.sound.index.isCached_iff id).mpr hid)
  have hresting : state.restingOf id =
      a (state.cache.index.bookToSlot id.toUInt32) :=
    Sound.restingOf_eq ⟨_, hcache.sound⟩ id
  refine ⟨fun side price => ?_, ?_⟩
  · rw [hresting]
    exact hshown.queue side price
  · exact hshown.reports (hcache.sound.books.tracks _) _

/-- Two orders for one symbol, the second of them traded in part. -/
theorem refines_exchange_trade :
    let messages : List ItchMessage := [⟨addType, btcUsdt, 1, 100, 5⟩,
      ⟨addType, btcUsdt, 2, 40, 7⟩, ⟨tradeType, btcUsdt, 3, 40, 3⟩]
    let state := (machine maxOrders).run (init (fun _ => default) fun _ =>
      default) messages
    let x := (Exchange.machine maxOrders.toNat).run .empty messages
    state.cache.books.pool.activeCount.toNat = resting x.cache x.book :=
  (refines_exchange (fun _ => default) (fun _ => default)
    [⟨addType, btcUsdt, 1, 100, 5⟩, ⟨addType, btcUsdt, 2, 40, 7⟩,
      ⟨tradeType, btcUsdt, 3, 40, 3⟩]
    (by decide) (by decide)
    fun _ hdone => fits_of_placed_lt _ (by decide) hdone).2.2.1

end Pipeline

end MarketDataPipeline
