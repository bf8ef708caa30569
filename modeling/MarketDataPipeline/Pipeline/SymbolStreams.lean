import MarketDataPipeline.Cache.AccessFrequency
import MarketDataPipeline.Pipeline.LevelFlow
import MarketDataPipeline.Pipeline.TrieCapacity

/-!
# Streams of messages by symbol

While the symbols of a run fit, the cache sees one id for each symbol, so that
what the LFU policy does to runs of keys it does to the symbols of the messages.
When two messages about a symbol are always more than 5 messages apart the cache
never hits, and a book lives for one message.
-/

namespace MarketDataPipeline

open AbstractBook LFUPolicy PrefixTrie

variable {size : UInt32}

namespace Pipeline

/-- The symbol of a message, as the trie reads it. -/
def wordOf (message : ItchMessage) : List UInt8 := word message.symbol

/-- The trie gives the symbols of these messages the ids of a registry, and the
index has seen an access of the id of each. -/
structure Numbers (state : Pipeline size) (registry : Registry (List UInt8))
    (messages : List ItchMessage) : Prop where
  holds : state.trie.Holds registry
  known : ∀ message ∈ messages, wordOf message ∈ registry.keys
  refines : state.cache.index.Refines
    (ReferenceCache.after (messages.map fun message =>
      idIn registry (wordOf message)))

namespace Numbers

variable {state : Pipeline size} {registry : Registry (List UInt8)}
  {messages : List ItchMessage}

theorem lookup_eq (hnumbers : state.Numbers registry messages)
    (message : ItchMessage) :
    state.trie.lookup message.symbol = idIn registry (wordOf message) :=
  hnumbers.holds.lookup_eq message.symbol

theorem idIn_inj (hnumbers : state.Numbers registry messages)
    {message other : ItchMessage} (hmessage : message ∈ messages)
    (hother : other ∈ messages)
    (heq : idIn registry (wordOf message) = idIn registry (wordOf other)) :
    wordOf message = wordOf other :=
  PrefixTrie.idIn_inj hnumbers.holds.capacity (hnumbers.known message hmessage)
    (hnumbers.known other hother) heq

theorem processMessage (hnumbers : state.Numbers registry messages)
    {message : ItchMessage} (hserved : state.Served message) :
    ∃ registry', (state.processMessage message).Numbers registry'
      (messages ++ [message]) ∧
      state.bookIdOf message = idIn registry' (wordOf message) ∧
      ∀ other ∈ messages, idIn registry' (wordOf other) =
        idIn registry (wordOf other) := by
  obtain ⟨registry', hregistered, hholds'⟩ :=
    hnumbers.holds.getOrCreate message.symbol
  have hid := (served_iff state message).mp hserved
  have hvalid : (state.trie.getOrCreate message.symbol).bookId ≠
      invalidBookId := by
    intro heq
    rw [bookIdOf, heq] at hid
    exact absurd hid (by decide)
  obtain ⟨hkey, hkeyId⟩ := hregistered.id_eq hvalid
  have hkept : ∀ other ∈ messages, wordOf other ∈ registry'.keys ∧
      idIn registry' (wordOf other) = idIn registry (wordOf other) :=
    fun other hother => hregistered.kept (hnumbers.known other hother)
  refine ⟨registry', ⟨?_, fun other hother => ?_, ?_⟩, hkeyId.symm,
    fun other hother => (hkept other hother).2⟩
  · rw [processMessage_trie]
    exact hholds'
  · rcases List.mem_append.mp hother with hold | hlast
    · exact (hkept other hold).1
    · rw [List.mem_singleton.mp hlast]
      exact hkey
  · have hearlier : messages.map (fun other => idIn registry' (wordOf other)) =
        messages.map fun other => idIn registry (wordOf other) :=
      List.map_congr_left fun other hother => (hkept other hother).2
    have haccess := (hnumbers.refines.access hid message.symbol).1
    rw [processMessage_index, List.map_append, List.map_singleton, hearlier,
      show idIn registry' (wordOf message) = state.bookIdOf message from hkeyId]
    have hafter := Cache.run_concat (Cache.empty : ReferenceCache)
      (messages.map fun other => idIn registry (wordOf other))
      (state.bookIdOf message)
    change ReferenceCache.after _ = _ at hafter
    rw [hafter]
    exact haccess

end Numbers

/-! ## Runs that never hit -/

def NeverCached (start : Pipeline size) (messages : List ItchMessage) : Prop :=
  ∀ done message, done ++ [message] <+: messages →
    ((machine size).run start done).cache.index.isCached
      (((machine size).run start done).bookIdOf message) = false

theorem neverCached_concat {start : Pipeline size} {messages : List ItchMessage}
    {message : ItchMessage} : NeverCached start (messages ++ [message]) ↔
      NeverCached start messages ∧
        ((machine size).run start messages).cache.index.isCached
          (((machine size).run start messages).bookIdOf message) = false := by
  constructor
  · intro hnever
    refine ⟨fun done other hpre => ?_, hnever messages message List.prefix_rfl⟩
    exact hnever done other (hpre.trans (List.prefix_append _ _))
  · rintro ⟨hnever, hlast⟩ done other hpre
    rcases List.prefix_concat_iff.mp hpre with hall | hearlier
    · obtain ⟨rfl, hsame⟩ := List.append_inj' hall rfl
      rwa [List.singleton_inj.mp hsame]
    · exact hnever done other hearlier

theorem AllServed.neverCached_iff {memory : UInt32 → LFUNode}
    {orders : UInt32 → Order} {messages : List ItchMessage}
    (hserved : AllServed (init memory orders : Pipeline size) messages) :
    ∃ registry, ((machine size).run (init memory orders) messages).Numbers
      registry messages ∧
      (NeverCached (init memory orders : Pipeline size) messages ↔
        (Cache.empty : ReferenceCache).hits
          (messages.map fun message => idIn registry (wordOf message)) =
            0) := by
  induction messages using List.reverseRecOn with
  | nil =>
      refine ⟨.empty,
        ⟨PrefixTrie.init_holds, by simp, LFUIndex.init_refines memory⟩, ?_⟩
      exact iff_of_true (fun done message hpre => by simp at hpre) rfl
  | append_singleton messages message ih =>
      obtain ⟨registry, hnumbers, hiff⟩ :=
        ih (hserved.of_prefix (List.prefix_append _ _))
      obtain ⟨registry', hnumbers', hid, hkept⟩ :=
        hnumbers.processMessage (hserved messages message List.prefix_rfl)
      have hearlier : messages.map
          (fun other => idIn registry' (wordOf other)) =
          messages.map fun other => idIn registry (wordOf other) :=
        List.map_congr_left hkept
      have hcached := (hnumbers.refines.isCached_iff
        (((machine size).run (init memory orders) messages).bookIdOf
          message)).trans
        (Cache.access_hit_iff _ _).symm
      refine ⟨registry', by rwa [Machine.run_append], ?_⟩
      rw [neverCached_concat, hiff, List.map_append, List.map_singleton,
        hearlier, ← hid, Cache.hits_concat, Nat.add_eq_zero_iff,
        ← Bool.not_eq_true, hcached]
      refine and_congr_right fun _ => ?_
      change _ ↔
        (if (Cache.access (ReferenceCache.after _) _).1 = _ then 1 else 0) = 0
      split
      case isTrue hhit => exact iff_of_false (not_not_intro hhit) one_ne_zero
      case isFalse hmiss => exact iff_of_true hmiss rfl

/-- An unfamiliar symbol's message executes nothing. -/
theorem Sound.executed_eq_zero {state : Pipeline size}
    {a : UInt32 → AbstractBook} (hsound : state.Sound a) {message : ItchMessage}
    (hnew : state.cache.index.isCached (state.bookIdOf message) = false) :
    state.executed message = 0 := by
  obtain ⟨after, hprocessed, -⟩ := hsound.processMessage message
  generalize (state.processMessage message).cache = cache' at hprocessed
  cases hprocessed with
  | refused hid =>
      have hrefused : state.accessed message = (none, state.cache) :=
        state.cache.access_of_ge hid message.symbol
      rw [executed, hrefused]
  | @delivered slot opened a' _ book' _ hfound _ _ hopened hreached
      _ hdelivered =>
      rw [executed, hfound, hopened]
      dsimp only
      have hempty : a' slot = AbstractBook.empty := by
        cases hreached with
        | kept hcached =>
            exact absurd (hnew.symm.trans hcached) Bool.false_ne_true
        | fresh => exact Function.update_self ..
      generalize opened.deliver slot message = books' at hdelivered
      cases hdelivered with
      | ignored hroute => rw [hroute]
      | @step op _ _ _ hroute _ hstep =>
          rw [hroute]
          rcases route_eq_some hroute with ⟨-, rfl⟩ | ⟨-, rfl⟩
          · rfl
          · dsimp only
            rw [hempty] at hstep
            generalize (opened.apply slot _).1 = filled at hstep ⊢
            generalize ((opened.apply slot _).2.book slot).tally =
              tally' at hstep
            cases hstep with
            | untraded => rfl
            | traded _ hfilled => exact hfilled.trans (Nat.min_zero _)

end Pipeline

def AbstractBook.AtMostOne (book : AbstractBook) : Prop :=
  ∃ side price, ∀ s p, (book s p).length ≤ if s = side ∧ p = price then 1 else 0

namespace AbstractBook

theorem atMostOne_setAt (side : Side) (price : UInt32) {queue : List Resting}
    (hqueue : queue.length ≤ 1) : AtMostOne (setAt empty side price queue) := by
  refine ⟨side, price, fun s p => ?_⟩
  by_cases hlevel : s = side ∧ p = price
  · rw [setAt, if_pos hlevel, if_pos hlevel]
    exact hqueue
  · rw [setAt, if_neg hlevel]
    exact Nat.zero_le _

theorem atMostOne_empty : AtMostOne empty := ⟨.bid, 0, fun _ _ => Nat.zero_le _⟩

end AbstractBook

theorem Books.Delivered.atMostOne {ι : Type*} [DecidableEq ι]
    {books books' : Books ι DepthTally size} {a : ι → AbstractBook} {slot : ι}
    {message : ItchMessage} {book' : AbstractBook}
    (hdelivered : books.Delivered a slot message books' book')
    (hempty : a slot = empty) :
    book'.AtMostOne := by
  cases hdelivered with
  | ignored =>
      rw [hempty]
      exact atMostOne_empty
  | @step op _ _ _ hroute _ hstep =>
      rw [hempty] at hstep
      generalize (books.apply slot op).1 = ret at hstep
      generalize ((books.apply slot op).2.book slot).tally = tally' at hstep
      rcases route_eq_some hroute with ⟨-, rfl⟩ | ⟨-, rfl⟩
      · cases hstep with
        | invalid | full => exact atMostOne_empty
        | placed => exact atMostOne_setAt _ _ (Nat.le_refl 1)
      · cases hstep with
        | untraded => exact atMostOne_empty
        | traded => exact atMostOne_setAt _ _ (Nat.zero_le 1)

namespace Pipeline

/-- Where no message finds its symbol in the cache, no book has more than one
order. -/
theorem NeverCached.atMostOne (hsize : 0 < size.toNat)
    {memory : UInt32 → LFUNode} {orders : UInt32 → Order}
    {messages : List ItchMessage}
    (hnever : NeverCached (init memory orders : Pipeline size) messages) :
    ∃ a, ((machine size).run (init memory orders) messages).Sound a ∧
      ∀ bookId,
        ((machine size).run (init memory orders) messages).cache.index.isCached
          bookId = true →
        (a (((machine size).run (init memory orders)
          messages).cache.index.bookToSlot bookId.toUInt32)).AtMostOne := by
  induction messages using List.reverseRecOn with
  | nil =>
      refine ⟨_, init_sound hsize memory orders, fun bookId hcached => ?_⟩
      simp [init, LFUCache.init, LFUIndex.init, LFUIndex.isCached] at hcached
  | append_singleton messages message ih =>
      obtain ⟨hearlier, hnew⟩ := neverCached_concat.mp hnever
      obtain ⟨a, ⟨reference, hcache⟩, hall⟩ := ih hearlier
      rw [Machine.run_append]
      generalize (machine size).run (init memory orders) messages = state at *
      obtain ⟨after, hprocessed, hsound'⟩ :=
        Sound.processMessage ⟨reference, hcache⟩ message
      obtain ⟨reference', hcache'⟩ := hsound'
      refine ⟨after, ⟨reference', hcache'⟩, ?_⟩
      refine hprocessed.forall_cached
        (fun bookId _ book =>
          if bookId = state.bookIdOf message then book = empty
          else book.AtMostOne)
        (fun _ _ book => book.AtMostOne) hcache hcache' ?_
          (fun _ => by rw [if_pos rfl]) ?_ ?_
      · intro bookId tally book hne _ hearlier
        rwa [if_neg hne] at hearlier
      · intro slot opened a' book' _ _ _ hdelivered hempty
        rw [if_pos rfl] at hempty
        exact hdelivered.atMostOne hempty
      · intro bookId hcached
        have hne : bookId ≠ state.bookIdOf message := by
          rintro rfl
          exact absurd (hnew.symm.trans hcached) Bool.false_ne_true
        rw [if_neg hne]
        exact hall bookId hcached

/-- Thrashing.  On messages about at most 256 symbols, every message finds its
symbol out of the cache exactly when two messages about a symbol are always more
than 5 messages apart.  Then no trade executes anything, and no book ever holds
more than one order. -/
theorem thrashes_iff (memory : UInt32 → LFUNode) (orders : UInt32 → Order)
    (messages : List ItchMessage) (hfew : (symbolsOf messages).card ≤ 256) :
    let start : Pipeline maxOrders := init memory orders
    (NeverCached start messages ↔ SpreadOut maxCacheSize.toNat
      (messages.map wordOf)) ∧
      (NeverCached start messages →
        (∀ done message, done ++ [message] <+: messages →
          ((machine maxOrders).run start done).executed message = 0) ∧
        ∀ bookId, ((machine maxOrders).run start messages).cache.index.isCached
          bookId = true →
          (((machine maxOrders).run start messages).restingOf
            bookId).AtMostOne) := by
  intro start
  refine ⟨?_, fun hnever =>
    ⟨fun done message hpre => ?_, fun bookId hcached => ?_⟩⟩
  · have hserved : AllServed start messages :=
      allServed_of_few memory orders hfew
    obtain ⟨registry, hnumbers, hiff⟩ := hserved.neverCached_iff
    have hids : messages.map (fun message => idIn registry (wordOf message)) =
        (messages.map wordOf).map (idIn registry) := by
      rw [List.map_map]
      rfl
    rw [hiff, (hits_eq_zero_iff (by decide) _).1, hids]
    refine spreadOut_map fun key hkey other hother heq => ?_
    obtain ⟨message, hmessage, rfl⟩ := List.mem_map.mp hkey
    obtain ⟨message', hmessage', rfl⟩ := List.mem_map.mp hother
    exact hnumbers.idIn_inj hmessage hmessage' heq
  · have hearlier : NeverCached start done := fun earlier other hother =>
      hnever earlier other (hother.trans ((List.prefix_append _ _).trans hpre))
    obtain ⟨a, hsound, -⟩ := hearlier.atMostOne maxOrders_pos
    exact hsound.executed_eq_zero (hnever done message hpre)
  · obtain ⟨a, hsound, hall⟩ := hnever.atMostOne maxOrders_pos
    rw [hsound.restingOf_eq bookId]
    exact hall bookId hcached

/-- Six symbols in turn, until a trade comes for the order of the first. -/
theorem thrashes_iff_in_turn :
    let start : Pipeline maxOrders := init (fun _ => default) fun _ => default
    let symbol (n : UInt8) : Symbol := #v[65, 0, 0, 0, 0, 0, 0, n]
    let done : List ItchMessage := [⟨addType, symbol 0, 0, 100, 1⟩,
      ⟨addType, symbol 1, 0, 100, 1⟩, ⟨addType, symbol 2, 0, 100, 1⟩,
      ⟨addType, symbol 3, 0, 100, 1⟩, ⟨addType, symbol 4, 0, 100, 1⟩,
      ⟨addType, symbol 5, 0, 100, 1⟩]
    let trade : ItchMessage := ⟨tradeType, symbol 0, 0, 100, 1⟩
    NeverCached start (done ++ [trade]) ∧
      ((machine maxOrders).run start done).executed trade = 0 := by
  intro start symbol done trade
  have hthrashes := thrashes_iff (fun _ => default) (fun _ => default)
    (done ++ [trade]) (by decide)
  have hnever := hthrashes.1.mpr (by decide)
  exact ⟨hnever, (hthrashes.2 hnever).1 done trade List.prefix_rfl⟩

end Pipeline

end MarketDataPipeline
