import MarketDataPipeline.Pipeline.Isolation
import MarketDataPipeline.Pipeline.OrderConservation
import MarketDataPipeline.Pipeline.SymbolStreams

/-!
# Few symbols

As many symbols as the cache has books never displace each other.  Each book
then is what all messages about its symbol make of a fresh book, and the order
in which messages about different symbols come is of no consequence.
-/

namespace MarketDataPipeline

open AbstractBook LFUPolicy PrefixTrie

variable {size : UInt32}

namespace Pipeline

def adds (messages : List ItchMessage) : List ItchMessage :=
  messages.filter fun message => message.type = addType

/-- The messages about the symbol of `message`. -/
def stream (messages : List ItchMessage) (message : ItchMessage) :
    List ItchMessage :=
  messages.filter fun other => wordOf other = wordOf message

theorem adds_concat_length (messages : List ItchMessage)
    (message : ItchMessage) :
    (adds (messages ++ [message])).length =
      (adds messages).length + if message.type = addType then 1 else 0 := by
  rw [adds, List.filter_append, List.length_append, ← adds]
  by_cases hadd : message.type = addType
  · rw [if_pos hadd, List.filter_cons_of_pos (by simpa using hadd)]
    rfl
  · rw [if_neg hadd, List.filter_cons_of_neg (by simpa using hadd)]
    rfl

/-- A message takes at most one slot of the pool, and an Add message only. -/
theorem Sound.activeCount_le {state : Pipeline size} {a : UInt32 → AbstractBook}
    (hsound : state.Sound a) (message : ItchMessage) :
    (state.accessed message).2.books.pool.activeCount.toNat ≤
        state.cache.books.pool.activeCount.toNat ∧
      (state.processMessage message).cache.books.pool.activeCount.toNat ≤
        state.cache.books.pool.activeCount.toNat +
          if message.type = addType then 1 else 0 := by
  obtain ⟨after, hprocessed, -⟩ := hsound.processMessage message
  obtain ⟨reference, hcache⟩ := hsound
  have haccess := hcache.access_activeCount (state.bookIdOf message)
    message.symbol
  change (state.accessed message).2.books.pool.activeCount.toNat + _ =
    _ at haccess
  refine ⟨by omega, ?_⟩
  generalize (state.processMessage message).cache = cache' at hprocessed ⊢
  cases hprocessed with
  | refused => exact Nat.le_add_right _ _
  | @delivered slot opened a' index book' _ _ _ _ hopened _ hopenedSound _ =>
      have hdeliver := deliver_activeCount hopenedSound slot message
      rw [hopened] at haccess
      dsimp only
      by_cases hadd : message.type = addType
      · rw [if_pos hadd]
        split at hdeliver <;> omega
      · rw [if_neg fun hplaced => hadd hplaced.1] at hdeliver
        rw [if_neg hadd]
        omega

theorem activeCount_le_adds (hsize : 0 < size.toNat) (memory : UInt32 → LFUNode)
    (orders : UInt32 → Order) (messages : List ItchMessage) :
    (∃ a, ((machine size).run (init memory orders) messages).Sound a) ∧
      ((machine size).run (init memory orders)
        messages).cache.books.pool.activeCount.toNat ≤
        (adds messages).length := by
  induction messages using List.reverseRecOn with
  | nil => exact ⟨⟨_, init_sound hsize memory orders⟩, Nat.le_refl 0⟩
  | append_singleton messages message ih =>
      obtain ⟨⟨a, hsound⟩, hcount⟩ := ih
      have hstep := (hsound.activeCount_le message).2
      obtain ⟨after, -, hsound'⟩ := hsound.processMessage message
      rw [Machine.run_append, adds_concat_length]
      exact ⟨⟨after, hsound'⟩, hstep.trans (Nat.add_le_add_right hcount _)⟩

/-- No allocation fails while no more Adds came than the pool has slots. -/
theorem not_allocationFails (hsize : 0 < size.toNat) (memory : UInt32 → LFUNode)
    (orders : UInt32 → Order) {messages : List ItchMessage}
    {message : ItchMessage}
    (hadds : (adds (messages ++ [message])).length ≤ size.toNat) :
    ¬ AllocationFails
      (((machine size).run (init memory orders) messages).accessed
        message).2.books.pool
      message := by
  rintro ⟨hadd, -, hnull⟩
  obtain ⟨⟨a, hsound⟩, hcount⟩ :=
    activeCount_le_adds hsize memory orders messages
  generalize (machine size).run (init memory orders) messages = state at *
  have haccessed := (hsound.activeCount_le message).1
  rw [adds_concat_length, if_pos hadd] at hadds
  have hpool : ∃ free, (state.accessed message).2.books.pool.FreeList free := by
    obtain ⟨after, hprocessed, -⟩ := hsound.processMessage message
    obtain ⟨reference, hcache⟩ := hsound
    generalize (state.processMessage message).cache = cache' at hprocessed
    cases hprocessed with
    | refused hid =>
        have hrefused : state.accessed message = (none, state.cache) :=
          state.cache.access_of_ge hid message.symbol
        rw [hrefused]
        exact hcache.books.holds.freeList
    | delivered _ _ _ _ hopened _ hopenedSound _ =>
        rw [hopened]
        exact hopenedSound.holds.freeList
  obtain ⟨free, hfree⟩ := hpool
  have hfull := hfree.count
  rw [hfree.alloc_eq_null.mp hnull, List.length_nil] at hfull
  omega

/-! ## Symbols that fit the cache -/

/-- On no more symbols than the cache has books, the symbols met are those
cached. -/
theorem Numbers.isCached_iff_of_few {state : Pipeline size}
    {registry : Registry (List UInt8)} {messages : List ItchMessage}
    (hnumbers : state.Numbers registry messages)
    (hfew : (symbolsOf messages).card ≤ 5) (bookId : UInt16) :
    state.cache.index.isCached bookId = true ↔
      ∃ message ∈ messages, idIn registry (wordOf message) = bookId := by
  have hids : (messages.map fun message =>
      idIn registry (wordOf message)).toFinset =
      (symbolsOf messages).image (idIn registry) := by
    ext id
    simp [symbolsOf, mem_wordsOf, wordOf]
  have hcard :=
    (Finset.card_image_le (s := symbolsOf messages)
      (f := idIn registry)).trans hfew
  rw [← hids] at hcard
  rw [hnumbers.refines.isCached_iff, ReferenceCache.after]
  exact (mem_keys_run_of_few hcard bookId).trans List.mem_map

def fedRun (memory : UInt32 → LFUNode) (orders : UInt32 → Order)
    (messages : List ItchMessage) :
    Pipeline size × (UInt16 → List ItchMessage) :=
  (fedMachine size).run (init memory orders, fun _ => []) messages

theorem fedRun_fst (memory : UInt32 → LFUNode) (orders : UInt32 → Order)
    (messages : List ItchMessage) :
    (fedRun memory orders messages : Pipeline size × _).1 =
      (machine size).run (init memory orders) messages := by
  induction messages using List.reverseRecOn with
  | nil => rfl
  | append_singleton messages message ih =>
      rw [fedRun, Machine.run_append, ← fedRun, Machine.run_append, ← ih]
      rfl

theorem fedRun_isolated (hsize : 0 < size.toNat) (memory : UInt32 → LFUNode)
    (orders soloOrders : UInt32 → Order) (messages : List ItchMessage) :
    (fedRun memory orders messages : Pipeline size × _).1.Isolated soloOrders
      (fedRun memory orders messages : Pipeline size × _).2 := by
  refine Machine.invariant
    (fun state : Pipeline size × (UInt16 → List ItchMessage) =>
      state.1.Isolated soloOrders state.2)
    (fun _ message hstate _ => hstate.processMessage hsize message) ?_
    (Machine.legal_of_forall (fun _ _ => trivial) _ messages)
  refine ⟨_, init_sound hsize memory orders, fun id hid => ?_⟩
  simp [init, LFUCache.init, LFUIndex.init, LFUIndex.isCached] at hid

/-- Each book of few symbols is fed all messages about its symbol. -/
theorem fedRun_of_few (hsize : 0 < size.toNat) (memory : UInt32 → LFUNode)
    (orders : UInt32 → Order) {messages : List ItchMessage}
    (hfew : (symbolsOf messages).card ≤ 5) (hadds : (adds messages).length ≤
      size.toNat) :
    ∃ registry, ((machine size).run (init memory orders) messages).Numbers
      registry messages ∧
      ∀ bookId, (fedRun memory orders messages : Pipeline size × _).2 bookId =
        messages.filter fun message =>
          idIn registry (wordOf message) = bookId := by
  induction messages using List.reverseRecOn with
  | nil =>
      exact ⟨.empty,
        ⟨PrefixTrie.init_holds, by simp, LFUIndex.init_refines memory⟩,
        fun _ => rfl⟩
  | append_singleton messages message ih =>
      have hserved : AllServed (init memory orders : Pipeline size)
          (messages ++ [message]) :=
        allServed_of_few memory orders (hfew.trans (by decide))
      have hfewer : symbolsOf messages ⊆ symbolsOf (messages ++ [message]) :=
        wordsOf_mono
          (by rw [List.map_append]; exact List.subset_append_left _ _)
      have hfewer' := (Finset.card_le_card hfewer).trans hfew
      have hadds' := adds_concat_length messages message
      obtain ⟨registry, hnumbers, hfed⟩ := ih hfewer' (by omega)
      obtain ⟨registry', hnumbers', hid, hkept⟩ :=
        hnumbers.processMessage (hserved messages message List.prefix_rfl)
      have hfits := not_allocationFails hsize memory orders hadds
      have hcached := hnumbers.isCached_iff_of_few hfewer'
      refine ⟨registry', by rwa [Machine.run_append], fun bookId => ?_⟩
      have hearlier : messages.filter
          (fun other => idIn registry' (wordOf other) = bookId) =
          messages.filter fun other => idIn registry (wordOf other) = bookId :=
        List.filter_congr fun other hother => by rw [hkept other hother]
      have hstep :
          (fedRun memory orders (messages ++ [message]) : Pipeline size × _).2 =
          ((machine size).run (init memory orders) messages).fedAfter
            (fedRun memory orders messages : Pipeline size × _).2 message := by
        rw [fedRun, Machine.run_append, ← fedRun, ← fedRun_fst]
        rfl
      rw [hstep, fedAfter, List.filter_append, hearlier, ← hfed bookId]
      by_cases hsame : bookId =
        ((machine size).run (init memory orders) messages).bookIdOf message
      · subst hsame
        rw [Function.update_self, if_neg hfits,
          List.filter_cons_of_pos (by simpa using hid.symm), List.filter_nil]
        congr 1
        split
        case isTrue => rfl
        case isFalse hnew =>
          -- A symbol that is not cached was not met before.
          rw [hfed, eq_comm, List.filter_eq_nil_iff]
          intro other hother heq
          exact hnew ((hcached _).mpr ⟨other, hother, by simpa using heq⟩)
      · have hother : ¬ idIn registry' (wordOf message) = bookId := fun heq =>
          hsame (heq.symm.trans hid.symm)
        rw [Function.update_of_ne hsame,
          List.filter_cons_of_neg (by simpa using hother), List.filter_nil,
          List.append_nil]

/-- The book of a symbol, among few symbols, is cached and mirrors a fresh book
that was fed all messages about the symbol. -/
theorem mirrors_of_few (hsize : 0 < size.toNat) (memory : UInt32 → LFUNode)
    (orders soloOrders : UInt32 → Order) {messages : List ItchMessage}
    (hfew : (symbolsOf messages).card ≤ 5)
    (hadds : (adds messages).length ≤ size.toNat) {message : ItchMessage}
    (hmessage : message ∈ messages) :
    let state := (machine size).run (init memory orders) messages
    let bookId := state.trie.lookup message.symbol
    state.cache.index.isCached bookId = true ∧
      (soloRun size soloOrders (stream messages message)).Mirrors
        (state.restingOf bookId)
        (state.bookOf bookId).tally := by
  intro state bookId
  obtain ⟨registry, hnumbers, hfed⟩ :=
    fedRun_of_few hsize memory orders hfew hadds
  have hid : bookId = idIn registry (wordOf message) :=
    hnumbers.lookup_eq message
  have hcached : state.cache.index.isCached bookId = true :=
    (hnumbers.isCached_iff_of_few hfew bookId).mpr ⟨message, hmessage, hid.symm⟩
  obtain ⟨a, hsound, hmirrors⟩ :=
    fedRun_isolated hsize memory orders soloOrders messages
  have hstream : (fedRun memory orders messages : Pipeline size × _).2 bookId =
      stream messages message := by
    rw [hfed, hid]
    refine List.filter_congr fun other hother => decide_eq_decide.mpr ?_
    exact ⟨fun heq => hnumbers.idIn_inj hother hmessage heq,
      fun heq => by rw [heq]⟩
  rw [fedRun_fst] at hsound hmirrors
  have hmirror := hmirrors bookId hcached
  rw [hstream] at hmirror
  refine ⟨hcached, ?_⟩
  rw [hsound.restingOf_eq bookId]
  exact hmirror

/-- Messages are counted in the stream of their symbol. -/
theorem perm_of_streams {messages later : List ItchMessage}
    (hstreams : ∀ message, stream messages message = stream later message) :
    messages.Perm later := by
  classical
  refine List.perm_iff_count.mpr fun message => ?_
  have hcount : ∀ list : List ItchMessage, (stream list message).count message =
      list.count message := fun list => List.count_filter (by simp)
  rw [← hcount messages, ← hcount later, hstreams]

/-- How the messages of different symbols interleave is of no consequence, while
there are at most 5 symbols and no more Adds than order slots.  Two sequences
with the same messages about each symbol in the same order keep every symbol
cached and lead to the same books: the same orders by id and quantity in the
same places of all queues, and the same best prices, level quantities, trees and
counters. -/
theorem interleaving_immaterial (memory memory' : UInt32 → LFUNode)
    (orders orders' : UInt32 → Order) (messages later : List ItchMessage)
    (hfew : (symbolsOf messages).card ≤ 5) (hadds : (adds messages).length ≤
      maxOrders.toNat)
    (hstreams : ∀ message, stream messages message = stream later message) :
    let state := (machine maxOrders).run (init memory orders) messages
    let other := (machine maxOrders).run (init memory' orders') later
    ∀ message ∈ messages,
      let bookId := state.trie.lookup message.symbol
      let otherId := other.trie.lookup message.symbol
      (state.cache.index.isCached bookId = true ∧
        other.cache.index.isCached otherId = true) ∧
        (∀ side price, (state.restingOf bookId side price).map Resting.visible =
          (other.restingOf otherId side price).map Resting.visible) ∧
        (state.bookOf bookId).tally = (other.bookOf otherId).tally := by
  intro state other message hmessage bookId otherId
  have hperm := perm_of_streams hstreams
  have hfew' : (symbolsOf later).card ≤ 5 := by
    rwa [symbolsOf, wordsOf, ← List.toFinset_eq_of_perm _ _
      ((hperm.map ItchMessage.symbol).map word)]
  have hadds' : (adds later).length ≤ maxOrders.toNat := by
    rwa [adds, ← (hperm.filter _).length_eq]
  obtain ⟨hcached, htally, own, hown, halike⟩ :=
    mirrors_of_few maxOrders_pos memory orders (fun _ => default) hfew
      hadds hmessage
  obtain ⟨hcached', htally', own', hown', halike'⟩ :=
    mirrors_of_few maxOrders_pos memory' orders' (fun _ => default) hfew' hadds'
      (hperm.mem_iff.mp hmessage)
  rw [← hstreams] at htally' hown'
  have hsame : own = own' := by
    funext slot side price
    rw [← (hown.holds.represents slot).contents_eq,
      (hown'.holds.represents slot).contents_eq]
  refine ⟨⟨hcached, hcached'⟩, fun side price => ?_, htally.symm.trans htally'⟩
  rw [← halike side price, hsame]
  exact halike' side price

/-- Two symbols' messages in two orders. -/
theorem interleaving_immaterial_swapped :
    let first : ItchMessage := ⟨addType, btcUsdt, 1, 100, 5⟩
    let second : ItchMessage := ⟨addType, numberedSymbol 0, 2, 40, 7⟩
    let state := (machine maxOrders).run (init (fun _ => default) fun _ =>
      default) [first, second]
    let other := (machine maxOrders).run (init (fun _ => default) fun _ =>
      default) [second, first]
    (state.bookOf (state.trie.lookup first.symbol)).tally =
      (other.bookOf (other.trie.lookup first.symbol)).tally :=
  (interleaving_immaterial (fun _ => default) (fun _ => default)
    (fun _ => default)
    (fun _ => default) [⟨addType, btcUsdt, 1, 100, 5⟩,
      ⟨addType, numberedSymbol 0, 2, 40, 7⟩]
    [⟨addType, numberedSymbol 0, 2, 40, 7⟩, ⟨addType, btcUsdt, 1, 100, 5⟩]
      (by decide) (by decide)
    (by
      have hne : word btcUsdt ≠ word (numberedSymbol 0) := by decide
      intro message
      by_cases hfirst : word btcUsdt = word message.symbol
      · have hsecond : ¬ word (numberedSymbol 0) = word message.symbol :=
          fun heq => hne (hfirst.trans heq.symm)
        simp [stream, wordOf, hfirst, hsecond]
      · simp [stream, wordOf, List.filter_cons, hfirst])
    ⟨addType, btcUsdt, 1, 100, 5⟩ (by simp)).2.2

end Pipeline

end MarketDataPipeline
