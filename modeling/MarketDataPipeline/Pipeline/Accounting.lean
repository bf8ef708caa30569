import MarketDataPipeline.Pipeline.MessageStep

/-!
# Accounting of packets and accesses

The counters of the loop and of the cache, taken as exact integers beside a run:
they are bumped where the code bumps its own and never read.  They balance after
every batch, and the code's counters are theirs modulo 2^64.
-/

namespace MarketDataPipeline

variable {size : UInt32}

/-! ## The counters of the cache -/

/-- The counters of the cache, without overflow. -/
structure CacheCounters where
  hits : ℕ
  misses : ℕ
  evictions : ℕ

theorem counter_succ {counter : UInt64} {count : ℕ}
    (hcounter : counter = .ofNat count) :
    counter + 1 = .ofNat (count + 1) := by
  rw [UInt64.ofNat_add, hcounter]
  rfl

theorem counter_add {counter : UInt64} {count : ℕ}
    (hcounter : counter = .ofNat count)
    (more : ℕ) : counter + .ofNat more = .ofNat (count + more) := by
  rw [UInt64.ofNat_add, hcounter]

namespace LFUIndex

/-- `evict_lfu` on the exact counters. -/
def countEvict (index : LFUIndex) (counters : CacheCounters) : CacheCounters :=
  if (index.lists.freqBuckets index.minFrequency).tail = lfuNullIdx then
    counters
  else { counters with evictions := counters.evictions + 1 }

/-- `access` on the exact counters. -/
def countAccess (index : LFUIndex) (bookId : UInt16)
    (counters : CacheCounters) :
    CacheCounters :=
  if bookId.toUInt32 ≥ maxSymbols then counters
  else if (index.lists.nodes bookId.toUInt32).inCache then
    { counters with hits := counters.hits + 1 }
  else
    let missed := { counters with misses := counters.misses + 1 }
    if index.cacheSize < maxCacheSize then missed else index.countEvict missed

/-- The code's counters are the exact ones modulo 2^64. -/
structure Reads (index : LFUIndex) (counters : CacheCounters) : Prop where
  hits : index.hits = .ofNat counters.hits
  misses : index.misses = .ofNat counters.misses
  evictions : index.evictions = .ofNat counters.evictions

variable {index : LFUIndex} {counters : CacheCounters}
  {reference : ReferenceCache}

theorem Reads.evictLfu (hreads : index.Reads counters) :
    index.evictLfu.2.Reads (index.countEvict counters) := by
  rw [LFUIndex.evictLfu, countEvict]
  dsimp only
  split
  · exact hreads
  · exact ⟨hreads.hits, hreads.misses, counter_succ hreads.evictions⟩

theorem Reads.access (hreads : index.Reads counters) (bookId : UInt16)
    (symbol : Symbol) :
    (index.access bookId symbol).2.Reads
      (index.countAccess bookId counters) := by
  rw [LFUIndex.access, countAccess]
  by_cases hid : bookId.toUInt32 ≥ maxSymbols
  · rw [if_pos hid, if_pos hid]
    exact hreads
  rw [if_neg hid, if_neg hid]
  by_cases hcached : (index.lists.nodes bookId.toUInt32).inCache = true
  · rw [if_pos hcached, if_pos hcached]
    exact ⟨counter_succ hreads.hits, hreads.misses, hreads.evictions⟩
  rw [if_neg hcached, if_neg hcached]
  have hmissed : Reads { index with misses := index.misses + 1 }
      { counters with misses := counters.misses + 1 } :=
    ⟨hreads.hits, counter_succ hreads.misses, hreads.evictions⟩
  dsimp only
  rw [claimSlot]
  dsimp only
  split
  · exact ⟨hmissed.hits, hmissed.misses, hmissed.evictions⟩
  · exact ⟨hmissed.evictLfu.hits, hmissed.evictLfu.misses,
      hmissed.evictLfu.evictions⟩

/-- An access that is not refused is a hit or a miss. -/
theorem countAccess_lookups (index : LFUIndex) (bookId : UInt16)
    (counters : CacheCounters) :
    (index.countAccess bookId counters).hits +
      (index.countAccess bookId counters).misses =
      counters.hits + counters.misses +
        if bookId.toUInt32 < maxSymbols then 1 else 0 := by
  rw [countAccess]
  by_cases hid : bookId.toUInt32 ≥ maxSymbols
  · rw [if_pos hid, if_neg (UInt32.not_lt.mpr hid)]
    rfl
  rw [if_neg hid, if_pos (UInt32.not_le.mp hid)]
  split
  · dsimp only
    omega
  dsimp only
  split
  · dsimp only
    omega
  · rw [countEvict]
    split <;> (dsimp only; omega)

/-- Each miss fills a slot or evicts a symbol: the silent way out of `evict_lfu`
is never taken. -/
theorem Refines.countAccess_misses (hrefines : index.Refines reference)
    (bookId : UInt16) (symbol : Symbol)
    (hbalanced : counters.misses = counters.evictions + index.cacheSize.toNat) :
    (index.countAccess bookId counters).misses =
      (index.countAccess bookId counters).evictions +
        (index.access bookId symbol).2.cacheSize.toNat := by
  rw [LFUIndex.access, countAccess]
  by_cases hid : bookId.toUInt32 ≥ maxSymbols
  · rw [if_pos hid, if_pos hid]
    exact hbalanced
  rw [if_neg hid, if_neg hid]
  by_cases hcached : (index.lists.nodes bookId.toUInt32).inCache = true
  · rw [if_pos hcached, if_pos hcached]
    exact hbalanced
  rw [if_neg hcached, if_neg hcached]
  dsimp only [occupy]
  rw [claimSlot]
  dsimp only
  split
  case isTrue hroom =>
    have hsize : maxCacheSize.toNat = 5 := rfl
    rw [UInt32.lt_iff_toNat_lt, hsize] at hroom
    dsimp only
    rw [UInt32.toNat_add, UInt32.toNat_one, Nat.mod_eq_of_lt (by omega)]
    omega
  case isFalse hfull =>
    have htail := hrefines.tail_ne_null hfull
    rw [countEvict, if_neg htail, LFUIndex.evictLfu]
    dsimp only
    rw [if_neg htail]
    dsimp only
    omega

end LFUIndex

/-! ## The counters of the loop -/

structure Counters where
  totalReceived : ℕ
  totalPackets : ℕ
  totalAdds : ℕ
  totalTrades : ℕ
  parseFailures : ℕ
  uniqueSymbols : ℕ
  cache : CacheCounters

def Counters.zero : Counters := ⟨0, 0, 0, 0, 0, 0, ⟨0, 0, 0⟩⟩

namespace Pipeline

/-- The loop body for a parsed message on the exact counters. -/
def countMessage (state : Pipeline size) (message : ItchMessage)
    (counters : Counters) :
    Counters :=
  let routed := state.trie.getOrCreate message.symbol
  let uniqueSymbols :=
    if routed.created then counters.uniqueSymbols + 1
    else counters.uniqueSymbols
  let cache := state.cache.index.countAccess routed.bookId counters.cache
  match (state.cache.access routed.bookId message.symbol).1 with
  | none =>
      { counters with
        uniqueSymbols
        cache
        parseFailures := counters.parseFailures + 1 }
  | some _ =>
      { counters with
        uniqueSymbols
        cache
        totalAdds :=
          if message.type = addType then counters.totalAdds + 1
          else counters.totalAdds
        totalTrades :=
          if message.type = addType then counters.totalTrades
          else if message.type = tradeType then counters.totalTrades + 1
          else counters.totalTrades
        totalPackets := counters.totalPackets + 1 }

def countPacket (state : Pipeline size) :
    Option ItchMessage → Counters → Counters
  | none, counters =>
      { counters with parseFailures := counters.parseFailures + 1 }
  | some message, counters => state.countMessage message counters

def packetMachine (size : UInt32) :
    Machine (Pipeline size) (Option ItchMessage) where
  allowed _ _ := True
  step := processPacket

def batchMachine (size : UInt32) :
    Machine (Pipeline size) (List (Option ItchMessage)) where
  allowed _ _ := True
  step := processBatch

/-- One round of the loop on the exact counters. -/
def countBatch (state : Pipeline size) (packets : List (Option ItchMessage))
    (counters : Counters) : Counters :=
  (((packetMachine size).observed countPacket).run
    ({ state with
       totalReceived := state.totalReceived + .ofNat packets.length },
      { counters with
        totalReceived := counters.totalReceived + packets.length })
      packets).2

/-- The code's counters are the exact ones modulo 2^64. -/
structure Reads (state : Pipeline size) (counters : Counters) : Prop where
  totalReceived : state.totalReceived = .ofNat counters.totalReceived
  totalPackets : state.totalPackets = .ofNat counters.totalPackets
  totalAdds : state.totalAdds = .ofNat counters.totalAdds
  totalTrades : state.totalTrades = .ofNat counters.totalTrades
  parseFailures : state.parseFailures = .ofNat counters.parseFailures
  uniqueSymbols : state.uniqueSymbols = .ofNat counters.uniqueSymbols
  cache : state.cache.index.Reads counters.cache

/-- The counters balance while `pending` packets of the batch are to be
processed. -/
structure Balanced (state : Pipeline size) (counters : Counters) (pending : ℕ) :
    Prop where
  received : counters.totalReceived =
    counters.totalPackets + counters.parseFailures + pending
  packets : counters.totalPackets = counters.cache.hits + counters.cache.misses
  misses : counters.cache.misses =
    counters.cache.evictions + state.cache.index.cacheSize.toNat

/-- A message that finds a book is counted by its type. -/
theorem processMessage_totals {state : Pipeline size} {message : ItchMessage}
    {slot : UInt32} (hslot : (state.accessed message).1 = some slot) :
    (state.processMessage message).totalAdds =
        state.totalAdds + .ofNat (if message.type = addType then 1 else 0) ∧
      (state.processMessage message).totalTrades =
        state.totalTrades +
          .ofNat (if message.type = tradeType then 1 else 0) := by
  rw [accessed, bookIdOf] at hslot
  rw [processMessage]
  dsimp only
  rw [hslot]
  constructor
  · dsimp only
    split
    · rfl
    · exact (UInt64.add_zero _).symm
  · dsimp only
    by_cases hadd : message.type = addType
    · rw [if_pos hadd, hadd, if_neg addType_ne_tradeType]
      exact (UInt64.add_zero _).symm
    · rw [if_neg hadd]
      split
      · rfl
      · exact (UInt64.add_zero _).symm

theorem Reads.processMessage {state : Pipeline size} {counters : Counters}
    (hreads : state.Reads counters) (message : ItchMessage) :
    (state.processMessage message).Reads
      (state.countMessage message counters) := by
  have hcache := hreads.cache.access (state.bookIdOf message) message.symbol
  rw [← LFUCache.access_index] at hcache
  rw [bookIdOf] at hcache
  rw [Pipeline.processMessage, countMessage]
  dsimp only
  generalize state.cache.access _ message.symbol = accessed at hcache ⊢
  obtain ⟨_ | slot, cache⟩ := accessed
  · refine ⟨hreads.totalReceived, hreads.totalPackets, hreads.totalAdds,
      hreads.totalTrades,
      counter_succ hreads.parseFailures, ?_, hcache⟩
    dsimp only
    split
    · exact counter_succ hreads.uniqueSymbols
    · exact hreads.uniqueSymbols
  · refine ⟨hreads.totalReceived, counter_succ hreads.totalPackets, ?_, ?_,
      hreads.parseFailures,
      ?_, hcache⟩
    all_goals dsimp only
    · split
      · exact counter_succ hreads.totalAdds
      · exact hreads.totalAdds
    · split
      · exact hreads.totalTrades
      split
      · exact counter_succ hreads.totalTrades
      · exact hreads.totalTrades
    · split
      · exact counter_succ hreads.uniqueSymbols
      · exact hreads.uniqueSymbols

theorem Balanced.processMessage {state : Pipeline size} {counters : Counters}
    {pending : ℕ} {a : UInt32 → AbstractBook} (hsound : state.Sound a)
    (hbalanced : state.Balanced counters (pending + 1))
    (message : ItchMessage) :
    (state.processMessage message).Balanced
    (state.countMessage message counters) pending := by
  obtain ⟨reference, hcache⟩ := hsound
  have hlookups :=
    state.cache.index.countAccess_lookups (state.bookIdOf message)
      counters.cache
  have hmisses := hcache.index.countAccess_misses (state.bookIdOf message)
    message.symbol
    hbalanced.misses
  have hreceived := hbalanced.received
  have hpackets := hbalanced.packets
  rw [← processMessage_index] at hmisses
  by_cases hid : (state.bookIdOf message).toUInt32 < maxSymbols
  · obtain ⟨slot, hslot⟩ := (state.accessed_isSome_iff message).mpr hid
    rw [if_pos hid] at hlookups
    rw [accessed, bookIdOf] at hslot
    rw [countMessage, hslot]
    refine ⟨?_, ?_, hmisses⟩
    all_goals
      rw [bookIdOf] at hlookups
      dsimp only
      omega
  · have hrefused :=
      state.cache.access_of_ge (UInt32.not_lt.mp hid) message.symbol
    rw [if_neg hid] at hlookups
    rw [bookIdOf] at hrefused
    rw [countMessage, hrefused]
    refine ⟨?_, ?_, hmisses⟩
    all_goals
      rw [bookIdOf] at hlookups
      dsimp only
      omega

/-- What holds of a state and of its exact counters. -/
def Accounted (pending : ℕ) (ledger : Pipeline size × Counters) : Prop :=
  (∃ a, ledger.1.Sound a) ∧ ledger.1.Reads ledger.2 ∧
    ledger.1.Balanced ledger.2 pending

theorem Accounted.processPacket {pending : ℕ}
    {ledger : Pipeline size × Counters}
    (haccounted : Accounted (pending + 1) ledger)
    (packet : Option ItchMessage) :
    Accounted pending (((packetMachine size).observed countPacket).step ledger
      packet) := by
  obtain ⟨⟨a, hsound⟩, hreads, hbalanced⟩ := haccounted
  cases packet with
  | none =>
      have hreceived := hbalanced.received
      refine ⟨⟨a, hsound⟩,
        ⟨hreads.totalReceived, hreads.totalPackets, hreads.totalAdds,
        hreads.totalTrades, counter_succ hreads.parseFailures,
        hreads.uniqueSymbols,
        hreads.cache⟩, ?_, hbalanced.packets, hbalanced.misses⟩
      change ledger.2.totalReceived =
        ledger.2.totalPackets + (ledger.2.parseFailures + 1) + pending
      omega
  | some message =>
      obtain ⟨a', -, hsound'⟩ := hsound.processMessage message
      exact ⟨⟨a', hsound'⟩, hreads.processMessage message,
        hbalanced.processMessage hsound message⟩

theorem Accounted.processPackets {packets : List (Option ItchMessage)}
    {pending : ℕ} {ledger : Pipeline size × Counters}
    (haccounted : Accounted (packets.length + pending) ledger) :
    Accounted pending (((packetMachine size).observed countPacket).run ledger
      packets) := by
  induction packets generalizing ledger with
  | nil => rwa [List.length_nil, Nat.zero_add] at haccounted
  | cons packet rest ih =>
      rw [List.length_cons, Nat.add_right_comm] at haccounted
      exact ih (haccounted.processPacket packet)

theorem Accounted.processBatch {ledger : Pipeline size × Counters}
    (haccounted : Accounted 0 ledger) (packets : List (Option ItchMessage)) :
    Accounted 0 (((batchMachine size).observed countBatch).step ledger
      packets) := by
  obtain ⟨hsound, hreads, hbalanced⟩ := haccounted
  have hstart : Accounted (packets.length + 0)
      ({ ledger.1 with
         totalReceived := ledger.1.totalReceived + .ofNat packets.length },
        { ledger.2 with
          totalReceived := ledger.2.totalReceived + packets.length }) := by
    refine ⟨hsound, ⟨counter_add hreads.totalReceived _, hreads.totalPackets,
      hreads.totalAdds,
      hreads.totalTrades, hreads.parseFailures, hreads.uniqueSymbols,
      hreads.cache⟩, ?_,
      hbalanced.packets, hbalanced.misses⟩
    have hreceived := hbalanced.received
    dsimp only
    omega
  have hdone := hstart.processPackets
  have hstate := (packetMachine size).observed_run_fst countPacket
    { ledger.1 with
      totalReceived := ledger.1.totalReceived + .ofNat packets.length }
    { ledger.2 with totalReceived := ledger.2.totalReceived + packets.length }
    packets
  rw [Accounted, hstate] at hdone
  exact hdone

/-- The accounts after any batches, in exact counters.  Every packet received
was counted as a packet or as a failure, every packet counted was a hit or a
miss, and every miss evicted a symbol or is still cached.  The cache size is the
number of cached symbols, at most `MAX_CACHE_SIZE`.  The counters of the code
are the exact ones modulo 2^64. -/
theorem accounts_balance (memory : UInt32 → LFUNode) (orders : UInt32 → Order)
    (batches : List (List (Option ItchMessage))) :
    let state := (batchMachine maxOrders).run (init memory orders) batches
    let counters :=
      (((batchMachine maxOrders).observed countBatch).run
        (init memory orders, .zero) batches).2
    counters.totalReceived = counters.totalPackets + counters.parseFailures ∧
      counters.totalPackets = counters.cache.hits + counters.cache.misses ∧
      counters.cache.misses =
        counters.cache.evictions + state.cache.index.cacheSize.toNat ∧
      state.cache.index.cacheSize.toNat = state.cache.index.cachedIds.length ∧
      state.cache.index.cacheSize ≤ maxCacheSize ∧
      state.Reads counters := by
  intro state counters
  have hstart : Accounted 0 ((init memory orders : Pipeline maxOrders),
      Counters.zero) :=
    ⟨⟨_, init_sound maxOrders_pos memory orders⟩,
      ⟨rfl, rfl, rfl, rfl, rfl, rfl, ⟨rfl, rfl, rfl⟩⟩,
      ⟨rfl, rfl, rfl⟩⟩
  have hrun : Accounted 0
      (((batchMachine maxOrders).observed countBatch).run
        (init memory orders, .zero) batches) :=
    Machine.invariant (Accounted 0) (fun _ packets hold _ =>
      hold.processBatch packets) hstart
      (Machine.legal_of_forall (fun _ _ => trivial) _ batches)
  have hstate := (batchMachine maxOrders).observed_run_fst countBatch
    (init memory orders) .zero
    batches
  rw [Accounted, hstate] at hrun
  obtain ⟨⟨a, reference, hcache⟩, hreads, hbalanced⟩ := hrun
  exact ⟨hbalanced.received, hbalanced.packets, hbalanced.misses,
    hcache.index.cacheSize_eq,
    hcache.index.slotsPaired.size, hreads⟩

end Pipeline

end MarketDataPipeline
