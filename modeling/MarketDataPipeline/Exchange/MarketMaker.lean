import MarketDataPipeline.Exchange.RisingPrices

/-!
# The market maker

The messages that `market_maker.py` fires, for any outcome of `random.choice`
and `time.time_ns`, and what the loop makes of them.
-/

namespace MarketDataPipeline

open PriceTime

variable {size : UInt32}

namespace MarketMaker

def symbols : List Symbol :=
  [Pipeline.btcUsdt,
    #v[69, 84, 72, 47, 85, 83, 68, 84],
    #v[83, 79, 76, 47, 85, 83, 68, 84],
    #v[88, 82, 80, 47, 85, 83, 68, 84],
    #v[65, 68, 65, 47, 85, 83, 68, 84],
    #v[68, 79, 84, 47, 85, 83, 68, 84],
    #v[76, 73, 78, 75, 47, 85, 83, 68],
    #v[65, 86, 65, 88, 47, 85, 83, 68],
    #v[77, 65, 84, 73, 67, 47, 85, 83],
    #v[65, 84, 79, 77, 47, 85, 83, 68]]

variable (choice : ℕ → Symbol) (clock : ℕ → UInt64)

/-- What round `i` packs, with the symbol chosen and the time read in it. -/
def message (i : ℕ) : ItchMessage where
  type := if i % 2 = 0 then addType else tradeType
  symbol := choice i
  tsNs := clock i
  price := .ofNat (10000 + i)
  qty := .ofNat (100 + i)

/-- `for i in range(1, 101)`. -/
def firehose : List ItchMessage :=
  (List.range' 1 100).map (message choice clock)

theorem message_toNat {i : ℕ} (hi : i ≤ 100) :
    (message choice clock i).price.toNat = 10000 + i ∧
      (message choice clock i).qty.toNat = 100 + i := by
  have hprice : (UInt32.ofNat (10000 + i)).toNat = 10000 + i := by
    rw [UInt32.toNat_ofNat', Nat.mod_eq_of_lt (by omega)]
  have hqty : (UInt32.ofNat (100 + i)).toNat = 100 + i := by
    rw [UInt32.toNat_ofNat', Nat.mod_eq_of_lt (by omega)]
  exact ⟨hprice, hqty⟩

theorem mem_firehose {m : ItchMessage} (hm : m ∈ firehose choice clock) :
    ∃ i, i ≤ 100 ∧ message choice clock i = m := by
  obtain ⟨i, hi, heq⟩ := List.mem_map.mp hm
  rw [List.mem_range'_1] at hi
  exact ⟨i, by omega, heq⟩

theorem firehose_rising : Exchange.Rising (firehose choice clock) where
  rises := by
    rw [firehose, List.pairwise_map]
    refine (List.pairwise_lt_range' (s := 1) (n := 100) 1).imp_of_mem
      fun {i j} hi hj hlt => ?_
    rw [List.mem_range'_1] at hi hj
    have hearlier := (message_toNat choice clock (by omega : i ≤ 100)).1
    have hlater := (message_toNat choice clock (by omega : j ≤ 100)).1
    exact UInt32.lt_iff_toNat_lt.mpr (by omega)
  low m hm := by
    obtain ⟨i, hi, rfl⟩ := mem_firehose choice clock hm
    have hprice := (message_toNat choice clock hi).1
    have htwo : (2 : UInt32).toNat = 2 := rfl
    exact UInt32.lt_iff_toNat_lt.mpr (by omega)

theorem firehose_qty_pos : ∀ m ∈ firehose choice clock, 0 < m.qty := by
  intro m hm
  obtain ⟨i, hi, rfl⟩ := mem_firehose choice clock hm
  have hqty := (message_toNat choice clock hi).2
  have hzero : (0 : UInt32).toNat = 0 := rfl
  exact UInt32.lt_iff_toNat_lt.mpr (by omega)

variable {choice}

theorem card_symbolsOf_firehose (hchoice : ∀ i, choice i ∈ symbols) :
    (Pipeline.symbolsOf (firehose choice clock)).card ≤ 10 := by
  have hsubset : Pipeline.symbolsOf (firehose choice clock) ⊆
      (symbols.map PrefixTrie.word).toFinset := by
    intro key hkey
    obtain ⟨symbol, hsymbol, rfl⟩ := PrefixTrie.mem_wordsOf.mp hkey
    obtain ⟨m, hm, rfl⟩ := List.mem_map.mp hsymbol
    obtain ⟨i, -, rfl⟩ := mem_firehose choice clock hm
    rw [List.mem_toFinset]
    exact List.mem_map_of_mem (hchoice i)
  exact (Finset.card_le_card hsubset).trans (List.toFinset_card_le _)

end MarketMaker

namespace Pipeline

open MarketMaker

/-- What the market maker's 100 messages lead to, whatever symbols it chooses
and at whatever times: all are processed, 50 as Adds and 50 as Trades, none
fails; but no trade executes anything, since every price is new; and every book
has one bid at most, below all its asks. -/
theorem market_maker_never_trades (memory : UInt32 → LFUNode)
    (orders : UInt32 → Order) {choice : ℕ → Symbol}
    (hchoice : ∀ i, choice i ∈ symbols) (clock : ℕ → UInt64) :
    let messages := firehose choice clock
    let state := (machine maxOrders).run (init memory orders) messages
    (state.totalPackets = 100 ∧ state.totalAdds = 50 ∧ state.totalTrades = 50 ∧
      state.parseFailures = 0 ∧
        state.uniqueSymbols.toNat = (symbolsOf messages).card) ∧
    (∀ done message, done ++ [message] <+: messages →
      ((machine maxOrders).run (init memory orders) done).executed
        message = 0) ∧
    ∀ bookId, state.cache.index.isCached bookId = true →
      OneBid state bookId := by
  intro messages state
  have hfew : (symbolsOf messages).card ≤ 256 :=
    (card_symbolsOf_firehose clock hchoice).trans (by decide)
  have hqty : ∀ m ∈ messages, m.type = addType → 0 < m.qty :=
    fun m hm _ => firehose_qty_pos choice clock m hm
  have hrising := firehose_rising choice clock
  have hserved : AllServed (init memory orders : Pipeline maxOrders) messages :=
    allServed_of_few memory orders hfew
  obtain ⟨hpackets, hfailures⟩ := hserved.counts
  obtain ⟨hadds, htrades⟩ := hserved.totals
  have hlength : messages.length = 100 :=
    (List.length_map ..).trans List.length_range'
  have hadded : messages.countP (fun m => m.type = addType) = 50 :=
    List.countP_map.trans rfl
  have htraded : messages.countP (fun m => m.type = tradeType) = 50 :=
    List.countP_map.trans rfl
  rw [hlength] at hpackets
  rw [hadded] at hadds
  rw [htraded] at htrades
  exact ⟨⟨hpackets, hadds, htrades, hfailures, hserved.uniqueSymbols_eq⟩,
    fun _ _ => rising_executed memory orders hfew hqty hrising,
    fun _ => rising_oneBid memory orders hfew hqty hrising⟩

/-- The market maker that always chooses the first symbol. -/
theorem market_maker_never_trades_first :
    let messages := firehose (fun _ => btcUsdt) fun i => .ofNat i
    let start : Pipeline maxOrders := init (fun _ => default) fun _ => default
    let state := (machine maxOrders).run start messages
    (state.totalPackets = 100 ∧ state.totalAdds = 50 ∧ state.totalTrades = 50) ∧
      ∀ done message, done ++ [message] <+: messages →
        ((machine maxOrders).run start done).executed message = 0 := by
  intro messages start state
  have hchoice : ∀ i : ℕ, (fun _ : ℕ => btcUsdt) i ∈ symbols :=
    fun _ => List.mem_cons_self
  obtain ⟨⟨hpackets, hadds, htrades, -⟩, hexecuted, -⟩ :=
    market_maker_never_trades (fun _ => default) (fun _ => default) hchoice
      fun i => .ofNat i
  exact ⟨⟨hpackets, hadds, htrades⟩, hexecuted⟩

end Pipeline

end MarketDataPipeline
