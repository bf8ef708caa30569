import MarketDataPipeline.Exchange.Refinement

/-!
# Rising prices

A stream of messages in which every price is above the last, such as the one
that `market_maker.py` fires.  The side of a message is guessed from the middle
of the best prices, so the first order of a book becomes its only bid and every
later one an ask above it; and a trade finds nothing at a price that is new.
-/

namespace MarketDataPipeline

open PriceTime

variable {size : UInt32}

namespace LimitBook

/-- One bid at most, and asks above it, all at prices up to `limit`. -/
structure Ladder (limit : ℕ) (book : LimitBook) : Prop where
  low : ∀ side price, book side price ≠ [] → 2 < price
  below : ∀ side price, book side price ≠ [] → price ≤ limit
  small : book.Fits
  single : ∀ price, (book .bid price).length ≤ 1
  unique : ∀ price other, book .bid price ≠ [] → book .bid other ≠ [] →
    price = other
  above : ∀ price, book .ask price ≠ [] → ∃ bid < price, book .bid bid ≠ []

namespace Ladder

variable {limit : ℕ} {book : LimitBook}

theorem empty (limit : ℕ) : Ladder limit LimitBook.empty where
  low _ _ hprice := absurd rfl hprice
  below _ _ hprice := absurd rfl hprice
  small _ _ := by
    rw [LimitBook.empty, volume_nil]
    decide
  single _ := Nat.zero_le 1
  unique _ _ hprice := absurd rfl hprice
  above _ hprice := absurd rfl hprice

theorem mono (hladder : Ladder limit book) {later : ℕ} (hle : limit ≤ later) :
    Ladder later book :=
  { hladder with
    below := fun side price hprice =>
      (hladder.below side price hprice).trans hle }

theorem nil_above (hladder : Ladder limit book) {price : ℕ}
    (hprice : limit < price) (side : Side) : book side price = [] := by
  by_contra hsome
  exact absurd (hladder.below side price hsome) (not_le.mpr hprice)

theorem bestBid_eq (hladder : Ladder limit book) {bid : ℕ}
    (hbid : book .bid bid ≠ []) :
    book.bestBid = bid :=
  highest_of_isGreatest ⟨hbid, fun other hother =>
    (hladder.unique other bid hother hbid).le⟩

/-- Where there is no bid, there is no order. -/
theorem nil_of_no_bid (hladder : Ladder limit book)
    (hnone : ∀ price, book .bid price = []) :
    occupied (book .bid) = ∅ ∧ occupied (book .ask) = ∅ := by
  refine ⟨Set.eq_empty_of_forall_notMem fun price hprice =>
    hprice (hnone price),
    Set.eq_empty_of_forall_notMem fun price hprice => ?_⟩
  obtain ⟨bid, -, hbid⟩ := hladder.above price hprice
  exact hbid (hnone bid)

/-- The first order of a book is a bid. -/
theorem sideOf_of_no_bid (hladder : Ladder limit book)
    (hnone : ∀ price, book .bid price = []) {price : ℕ}
    (hvalid : price < maxPriceLevels.toNat) :
    book.sideOf price = .bid := by
  obtain ⟨hbids, hasks⟩ := hladder.nil_of_no_bid hnone
  have hbest : book.bestBid = 0 := highest_of_empty hbids
  have hlevels : maxPriceLevels.toNat = 100000 := rfl
  have hmiddle : book.middle = 2 ^ 31 - 1 := by
    rw [middle]
    simp only [hasks, hbest, if_true]
    rw [if_neg (by decide)]
  rw [sideOf, hmiddle, if_pos (by omega)]

/-- A later order above all others is an ask. -/
theorem sideOf_of_bid (hladder : Ladder limit book) {bid : ℕ}
    (hbid : book .bid bid ≠ []) {price : ℕ}
    (hprice : limit < price) : book.sideOf price = .ask := by
  have hbest := hladder.bestBid_eq hbid
  have hlow := hladder.low .bid bid hbid
  have hbelow := hladder.below .bid bid hbid
  have hmiddle : book.middle < price := by
    rw [middle]
    by_cases hasks : occupied (book .ask) = ∅
    · simp only [hasks, hbest, if_true]
      rw [if_neg (by omega : ¬ bid = 0), if_neg (by omega)]
      omega
    · obtain ⟨ask, hask⟩ := Set.nonempty_iff_ne_empty.mpr hasks
      have hlowest : lowest (book .ask) ≤ ask := Nat.sInf_le hask
      have hasklimit := hladder.below .ask ask hask
      simp only [hasks, hbest, if_false, bestAsk]
      rw [if_neg (by omega)]
      omega
  rw [sideOf, if_neg (not_le.mpr hmiddle)]

section Placed

variable {price : ℕ} {queue : List (Ticket UInt64)}

theorem setQueue_cases {side s : Side} {p : ℕ}
    (hsome : book.setQueue side price queue s p ≠ []) :
    s = side ∧ p = price ∨ book s p ≠ [] := by
  rw [setQueue] at hsome
  split at hsome
  case isTrue hlevel => exact Or.inl hlevel
  case isFalse => exact Or.inr hsome

theorem setQueue_of_ne {side s : Side} (hne : s ≠ side) (p : ℕ) :
    book.setQueue side price queue s p = book s p :=
      if_neg fun hlevel => hne hlevel.1

/-- What a new level keeps on either side. -/
theorem setQueue_bounds (hladder : Ladder limit book) (side : Side)
    (hlow : 2 < price) (hbelow : price ≤ limit)
    (hsmall : volume queue < 2 ^ 32) :
    (∀ s p, book.setQueue side price queue s p ≠ [] → 2 < p ∧ p ≤ limit) ∧
      (book.setQueue side price queue).Fits := by
  refine ⟨fun s p hsome => ?_, fun s p => ?_⟩
  · rcases setQueue_cases hsome with ⟨-, rfl⟩ | hold
    · exact ⟨hlow, hbelow⟩
    · exact ⟨hladder.low s p hold, hladder.below s p hold⟩
  · rw [setQueue]
    split
    · exact hsmall
    · exact hladder.small s p

theorem firstBid (hladder : Ladder limit book)
    (hnone : ∀ price, book .bid price = []) (hlow : 2 < price)
    (hbelow : price ≤ limit) (hsmall : volume queue < 2 ^ 32)
    (hqueue : queue.length = 1) :
    Ladder limit (book.setQueue .bid price queue) := by
  obtain ⟨hbounds, hfits⟩ := hladder.setQueue_bounds .bid hlow hbelow hsmall
  have hprice : ∀ p, book.setQueue .bid price queue .bid p ≠ [] →
      p = price := by
    intro p hsome
    rcases setQueue_cases hsome with ⟨-, heq⟩ | hold
    · exact heq
    · exact absurd (hnone p) hold
  have hasks : ∀ p, book.setQueue .bid price queue .ask p = [] := by
    intro p
    rw [setQueue_of_ne (by decide)]
    by_contra hsome
    obtain ⟨bid, -, hbid⟩ := hladder.above p hsome
    exact hbid (hnone bid)
  refine ⟨fun s p hsome => (hbounds s p hsome).1, fun s p hsome =>
    (hbounds s p hsome).2, hfits,
    fun p => ?_, fun p q hp hq => (hprice p hp).trans (hprice q hq).symm,
    fun p hsome => absurd (hasks p) hsome⟩
  rw [setQueue]
  split
  · exact hqueue.le
  · exact hladder.single p

theorem nextAsk (hladder : Ladder limit book) {bid : ℕ}
    (hbid : book .bid bid ≠ []) (hless : bid < price) (hlow : 2 < price)
    (hbelow : price ≤ limit) (hsmall : volume queue < 2 ^ 32) :
    Ladder limit (book.setQueue .ask price queue) := by
  obtain ⟨hbounds, hfits⟩ := hladder.setQueue_bounds .ask hlow hbelow hsmall
  have hbids : ∀ p, book.setQueue .ask price queue .bid p = book .bid p :=
    setQueue_of_ne (by decide)
  refine ⟨fun s p hsome => (hbounds s p hsome).1, fun s p hsome =>
    (hbounds s p hsome).2, hfits,
    fun p => ?_, fun p q hp hq => ?_, fun p hsome => ?_⟩
  · rw [hbids]
    exact hladder.single p
  · rw [hbids] at hp hq
    exact hladder.unique p q hp hq
  · simp only [hbids]
    rcases setQueue_cases hsome with ⟨-, rfl⟩ | hold
    · exact ⟨bid, hless, hbid⟩
    · exact hladder.above p hold

end Placed

variable {room : Prop} [Decidable room] {message : ItchMessage}

/-- A trade at a new price finds nothing. -/
theorem process_of_not_add (hladder : Ladder limit book)
    (hprice : limit < message.price.toNat)
    (hadd : message.type ≠ addType) : book.process room message = book := by
  rw [LimitBook.process, if_neg hadd]
  split
  · refine setQueue_eq_self ?_
    rw [hladder.nil_above hprice]
    rfl
  · rfl

/-- An order at a new price continues the ladder. -/
theorem process (hladder : Ladder limit book)
    (hprice : limit < message.price.toNat) (hlow : 2 < message.price.toNat) :
    Ladder message.price.toNat (book.process room message) := by
  have hkept := hladder.mono hprice.le
  by_cases hadd : message.type = addType
  case neg =>
    rw [hladder.process_of_not_add hprice hadd]
    exact hkept
  rw [LimitBook.process, if_pos hadd]
  by_cases hplaced : message.price.toNat < maxPriceLevels.toNat ∧ room
  case neg =>
    rw [if_neg hplaced]
    exact hkept
  rw [if_pos hplaced, hladder.nil_above hprice, List.nil_append]
  have hticket : volume
      [(⟨orderIdOf message, message.qty.toNat⟩ : Ticket UInt64)] < 2 ^ 32 := by
    rw [volume_cons, volume_nil]
    exact message.qty.toNat_lt
  by_cases hnone : ∀ price, book .bid price = []
  · rw [hladder.sideOf_of_no_bid hnone hplaced.1]
    exact hkept.firstBid hnone hlow le_rfl hticket rfl
  · obtain ⟨bid, hbid⟩ := not_forall.mp hnone
    rw [hladder.sideOf_of_bid hbid hprice]
    exact hkept.nextAsk hbid ((hladder.below .bid bid hbid).trans_lt hprice)
      hlow le_rfl hticket

/-- The best bid is below every ask. -/
theorem bestBid_lt (hladder : Ladder limit book) {ask : ℕ}
    (hask : book .ask ask ≠ []) :
    0 < book.bestBid ∧ book.bestBid < ask := by
  obtain ⟨bid, hless, hbid⟩ := hladder.above ask hask
  have hlow := hladder.low .bid bid hbid
  rw [hladder.bestBid_eq hbid]
  omega

end Ladder

end LimitBook

open LimitBook

namespace Exchange

structure Rising (messages : List ItchMessage) : Prop where
  rises : messages.Pairwise fun earlier later => earlier.price < later.price
  low : ∀ message ∈ messages, 2 < message.price

theorem Rising.of_prefix {messages done : List ItchMessage}
    (hrising : Rising messages) (hdone : done <+: messages) : Rising done :=
  ⟨hrising.rises.sublist hdone.sublist, fun message hmessage =>
    hrising.low message (hdone.subset hmessage)⟩

/-- The last price is above those before it. -/
theorem Rising.last {messages : List ItchMessage} {message : ItchMessage}
    (hrising : Rising (messages ++ [message])) :
    2 < message.price.toNat ∧
      ∀ other ∈ messages, other.price.toNat ≤ message.price.toNat - 1 := by
  refine ⟨UInt32.lt_iff_toNat_lt.mp (hrising.low message (by simp)),
    fun other hother => ?_⟩
  have hless := (List.pairwise_append.mp hrising.rises).2.2 other hother
    message (by simp)
  have hlessNat := UInt32.lt_iff_toNat_lt.mp hless
  omega

theorem opened_ladder {x : Exchange} {limit : ℕ}
    (hladder : ∀ id, Ladder limit (x.book id))
    (number id : UInt16) : Ladder limit (opened x.cache x.book number id) := by
  rw [opened]
  split
  · exact hladder id
  · by_cases hsame : id = number
    · rw [hsame, Function.update_self]
      exact Ladder.empty limit
    · rw [Function.update_of_ne hsame]
      exact hladder id

theorem step_ladder {x : Exchange} {limit : ℕ}
    (hladder : ∀ id, Ladder limit (x.book id)) {message : ItchMessage}
    (hprice : limit < message.price.toNat) (hlow : 2 < message.price.toNat)
    (capacity : ℕ) (id : UInt16) :
    Ladder message.price.toNat ((x.step capacity message).book id) := by
  rw [step]
  dsimp only
  generalize PrefixTrie.idIn _ _ = number
  by_cases hsame : id = number
  · rw [hsame, Function.update_self]
    exact (opened_ladder hladder number number).process hprice hlow
  · rw [Function.update_of_ne hsame]
    exact (opened_ladder hladder number id).mono hprice.le

theorem run_ladder (capacity : ℕ) {messages : List ItchMessage}
    (hrising : Rising messages) {limit : ℕ}
    (hlimit : ∀ message ∈ messages, message.price.toNat ≤ limit) (id : UInt16) :
    Ladder limit (((machine capacity).run empty messages).book id) := by
  induction messages using List.reverseRecOn generalizing limit id with
  | nil => exact Ladder.empty limit
  | append_singleton messages message ih =>
      obtain ⟨hlow, hearlier⟩ := hrising.last
      have hladder := ih (hrising.of_prefix (List.prefix_append _ _)) hearlier
      rw [Machine.run_append]
      have hnext := step_ladder hladder (by omega) hlow capacity id
      exact hnext.mono (hlimit message (by simp))

/-- A trade of a rising stream executes nothing. -/
theorem executes_of_rising (capacity : ℕ) {messages : List ItchMessage}
    {message : ItchMessage} (hrising : Rising (messages ++ [message])) :
    ((machine capacity).run empty messages).executes message = 0 := by
  obtain ⟨hlow, hearlier⟩ := hrising.last
  have hladder :=
    run_ladder capacity (hrising.of_prefix (List.prefix_append _ _)) hearlier
  rw [executes]
  generalize PrefixTrie.idIn _ _ = number
  rw [(opened_ladder hladder number number).nil_above (by omega), volume_nil,
    Nat.min_zero, ite_self]

end Exchange

namespace Pipeline

open Exchange

variable (memory : UInt32 → LFUNode) (orders : UInt32 → Order)
  {messages : List ItchMessage}

theorem describes_of_rising (hfew : (symbolsOf messages).card ≤ 256)
    (hqty : ∀ message ∈ messages, message.type = addType → 0 < message.qty)
    (hrising : Rising messages) :
    ((Exchange.machine maxOrders.toNat).run .empty messages).Describes
      ((machine maxOrders).run (init memory orders) messages) := by
  refine describes_of_served maxOrders_pos memory orders
    (allServed_of_few memory orders hfew) hqty
    fun done hdone id => ?_
  have hlimit : ∀ message ∈ done, message.price.toNat ≤ 2 ^ 32 :=
    fun message _ => message.price.toNat_lt.le
  exact (run_ladder _ (hrising.of_prefix hdone) hlimit id).small

theorem rising_executed (hfew : (symbolsOf messages).card ≤ 256)
    (hqty : ∀ message ∈ messages, message.type = addType → 0 < message.qty)
    (hrising : Rising messages) {done : List ItchMessage}
    {message : ItchMessage} (hpre : done ++ [message] <+: messages) :
    ((machine maxOrders).run (init memory orders) done).executed message =
      0 := by
  have hdone := (List.prefix_append done [message]).trans hpre
  have hserved : AllServed (init memory orders : Pipeline maxOrders) messages :=
    allServed_of_few memory orders hfew
  have hfewer : (symbolsOf done).card ≤ 256 :=
    (Finset.card_le_card (PrefixTrie.wordsOf_mono (hdone.map _).subset)).trans
      hfew
  have hdescribes := describes_of_rising memory orders hfewer
    (fun other hother => hqty other (hdone.subset hother))
    (hrising.of_prefix hdone)
  rw [hdescribes.executed_eq (hserved done message hpre)]
  exact executes_of_rising _ (hrising.of_prefix hpre)

/-- One bid at most rests in the book, at the best bid and below all asks. -/
structure OneBid (state : Pipeline size) (bookId : UInt16) : Prop where
  bid : ∀ price, state.restingOf bookId .bid price ≠ [] →
    price = (state.bookOf bookId).getBestBid ∧
      (state.restingOf bookId .bid price).length = 1
  asks : ∀ price, state.restingOf bookId .ask price ≠ [] →
    0 < (state.bookOf bookId).getBestBid ∧
      (state.bookOf bookId).getBestBid < price

theorem rising_oneBid (hfew : (symbolsOf messages).card ≤ 256)
    (hqty : ∀ message ∈ messages, message.type = addType → 0 < message.qty)
    (hrising : Rising messages) {bookId : UInt16}
    (hcached : ((machine maxOrders).run (init memory orders)
      messages).cache.index.isCached bookId =
      true) : OneBid ((machine maxOrders).run (init memory orders) messages)
        bookId := by
  obtain ⟨-, a, hcache⟩ := describes_of_rising memory orders hfew hqty hrising
  have hladder := run_ladder maxOrders.toNat hrising
    (fun message _ => message.price.toNat_lt.le) bookId
  generalize (machine maxOrders).run (init memory orders) messages = state at *
  have hshown := hcache.shown bookId hcached
  have hreports :=
    hshown.reports (hcache.sound.books.tracks _) (state.bookOf bookId).queues
  have hbest : (state.bookOf bookId).getBestBid.toNat = _ := hreports.bestBid
  have hresting : state.restingOf bookId =
      a (state.cache.index.bookToSlot bookId.toUInt32) :=
    Sound.restingOf_eq ⟨_, hcache.sound⟩ bookId
  have hqueue : ∀ side price, state.restingOf bookId side price ≠ [] →
      ((Exchange.machine maxOrders.toNat).run .empty messages).book bookId side
        price.toNat ≠
        [] := by
    intro side price hsome
    rw [← hshown.queue side price, ← hresting, Ne, List.map_eq_nil_iff]
    exact hsome
  refine ⟨fun price hsome => ⟨?_, ?_⟩, fun price hsome => ?_⟩
  · rw [← UInt32.toNat_inj, hbest, hladder.bestBid_eq (hqueue .bid price hsome)]
  · have hsingle := hladder.single price.toNat
    rw [← hshown.queue .bid price, ← hresting, List.length_map] at hsingle
    have hpos := List.length_pos_iff.mpr hsome
    omega
  · obtain ⟨hpos, hless⟩ := hladder.bestBid_lt (hqueue .ask price hsome)
    rw [← hbest] at hpos hless
    exact ⟨UInt32.lt_iff_toNat_lt.mpr hpos, UInt32.lt_iff_toNat_lt.mpr hless⟩

/-- What a stream of rising prices about at most 256 symbols leads to: no trade
executes anything; a book has one bid at most, at its best bid, and all its asks
are above it. -/
theorem rising_prices_never_trade (messages : List ItchMessage)
    (hfew : (symbolsOf messages).card ≤ 256)
    (hqty : ∀ message ∈ messages, message.type = addType → 0 < message.qty)
    (hrising : Rising messages) :
    let state := (machine maxOrders).run (init memory orders) messages
    (∀ done message, done ++ [message] <+: messages →
      ((machine maxOrders).run (init memory orders) done).executed
        message = 0) ∧
    ∀ bookId, state.cache.index.isCached bookId = true → OneBid state bookId :=
  ⟨fun _ _ => rising_executed memory orders hfew hqty hrising,
    fun _ => rising_oneBid memory orders hfew hqty hrising⟩

/-- An order, a trade above it, and an order above both. -/
theorem rising_prices_never_trade_three :
    let start : Pipeline maxOrders := init (fun _ => default) fun _ => default
    let messages : List ItchMessage := [⟨addType, btcUsdt, 1, 100, 5⟩,
      ⟨tradeType, btcUsdt, 2, 101, 5⟩, ⟨addType, btcUsdt, 3, 102, 5⟩]
    ((machine maxOrders).run start [⟨addType, btcUsdt, 1, 100, 5⟩]).executed
        ⟨tradeType, btcUsdt, 2, 101, 5⟩ = 0 ∧
      OneBid ((machine maxOrders).run start messages) 0 := by
  intro start messages
  have hrising := rising_prices_never_trade (fun _ => default)
    (fun _ => default) messages
    (by decide) (by decide) ⟨by decide, by decide⟩
  have hdone : [⟨addType, btcUsdt, 1, 100, 5⟩] ++
      [⟨tradeType, btcUsdt, 2, 101, 5⟩] <+:
      messages := ⟨[⟨addType, btcUsdt, 3, 102, 5⟩], rfl⟩
  exact ⟨hrising.1 _ _ hdone, hrising.2 0 (by decide)⟩

end Pipeline

end MarketDataPipeline
