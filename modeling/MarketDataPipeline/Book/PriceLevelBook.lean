import MarketDataPipeline.Book.PlainBook
import MarketDataPipeline.Wire.ItchMessage

/-!
# The price level book

`PriceLevelBook` keeps the quantity of each level in two flat arrays and no
orders.  It takes an Add for a bid while there is no best ask.  Only an ask
sets a best ask, so there never is one.
-/

namespace MarketDataPipeline

structure PriceLevelBook where
  qty : Side → UInt32 → UInt32
  best : Side → UInt32
  totalAdds : UInt64
  totalTrades : UInt64
  lastTsNs : UInt64

namespace PriceLevelBook

def init : PriceLevelBook where
  qty _ _ := 0
  best := Side.noPrice
  totalAdds := 0
  totalTrades := 0
  lastTsNs := 0

/-- `add_bid` and `add_ask`. -/
def add (book : PriceLevelBook) (side : Side) (price qty : UInt32) :
    PriceLevelBook :=
  { book with
    qty := setAt book.qty side price (book.qty side price + qty)
    best :=
      if side.improves price (book.best side) then
        Function.update book.best side price
      else book.best }

def addBid (book : PriceLevelBook) (price qty : UInt32) : PriceLevelBook :=
  book.add .bid price qty

def addAsk (book : PriceLevelBook) (price qty : UInt32) : PriceLevelBook :=
  book.add .ask price qty

/-- What `process_add` takes for a bid. -/
def isBid (book : PriceLevelBook) (price : UInt32) : Prop :=
  book.best .ask = invalidPrice ∨ price ≤ book.best .bid ∨
    book.best .bid = 0 ∧ price < maxPriceLevels / 2

instance (book : PriceLevelBook) (price : UInt32) :
    Decidable (book.isBid price) :=
  inferInstanceAs (Decidable (_ ∨ _ ∨ _ ∧ _))

def processAdd (book : PriceLevelBook) (price qty : UInt32) (tsNs : UInt64) :
    PriceLevelBook :=
  if price ≥ maxPriceLevels then book
  else
    let added :=
      if book.isBid price then book.addBid price qty else book.addAsk price qty
    { added with lastTsNs := tsNs, totalAdds := book.totalAdds + 1 }

def updateBestBid (book : PriceLevelBook) : PriceLevelBook :=
  let best := PlainTally.scanDown (book.qty .bid) (book.best .bid).toNat
    (book.best .bid)
  { book with
    best := Function.update book.best .bid
      (if book.qty .bid best = 0 then 0 else best) }

def updateBestAsk (book : PriceLevelBook) : PriceLevelBook :=
  let best := PlainTally.scanUp (book.qty .ask) maxPriceLevels.toNat
    (book.best .ask)
  { book with
    best := Function.update book.best .ask
      (if best ≥ maxPriceLevels ∨ book.qty .ask best = 0 then invalidPrice
       else best) }

def updateBest (book : PriceLevelBook) : Side → PriceLevelBook
  | .bid => book.updateBestBid
  | .ask => book.updateBestAsk

/-- `trade_bid` and `trade_ask`. -/
def trade (book : PriceLevelBook) (side : Side) (price qty : UInt32) :
    PriceLevelBook :=
  let level := book.qty side price
  let reduced :=
    { book with
      qty := setAt book.qty side price
        (if level ≥ qty then level - qty else 0) }
  if price = reduced.best side ∧ reduced.qty side price = 0 then
    reduced.updateBest side
  else reduced

def tradeBid (book : PriceLevelBook) (price qty : UInt32) : PriceLevelBook :=
  book.trade .bid price qty

def tradeAsk (book : PriceLevelBook) (price qty : UInt32) : PriceLevelBook :=
  book.trade .ask price qty

def processTrade (book : PriceLevelBook) (price qty : UInt32) (tsNs : UInt64) :
    PriceLevelBook :=
  if price ≥ maxPriceLevels then book
  else
    let traded :=
      if price ≤ book.best .bid ∧ book.qty .bid price > 0 then
        book.tradeBid price qty
      else if price ≥ book.best .ask ∧ book.qty .ask price > 0 then
        book.tradeAsk price qty
      else book
    { traded with lastTsNs := tsNs, totalTrades := book.totalTrades + 1 }

def process (book : PriceLevelBook) (message : ItchMessage) : PriceLevelBook :=
  if message.type = addType then
    book.processAdd message.price message.qty message.tsNs
  else if message.type = tradeType then
    book.processTrade message.price message.qty message.tsNs
  else book

def spread (book : PriceLevelBook) : UInt32 :=
  if book.best .ask = invalidPrice ∨ book.best .bid = 0 then 0
  else book.best .ask - book.best .bid

def hasTwoSidedMarket (book : PriceLevelBook) : Bool :=
  book.best .bid > 0 ∧ book.best .ask ≠ invalidPrice ∧
    book.best .ask > book.best .bid

def machine : Machine PriceLevelBook ItchMessage where
  allowed _ _ := True
  step := process

/-! ## The ask side stays empty -/

/-- Nothing ever rested on the ask side. -/
structure NoAsks (book : PriceLevelBook) : Prop where
  best : book.best .ask = invalidPrice
  qty : ∀ price, book.qty .ask price = 0

theorem init_noAsks : init.NoAsks := ⟨rfl, fun _ => rfl⟩

theorem NoAsks.addBid {book : PriceLevelBook} (hnone : book.NoAsks)
    (price qty : UInt32) :
    (book.addBid price qty).NoAsks := by
  have hask : ∀ p, ¬ (Side.ask = .bid ∧ p = price) :=
    fun p heq => Side.noConfusion heq.1
  refine ⟨?_, fun p => ?_⟩
  · have hbest : (book.addBid price qty).best =
        if Side.improves .bid price (book.best .bid) then
          Function.update book.best .bid price
        else book.best := rfl
    rw [hbest]
    split
    · rw [Function.update_of_ne Side.noConfusion]
      exact hnone.best
    · exact hnone.best
  · have hqty : (book.addBid price qty).qty .ask p = book.qty .ask p :=
      setAt_of_ne book.qty (book.qty .bid price + qty) (hask p)
    rw [hqty]
    exact hnone.qty p

theorem NoAsks.updateBestBid {book : PriceLevelBook} (hnone : book.NoAsks) :
    book.updateBestBid.NoAsks := by
  have hside : Side.ask ≠ .bid := Side.noConfusion
  refine ⟨?_, hnone.qty⟩
  rw [PriceLevelBook.updateBestBid]
  dsimp only
  rw [Function.update_of_ne hside]
  exact hnone.best

theorem NoAsks.tradeBid {book : PriceLevelBook} (hnone : book.NoAsks)
    (price qty : UInt32) :
    (book.tradeBid price qty).NoAsks := by
  have hask : ∀ p, ¬ (Side.ask = .bid ∧ p = price) :=
    fun p heq => Side.noConfusion heq.1
  rw [PriceLevelBook.tradeBid, trade]
  dsimp only
  generalize (if book.qty .bid price ≥ qty then book.qty .bid price - qty
              else 0) = left
  have hreduced : PriceLevelBook.NoAsks
      { book with qty := setAt book.qty .bid price left } := by
    refine ⟨hnone.best, fun p => ?_⟩
    dsimp only
    rw [setAt_of_ne book.qty left (hask p)]
    exact hnone.qty p
  split
  · exact hreduced.updateBestBid
  · exact hreduced

/-- No message gives the book an ask. -/
theorem NoAsks.process {book : PriceLevelBook} (hnone : book.NoAsks)
    (message : ItchMessage) :
    (book.process message).NoAsks := by
  rw [PriceLevelBook.process]
  split
  · rw [processAdd]
    split
    · exact hnone
    · have hbid : book.isBid message.price := Or.inl hnone.best
      rw [if_pos hbid]
      have hadded := hnone.addBid message.price message.qty
      exact ⟨hadded.best, hadded.qty⟩
  split
  · rw [processTrade]
    split
    · exact hnone
    · have hno :
        ¬ (message.price ≥ book.best .ask ∧
        book.qty .ask message.price > 0) := by
        rw [hnone.qty]
        exact fun htraded => UInt32.lt_irrefl 0 htraded.2
      rw [if_neg hno]
      split
      · have htraded := hnone.tradeBid message.price message.qty
        exact ⟨htraded.best, htraded.qty⟩
      · exact ⟨hnone.best, hnone.qty⟩
  · exact hnone

/-- From no state reachable by messages do further messages lead to a market
with two sides. -/
theorem never_two_sided (messages further : List ItchMessage) :
    (machine.run (machine.run init messages) further).hasTwoSidedMarket =
      false := by
  have hlegal : ∀ (state : PriceLevelBook) (ops : List ItchMessage),
      machine.Legal state ops :=
    Machine.legal_of_forall fun _ _ => trivial
  have hnone : (machine.run init messages).NoAsks :=
    Machine.invariant NoAsks (fun _ message hold _ =>
      hold.process message) init_noAsks
      (hlegal _ _)
  have hlater : (machine.run (machine.run init messages) further).NoAsks :=
    Machine.invariant NoAsks (fun _ message hold _ => hold.process message)
      hnone (hlegal _ _)
  simp [hasTwoSidedMarket, hlater.best]

/-- Not even a fresh book can quote both sides. -/
theorem two_sided_unreachable :
    ¬ ∀ messages, ∃ further : List ItchMessage,
      (∀ message ∈ further, message.type = addType ∨ message.type = tradeType) ∧
        (machine.run (machine.run init messages) further).hasTwoSidedMarket =
          true := by
  intro hclaim
  obtain ⟨further, -, htwo⟩ := hclaim []
  have hlegal : machine.Legal init further :=
    Machine.legal_of_forall (fun _ _ => trivial) _ _
  have hnone : (machine.run init further).NoAsks :=
    Machine.invariant NoAsks (fun _ message hold _ => hold.process message)
      init_noAsks hlegal
  change (machine.run init further).hasTwoSidedMarket = true at htwo
  simp [hasTwoSidedMarket, hnone.best] at htwo

end PriceLevelBook

end MarketDataPipeline
