import MarketDataPipeline.Cache.LFUCache
import MarketDataPipeline.Pipeline.PrefixTrie

/-!
# The hot loop

What the loop of `main` does with a parsed message: the trie gives the book id
of its symbol, the cache the book, and the price decides on the side.
-/

namespace MarketDataPipeline

variable {size : UInt32}

/-- The price at or below which a message is taken to be on the bid side. -/
def midPrice (book : MBOBookWithBIT) : UInt32 :=
  let mid := (book.getBestBid + book.getBestAsk) / 2
  if mid = 0 then 50000 else mid

def routedSide (book : MBOBookWithBIT) (price : UInt32) : Side :=
  if price ≤ midPrice book then .bid else .ask

/-- `order_id` of an Add message. -/
def orderIdOf (message : ItchMessage) : UInt64 :=
  message.tsNs <<< 32 ||| message.price.toUInt64

/-- The call on the book that a message leads to. -/
def route (book : MBOBookWithBIT) (message : ItchMessage) : Option BookOp :=
  if message.type = addType then
    some (.enqueue (routedSide book message.price) message.price
      (orderIdOf message) message.qty)
  else if message.type = tradeType then
    some (.trade (routedSide book message.price) message.price message.qty)
  else none

/-- The call of a message on the book of a slot. -/
def Books.deliver {ι : Type*} [DecidableEq ι] (books : Books ι DepthTally size)
    (slot : ι) (message : ItchMessage) : Books ι DepthTally size :=
  match route (books.book slot) message with
  | some op => (books.apply slot op).2
  | none => books

/-- The state of the loop: the static structures and its counters. -/
structure Pipeline (size : UInt32) where
  trie : PrefixTrie
  cache : LFUCache size
  totalReceived : UInt64
  totalPackets : UInt64
  totalAdds : UInt64
  totalTrades : UInt64
  parseFailures : UInt64
  uniqueSymbols : UInt64

namespace Pipeline

/-- The state in which the loop starts, on whatever the static arrays hold. -/
def init (memory : UInt32 → LFUNode) (orders : UInt32 → Order) :
    Pipeline size where
  trie := .init
  cache := .init memory orders
  totalReceived := 0
  totalPackets := 0
  totalAdds := 0
  totalTrades := 0
  parseFailures := 0
  uniqueSymbols := 0

/-- The loop body for a parsed message. -/
def processMessage (state : Pipeline size) (message : ItchMessage) :
    Pipeline size :=
  let routed := state.trie.getOrCreate message.symbol
  let uniqueSymbols :=
    if routed.created then state.uniqueSymbols + 1 else state.uniqueSymbols
  let accessed := state.cache.access routed.bookId message.symbol
  match accessed.1 with
  | none =>
      { state with
        trie := routed.trie
        cache := accessed.2
        uniqueSymbols
        parseFailures := state.parseFailures + 1 }
  | some slot =>
      { state with
        trie := routed.trie
        cache := { accessed.2 with
                   books := accessed.2.books.deliver slot message }
        uniqueSymbols
        totalAdds :=
          if message.type = addType then state.totalAdds + 1
          else state.totalAdds
        totalTrades :=
          if message.type = addType then state.totalTrades
          else if message.type = tradeType then state.totalTrades + 1
          else state.totalTrades
        totalPackets := state.totalPackets + 1 }

/-- The loop body for a received packet; `none` is one that does not parse. -/
def processPacket (state : Pipeline size) : Option ItchMessage → Pipeline size
  | none => { state with parseFailures := state.parseFailures + 1 }
  | some message => state.processMessage message

/-- One round of the loop over a batch of packets. -/
def processBatch (state : Pipeline size) (packets : List (Option ItchMessage)) :
    Pipeline size :=
  packets.foldl processPacket
    { state with totalReceived := state.totalReceived + .ofNat packets.length }

def machine (size : UInt32) : Machine (Pipeline size) ItchMessage where
  allowed _ _ := True
  step := processMessage

end Pipeline

end MarketDataPipeline
