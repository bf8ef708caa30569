import Mathlib

/-!
# ITCH messages

The messages of the feed: an Add or a Trade for a symbol of eight bytes.
-/

namespace MarketDataPipeline

abbrev Symbol := Vector UInt8 8

/-- `ITCH_Message` in host byte order. -/
structure ItchMessage where
  type : UInt8
  symbol : Symbol
  tsNs : UInt64
  price : UInt32
  qty : UInt32

def addType : UInt8 := 'A'.toUInt8

def tradeType : UInt8 := 'T'.toUInt8

theorem addType_ne_tradeType : addType ≠ tradeType := by decide

end MarketDataPipeline
