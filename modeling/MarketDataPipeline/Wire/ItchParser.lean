import MarketDataPipeline.Wire.Frame
import MarketDataPipeline.Wire.ItchMessage

/-!
# The parser of the application

`get_itch_message` finds the message in a frame; the loop then copies its 25
bytes and turns its numbers into host byte order.
-/

namespace MarketDataPipeline

open Endian

/-- `get_itch_message`: the offset of the message, or `none` for the null
pointer. -/
def getItchMessage (frame : Frame) (frameLen : UInt32) : Option (Option ℕ) := do
  if frameLen.toNat < ethhdrSize then
    return none
  let hProto ← frame.hProto
  if ntohs hProto ≠ ethPIp then
    return none
  if frameLen.toNat < ethhdrSize + iphdrSize then
    return none
  let first ← frame.versionIhl
  if ipVersion first ≠ 4 ∨ ipIhl first < 5 then
    return none
  let udp := ethhdrSize + (ipIhl first).toNat * 4
  if frameLen.toNat < udp + udphdrSize then
    return none
  let payload := udp + udphdrSize
  if frameLen.toNat < payload + itchMessageSize then
    return none
  return some payload

/-- The fields of the packed `ITCH_Message` as a little-endian host
loads them. -/
def loadMessage (bytes : List UInt8) : ItchMessage where
  type := bytes.getD 0 0
  symbol := .ofFn fun i => bytes.getD (1 + i) 0
  tsNs := .ofNat (leValue ((bytes.drop 9).take 8))
  price := .ofNat (leValue ((bytes.drop 17).take 4))
  qty := .ofNat (leValue ((bytes.drop 21).take 4))

def itchToHost (message : ItchMessage) : ItchMessage :=
  { message with
    tsNs := ntohll message.tsNs
    price := ntohl message.price
    qty := ntohl message.qty }

/-- What the loop makes of a received frame: the message in host byte order, or
`none` where the frame does not parse. -/
def receiveMessage (frame : Frame) (frameLen : UInt32) :
    Option (Option ItchMessage) := do
  match ← getItchMessage frame frameLen with
  | none => return none
  | some payload =>
      let bytes ← frame.read payload itchMessageSize
      return some (itchToHost (loadMessage bytes))

/-- In a frame of the length it is given the parser reads nothing behind the
end, and a message that it finds lies inside. -/
theorem getItchMessage_inside {frame : Frame} {frameLen : UInt32}
    (hlen : frame.length = frameLen.toNat) :
    ∃ found, getItchMessage frame frameLen = some found ∧
      ∀ payload ∈ found, payload + itchMessageSize ≤ frame.length := by
  have heth : ethhdrSize = 14 := rfl
  have hiphdr : iphdrSize = 20 := rfl
  have hnone : ∀ payload ∈ (none : Option ℕ), payload + itchMessageSize ≤
    frame.length := by simp
  rw [getItchMessage]
  by_cases hshort : frameLen.toNat < ethhdrSize
  · rw [if_pos hshort]
    exact ⟨none, rfl, hnone⟩
  obtain ⟨hProto, hproto⟩ :=
    Frame.load16_isSome (by omega : 12 + 2 ≤ frame.length)
  rw [if_neg hshort, Frame.hProto, hproto, Option.bind_eq_bind,
    Option.bind_some]
  by_cases hother : ntohs hProto ≠ ethPIp
  · rw [if_pos hother]
    exact ⟨none, rfl, hnone⟩
  rw [if_neg hother]
  by_cases hheader : frameLen.toNat < ethhdrSize + iphdrSize
  · rw [if_pos hheader]
    exact ⟨none, rfl, hnone⟩
  obtain ⟨first, hfirst⟩ :=
    Frame.load8_isSome (by omega : ethhdrSize < frame.length)
  rw [if_neg hheader, Frame.versionIhl, hfirst, Option.bind_eq_bind,
    Option.bind_some]
  by_cases hversion : ipVersion first ≠ 4 ∨ ipIhl first < 5
  · rw [if_pos hversion]
    exact ⟨none, rfl, hnone⟩
  rw [if_neg hversion]
  dsimp only
  split
  · exact ⟨none, rfl, hnone⟩
  split
  · exact ⟨none, rfl, hnone⟩
  case isFalse hroom =>
    refine ⟨_, rfl, fun payload hpayload => ?_⟩
    obtain rfl := Option.some.inj hpayload
    omega

theorem receiveMessage_isSome {frame : Frame} {frameLen : UInt32}
    (hlen : frame.length = frameLen.toNat) :
    (receiveMessage frame frameLen).isSome := by
  obtain ⟨found, hfound, hinside⟩ := getItchMessage_inside hlen
  rw [receiveMessage, hfound]
  cases found with
  | none => rfl
  | some payload =>
      rw [Option.bind_eq_bind, Option.bind_some]
      dsimp only
      rw [Frame.read_of_le (hinside payload rfl)]
      rfl

/-- `struct.pack("!c8sQII", msg_type, symbol, ts_ns, price, qty)`. -/
def packMessage (message : ItchMessage) : List UInt8 :=
  message.type :: message.symbol.toList ++ beBytes 8 message.tsNs.toNat ++
    beBytes 4 message.price.toNat ++ beBytes 4 message.qty.toNat

end MarketDataPipeline
