import MarketDataPipeline.Wire.Frame

/-!
# The XDP filter

`xdp_market_data_filter` redirects UDP frames to the market data port with room
for a message, and passes all others to the kernel.  `inspect` is its way
through the headers; what it finds decides on the statistics and the verdict.
-/

namespace MarketDataPipeline

inductive XdpAction
  | pass
  | redirect
  deriving DecidableEq

structure XdpStats where
  rxPackets : UInt64
  rxBytes : UInt64
  redirected : UInt64
  passed : UInt64

/-- What the filter uses of `xdp_md`: the bytes from `data` to `data_end` and
the queue. -/
structure XdpMd where
  frame : Frame
  rxQueueIndex : UInt32

namespace XdpFilter

/-- Where the filter gets to in a frame. -/
inductive Finding
  /-- Passed before the statistics. -/
  | unrelated
  /-- UDP to another port. -/
  | otherPort
  /-- To the market data port, without room for a message. -/
  | tooSmall
  /-- To be redirected, with the offset of the payload. -/
  | marketData (payload : ℕ)
  deriving DecidableEq

/-- The checks of `xdp_market_data_filter`. -/
def inspect (frame : Frame) : Option Finding := do
  if ethhdrSize > frame.length then
    return .unrelated
  let hProto ← frame.hProto
  if hProto ≠ htons ethPIp then
    return .unrelated
  if ethhdrSize + iphdrSize > frame.length then
    return .unrelated
  let first ← frame.versionIhl
  if ipIhl first < 5 then
    return .unrelated
  let protocol ← frame.protocol
  if protocol ≠ ipprotoUdp then
    return .unrelated
  let udp := ethhdrSize + (ipIhl first).toNat * 4
  if udp + udphdrSize > frame.length then
    return .unrelated
  let dest ← frame.udpDest udp
  if ntohs dest = marketDataPort then
    let payload := udp + udphdrSize
    if payload + 25 > frame.length then
      return .tooSmall
    return .marketData payload
  return .otherPort

/-- `bpf_redirect_map` with the fallback `XDP_PASS`, where `sockets` tells which
queues have a socket in `xsks_map`. -/
def bpfRedirectMap (sockets : UInt32 → Bool) (index : UInt32) : XdpAction :=
  if sockets index then .redirect else .pass

/-- The statistics of a frame that gets past the checks of its headers. -/
def countReceived (stats : XdpStats) (frame : Frame) : XdpStats :=
  { stats with
    rxPackets := stats.rxPackets + 1
    rxBytes := stats.rxBytes + .ofNat frame.length }

def xdpMarketDataFilter (sockets : UInt32 → Bool) (ctx : XdpMd)
    (stats : XdpStats) :
    Option (XdpAction × XdpStats) :=
  (inspect ctx.frame).map fun
    | .unrelated => (.pass, stats)
    | .otherPort | .tooSmall =>
        let counted := countReceived stats ctx.frame
        (.pass, { counted with passed := counted.passed + 1 })
    | .marketData _ =>
        let counted := countReceived stats ctx.frame
        (bpfRedirectMap sockets ctx.rxQueueIndex,
          { counted with redirected := counted.redirected + 1 })

/-- The frames that the filter redirects, by what it read. -/
structure Redirected (frame : Frame) (first : UInt8) (payload : ℕ) : Prop where
  hProto : frame.hProto = some (htons ethPIp)
  first_eq : frame.versionIhl = some first
  ihl : 5 ≤ ipIhl first
  protocol : frame.protocol = some ipprotoUdp
  dest : ∃ dest, frame.udpDest (ethhdrSize + (ipIhl first).toNat * 4) =
    some dest ∧
    ntohs dest = marketDataPort
  payload_eq : payload = ethhdrSize + (ipIhl first).toNat * 4 + udphdrSize
  room : payload + 25 ≤ frame.length

/-- Every check that the filter makes on the way to its redirect has passed. -/
theorem redirected_of_inspect {frame : Frame} {payload : ℕ}
    (hfound : inspect frame = some (.marketData payload)) :
    ∃ first, Redirected frame first payload := by
  rw [inspect] at hfound
  by_cases heth : ethhdrSize > frame.length
  · rw [if_pos heth] at hfound
    cases hfound
  rw [if_neg heth] at hfound
  obtain ⟨hProto, hproto, hfound⟩ := Option.bind_eq_some_iff.mp hfound
  by_cases hip : hProto ≠ htons ethPIp
  · rw [if_pos hip] at hfound
    cases hfound
  rw [if_neg hip] at hfound
  by_cases hiphdr : ethhdrSize + iphdrSize > frame.length
  · rw [if_pos hiphdr] at hfound
    cases hfound
  rw [if_neg hiphdr] at hfound
  obtain ⟨first, hfirst, hfound⟩ := Option.bind_eq_some_iff.mp hfound
  by_cases hihl : ipIhl first < 5
  · rw [if_pos hihl] at hfound
    cases hfound
  rw [if_neg hihl] at hfound
  obtain ⟨protocol, hprotocol, hfound⟩ := Option.bind_eq_some_iff.mp hfound
  by_cases hudp : protocol ≠ ipprotoUdp
  · rw [if_pos hudp] at hfound
    cases hfound
  rw [if_neg hudp] at hfound
  dsimp only at hfound
  by_cases hudphdr : ethhdrSize + (ipIhl first).toNat * 4 + udphdrSize >
    frame.length
  · rw [if_pos hudphdr] at hfound
    cases hfound
  rw [if_neg hudphdr] at hfound
  obtain ⟨dest, hdest, hfound⟩ := Option.bind_eq_some_iff.mp hfound
  by_cases hport : ntohs dest = marketDataPort
  case neg =>
    rw [if_neg hport] at hfound
    cases hfound
  rw [if_pos hport] at hfound
  by_cases hroom : ethhdrSize + (ipIhl first).toNat * 4 + udphdrSize + 25 >
    frame.length
  · rw [if_pos hroom] at hfound
    cases hfound
  rw [if_neg hroom] at hfound
  cases hfound
  exact ⟨first, not_not.mp hip ▸ hproto, hfirst, UInt8.not_lt.mp hihl,
    not_not.mp hudp ▸ hprotocol, ⟨dest, hdest, hport⟩, rfl,
    Nat.le_of_not_gt hroom⟩

theorem Redirected.inspect_eq {frame : Frame} {first : UInt8} {payload : ℕ}
    (hredirected : Redirected frame first payload) :
    inspect frame = some (.marketData payload) := by
  obtain ⟨dest, hdest, hport⟩ := hredirected.dest
  have hroom := hredirected.room
  have hpayload := hredirected.payload_eq
  have heth : ethhdrSize = 14 := rfl
  have hiphdr : iphdrSize = 20 := rfl
  have hudphdr : udphdrSize = 8 := rfl
  have hihl := UInt8.le_iff_toNat_le.mp hredirected.ihl
  have hfive : (5 : UInt8).toNat = 5 := rfl
  rw [inspect, if_neg (by omega), hredirected.hProto, Option.bind_eq_bind,
    Option.bind_some, if_neg (not_not.mpr rfl), if_neg (by omega),
    hredirected.first_eq, Option.bind_eq_bind,
    Option.bind_some, if_neg (UInt8.not_lt.mpr hredirected.ihl),
    hredirected.protocol,
    Option.bind_some, if_neg (not_not.mpr rfl)]
  dsimp only
  rw [if_neg (by omega), hdest, Option.bind_some, if_pos hport,
    if_neg (by omega), hpayload]
  rfl

theorem inspect_marketData_iff (frame : Frame) (payload : ℕ) :
    inspect frame = some (.marketData payload) ↔
      ∃ first, Redirected frame first payload :=
  ⟨redirected_of_inspect, fun ⟨_, hredirected⟩ => hredirected.inspect_eq⟩

end XdpFilter

end MarketDataPipeline
