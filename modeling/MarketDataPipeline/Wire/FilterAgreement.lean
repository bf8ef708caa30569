import MarketDataPipeline.Wire.ItchParser
import MarketDataPipeline.Wire.XdpFilter

/-!
# The filter and the parser

The two walk the headers of a frame independently.  The parser finds the payload
where the filter checked for it, unless the IP version is not 4: only the parser
looks at it.
-/

namespace MarketDataPipeline

open XdpFilter

/-- What the parser makes of a frame that the filter redirects. -/
theorem XdpFilter.Redirected.getItchMessage {frame : Frame} {first : UInt8}
    {payload : ℕ} (hredirected : Redirected frame first payload)
    {frameLen : UInt32} (hlen : frame.length = frameLen.toNat) :
    getItchMessage frame frameLen = some
      (if ipVersion first = 4 then some payload else none) := by
  have heth : ethhdrSize = 14 := rfl
  have hiphdr : iphdrSize = 20 := rfl
  have hudphdr : udphdrSize = 8 := rfl
  have hmessage : itchMessageSize = 25 := rfl
  have hroom := hredirected.room
  have hpayload := hredirected.payload_eq
  have hip : ¬ ntohs (htons ethPIp) ≠ ethPIp := by decide
  rw [MarketDataPipeline.getItchMessage, if_neg (by omega), hredirected.hProto,
    Option.bind_eq_bind, Option.bind_some, if_neg hip, if_neg (by omega),
    hredirected.first_eq,
    Option.bind_eq_bind, Option.bind_some]
  by_cases hversion : ipVersion first = 4
  · have hheader : ¬ (ipVersion first ≠ 4 ∨ ipIhl first < 5) := by
      rintro (hother | hshort)
      · exact hother hversion
      · exact UInt8.not_lt.mpr hredirected.ihl hshort
    rw [if_neg hheader, if_pos hversion]
    dsimp only
    rw [if_neg (by omega), if_neg (by omega), hpayload]
    rfl
  · rw [if_pos (Or.inl hversion), if_neg hversion]
    rfl

/-- For every frame that the filter redirects, of a length that both see alike,
the filter checked the payload behind the IP header, and the parser returns the
message there exactly when the IP version is 4.  Otherwise it returns none. -/
theorem redirected_parses_iff {frame : Frame} {frameLen : UInt32} {payload : ℕ}
    (hlen : frame.length = frameLen.toNat)
    (hfound : inspect frame = some (.marketData payload)) :
    ∃ first, frame.versionIhl = some first ∧
      payload = ethhdrSize + (ipIhl first).toNat * 4 + udphdrSize ∧
      (getItchMessage frame frameLen = some (some payload) ↔
        ipVersion first = 4) ∧
      (ipVersion first = 4 → receiveMessage frame frameLen =
        some (some (itchToHost
          (loadMessage ((frame.drop payload).take itchMessageSize))))) ∧
      (ipVersion first ≠ 4 → receiveMessage frame frameLen = some none) := by
  obtain ⟨first, hredirected⟩ :=
    (inspect_marketData_iff frame payload).mp hfound
  have hparse := hredirected.getItchMessage hlen
  refine ⟨first, hredirected.first_eq, hredirected.payload_eq, ?_,
    fun hversion => ?_,
    fun hversion => ?_⟩
  · rw [hparse]
    by_cases hversion : ipVersion first = 4 <;> simp [hversion]
  · rw [receiveMessage, hparse, if_pos hversion]
    have hread : frame.read payload itchMessageSize =
        some ((frame.drop payload).take itchMessageSize) :=
          Frame.read_of_le hredirected.room
    rw [Option.bind_eq_bind, Option.bind_some]
    dsimp only
    rw [hread]
    rfl
  · rw [receiveMessage, hparse, if_neg hversion]
    rfl

/-- A frame to the market data port whose IP header starts with `first`. -/
def sampleFrame (first : UInt8) : Frame :=
  List.replicate 12 0 ++ [8, 0] ++ first :: List.replicate 8 0 ++ 17 ::
    List.replicate 10 0 ++ [0, 0, 4, 210, 0, 33, 0, 0] ++ List.replicate 25 65

/-- The message of an IPv4 packet is found. -/
theorem redirected_parses_iff_ipv4 :
    getItchMessage (sampleFrame 0x45) 67 = some (some 42) := by
  have hlen : (sampleFrame 0x45).length = (67 : UInt32).toNat := by decide
  have hfound : inspect (sampleFrame 0x45) = some (.marketData 42) := by decide
  obtain ⟨first, hfirst, -, hiff, -⟩ := redirected_parses_iff hlen hfound
  have hfirst' : (sampleFrame 0x45).versionIhl = some 0x45 := by decide
  rw [hfirst', Option.some.injEq] at hfirst
  exact hiff.mpr (by rw [← hfirst]; decide)

/-- The filter redirects a frame with IP version 6 that the parser refuses. -/
theorem version_6_redirected :
    ¬ ∀ (frame : Frame) (frameLen : UInt32) (payload : ℕ), frame.length =
      frameLen.toNat →
      inspect frame = some (.marketData payload) →
      getItchMessage frame frameLen = some (some payload) := by
  intro hclaim
  have hparse := hclaim (sampleFrame 0x65) 67 42 (by decide) (by decide)
  exact absurd hparse (by decide)

end MarketDataPipeline
