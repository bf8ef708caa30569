import MarketDataPipeline.Umem.Draining

/-!
# From the sender to the books

The packets of a sender of market data are frames of the kind that
`market_maker.py` sends.  The filter redirects every one, and whatever kernel
and loop do in between, the pipeline is at all times the one that the messages
themselves lead to.
-/

namespace MarketDataPipeline

open XdpFilter

variable {size : UInt32}

/-- The packet is an IPv4 frame to the market data port with a message in it. -/
def Carries (packet : Frame) (message : ItchMessage) : Prop :=
  ∃ eth ip udp trailing, packet =
    frameOf eth ip udp (packMessage message) trailing

section Carries

variable {packet : Frame} {message : ItchMessage}
  (hcarries : Carries packet message)

include hcarries

theorem Carries.redirected :
    ∃ first payload, Redirected packet first payload := by
  obtain ⟨eth, ip, udp, trailing, rfl⟩ := hcarries
  exact ⟨_, _, frameOf_redirected eth ip udp (by simp [packMessage]) trailing⟩

/-- The loop makes of the packet the message that it carries. -/
theorem Carries.parsePacket_eq (hsmall : packet.length ≤ frameSize.toNat) :
    parsePacket packet = some message := by
  obtain ⟨eth, ip, udp, trailing, rfl⟩ := hcarries
  have hsize : frameSize.toNat = 4096 := rfl
  have hpacked : (packMessage message).length = 25 := by simp [packMessage]
  have hredirected := frameOf_redirected eth ip udp hpacked trailing
  set packet := frameOf eth ip udp (packMessage message) trailing
  have hlength : packet.length = (UInt32.ofNat packet.length).toNat := by
    rw [UInt32.toNat_ofNat', Nat.mod_eq_of_lt (by omega)]
  rw [parsePacket, receiveMessage, hredirected.getItchMessage hlength,
    if_pos ip.version_first, Option.bind_eq_bind, Option.bind_some]
  dsimp only
  rw [frameOf_read eth ip udp hpacked, Option.bind_eq_bind,
    Option.bind_some, unpack_pack]
  rfl

end Carries

/-- Packets that carry messages lead the pipeline where the messages do. -/
theorem Pipeline.afterPackets_of_carries (pipeline : Pipeline size)
    {packets : List Frame} {messages : List ItchMessage}
    (hcarry : List.Forall₂ Carries packets messages)
    (hsmall : ∀ packet ∈ packets, packet.length ≤ frameSize.toNat)
    (received : ℕ) :
    pipeline.afterPackets packets received =
      { (machine size).run pipeline messages with
        totalReceived := pipeline.totalReceived + .ofNat received } := by
  have hruns : ∀ start : Pipeline size,
      (packetMachine size).run start (packets.map parsePacket) =
        (machine size).run start messages := by
    induction hcarry with
    | nil => exact fun start => rfl
    | cons hfirst _ ih =>
        obtain ⟨hshort, hrest⟩ := List.forall_mem_cons.mp hsmall
        intro start
        rw [List.map_cons, Machine.run_cons, Machine.run_cons,
          hfirst.parsePacket_eq hshort]
        exact ih hrest (start.processMessage _)
  rw [afterPackets, hruns]

namespace UmemState

/-- In every run of kernel and loop on packets that carry messages, the filter
redirects every packet, and the pipeline is at all times the one that the
messages read so far lead to. -/
theorem messages_reach_books (pipeline : Pipeline size)
    {events : List UmemEvent}
    (hlegal : (sentMachine size).Legal (start pipeline, []) events)
    (hinside : ∀ event ∈ events, event.Inside) {messages : List ItchMessage}
    (hcarry : List.Forall₂ Carries
      ((sentMachine size).run (start pipeline, []) events).2 messages) :
    let sent := ((sentMachine size).run (start pipeline, []) events).2
    let state := ((sentMachine size).run (start pipeline, []) events).1
    let read := messages.length - state.unread.length
    (∀ packet ∈ sent, ∃ payload, inspect packet = some (.marketData payload)) ∧
      state.pipeline =
          { (Pipeline.machine size).run pipeline (messages.take read) with
        totalReceived :=
          pipeline.totalReceived + .ofNat (read + state.shown) } := by
  intro sent state read
  have hredirected : ∀ packet ∈ sent, ∃ payload, inspect packet =
      some (.marketData payload) := by
    intro packet hpacket
    obtain ⟨i, hi, rfl⟩ := List.getElem_of_mem hpacket
    have hcarries :=
      (List.forall₂_iff_get.mp hcarry).2 i hi (hcarry.length_eq ▸ hi)
    obtain ⟨first, payload, hredirected⟩ := hcarries.redirected
    exact ⟨payload, hredirected.inspect_eq⟩
  refine ⟨hredirected, ?_⟩
  obtain ⟨-, handled, hdelivered⟩ := run_delivered pipeline hlegal hinside
  have hlength := hcarry.length_eq
  have hsplit := congrArg List.length hdelivered.sent_eq
  rw [List.length_append, List.length_map] at hsplit
  have hread : read = handled.length := by
    change messages.length - state.unread.length = _
    rw [← hlength, hsplit, Nat.add_sub_cancel]
  have htake : handled =
      ((sentMachine size).run (start pipeline, []) events).2.take read := by
    rw [hread, hdelivered.sent_eq, List.take_left]
  have hhandled : List.Forall₂ Carries handled (messages.take read) := by
    rw [htake]
    exact List.forall₂_take read hcarry
  have hsmall : ∀ packet ∈ handled, packet.length ≤ frameSize.toNat := by
    intro packet hpacket
    refine hdelivered.small packet ?_
    rw [hdelivered.sent_eq]
    exact List.mem_append_left _ hpacket
  have hpipeline := hdelivered.pipeline_eq
  rw [pipeline.afterPackets_of_carries hhandled hsmall, ← hread] at hpipeline
  exact hpipeline

theorem sampleFrame_carries (message : ItchMessage) :
    Carries (sampleFrame message) message :=
  ⟨_, _, _, _, rfl⟩

theorem twoPackets_carry (pipeline : Pipeline size)
    (first second : ItchMessage) :
    List.Forall₂ Carries ((sentMachine size).run (start pipeline, [])
      (twoPackets (sampleFrame first) (sampleFrame second))).2
      [first, second] := by
  rw [twoPackets_sent pipeline (sampleFrame_length first)
    (sampleFrame_length second)]
  exact .cons (sampleFrame_carries _) (.cons (sampleFrame_carries _) .nil)

/-- Of the packets of two messages the loop has read the first. -/
theorem messages_reach_books_sample :
    let pipeline : Pipeline 1 := .init (fun _ => default) fun _ => default
    let sent := ((sentMachine 1).run (start pipeline, [])
      (twoPackets (sampleFrame sampleAdd) (sampleFrame sampleTrade))).2
    let state := ((sentMachine 1).run (start pipeline, [])
      (twoPackets (sampleFrame sampleAdd) (sampleFrame sampleTrade))).1
    (∀ packet ∈ sent, ∃ payload, inspect packet = some (.marketData payload)) ∧
      state.pipeline = { (Pipeline.machine 1).run pipeline [sampleAdd] with
        totalReceived := pipeline.totalReceived + 1 } := by
  intro pipeline sent state
  have hfirst := sampleFrame_length sampleAdd
  have hsecond := sampleFrame_length sampleTrade
  have hcarry := twoPackets_carry pipeline sampleAdd sampleTrade
  obtain ⟨hunread, hshown⟩ :=
    twoPackets_unread pipeline (sampleFrame sampleAdd) (sampleFrame sampleTrade)
  have hlength : state.unread.length = 1 := congrArg List.length hunread
  obtain ⟨hredirected, hpipeline⟩ := messages_reach_books pipeline
    (twoPackets_legal pipeline _ _) (twoPackets_inside hfirst hsecond) hcarry
  change state.pipeline = { (Pipeline.machine 1).run pipeline
    ([sampleAdd, sampleTrade].take (2 - state.unread.length)) with
      totalReceived := pipeline.totalReceived +
        .ofNat (2 - state.unread.length + state.shown) } at hpipeline
  rw [hlength, hshown] at hpipeline
  exact ⟨hredirected, hpipeline⟩

end UmemState

end MarketDataPipeline
