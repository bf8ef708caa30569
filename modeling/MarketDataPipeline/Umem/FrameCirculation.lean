import MarketDataPipeline.Core.Ring
import MarketDataPipeline.Pipeline.HotLoop
import MarketDataPipeline.Wire.ItchParser

/-!
# The circulation of UMEM frames

The fill ring hands frames to the kernel, the RX ring hands them back with a
packet in each, and the loop returns their addresses to the fill ring.  Kernel
and loop take their steps in any order; a step of the loop is one call on a ring
or the body for one packet.

The rings, the kernel and the addresses of libxdp are taken as documented: a
ring is first in, first out; the kernel takes the oldest entry of the fill ring,
keeps the frames it recycles, and puts a packet into a frame that it has taken
under a descriptor in that frame.
-/

namespace MarketDataPipeline

variable {size : UInt32}

def numFrames : UInt32 := 4096

def frameSize : UInt32 := 4096

/-- `RING_SIZE`, of the RX ring. -/
def ringSize : ℕ := 2048

def fillRingSize : ℕ := ringSize * 2

def batchSize : ℕ := 64

structure XdpDesc where
  addr : UInt64
  len : UInt32

def frameNumber (addr : UInt64) : ℕ := addr.toNat / frameSize.toNat

/-- `xsk_umem__extract_addr`: the lower 48 bits. -/
def extractAddr (addr : UInt64) : UInt64 := addr &&& 0xFFFFFFFFFFFF

/-- `xsk_umem__add_offset_to_addr`: an offset stands in the upper 16 bits. -/
def addOffsetToAddr (addr : UInt64) : UInt64 := extractAddr addr + (addr >>> 48)

def packetBytes (umem : UInt64 → UInt8) (desc : XdpDesc) : Frame :=
  (List.range desc.len.toNat).map fun i =>
    umem (addOffsetToAddr desc.addr + .ofNat i)

@[simp]
theorem packetBytes_length (umem : UInt64 → UInt8) (desc : XdpDesc) :
    (packetBytes umem desc).length = desc.len.toNat := by
  simp [packetBytes]

/-- The parser reads nothing outside the packet of a descriptor. -/
theorem receiveMessage_packetBytes (umem : UInt64 → UInt8) (desc : XdpDesc) :
    (receiveMessage (packetBytes umem desc) desc.len).isSome :=
  receiveMessage_isSome (packetBytes_length umem desc)

def populateFillRing (fillRing : Ring UInt64 fillRingSize) (frames : UInt32) :
    Ring UInt64 fillRingSize :=
  let reserved := fillRing.reserve frames.toNat
  fillRing.submit ((List.range reserved).map fun i =>
    (UInt32.ofNat i * frameSize).toUInt64)

inductive LoopPhase where
  /-- Before `peek`. -/
  | top
  /-- The packets of `addrs` are processed, of `rcvd` packets peeked at. -/
  | processing (rcvd : ℕ) (addrs : List UInt64)
  /-- After `release`. -/
  | released (rcvd : ℕ) (addrs : List UInt64)
  /-- After `reserve`. -/
  | reserved (freeSlots : ℕ) (addrs : List UInt64)

structure UmemState (size : UInt32) where
  fillRing : Ring UInt64 fillRingSize
  rxRing : Ring XdpDesc ringSize
  /-- Frames that the kernel has taken for packets to come. -/
  taken : Multiset ℕ
  /-- Frames that the kernel has recycled, to be taken again. -/
  spare : Multiset ℕ
  umem : UInt64 → UInt8
  loop : LoopPhase
  pipeline : Pipeline size

inductive UmemEvent where
  /-- The kernel takes the oldest entry of the fill ring. -/
  | take
  | recycle (frame : ℕ)
  | reuse (frame : ℕ)
  /-- The kernel writes a packet into a frame and puts its descriptor on the RX
  ring. -/
  | deliver (frame : ℕ) (desc : XdpDesc) (umem : UInt64 → UInt8)
  /-- The loop peeks at the RX ring and is shown `rcvd` descriptors. -/
  | peek (rcvd : ℕ)
  /-- The loop goes on within its body. -/
  | advance

namespace UmemState

def start (pipeline : Pipeline size) : UmemState size where
  fillRing := populateFillRing .empty (numFrames / 2)
  rxRing := .empty
  taken := 0
  spare := 0
  umem := fun _ => 0
  loop := .top
  pipeline := pipeline

/-- `peek`; where nothing is received the loop starts over. -/
def peek (state : UmemState size) (rcvd : ℕ) : UmemState size :=
  if rcvd = 0 then state
  else
    { state with
      loop := .processing rcvd []
      pipeline := { state.pipeline with
        totalReceived := state.pipeline.totalReceived + .ofNat rcvd } }

/-- The loop body for the next packet.  Its address is saved first, whatever
becomes of the packet. -/
def processNext (state : UmemState size) (rcvd : ℕ) (addrs : List UInt64) :
    UmemState size :=
  match state.rxRing.entries[addrs.length]? with
  | none => state
  | some desc =>
      { state with
        loop := .processing rcvd (addrs ++ [extractAddr desc.addr])
        pipeline := state.pipeline.processPacket
          (receiveMessage (packetBytes state.umem desc) desc.len).join }

/-- The next step of the loop after `peek`. -/
def advance (state : UmemState size) : UmemState size :=
  match state.loop with
  | .top => state
  | .processing rcvd addrs =>
      if addrs.length < rcvd then state.processNext rcvd addrs
      else
        { state with
          rxRing := state.rxRing.release rcvd,
          loop := .released rcvd addrs }
  | .released rcvd addrs =>
      { state with loop := .reserved (state.fillRing.reserve rcvd) addrs }
  | .reserved freeSlots addrs =>
      { state with
        fillRing := state.fillRing.submit (addrs.take freeSlots),
        loop := .top }

def take (state : UmemState size) : UmemState size :=
  match state.fillRing.entries with
  | [] => state
  | addr :: _ =>
      { state with
        fillRing := state.fillRing.release 1,
        taken := frameNumber addr ::ₘ state.taken }

def step (state : UmemState size) : UmemEvent → UmemState size
  | .take => state.take
  | .recycle frame =>
      { state with
        taken := state.taken.erase frame, spare := frame ::ₘ state.spare }
  | .reuse frame =>
      { state with
        spare := state.spare.erase frame, taken := frame ::ₘ state.taken }
  | .deliver frame desc umem =>
      { state with
        taken := state.taken.erase frame,
        rxRing := state.rxRing.submit [desc], umem }
  | .peek rcvd => state.peek rcvd
  | .advance => state.advance

def Allowed (state : UmemState size) : UmemEvent → Prop
  | .take => state.fillRing.entries ≠ []
  | .recycle frame => frame ∈ state.taken
  | .reuse frame => frame ∈ state.spare
  | .deliver frame desc umem =>
      frame ∈ state.taken ∧ frameNumber desc.addr = frame ∧
        state.rxRing.entries.length < ringSize ∧
        ∀ addr, frameNumber addr ≠ frame → umem addr = state.umem addr
  | .peek rcvd =>
      state.loop = .top ∧ rcvd ≤ batchSize ∧ rcvd ≤ state.rxRing.entries.length
  | .advance => state.loop ≠ .top

def machine (size : UInt32) : Machine (UmemState size) UmemEvent where
  allowed := Allowed
  step := step

/-! ## Where the frames are -/

def filled (state : UmemState size) : Multiset ℕ :=
  state.fillRing.tokens frameNumber

def held (state : UmemState size) : Multiset ℕ := state.taken + state.spare

def received (state : UmemState size) : Multiset ℕ :=
  state.rxRing.tokens fun desc => frameNumber desc.addr

/-- The frames that are with the loop alone: released and not yet submitted. -/
def inHand (state : UmemState size) : Multiset ℕ :=
  match state.loop with
  | .top | .processing _ _ => 0
  | .released _ addrs | .reserved _ addrs => addrs.map frameNumber

end UmemState

end MarketDataPipeline
