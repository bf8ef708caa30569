import MarketDataPipeline.Umem.FrameConservation
import MarketDataPipeline.Pipeline.Accounting
import MarketDataPipeline.Pipeline.BookRuns
import MarketDataPipeline.Wire.RoundTrip

/-!
# Packets arrive in order, once each and unharmed

Kernel and loop share the UMEM without a lock.  The loop reads a packet long
after the kernel wrote it, while the kernel goes on writing; what protects the
packet is that its frame is in one place only.  So the packets that the loop has
been through, followed by those waiting on the RX ring, are at all times the
packets that the kernel put there, byte for byte.
-/

namespace MarketDataPipeline

variable {size : UInt32}

/-! ## Bytes of a packet -/

/-- The bytes of a packet do not run over the end of its frame. -/
def XdpDesc.Inside (desc : XdpDesc) : Prop :=
  desc.addr.toNat % frameSize.toNat + desc.len.toNat ≤ frameSize.toNat

instance (desc : XdpDesc) : Decidable desc.Inside :=
  inferInstanceAs (Decidable (_ ≤ _))

theorem XdpDesc.Inside.toNat_byte {desc : XdpDesc} (hinside : desc.Inside)
    (hframe : frameNumber desc.addr < numFrames.toNat) {i : ℕ}
    (hi : i < desc.len.toNat) :
    (addOffsetToAddr desc.addr + .ofNat i).toNat = desc.addr.toNat + i := by
  have hframes : numFrames.toNat = 4096 := rfl
  have hsize : frameSize.toNat = 4096 := rfl
  rw [Inside, hsize] at hinside
  rw [frameNumber, hframes, hsize] at hframe
  have hshift : (desc.addr >>> 48).toNat = 0 := by
    rw [UInt64.toNat_shiftRight, show (48 : UInt64).toNat % 64 = 48 from rfl,
      Nat.shiftRight_eq_div_pow]
    omega
  have hbase : (addOffsetToAddr desc.addr).toNat = desc.addr.toNat := by
    rw [addOffsetToAddr, UInt64.toNat_add, extractAddr_toNat, hshift]
    omega
  rw [UInt64.toNat_add, hbase, UInt64.toNat_ofNat',
    Nat.mod_eq_of_lt (by omega : i < 2 ^ 64)]
  omega

/-- A byte of a packet lies in the frame of the packet. -/
theorem XdpDesc.Inside.frameNumber_byte {desc : XdpDesc} (hinside : desc.Inside)
    (hframe : frameNumber desc.addr < numFrames.toNat) {i : ℕ}
    (hi : i < desc.len.toNat) :
    frameNumber (addOffsetToAddr desc.addr + .ofNat i) =
      frameNumber desc.addr := by
  have hsize : frameSize.toNat = 4096 := rfl
  have hbyte := hinside.toNat_byte hframe hi
  rw [Inside, hsize] at hinside
  rw [frameNumber, frameNumber, hbyte, hsize]
  omega

/-- Writes to other frames leave a packet as it is. -/
theorem XdpDesc.Inside.packetBytes_congr {desc : XdpDesc}
    (hinside : desc.Inside) (hframe : frameNumber desc.addr < numFrames.toNat)
    {umem umem' : UInt64 → UInt8}
    (hsame : ∀ addr, frameNumber addr = frameNumber desc.addr →
      umem' addr = umem addr) :
    packetBytes umem' desc = packetBytes umem desc := by
  refine List.map_congr_left fun i hi => ?_
  exact hsame _ (hinside.frameNumber_byte hframe (List.mem_range.mp hi))

def parsePacket (packet : Frame) : Option ItchMessage :=
  (receiveMessage packet (.ofNat packet.length)).join

theorem parsePacket_packetBytes (umem : UInt64 → UInt8) (desc : XdpDesc) :
    parsePacket (packetBytes umem desc) =
      (receiveMessage (packetBytes umem desc) desc.len).join := by
  rw [parsePacket, packetBytes_length, UInt32.ofNat_toNat]

/-! ## What the loop has been through -/

/-- The pipeline once packets were processed, `received` of them counted. -/
def Pipeline.afterPackets (pipeline : Pipeline size) (packets : List Frame)
    (received : ℕ) :
    Pipeline size :=
  { (packetMachine size).run pipeline (packets.map parsePacket) with
    totalReceived := pipeline.totalReceived + .ofNat received }

/-- Processing a packet neither reads nor writes `total_received`. -/
theorem Pipeline.processPacket_totalReceived (state : Pipeline size)
    (received : UInt64) (packet : Option ItchMessage) :
    processPacket { state with totalReceived := received } packet =
      { processPacket state packet with totalReceived := received } := by
  cases packet with
  | none => rfl
  | some message =>
      rw [processPacket, processPacket, processMessage, processMessage]
      dsimp only
      split <;> rfl

theorem Pipeline.afterPackets_concat (pipeline : Pipeline size)
    (packets : List Frame) (packet : Frame) (received : ℕ) :
    pipeline.afterPackets (packets ++ [packet]) received =
      (pipeline.afterPackets packets received).processPacket
        (parsePacket packet) := by
  rw [afterPackets, afterPackets, processPacket_totalReceived, List.map_append,
    Machine.run_append]
  rfl

theorem Pipeline.afterPackets_received (pipeline : Pipeline size)
    (packets : List Frame) (received more : ℕ) :
    pipeline.afterPackets packets (received + more) =
      { pipeline.afterPackets packets received with
        totalReceived :=
          (pipeline.afterPackets packets received).totalReceived +
            .ofNat more } := by
  rw [afterPackets, afterPackets, UInt64.ofNat_add, UInt64.add_assoc]

/-- Every packet that the kernel delivers lies inside its frame. -/
def UmemEvent.Inside : UmemEvent → Prop
  | .deliver _ desc _ => desc.Inside
  | _ => True

namespace UmemState

variable {pipeline : Pipeline size} {state : UmemState size} {sent : List Frame}

/-- The record of a run: the packets that the kernel put on the RX ring. -/
def noteSent (_state : UmemState size) (event : UmemEvent) (sent : List Frame) :
    List Frame :=
  match event with
  | .deliver _ desc umem => sent ++ [packetBytes umem desc]
  | _ => sent

/-- The descriptors on the RX ring that the loop has not come to. -/
def unread (state : UmemState size) : List XdpDesc :=
  match state.loop with
  | .processing _ addrs => state.rxRing.entries.drop addrs.length
  | _ => state.rxRing.entries

/-- How many of them `peek` has already shown and counted. -/
def shown (state : UmemState size) : ℕ :=
  match state.loop with
  | .processing rcvd addrs => rcvd - addrs.length
  | _ => 0

/-- The packets sent are those processed and then those still to be read. -/
structure Delivered (pipeline : Pipeline size) (state : UmemState size)
    (sent handled : List Frame) :
    Prop where
  inside : ∀ desc ∈ state.rxRing.entries, desc.Inside
  small : ∀ packet ∈ sent, packet.length ≤ frameSize.toNat
  sent_eq : sent = handled ++ state.unread.map (packetBytes state.umem)
  pipeline_eq : state.pipeline =
    pipeline.afterPackets handled (handled.length + state.shown)

/-- Frames that wait on the RX ring are not among those the kernel may write. -/
theorem Conserved.received_notMem_taken (hconserved : state.Conserved)
    {desc : XdpDesc} (hdesc : desc ∈ state.rxRing.entries) :
    frameNumber desc.addr ∉ state.taken := by
  have hnodup :
      (state.filled + state.held + state.received + state.inHand).Nodup := by
    rw [hconserved.frames]
    exact Multiset.nodup_range _
  have hparts := (Multiset.nodup_add.mp (Multiset.nodup_add.mp hnodup).1).2.2
  intro htaken
  have hheld : frameNumber desc.addr ∈ state.filled + state.held := by
    rw [held]
    exact Multiset.mem_add.mpr (Or.inr (Multiset.mem_add.mpr (Or.inl htaken)))
  have hreceived : frameNumber desc.addr ∈ state.received :=
    Multiset.mem_coe.mpr (List.mem_map_of_mem hdesc)
  exact Multiset.disjoint_left.mp hparts hheld hreceived

theorem unread_subset (state : UmemState size) :
    state.unread ⊆ state.rxRing.entries := by
  rw [unread]
  split
  · exact List.drop_subset _ _
  · exact List.Subset.refl _

variable {handled : List Frame}

/-- Steps that move frames between kernel and fill ring deliver nothing. -/
theorem Delivered.congr (hdelivered : state.Delivered pipeline sent handled)
    {state' : UmemState size} (hrx : state'.rxRing = state.rxRing)
    (humem : state'.umem = state.umem) (hunread : state'.unread = state.unread)
    (hshown : state'.shown = state.shown)
    (hpipeline : state'.pipeline = state.pipeline) :
    state'.Delivered pipeline sent handled where
  inside := by
    rw [hrx]
    exact hdelivered.inside
  small := hdelivered.small
  sent_eq := by
    rw [hunread, humem]
    exact hdelivered.sent_eq
  pipeline_eq := by
    rw [hpipeline, hshown]
    exact hdelivered.pipeline_eq

/-- A delivery adds its packet behind the others and harms none of them. -/
theorem Delivered.deliver (hdelivered : state.Delivered pipeline sent handled)
    (hconserved : state.Conserved) {frame : ℕ} {desc : XdpDesc}
    {umem : UInt64 → UInt8}
    (hallowed : state.Allowed (.deliver frame desc umem))
    (hinside : desc.Inside) :
    (state.step (.deliver frame desc umem)).Delivered pipeline
      (sent ++ [packetBytes umem desc])
      handled := by
  obtain ⟨htaken, hframe, hroom, hsame⟩ := hallowed
  have hentries : (state.rxRing.submit [desc]).entries =
      state.rxRing.entries ++ [desc] :=
    Ring.submit_entries hroom
  have hunread : (state.step (.deliver frame desc umem)).unread =
      state.unread ++ [desc] := by
    have hconsistent := hconserved.loop
    rw [Consistent] at hconsistent
    rw [unread, unread, step]
    dsimp only
    rw [hentries]
    cases hloop : state.loop with
    | processing rcvd addrs =>
        rw [hloop] at hconsistent
        exact List.drop_append_of_le_length
          (hconsistent.1.trans hconsistent.2.1)
    | top | released | reserved => rfl
  have hkept : ∀ other ∈ state.rxRing.entries,
      packetBytes umem other = packetBytes state.umem other := by
    intro other hother
    refine (hdelivered.inside other hother).packetBytes_congr
      (hconserved.received_inside hother) fun addr haddr => hsame addr ?_
    rintro rfl
    exact hconserved.received_notMem_taken hother (haddr ▸ htaken)
  refine ⟨fun other hother => ?_, fun packet hpacket =>
    ?_, ?_, hdelivered.pipeline_eq⟩
  · have hmem : other ∈ state.rxRing.entries ++ [desc] := hentries ▸ hother
    rcases List.mem_append.mp hmem with hold | hnew
    · exact hdelivered.inside other hold
    · rw [List.mem_singleton.mp hnew]
      exact hinside
  · rcases List.mem_append.mp hpacket with hold | hnew
    · exact hdelivered.small packet hold
    · rw [List.mem_singleton.mp hnew, packetBytes_length]
      exact (Nat.le_add_left _ _).trans hinside
  · have hbytes : state.unread.map (packetBytes umem) =
      state.unread.map (packetBytes state.umem) :=
      List.map_congr_left fun other hother =>
        hkept other (state.unread_subset hother)
    change _ = handled ++
      (state.step (.deliver frame desc umem)).unread.map (packetBytes umem)
    rw [hunread, List.map_append, hbytes, ← List.append_assoc,
      ← hdelivered.sent_eq]
    rfl

theorem Delivered.peek (hdelivered : state.Delivered pipeline sent handled)
    {rcvd : ℕ} (htop : state.loop = .top) :
    (state.peek rcvd).Delivered pipeline sent handled := by
  rw [UmemState.peek]
  split
  case isTrue => exact hdelivered
  case isFalse =>
    have hunread : state.unread = state.rxRing.entries := by rw [unread, htop]
    have hshown : state.shown = 0 := by rw [shown, htop]
    refine ⟨hdelivered.inside, hdelivered.small, ?_, ?_⟩
    · rw [hdelivered.sent_eq, hunread]
      rfl
    · change _ = pipeline.afterPackets handled (handled.length + (rcvd - 0))
      rw [Nat.sub_zero, Pipeline.afterPackets_received,
        hdelivered.pipeline_eq, hshown]
      rfl

/-- The next packet is read as it was sent. -/
theorem Delivered.processNext
    (hdelivered : state.Delivered pipeline sent handled)
    (hconserved : state.Conserved) {rcvd : ℕ} {addrs : List UInt64}
    (hloop : state.loop = .processing rcvd addrs)
    (hmore : addrs.length < rcvd) :
    ∃ packet, (state.processNext rcvd addrs).Delivered pipeline sent
      (handled ++ [packet]) := by
  have hconsistent := hconserved.loop
  rw [Consistent, hloop] at hconsistent
  have hlt : addrs.length < state.rxRing.entries.length :=
    hmore.trans_le hconsistent.2.1
  have hunread : state.unread = state.rxRing.entries.drop addrs.length := by
    rw [unread, hloop]
  have hshown : state.shown = rcvd - addrs.length := by rw [shown, hloop]
  rw [UmemState.processNext, List.getElem?_eq_getElem hlt]
  dsimp only
  set desc := state.rxRing.entries[addrs.length]
  have hdrop : state.rxRing.entries.drop addrs.length =
      desc :: state.rxRing.entries.drop (addrs.length + 1) :=
        List.drop_eq_getElem_cons hlt
  refine ⟨packetBytes state.umem desc, hdelivered.inside,
    hdelivered.small, ?_, ?_⟩
  · rw [hdelivered.sent_eq, hunread, hdrop, List.map_cons,
      List.append_assoc, unread]
    simp
  · have hcount : (handled ++ [packetBytes state.umem desc]).length +
        (rcvd - (addrs ++ [extractAddr desc.addr]).length) =
          handled.length + state.shown := by
      rw [hshown, List.length_append, List.length_append, List.length_singleton,
        List.length_singleton]
      omega
    change _ = pipeline.afterPackets (handled ++ [packetBytes state.umem desc])
      ((handled ++ [packetBytes state.umem desc]).length +
        (rcvd - (addrs ++ [extractAddr desc.addr]).length))
    rw [hcount, Pipeline.afterPackets_concat, ← hdelivered.pipeline_eq,
      parsePacket_packetBytes]

/-- The descriptors that the loop gives up are those it has read. -/
theorem Delivered.release (hdelivered : state.Delivered pipeline sent handled)
    {rcvd : ℕ} {addrs : List UInt64}
    (hloop : state.loop = .processing rcvd addrs)
    (hcount : addrs.length = rcvd) :
    ({ state with
      rxRing := state.rxRing.release rcvd
      loop := .released rcvd addrs } :
        UmemState size).Delivered pipeline sent handled := by
  have hunread : state.unread = state.rxRing.entries.drop rcvd := by
    rw [unread, hloop, ← hcount]
  have hshown : state.shown = 0 := by
    rw [shown, hloop]
    exact Nat.sub_eq_zero_of_le hcount.ge
  refine ⟨fun desc hdesc => hdelivered.inside desc (List.mem_of_mem_drop hdesc),
    hdelivered.small, ?_, ?_⟩
  · rw [hdelivered.sent_eq, hunread]
    rfl
  · change state.pipeline = pipeline.afterPackets handled (handled.length + 0)
    rw [← hshown]
    exact hdelivered.pipeline_eq

theorem Delivered.advance (hdelivered : state.Delivered pipeline sent handled)
    (hconserved : state.Conserved) :
    ∃ handled', state.advance.Delivered pipeline sent handled' := by
  have hconsistent := hconserved.loop
  rw [Consistent] at hconsistent
  rw [UmemState.advance]
  split
  case h_1 => exact ⟨handled, hdelivered⟩
  case h_2 rcvd addrs hloop =>
    rw [hloop] at hconsistent
    split
    case isTrue hmore =>
      obtain ⟨packet, hnext⟩ := hdelivered.processNext hconserved hloop hmore
      exact ⟨handled ++ [packet], hnext⟩
    case isFalse hdone =>
      have hcount := Nat.le_antisymm hconsistent.1 (Nat.le_of_not_lt hdone)
      exact ⟨handled, hdelivered.release hloop hcount⟩
  case h_3 rcvd addrs hloop =>
    refine ⟨handled, hdelivered.congr rfl rfl ?_ ?_ rfl⟩
    · rw [unread, unread, hloop]
    · rw [shown, shown, hloop]
  case h_4 freeSlots addrs hloop =>
    refine ⟨handled, hdelivered.congr rfl rfl ?_ ?_ rfl⟩
    · rw [unread, unread, hloop]
    · rw [shown, shown, hloop]

theorem Delivered.step (hdelivered : state.Delivered pipeline sent handled)
    (hconserved : state.Conserved) {event : UmemEvent}
    (hallowed : state.Allowed event) (hinside : event.Inside) :
    ∃ handled', (state.step event).Delivered pipeline
      (state.noteSent event sent) handled' := by
  cases event with
  | take =>
      refine ⟨handled, ?_⟩
      rw [UmemState.step, UmemState.take]
      split
      · exact hdelivered
      · exact hdelivered.congr rfl rfl rfl rfl rfl
  | recycle | reuse => exact ⟨handled, hdelivered.congr rfl rfl rfl rfl rfl⟩
  | deliver frame desc umem =>
      exact ⟨handled, hdelivered.deliver hconserved hallowed hinside⟩
  | peek rcvd => exact ⟨handled, hdelivered.peek hallowed.1⟩
  | advance => exact hdelivered.advance hconserved

/-! ## Runs -/

/-- Kernel and loop with the record of the packets sent. -/
def sentMachine (size : UInt32) :
    Machine (UmemState size × List Frame) UmemEvent :=
  (machine size).observed noteSent

theorem start_delivered (pipeline : Pipeline size) :
    (start pipeline).Delivered pipeline [] [] where
  inside := by simp [start, Ring.empty]
  small := by simp
  sent_eq := rfl
  pipeline_eq := by
    change pipeline =
      { pipeline with totalReceived := pipeline.totalReceived + .ofNat 0 }
    rw [show UInt64.ofNat 0 = 0 from rfl, UInt64.add_zero]

theorem Delivered.run (hdelivered : state.Delivered pipeline sent handled)
    (hconserved : state.Conserved) {events : List UmemEvent}
    (hlegal : (sentMachine size).Legal (state, sent) events)
    (hinside : ∀ event ∈ events, event.Inside) :
    let done := (sentMachine size).run (state, sent) events
    done.1.Conserved ∧
      ∃ handled', done.1.Delivered pipeline done.2 handled' := by
  let property (state : UmemState size × List Frame) : Prop :=
    state.1.Conserved ∧ ∃ handled, state.1.Delivered pipeline state.2 handled
  have hstart : property (state, sent) := ⟨hconserved, handled, hdelivered⟩
  refine Machine.invariant_each property (fun _ event => event.Inside) ?_
    hstart hlegal
    (Machine.each_iff_forall_mem.mpr hinside)
  rintro state event ⟨hconserved, handled, hdelivered⟩ hallowed hevent
  exact ⟨hconserved.step hallowed, hdelivered.step hconserved hallowed hevent⟩

theorem run_delivered (pipeline : Pipeline size) {events : List UmemEvent}
    (hlegal : (sentMachine size).Legal (start pipeline, []) events)
    (hinside : ∀ event ∈ events, event.Inside) :
    let state := (sentMachine size).run (start pipeline, []) events
    state.1.Conserved ∧ ∃ handled, state.1.Delivered pipeline state.2 handled :=
  (start_delivered pipeline).run (conserved_start pipeline) hlegal hinside

/-- In every run of kernel and loop, the packets sent so far are those the loop
has processed, in the order they were sent, followed by those that wait on the
RX ring with their bytes as they were sent. -/
theorem packets_delivered (pipeline : Pipeline size) {events : List UmemEvent}
    (hlegal : (sentMachine size).Legal (start pipeline, []) events)
    (hinside : ∀ event ∈ events, event.Inside) :
    let state := (sentMachine size).run (start pipeline, []) events
    ∃ handled, state.2 =
      handled ++ state.1.unread.map (packetBytes state.1.umem) ∧
      state.1.pipeline =
        pipeline.afterPackets handled (handled.length + state.1.shown) := by
  obtain ⟨-, handled, hdelivered⟩ := run_delivered pipeline hlegal hinside
  exact ⟨handled, hdelivered.sent_eq, hdelivered.pipeline_eq⟩

/-! ## A run of two packets -/

/-- Where the kernel puts a packet in a frame: behind the headroom of XDP. -/
def descIn (frame : ℕ) (packet : Frame) : XdpDesc :=
  ⟨.ofNat (frame * frameSize.toNat + 256), .ofNat packet.length⟩

/-- The memory once the kernel wrote a packet into a frame. -/
def umemWith (umem : UInt64 → UInt8) (frame : ℕ) (packet : Frame)
    (addr : UInt64) : UInt8 :=
  if frameNumber addr = frame then
    packet.getD (addr.toNat - (frame * frameSize.toNat + 256)) 0
  else umem addr

/-- The kernel delivers a packet in frame 0.  The loop peeks, and before it
comes to the packet the kernel delivers another in frame 1.  The loop processes
the first and ends its round. -/
def twoPackets (first second : Frame) : List UmemEvent :=
  let umem := umemWith (fun _ => 0) 0 first
  [.take, .deliver 0 (descIn 0 first) umem, .peek 1,
    .take, .deliver 1 (descIn 1 second) (umemWith umem 1 second),
    .advance, .advance, .advance, .advance]

theorem descIn_addr {frame : ℕ} (hframe : frame < numFrames.toNat)
    (packet : Frame) :
    (descIn frame packet).addr.toNat = frame * frameSize.toNat + 256 := by
  have hframes : numFrames.toNat = 4096 := rfl
  have hsize : frameSize.toNat = 4096 := rfl
  rw [descIn, hsize, UInt64.toNat_ofNat', Nat.mod_eq_of_lt (by omega)]

theorem frameNumber_descIn {frame : ℕ} (hframe : frame < numFrames.toNat)
    (packet : Frame) :
    frameNumber (descIn frame packet).addr = frame := by
  have hsize : frameSize.toNat = 4096 := rfl
  rw [frameNumber, descIn_addr hframe, hsize]
  omega

section Short

variable {frame : ℕ} (hframe : frame < numFrames.toNat) {packet : Frame}
  (hshort : packet.length ≤ 3840)

include hframe hshort

theorem descIn_inside : (descIn frame packet).Inside := by
  have hsize : frameSize.toNat = 4096 := rfl
  have hlength : (descIn frame packet).len.toNat = packet.length := by
    rw [descIn, UInt32.toNat_ofNat', Nat.mod_eq_of_lt (by omega)]
  rw [XdpDesc.Inside, descIn_addr hframe, hlength, hsize]
  omega

theorem packetBytes_umemWith (umem : UInt64 → UInt8) :
    packetBytes (umemWith umem frame packet) (descIn frame packet) =
      packet := by
  have hlength : (descIn frame packet).len.toNat = packet.length := by
    rw [descIn, UInt32.toNat_ofNat', Nat.mod_eq_of_lt (by omega)]
  refine List.ext_getElem (by rw [packetBytes_length, hlength]) fun i _ hi => ?_
  have hinside := descIn_inside hframe hshort
  have hvalid : frameNumber (descIn frame packet).addr < numFrames.toNat := by
    rwa [frameNumber_descIn hframe]
  have hnumber := hinside.frameNumber_byte hvalid (hlength ▸ hi)
  have hbyte := hinside.toNat_byte hvalid (hlength ▸ hi)
  rw [descIn_addr hframe] at hbyte
  simp only [packetBytes, List.getElem_map, List.getElem_range]
  rw [umemWith, if_pos (hnumber.trans (frameNumber_descIn hframe packet)),
    hbyte, Nat.add_sub_cancel_left, List.getD_eq_getElem _ _ hi]

end Short

theorem step_take {state : UmemState size} (addr : UInt64) (rest : List UInt64)
    (hentries : state.fillRing.entries = addr :: rest) :
    state.step .take =
      { state with
        fillRing := state.fillRing.release 1
        taken := frameNumber addr ::ₘ state.taken } := by
  rw [UmemState.step, UmemState.take, hentries]

/-- After frame 0 the kernel finds frame 1 on the fill ring. -/
theorem start_step_take (pipeline : Pipeline size) :
    ∃ (ring : Ring UInt64 fillRingSize) (rest : List UInt64), ring.entries =
      4096 :: rest ∧
      (start pipeline).fillRing.entries ≠ [] ∧
      (start pipeline).step .take =
        { start pipeline with fillRing := ring, taken := {0} } := by
  obtain ⟨hfilled, htake⟩ := start_take pipeline
  have hframes : numFrames / 2 ≤ numFrames := by decide
  have hcount : (numFrames / 2).toNat = 2046 + 1 + 1 := rfl
  obtain ⟨rest, hentries⟩ : ∃ rest, (start pipeline).fillRing.entries =
      0 :: 4096 :: rest := by
    rw [start, populateFillRing_entries hframes, hcount, List.range_succ_eq_map,
      List.range_succ_eq_map]
    exact ⟨_, rfl⟩
  refine ⟨(start pipeline).fillRing.release 1, rest, ?_, hfilled, htake⟩
  rw [Ring.release_entries, hentries]
  rfl

theorem twoPackets_legal (pipeline : Pipeline size) (first second : Frame) :
    (sentMachine size).Legal (start pipeline, [])
      (twoPackets first second) := by
  obtain ⟨ring, rest, hring, hfilled, htake⟩ := start_step_take pipeline
  refine Machine.observed_legal_iff.mpr ⟨hfilled, ?_⟩
  dsimp only [machine]
  rw [htake]
  refine ⟨⟨Multiset.mem_singleton_self 0, frameNumber_descIn (by decide) first,
    (by decide : 0 < ringSize), fun addr haddr => if_neg haddr⟩,
    ⟨rfl, by decide, Nat.le_refl 1⟩, ?_, ?_⟩
  · exact fun hnil => List.cons_ne_nil _ _ (hring.symm.trans hnil)
  dsimp only
  rw [step_take 4096 rest hring]
  have htaken : 1 ∈ frameNumber 4096 ::ₘ ({0} : Multiset ℕ).erase 0 :=
    Multiset.mem_cons.mpr (Or.inl (by decide))
  refine ⟨⟨htaken, frameNumber_descIn (by decide) second,
    (by decide : 1 < ringSize), fun addr haddr => if_neg haddr⟩, ?_⟩
  exact ⟨LoopPhase.noConfusion, LoopPhase.noConfusion, LoopPhase.noConfusion,
    LoopPhase.noConfusion, trivial⟩

theorem twoPackets_run (pipeline : Pipeline size) (first second : Frame) :
    let state :=
      ((sentMachine size).run (start pipeline, []) (twoPackets first second)).1
    state.loop = .top ∧ state.rxRing.entries = [descIn 1 second] := by
  obtain ⟨ring, rest, hring, -, htake⟩ := start_step_take pipeline
  dsimp only
  rw [sentMachine, Machine.observed_run_fst, twoPackets, Machine.run_cons]
  dsimp only [machine]
  rw [htake, Machine.run_cons, Machine.run_cons, Machine.run_cons]
  dsimp only
  rw [step_take 4096 rest hring]
  exact ⟨rfl, rfl⟩

/-- The second packet waits, and none is left of the round. -/
theorem twoPackets_unread (pipeline : Pipeline size) (first second : Frame) :
    let state :=
      ((sentMachine size).run (start pipeline, []) (twoPackets first second)).1
    state.unread = [descIn 1 second] ∧ state.shown = 0 := by
  intro state
  obtain ⟨hloop, hentries⟩ := twoPackets_run pipeline first second
  exact ⟨by rw [unread, hloop, hentries], by rw [shown, hloop]⟩

section Sent

variable (pipeline : Pipeline size) {first second : Frame}
  (hfirst : first.length ≤ 3840) (hsecond : second.length ≤ 3840)

include hfirst hsecond

theorem twoPackets_inside :
    ∀ event ∈ twoPackets first second, event.Inside := by
  have hfirst' : (descIn 0 first).Inside := descIn_inside (by decide) hfirst
  have hsecond' : (descIn 1 second).Inside := descIn_inside (by decide) hsecond
  simp [twoPackets, UmemEvent.Inside, hfirst', hsecond']

theorem twoPackets_sent :
    ((sentMachine size).run (start pipeline, []) (twoPackets first second)).2 =
      [first, second] := by
  calc
    _ = [packetBytes (umemWith (fun _ => 0) 0 first) (descIn 0 first),
          packetBytes (umemWith (umemWith (fun _ => 0) 0 first) 1 second)
            (descIn 1 second)] := rfl
    _ = _ := by
        rw [packetBytes_umemWith (by decide) hfirst,
          packetBytes_umemWith (by decide) hsecond]

end Sent

/-- Two messages of the market maker. -/
def sampleAdd : ItchMessage := ⟨addType, Pipeline.btcUsdt, 1, 10002, 102⟩

def sampleTrade : ItchMessage := ⟨tradeType, Pipeline.btcUsdt, 2, 10003, 103⟩

/-- A frame of 67 bytes with a message in it. -/
def sampleFrame (message : ItchMessage) : Frame :=
  frameOf ⟨.replicate 6 1, .replicate 6 2⟩
    ⟨5, by decide, by decide, .replicate 8 0, .replicate 10 0, #v[]⟩
    ⟨#v[4, 0], #v[0, 33, 0, 0]⟩ (packMessage message) []

theorem sampleFrame_length (message : ItchMessage) :
    (sampleFrame message).length ≤ 3840 := by
  simp [sampleFrame, frameOf, packMessage]

theorem eq_of_pair_eq_concat {α : Type*} {first second last : α}
    {front : List α} (heq : [first, second] = front ++ [last]) :
    front = [first] ∧ last = second := by
  have hpair : [first] ++ [second] = front ++ [last] := heq
  obtain ⟨hfront, hlast⟩ := List.append_inj' hpair rfl
  exact ⟨hfront.symm, (List.cons.inj hlast).1.symm⟩

/-- The loop has been through the first of two packets, and the second waits. -/
theorem packets_delivered_two :
    let pipeline : Pipeline 1 := .init (fun _ => default) fun _ => default
    let state := (sentMachine 1).run (start pipeline, [])
      (twoPackets (sampleFrame sampleAdd) (sampleFrame sampleTrade))
    state.2 = [sampleFrame sampleAdd, sampleFrame sampleTrade] ∧
      state.1.unread.map (packetBytes state.1.umem) =
        [sampleFrame sampleTrade] ∧
      state.1.pipeline = pipeline.afterPackets [sampleFrame sampleAdd] 1 := by
  intro pipeline state
  have hfirst := sampleFrame_length sampleAdd
  have hsecond := sampleFrame_length sampleTrade
  obtain ⟨hunread, hshown⟩ :=
    twoPackets_unread pipeline (sampleFrame sampleAdd) (sampleFrame sampleTrade)
  have hsent : state.2 = _ := twoPackets_sent pipeline hfirst hsecond
  obtain ⟨handled, hsplit, hpipeline⟩ :=
    packets_delivered pipeline (twoPackets_legal pipeline _ _)
    (twoPackets_inside hfirst hsecond)
  change state.2 =
    handled ++ state.1.unread.map (packetBytes state.1.umem) at hsplit
  change state.1.pipeline =
    pipeline.afterPackets handled (handled.length + state.1.shown)
    at hpipeline
  rw [hsent, hunread, List.map_singleton] at hsplit
  rw [hunread, List.map_singleton, hpipeline, hshown]
  obtain ⟨hhandled, hwaiting⟩ := eq_of_pair_eq_concat hsplit
  rw [hhandled, hwaiting]
  exact ⟨hsent, rfl, rfl⟩

end UmemState

end MarketDataPipeline
