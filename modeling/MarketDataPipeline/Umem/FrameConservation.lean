import MarketDataPipeline.Umem.FrameCirculation

/-!
# No frame is lost and none is duplicated

Every step moves frames from one place to another, so that those of
`populate_fill_ring` stay in circulation.  The fill ring has room for all of
them, and `reserve` never falls short.
-/

namespace MarketDataPipeline

variable {size : UInt32}

/-! ## Addresses -/

theorem extractAddr_toNat (addr : UInt64) :
    (extractAddr addr).toNat = addr.toNat % 2 ^ 48 := by
  have hmask : (0xFFFFFFFFFFFF : UInt64).toNat = 2 ^ 48 - 1 := rfl
  rw [extractAddr, UInt64.toNat_and, hmask, Nat.and_two_pow_sub_one_eq_mod]

/-- An address inside the UMEM has no offset in its upper bits. -/
theorem frameNumber_extractAddr {addr : UInt64}
    (hinside : frameNumber addr < numFrames.toNat) :
    frameNumber (extractAddr addr) = frameNumber addr := by
  have hframes : numFrames.toNat = 4096 := rfl
  have hsize : frameSize.toNat = 4096 := rfl
  rw [frameNumber, hframes, hsize] at hinside
  rw [frameNumber, frameNumber, extractAddr_toNat, hsize,
    Nat.mod_eq_of_lt (by omega)]

/-- The addresses of `populate_fill_ring` are the first ones of their frames. -/
theorem frameNumber_populated {i : ℕ} (hi : i < numFrames.toNat) :
    frameNumber (UInt32.ofNat i * frameSize).toUInt64 = i := by
  have hframes : numFrames.toNat = 4096 := rfl
  have hsize : frameSize.toNat = 4096 := rfl
  rw [hframes] at hi
  rw [frameNumber, UInt32.toNat_toUInt64, UInt32.toNat_mul,
    UInt32.toNat_ofNat', hsize, Nat.mod_eq_of_lt (by omega : i < 2 ^ 32),
    Nat.mod_eq_of_lt (by omega : i * 4096 < 2 ^ 32),
    Nat.mul_div_cancel _ (by omega)]

theorem populateFillRing_entries {frames : UInt32}
    (hframes : frames ≤ numFrames) :
    (populateFillRing .empty frames).entries =
      (List.range frames.toNat).map fun i =>
        (UInt32.ofNat i * frameSize).toUInt64 := by
  have hframes' : frames.toNat ≤ 4096 := UInt32.le_iff_toNat_le.mp hframes
  have hcapacity : fillRingSize = 4096 := rfl
  have hempty : (Ring.empty : Ring UInt64 fillRingSize).entries.length = 0 :=
    rfl
  have hreserved : (Ring.empty : Ring UInt64 fillRingSize).reserve
      frames.toNat = frames.toNat :=
    Ring.reserve_eq (by omega)
  rw [populateFillRing, hreserved,
    Ring.submit_entries (by rw [List.length_map, List.length_range]; omega)]
  exact List.nil_append _

theorem populateFillRing_tokens {frames : UInt32}
    (hframes : frames ≤ numFrames) :
    (populateFillRing .empty frames).tokens frameNumber =
      Multiset.range frames.toNat := by
  have hpopulated : (List.range frames.toNat).map
      (frameNumber ∘ fun i => (UInt32.ofNat i * frameSize).toUInt64) =
        List.range frames.toNat := by
    conv_rhs => rw [← List.map_id (List.range frames.toNat)]
    refine List.map_congr_left fun i hi => frameNumber_populated ?_
    exact (List.mem_range.mp hi).trans_le (UInt32.le_iff_toNat_le.mp hframes)
  rw [Ring.tokens, populateFillRing_entries hframes, List.map_map, hpopulated]
  rfl

namespace UmemState

/-! ## The invariant -/

/-- What the loop's own variables say about its packets. -/
def Consistent (state : UmemState size) : Prop :=
  match state.loop with
  | .top => True
  | .processing rcvd addrs =>
      addrs.length ≤ rcvd ∧ rcvd ≤ state.rxRing.entries.length ∧
        addrs.map frameNumber =
          (state.rxRing.entries.take addrs.length).map fun desc =>
            frameNumber desc.addr
  | .released rcvd addrs => addrs.length = rcvd
  | .reserved freeSlots addrs => addrs.length = freeSlots

/-- The frames of `populate_fill_ring` are in circulation, each once. -/
structure Conserved (state : UmemState size) : Prop where
  frames : state.filled + state.held + state.received + state.inHand =
    Multiset.range (numFrames / 2).toNat
  loop : state.Consistent

theorem conserved_start (pipeline : Pipeline size) :
    (start pipeline).Conserved := by
  refine ⟨?_, trivial⟩
  have hframes : numFrames / 2 ≤ numFrames := by decide
  dsimp only [filled, held, received, inHand, start]
  rw [populateFillRing_tokens hframes, Ring.tokens_empty, add_zero, add_zero,
    add_zero, add_zero]

variable {state : UmemState size}

theorem Conserved.card (hconserved : state.Conserved) :
    state.fillRing.entries.length + state.held.card +
      state.rxRing.entries.length + state.inHand.card = 2048 := by
  have hcard := congrArg Multiset.card hconserved.frames
  have hframes : (numFrames / 2).toNat = 2048 := rfl
  rwa [Multiset.card_add, Multiset.card_add, Multiset.card_add,
    filled, received, Ring.card_tokens, Ring.card_tokens, Multiset.card_range,
    hframes] at hcard

/-- A received descriptor lies inside the UMEM. -/
theorem Conserved.received_inside (hconserved : state.Conserved)
    {desc : XdpDesc} (hdesc : desc ∈ state.rxRing.entries) :
    frameNumber desc.addr < numFrames.toNat := by
  have hmem : frameNumber desc.addr ∈ state.received :=
    Multiset.mem_coe.mpr (List.mem_map_of_mem hdesc)
  have hrange : frameNumber desc.addr ∈
      Multiset.range (numFrames / 2).toNat := by
    rw [← hconserved.frames, Multiset.mem_add, Multiset.mem_add]
    exact .inl (.inr hmem)
  exact (Multiset.mem_range.mp hrange).trans_le (by decide)

/-! ## Steps of the kernel -/

theorem Conserved.take (hconserved : state.Conserved) :
    state.take.Conserved := by
  rw [UmemState.take]
  split
  case h_1 => exact hconserved
  case h_2 addr rest hentries =>
    have holdest := Ring.tokens_release frameNumber state.fillRing 1
    rw [hentries, List.take_succ_cons, List.take_zero, List.map_singleton,
      Multiset.coe_singleton] at holdest
    refine ⟨?_, hconserved.loop⟩
    calc
      (state.fillRing.release 1).tokens frameNumber +
          (frameNumber addr ::ₘ state.taken + state.spare) + state.received +
            state.inHand =
          ({frameNumber addr} + (state.fillRing.release 1).tokens frameNumber) +
            state.held + state.received + state.inHand := by
        rw [held, ← Multiset.singleton_add]
        abel
      _ = state.filled + state.held + state.received + state.inHand := by
          rw [holdest, filled]
      _ = Multiset.range (numFrames / 2).toNat := hconserved.frames

theorem Conserved.recycle (hconserved : state.Conserved) {frame : ℕ}
    (hframe : frame ∈ state.taken) :
    (state.step (.recycle frame)).Conserved := by
  refine ⟨?_, hconserved.loop⟩
  calc
    state.filled + (state.taken.erase frame + frame ::ₘ state.spare) +
        state.received + state.inHand =
        state.filled + (frame ::ₘ state.taken.erase frame + state.spare) +
          state.received +
          state.inHand := by rw [Multiset.add_cons, ← Multiset.cons_add]
    _ = state.filled + state.held + state.received + state.inHand := by
      rw [Multiset.cons_erase hframe, held]
    _ = Multiset.range (numFrames / 2).toNat := hconserved.frames

theorem Conserved.reuse (hconserved : state.Conserved) {frame : ℕ}
    (hframe : frame ∈ state.spare) : (state.step (.reuse frame)).Conserved := by
  refine ⟨?_, hconserved.loop⟩
  calc
    state.filled + (frame ::ₘ state.taken + state.spare.erase frame) +
        state.received + state.inHand =
        state.filled + (state.taken + frame ::ₘ state.spare.erase frame) +
          state.received +
          state.inHand := by rw [Multiset.cons_add, ← Multiset.add_cons]
    _ = state.filled + state.held + state.received + state.inHand := by
      rw [Multiset.cons_erase hframe, held]
    _ = Multiset.range (numFrames / 2).toNat := hconserved.frames

/-- A packet behind those that the loop looks at does not change them. -/
theorem Consistent.submit (hconsistent : state.Consistent) {desc : XdpDesc}
    (hroom : state.rxRing.entries.length < ringSize) (taken : Multiset ℕ)
    (umem : UInt64 → UInt8) :
    ({ state with taken, rxRing := state.rxRing.submit [desc], umem } :
      UmemState size).Consistent := by
  have hentries : (state.rxRing.submit [desc]).entries =
      state.rxRing.entries ++ [desc] :=
    Ring.submit_entries hroom
  rw [Consistent] at hconsistent ⊢
  dsimp only
  cases hloop : state.loop with
  | processing rcvd addrs =>
      rw [hloop] at hconsistent
      obtain ⟨hprocessed, hpeeked, haddrs⟩ := hconsistent
      rw [hentries]
      dsimp only
      refine ⟨hprocessed, ?_, ?_⟩
      · rw [List.length_append]
        exact Nat.le_add_right_of_le hpeeked
      · rwa [List.take_append_of_le_length (hprocessed.trans hpeeked)]
  | top | released | reserved =>
      rw [hloop] at hconsistent
      exact hconsistent

theorem Conserved.deliver (hconserved : state.Conserved) {frame : ℕ}
    {desc : XdpDesc} (hframe : frame ∈ state.taken)
    (hdesc : frameNumber desc.addr = frame)
    (hroom : state.rxRing.entries.length < ringSize) (umem : UInt64 → UInt8) :
    (state.step (.deliver frame desc umem)).Conserved := by
  have hreceived : (state.rxRing.submit [desc]).tokens
      (fun desc => frameNumber desc.addr) =
      state.received + {frame} := by
    rw [Ring.tokens_submit _ hroom, List.map_singleton, hdesc, received]
    rfl
  have htaken : {frame} + state.taken.erase frame = state.taken := by
    rw [Multiset.singleton_add, Multiset.cons_erase hframe]
  refine ⟨?_, hconserved.loop.submit hroom _ _⟩
  calc
    state.filled + (state.taken.erase frame + state.spare) +
        (state.rxRing.submit [desc]).tokens
          (fun desc => frameNumber desc.addr) + state.inHand =
        state.filled + (({frame} + state.taken.erase frame) + state.spare) +
          state.received + state.inHand := by
      rw [hreceived]
      abel
    _ = state.filled + state.held + state.received + state.inHand := by
        rw [htaken, held]
    _ = Multiset.range (numFrames / 2).toNat := hconserved.frames

/-! ## Steps of the loop -/

theorem Conserved.peek (hconserved : state.Conserved) {rcvd : ℕ}
    (htop : state.loop = .top) (hrcvd : rcvd ≤ state.rxRing.entries.length) :
    (state.peek rcvd).Conserved := by
  rw [UmemState.peek]
  split
  · exact hconserved
  · refine ⟨?_, Nat.zero_le _, hrcvd, rfl⟩
    rw [← hconserved.frames]
    dsimp only [filled, held, received, inHand]
    rw [htop]

theorem Conserved.processNext (hconserved : state.Conserved) {rcvd : ℕ}
    {addrs : List UInt64} (hloop : state.loop = .processing rcvd addrs)
    (hmore : addrs.length < rcvd) :
    (state.processNext rcvd addrs).Conserved := by
  have hconsistent := hconserved.loop
  rw [Consistent, hloop] at hconsistent
  obtain ⟨-, hpeeked, haddrs⟩ := hconsistent
  have hinside : addrs.length < state.rxRing.entries.length :=
    hmore.trans_le hpeeked
  rw [UmemState.processNext, List.getElem?_eq_getElem hinside]
  dsimp only
  set desc := state.rxRing.entries[addrs.length]
  have hdesc : frameNumber (extractAddr desc.addr) = frameNumber desc.addr :=
    frameNumber_extractAddr
      (hconserved.received_inside (List.getElem_mem hinside))
  refine ⟨?_, ?_⟩
  · rw [← hconserved.frames]
    dsimp only [filled, held, received, inHand]
    rw [hloop]
  · dsimp only [Consistent]
    rw [List.length_append, List.length_singleton, List.map_append, haddrs,
      List.map_singleton, hdesc, List.take_succ_eq_append_getElem hinside,
      List.map_append, List.map_singleton]
    exact ⟨hmore, hpeeked, rfl⟩

/-- The saved addresses are in the frames that the RX ring gives up. -/
theorem Conserved.release (hconserved : state.Conserved) {rcvd : ℕ}
    {addrs : List UInt64} (hloop : state.loop = .processing rcvd addrs)
    (hdone : ¬addrs.length < rcvd) :
    ({ state with
      rxRing := state.rxRing.release rcvd
      loop := .released rcvd addrs } : UmemState size).Conserved := by
  have hconsistent := hconserved.loop
  rw [Consistent, hloop] at hconsistent
  obtain ⟨hprocessed, -, haddrs⟩ := hconsistent
  have hcount : addrs.length = rcvd := by omega
  have hreleased :=
    Ring.tokens_release (fun desc => frameNumber desc.addr) state.rxRing rcvd
  have hnone : state.inHand = 0 := by rw [inHand, hloop]
  rw [hcount] at haddrs
  refine ⟨?_, hcount⟩
  calc
    state.filled + state.held +
        (state.rxRing.release rcvd).tokens (fun desc => frameNumber desc.addr) +
        (addrs.map frameNumber : List ℕ) =
        state.filled + state.held +
            (((state.rxRing.entries.take rcvd).map fun desc =>
          frameNumber desc.addr : List ℕ) +
            (state.rxRing.release rcvd).tokens fun desc =>
              frameNumber desc.addr) + 0 := by
      rw [haddrs]
      abel
    _ = state.filled + state.held + state.received + state.inHand := by
      rw [hreleased, hnone, received]
    _ = Multiset.range (numFrames / 2).toNat := hconserved.frames

/-- The fill ring has room for what the loop has released. -/
theorem Conserved.reserve_eq (hconserved : state.Conserved) {rcvd : ℕ}
    {addrs : List UInt64} (hloop : state.loop = .released rcvd addrs) :
    state.fillRing.reserve rcvd = rcvd := by
  have hconsistent := hconserved.loop
  rw [Consistent, hloop] at hconsistent
  have hcard := hconserved.card
  rw [inHand, hloop, Multiset.coe_card, List.length_map, hconsistent] at hcard
  have hcapacity : fillRingSize = 4096 := rfl
  exact Ring.reserve_eq (by omega)

theorem Conserved.reserve (hconserved : state.Conserved) {rcvd : ℕ}
    {addrs : List UInt64} (hloop : state.loop = .released rcvd addrs) :
    ({ state with
      loop := .reserved (state.fillRing.reserve rcvd) addrs } :
        UmemState size).Conserved := by
  have hconsistent := hconserved.loop
  rw [Consistent, hloop] at hconsistent
  refine ⟨?_, hconsistent.trans (hconserved.reserve_eq hloop).symm⟩
  rw [← hconserved.frames]
  dsimp only [filled, held, received, inHand]
  rw [hloop]

theorem Conserved.submit (hconserved : state.Conserved) {freeSlots : ℕ}
    {addrs : List UInt64} (hloop : state.loop = .reserved freeSlots addrs) :
    ({ state with
      fillRing := state.fillRing.submit (addrs.take freeSlots)
      loop := .top } : UmemState size).Conserved := by
  have hconsistent := hconserved.loop
  rw [Consistent, hloop] at hconsistent
  have hcard := hconserved.card
  rw [inHand, hloop, Multiset.coe_card, List.length_map] at hcard
  have hcapacity : fillRingSize = 4096 := rfl
  have hinHand : state.inHand = (addrs.map frameNumber : List ℕ) := by
    rw [inHand, hloop]
  refine ⟨?_, trivial⟩
  rw [← hconsistent, List.take_length]
  calc
    (state.fillRing.submit addrs).tokens frameNumber + state.held +
        state.received + 0 =
        state.filled + (addrs.map frameNumber : List ℕ) + state.held +
          state.received + 0 := by
      rw [Ring.tokens_submit frameNumber (by omega), filled]
    _ = state.filled + state.held + state.received + state.inHand := by
      rw [hinHand]
      abel
    _ = Multiset.range (numFrames / 2).toNat := hconserved.frames

theorem Conserved.advance (hconserved : state.Conserved) :
    state.advance.Conserved := by
  rw [UmemState.advance]
  split
  case h_1 => exact hconserved
  case h_2 rcvd addrs hloop =>
    split
    case isTrue hmore => exact hconserved.processNext hloop hmore
    case isFalse hdone => exact hconserved.release hloop hdone
  case h_3 rcvd addrs hloop => exact hconserved.reserve hloop
  case h_4 freeSlots addrs hloop => exact hconserved.submit hloop

/-! ## Runs -/

/-- Each step, of the kernel or of the loop, conserves the frames. -/
theorem Conserved.step (hconserved : state.Conserved) {event : UmemEvent}
    (hallowed : state.Allowed event) : (state.step event).Conserved := by
  cases event with
  | take => exact hconserved.take
  | recycle frame => exact hconserved.recycle hallowed
  | reuse frame => exact hconserved.reuse hallowed
  | deliver frame desc umem =>
      obtain ⟨hframe, hdesc, hroom, -⟩ := hallowed
      exact hconserved.deliver hframe hdesc hroom umem
  | peek rcvd => exact hconserved.peek hallowed.1 hallowed.2.2
  | advance => exact hconserved.advance

theorem conserved_run (pipeline : Pipeline size) {events : List UmemEvent}
    (hlegal : (machine size).Legal (start pipeline) events) :
    ((machine size).run (start pipeline) events).Conserved :=
  Machine.invariant Conserved (fun _ _ hconserved hallowed =>
    hconserved.step hallowed)
    (conserved_start pipeline) hlegal

/-- Between two rounds of the loop each frame of `populate_fill_ring`, and no
other, is in one place and there once: on the fill ring, with the kernel, or on
the RX ring.  Within a round the fill ring always has the slots that the loop
reserves. -/
theorem frames_conserved (pipeline : Pipeline size) {events : List UmemEvent}
    (hlegal : (machine size).Legal (start pipeline) events) :
    let state := (machine size).run (start pipeline) events
    (state.loop = .top → ∀ frame,
      state.filled.count frame + state.held.count frame +
        state.received.count frame =
        if frame < (numFrames / 2).toNat then 1 else 0) ∧
    (∀ rcvd addrs, state.loop = .released rcvd addrs →
      state.fillRing.reserve rcvd = rcvd) := by
  intro state
  have hconserved : state.Conserved := conserved_run pipeline hlegal
  refine ⟨fun htop frame => ?_, fun rcvd addrs hloop =>
    hconserved.reserve_eq hloop⟩
  have hframes := congrArg (Multiset.count frame) hconserved.frames
  rw [Multiset.count_add, Multiset.count_add, Multiset.count_add, inHand, htop,
    Multiset.count_zero, add_zero] at hframes
  rw [hframes]
  split
  case isTrue hframe =>
    exact Multiset.count_eq_one_of_mem (Multiset.nodup_range _)
      (Multiset.mem_range.mpr hframe)
  case isFalse hframe =>
    exact Multiset.count_eq_zero_of_notMem fun hmem =>
      hframe (Multiset.mem_range.mp hmem)

/-- A frame's way through the kernel and the loop with an empty packet, up to
`release`. -/
def emptyPacket : List UmemEvent :=
  [.take, .deliver 0 ⟨256, 0⟩ fun _ => 0, .peek 1, .advance, .advance]

theorem start_take (pipeline : Pipeline size) :
    (start pipeline).fillRing.entries ≠ [] ∧ (start pipeline).take =
      { start pipeline with
        fillRing := (start pipeline).fillRing.release 1, taken := {0} } := by
  have hframes : numFrames / 2 ≤ numFrames := by decide
  have hcount : (numFrames / 2).toNat = 2047 + 1 := rfl
  obtain ⟨rest, hentries⟩ : ∃ rest, (start pipeline).fillRing.entries =
      0 :: rest := by
    rw [start, populateFillRing_entries hframes, hcount, List.range_succ_eq_map,
      List.map_cons]
    exact ⟨_, rfl⟩
  refine ⟨fun hempty =>
    List.cons_ne_nil 0 rest (hentries.symm.trans hempty), ?_⟩
  rw [UmemState.take, hentries]
  rfl

theorem emptyPacket_legal (pipeline : Pipeline size) :
    (machine size).Legal (start pipeline) emptyPacket := by
  obtain ⟨hfilled, htake⟩ := start_take pipeline
  refine ⟨hfilled, ?_⟩
  dsimp only [machine, step]
  rw [htake]
  refine ⟨⟨Multiset.mem_singleton_self 0, rfl, (by decide : 0 < ringSize),
    fun _ _ => rfl⟩, ?_⟩
  refine ⟨⟨rfl, by decide, Nat.le_refl 1⟩, ?_⟩
  exact ⟨LoopPhase.noConfusion, LoopPhase.noConfusion, trivial⟩

theorem emptyPacket_released (pipeline : Pipeline size) :
    ((machine size).run (start pipeline) emptyPacket).loop =
      .released 1 [256] := by
  rw [emptyPacket, Machine.run_cons]
  dsimp only [machine, step]
  rw [(start_take pipeline).2]
  rfl

/-- The packet does not parse, and the fill ring has the slot for its frame all
the same. -/
theorem frames_conserved_emptyPacket :
    ((machine 1).run (start (.init (fun _ => default) fun _ => default))
      emptyPacket).fillRing.reserve 1 = 1 :=
  (frames_conserved _ (emptyPacket_legal _)).2 1 [256] (emptyPacket_released _)

end UmemState

end MarketDataPipeline
