import MarketDataPipeline.Pipeline.Accounting
import MarketDataPipeline.Umem.FrameConservation

/-!
# The loop works batch by batch

Whatever the kernel does meanwhile, a round of the loop is one call of
`processBatch` on at most `BATCH_SIZE` packets.  So what holds after every batch
holds at the top of the loop.
-/

namespace MarketDataPipeline.UmemState

open Pipeline

variable {size : UInt32} {pipeline : Pipeline size} {state : UmemState size}

/-- The pipeline has been through whole batches and, within a round, through the
packets of the addresses saved so far. -/
def Batched (pipeline : Pipeline size) (state : UmemState size) : Prop :=
  ∃ batches, (∀ batch ∈ batches, batch.length ≤ batchSize) ∧
    match state.loop with
    | .processing rcvd addrs =>
        rcvd ≤ batchSize ∧ ∃ packets : List (Option ItchMessage),
          packets.length = addrs.length ∧
            let done := (batchMachine size).run pipeline batches
            state.pipeline = packets.foldl processPacket
              { done with totalReceived := done.totalReceived + .ofNat rcvd }
    | .top | .released _ _ | .reserved _ _ =>
        state.pipeline = (batchMachine size).run pipeline batches

/-- What the pipeline went through is told from the loop and the
pipeline alone. -/
theorem Batched.congr (hbatched : state.Batched pipeline)
    {state' : UmemState size} (hloop : state'.loop = state.loop)
    (hpipeline : state'.pipeline = state.pipeline) :
    state'.Batched pipeline := by
  rw [Batched, hloop, hpipeline]
  exact hbatched

theorem Batched.peek (hbatched : state.Batched pipeline) {rcvd : ℕ}
    (htop : state.loop = .top)
    (hrcvd : rcvd ≤ batchSize) : (state.peek rcvd).Batched pipeline := by
  rw [UmemState.peek]
  split
  · exact hbatched
  · rw [Batched, htop] at hbatched
    obtain ⟨batches, hsizes, hdone⟩ := hbatched
    refine ⟨batches, hsizes, hrcvd, [], rfl, ?_⟩
    rw [← hdone]
    rfl

theorem Batched.processNext (hbatched : state.Batched pipeline) {rcvd : ℕ}
    {addrs : List UInt64} (hloop : state.loop = .processing rcvd addrs) :
    (state.processNext rcvd addrs).Batched pipeline := by
  rw [UmemState.processNext]
  split
  case h_1 => exact hbatched
  case h_2 desc _ =>
    rw [Batched, hloop] at hbatched
    obtain ⟨batches, hsizes, hrcvd, packets, hlength, hdone⟩ := hbatched
    refine ⟨batches, hsizes, hrcvd,
      packets ++ [(receiveMessage (packetBytes state.umem desc) desc.len).join],
      ?_, ?_⟩
    · rw [List.length_append, List.length_append, hlength]
      rfl
    · dsimp only at hdone ⊢
      rw [List.foldl_append, ← hdone]
      rfl

/-- With its last packet a round becomes one batch. -/
theorem Batched.release (hbatched : state.Batched pipeline) {rcvd : ℕ}
    {addrs : List UInt64} (hloop : state.loop = .processing rcvd addrs)
    (hcount : addrs.length = rcvd) :
    ({ state with
      rxRing := state.rxRing.release rcvd
      loop := .released rcvd addrs } : UmemState size).Batched pipeline := by
  rw [Batched, hloop] at hbatched
  obtain ⟨batches, hsizes, hrcvd, packets, hlength, hdone⟩ := hbatched
  refine ⟨batches ++ [packets], fun batch hbatch => ?_, ?_⟩
  · rcases List.mem_append.mp hbatch with hold | hnew
    · exact hsizes batch hold
    · rw [List.mem_singleton.mp hnew, hlength, hcount]
      exact hrcvd
  · dsimp only at hdone ⊢
    rw [Machine.run_append, hdone, ← hcount, ← hlength]
    rfl

theorem Batched.advance (hbatched : state.Batched pipeline)
    (hconserved : state.Conserved) :
    state.advance.Batched pipeline := by
  have hconsistent := hconserved.loop
  rw [UmemState.advance]
  rw [Consistent] at hconsistent
  split
  case h_1 => exact hbatched
  case h_2 rcvd addrs hloop =>
    rw [hloop] at hconsistent
    split
    case isTrue => exact hbatched.processNext hloop
    case isFalse hdone =>
      exact hbatched.release hloop
        (Nat.le_antisymm hconsistent.1 (Nat.le_of_not_lt hdone))
  case h_3 rcvd addrs hloop =>
    rw [Batched, hloop] at hbatched
    exact hbatched
  case h_4 freeSlots addrs hloop =>
    rw [Batched, hloop] at hbatched
    exact hbatched

theorem Batched.step (hbatched : state.Batched pipeline)
    (hconserved : state.Conserved) {event : UmemEvent}
    (hallowed : state.Allowed event) :
    (state.step event).Batched pipeline := by
  cases event with
  | take =>
      refine hbatched.congr ?_ ?_
      all_goals
        rw [UmemState.step, UmemState.take]
        split <;> rfl
  | recycle | reuse | deliver => exact hbatched.congr rfl rfl
  | peek rcvd => exact hbatched.peek hallowed.1 hallowed.2.1
  | advance => exact hbatched.advance hconserved

/-- In every run of kernel and loop, the pipeline at the top of the loop is one
that batches of at most `BATCH_SIZE` packets lead to. -/
theorem pipeline_batched (pipeline : Pipeline size) {events : List UmemEvent}
    (hlegal : (machine size).Legal (start pipeline) events)
    (htop : ((machine size).run (start pipeline) events).loop = .top) :
    ∃ batches, (∀ batch ∈ batches, batch.length ≤ batchSize) ∧
      ((machine size).run (start pipeline) events).pipeline =
        (batchMachine size).run pipeline batches := by
  have hstart : (start pipeline).Conserved ∧
      (start pipeline).Batched pipeline :=
    ⟨conserved_start pipeline, [], by simp, rfl⟩
  have hrun := Machine.invariant
    (fun state : UmemState size => state.Conserved ∧ state.Batched pipeline)
    (fun _ _ hold hallowed =>
      ⟨hold.1.step hallowed, hold.2.step hold.1 hallowed⟩) hstart hlegal
  obtain ⟨-, hbatched⟩ := hrun
  rw [Batched, htop] at hbatched
  exact hbatched

end MarketDataPipeline.UmemState
