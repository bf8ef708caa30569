import MarketDataPipeline.Pipeline.TrieCapacity
import MarketDataPipeline.Umem.MarketData

/-!
# Nothing is lost between the sender and the books

The steps of the way put together: the filter redirects the packets of a sender,
kernel and loop deliver them in order and unharmed, the loop catches up, the
parser reads the messages, and the trie and the cache have room for up to 256
symbols.
-/

namespace MarketDataPipeline.UmemState

open Pipeline

variable {size : UInt32}

/-- However kernel and loop share the work on packets that carry messages of at
most 256 symbols: once the loop has caught up, the pipeline is the one that the
messages lead to in the order they were sent, every packet received is counted
as processed, and none as a failure. -/
theorem no_message_lost (memory : UInt32 → LFUNode) (orders : UInt32 → Order)
    {events : List UmemEvent}
    (hlegal : (sentMachine size).Legal (start (.init memory orders), []) events)
    (hinside : ∀ event ∈ events, event.Inside)
    (htop : ((sentMachine size).run (start (.init memory orders), [])
      events).1.loop = .top)
    {messages : List ItchMessage} (hcarry : List.Forall₂ Carries
      ((sentMachine size).run (start (.init memory orders), []) events).2
        messages)
    (hfew : (symbolsOf messages).card ≤ 256) :
    let state :=
      ((sentMachine size).run (start (.init memory orders), []) events).1
    let pipeline := ((machine size).run state (rounds 32 state)).pipeline
    pipeline = { (Pipeline.machine size).run (.init memory orders) messages with
        totalReceived := .ofNat messages.length } ∧
      pipeline.totalReceived = pipeline.totalPackets ∧
        pipeline.parseFailures = 0 ∧
        pipeline.uniqueSymbols.toNat = (symbolsOf messages).card := by
  intro state pipeline
  obtain ⟨hconserved, handled, hdelivered⟩ := run_delivered _ hlegal hinside
  obtain ⟨-, -, -, hpipeline⟩ := hdelivered.rounds hconserved htop
  rw [afterPackets_of_carries _ hcarry hdelivered.small,
    hcarry.length_eq] at hpipeline
  have hreceived : (Pipeline.init memory orders : Pipeline size).totalReceived +
      .ofNat messages.length = .ofNat messages.length := UInt64.zero_add _
  rw [hreceived] at hpipeline
  have hserved := @allServed_of_few size memory orders messages hfew
  obtain ⟨hpackets, hfailures⟩ := hserved.counts
  have hsymbols := hserved.uniqueSymbols_eq
  have hpipeline' : pipeline = _ := hpipeline
  rw [hpipeline']
  exact ⟨rfl, (hpackets.trans (UInt64.zero_add _)).symm, hfailures, hsymbols⟩

/-- Two messages, of which the loop has read one when the kernel
falls silent. -/
theorem no_message_lost_sample :
    let state :=
      ((sentMachine 1).run
        (start (.init (fun _ => default) fun _ => default), [])
      (twoPackets (sampleFrame sampleAdd) (sampleFrame sampleTrade))).1
    let pipeline := ((machine 1).run state (rounds 32 state)).pipeline
    pipeline.totalReceived = pipeline.totalPackets ∧
      pipeline.parseFailures = 0 ∧
      pipeline.uniqueSymbols.toNat = 1 := by
  have hfirst := sampleFrame_length sampleAdd
  have hsecond := sampleFrame_length sampleTrade
  have hcarry := twoPackets_carry
    (.init (fun _ => default) fun _ => default : Pipeline 1)
    sampleAdd sampleTrade
  have hone : (symbolsOf [sampleAdd, sampleTrade]).card = 1 := by decide
  have hdone := no_message_lost (fun _ => default) (fun _ => default)
    (twoPackets_legal _ _ _) (twoPackets_inside hfirst hsecond)
    (twoPackets_run _ _ _).1 hcarry
    (hone ▸ by decide)
  exact ⟨hdone.2.1, hdone.2.2.1, hdone.2.2.2.trans hone⟩

end MarketDataPipeline.UmemState
