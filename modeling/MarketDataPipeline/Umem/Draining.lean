import MarketDataPipeline.Umem.PacketDelivery

/-!
# The loop catches up

Left alone by the kernel, the loop takes up to `BATCH_SIZE` packets off the RX
ring in each round.  The ring holds no more than `RING_SIZE`, so that 32 rounds
empty it, and what the pipeline holds then is told by the packets sent alone.
-/

namespace MarketDataPipeline.UmemState

variable {size : UInt32} {state : UmemState size}

/-- The events of one round, where `peek` shows all that it may. -/
def round (state : UmemState size) : List UmemEvent :=
  let rcvd := min batchSize state.rxRing.entries.length
  if rcvd = 0 then [.peek 0]
  else .peek rcvd :: List.replicate (rcvd + 3) .advance

def rounds : ℕ → UmemState size → List UmemEvent
  | 0, _ => []
  | count + 1, state =>
      state.round ++ rounds count ((machine size).run state state.round)

/-! ## Steps of the loop alone -/

/-- A step that the loop takes, not the kernel. -/
def IsOfLoop : UmemEvent → Prop
  | .peek _ | .advance => True
  | _ => False

theorem IsOfLoop.inside {event : UmemEvent} (hloop : IsOfLoop event) :
    event.Inside := by
  cases event with
  | peek | advance => trivial
  | take | recycle | reuse | deliver => exact hloop.elim

theorem IsOfLoop.noteSent_eq {event : UmemEvent} (hloop : IsOfLoop event)
    (state : UmemState size) (sent : List Frame) :
    state.noteSent event sent = sent := by
  cases event with
  | peek | advance => rfl
  | take | recycle | reuse | deliver => exact hloop.elim

theorem round_isOfLoop (state : UmemState size) :
    ∀ event ∈ state.round, IsOfLoop event := by
  intro event hevent
  rw [round] at hevent
  split at hevent
  case isTrue =>
    rw [List.mem_singleton.mp hevent]
    trivial
  case isFalse =>
    rcases List.mem_cons.mp hevent with rfl | hadvance
    · trivial
    · rw [List.eq_of_mem_replicate hadvance]
      trivial

theorem rounds_isOfLoop (count : ℕ) (state : UmemState size) :
    ∀ event ∈ rounds count state, IsOfLoop event := by
  induction count generalizing state with
  | zero => simp [rounds]
  | succ count ih =>
      intro event hevent
      rcases List.mem_append.mp hevent with hround | hlater
      · exact state.round_isOfLoop event hround
      · exact ih _ event hlater

/-- The loop alone sends nothing. -/
theorem run_isOfLoop_sent {events : List UmemEvent}
    (hloop : ∀ event ∈ events, IsOfLoop event) (state : UmemState size)
    (sent : List Frame) :
    ((sentMachine size).run (state, sent) events).2 = sent := by
  induction events generalizing state sent with
  | nil => rfl
  | cons event rest ih =>
      obtain ⟨hfirst, hrest⟩ := List.forall_mem_cons.mp hloop
      have hstep : (sentMachine size).step (state, sent) event =
          (state.step event, sent) :=
        congrArg (Prod.mk (state.step event)) (hfirst.noteSent_eq state sent)
      rw [Machine.run_cons, hstep]
      exact ih hrest _ _

/-! ## One round -/

/-- Advancing through the packets that `peek` has shown. -/
theorem processing_run {rcvd : ℕ} (more : ℕ) {addrs : List UInt64}
    (hloop : state.loop = .processing rcvd addrs)
    (hcount : addrs.length + more = rcvd)
    (hshown : rcvd ≤ state.rxRing.entries.length) :
    (machine size).Legal state (List.replicate more .advance) ∧
      let done := (machine size).run state (List.replicate more .advance)
      done.rxRing = state.rxRing ∧ ∃ all, done.loop = .processing rcvd all ∧
        all.length = rcvd := by
  induction more generalizing state addrs with
  | zero => exact ⟨trivial, rfl, addrs, hloop, hcount⟩
  | succ more ih =>
      have hmore : addrs.length < rcvd := by omega
      have hlt : addrs.length < state.rxRing.entries.length :=
        hmore.trans_le hshown
      have hnext : state.advance = state.processNext rcvd addrs := by
        rw [advance, hloop]
        exact if_pos hmore
      have hrx : state.advance.rxRing = state.rxRing := by
        rw [hnext, processNext, List.getElem?_eq_getElem hlt]
      have hloop' : state.advance.loop = .processing rcvd
          (addrs ++
            [extractAddr (state.rxRing.entries[addrs.length]).addr]) := by
        rw [hnext, processNext, List.getElem?_eq_getElem hlt]
      obtain ⟨hlegal, hsame, hall⟩ :=
        ih hloop' (by simp; omega) (by rw [hrx]; exact hshown)
      rw [List.replicate_succ]
      refine ⟨⟨?_, hlegal⟩, hsame.trans hrx, hall⟩
      change state.loop ≠ .top
      rw [hloop]
      exact LoopPhase.noConfusion

/-- The rest of a round, once all packets shown are processed. -/
theorem processed_run {rcvd : ℕ} {addrs : List UInt64}
    (hloop : state.loop = .processing rcvd addrs)
    (hcount : addrs.length = rcvd) :
    (machine size).Legal state (List.replicate 3 .advance) ∧
      let done := (machine size).run state (List.replicate 3 .advance)
      done.loop = .top ∧ done.rxRing = state.rxRing.release rcvd := by
  have hfirst : state.advance =
      { state with
        rxRing := state.rxRing.release rcvd,
        loop := .released rcvd addrs } := by
    rw [advance, hloop]
    exact if_neg (by omega)
  refine ⟨⟨?_, ?_, ?_, trivial⟩, ?_⟩
  · change state.loop ≠ .top
    rw [hloop]
    exact LoopPhase.noConfusion
  · change state.advance.loop ≠ .top
    rw [hfirst]
    exact LoopPhase.noConfusion
  · change state.advance.advance.loop ≠ .top
    rw [hfirst]
    exact LoopPhase.noConfusion
  · change state.advance.advance.advance.loop = .top ∧
      state.advance.advance.advance.rxRing = state.rxRing.release rcvd
    rw [hfirst]
    exact ⟨rfl, rfl⟩

theorem round_spec (htop : state.loop = .top) :
    (machine size).Legal state state.round ∧
      let done := (machine size).run state state.round
      done.loop = .top ∧
        done.rxRing.entries = state.rxRing.entries.drop batchSize := by
  rw [round]
  dsimp only
  set rcvd := min batchSize state.rxRing.entries.length with hrcvd
  have hbatch : rcvd ≤ batchSize := Nat.min_le_left _ _
  have hshown : rcvd ≤ state.rxRing.entries.length := Nat.min_le_right _ _
  have hdrop : state.rxRing.entries.drop rcvd =
      state.rxRing.entries.drop batchSize := by
    rcases Nat.le_total batchSize state.rxRing.entries.length with hmany | hfew
    · rw [hrcvd, Nat.min_eq_left hmany]
    · rw [hrcvd, Nat.min_eq_right hfew, List.drop_length,
        List.drop_of_length_le hfew]
  by_cases hnone : rcvd = 0
  · rw [if_pos hnone]
    refine ⟨⟨⟨htop, Nat.zero_le _, Nat.zero_le _⟩, trivial⟩, htop, ?_⟩
    rw [← hdrop, hnone, List.drop_zero]
    rfl
  · rw [if_neg hnone]
    have hpeek : state.step (.peek rcvd) = state.peek rcvd := rfl
    have hloop : (state.peek rcvd).loop = .processing rcvd [] := by
      rw [peek, if_neg hnone]
    have hrx : (state.peek rcvd).rxRing = state.rxRing := by
      rw [peek, if_neg hnone]
    obtain ⟨hlegal, hsame, all, hall, hlength⟩ :=
      processing_run rcvd hloop (Nat.zero_add rcvd) (by rw [hrx]; exact hshown)
    obtain ⟨hlegal', htop', hrx'⟩ := processed_run hall hlength
    rw [List.replicate_add]
    refine ⟨⟨⟨htop, hbatch, hshown⟩, (Machine.legal_append _ _ _ _).mpr
      ⟨hlegal, hlegal'⟩⟩, ?_⟩
    rw [Machine.run_cons, Machine.run_append]
    refine ⟨htop', ?_⟩
    rw [← hdrop]
    exact (congrArg Ring.entries hrx').trans
      (by rw [hsame, hrx, Ring.release_entries])

/-! ## Many rounds -/

theorem rounds_spec (count : ℕ) (htop : state.loop = .top) :
    (machine size).Legal state (rounds count state) ∧
      let done := (machine size).run state (rounds count state)
      done.loop = .top ∧
        done.rxRing.entries =
          state.rxRing.entries.drop (count * batchSize) := by
  induction count generalizing state with
  | zero => exact ⟨trivial, htop, by simp [rounds]⟩
  | succ count ih =>
      obtain ⟨hlegal, htop', hentries⟩ := round_spec htop
      obtain ⟨hlegal', htop'', hentries'⟩ := ih htop'
      rw [rounds]
      refine ⟨(Machine.legal_append _ _ _ _).mpr ⟨hlegal, hlegal'⟩, ?_⟩
      rw [Machine.run_append]
      refine ⟨htop'', hentries'.trans ?_⟩
      rw [hentries, List.drop_drop]
      congr 1
      ring

/-- 32 rounds take the loop through all packets that wait. -/
theorem Delivered.rounds {pipeline : Pipeline size} {sent handled : List Frame}
    (hdelivered : state.Delivered pipeline sent handled)
    (hconserved : state.Conserved) (htop : state.loop = .top) :
    (machine size).Legal state (rounds 32 state) ∧
      let done := (machine size).run state (rounds 32 state)
      done.loop = .top ∧ done.rxRing.entries = [] ∧
        done.pipeline = pipeline.afterPackets sent sent.length := by
  obtain ⟨hlegal, htop', hentries⟩ := rounds_spec 32 htop
  have hinside : ∀ event ∈ UmemState.rounds 32 state, event.Inside :=
    fun event hevent => (rounds_isOfLoop 32 state event hevent).inside
  obtain ⟨-, handled', hdelivered'⟩ :=
    hdelivered.run hconserved (Machine.observed_legal_iff.mpr hlegal) hinside
  have hrun : (sentMachine size).run (state, sent) (UmemState.rounds 32 state) =
      ((machine size).run state (UmemState.rounds 32 state), sent) :=
    Prod.ext (Machine.observed_run_fst ..)
      (run_isOfLoop_sent (rounds_isOfLoop 32 state) state sent)
  rw [hrun] at hdelivered'
  set done := (machine size).run state (UmemState.rounds 32 state)
  have hempty : done.rxRing.entries = [] := by
    rw [hentries]
    exact List.drop_of_length_le state.rxRing.bounded
  have hunread : done.unread = [] := by
    rw [unread, htop']
    exact hempty
  have hshown : done.shown = 0 := by rw [shown, htop']
  have hsent : sent = handled' := by
    have hsplit := hdelivered'.sent_eq
    rwa [hunread, List.map_nil, List.append_nil] at hsplit
  refine ⟨hlegal, htop', hempty, ?_⟩
  rw [hdelivered'.pipeline_eq, hshown, Nat.add_zero, hsent]

end MarketDataPipeline.UmemState
