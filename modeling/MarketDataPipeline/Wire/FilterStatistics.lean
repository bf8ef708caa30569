import MarketDataPipeline.Core.Machine
import MarketDataPipeline.Wire.FilterAgreement

/-!
# The statistics of the XDP filter

`stats_map` has its counters once for each CPU.  The filter counts a frame as
redirected before `bpf_redirect_map` gives the verdict, so the counters are
those of the verdicts where every frame to be redirected finds a socket.
-/

namespace MarketDataPipeline

namespace XdpFilter

/-! ## The filter returns -/

/-- The filter reads no byte behind the end of a frame. -/
theorem inspect_isSome (frame : Frame) :
    ∃ finding, inspect frame = some finding := by
  have heth : ethhdrSize = 14 := rfl
  have hiphdr : iphdrSize = 20 := rfl
  have hudphdr : udphdrSize = 8 := rfl
  rw [inspect]
  by_cases hshort : ethhdrSize > frame.length
  · rw [if_pos hshort]
    exact ⟨_, rfl⟩
  obtain ⟨hProto, hproto⟩ :=
    Frame.load16_isSome (by omega : 12 + 2 ≤ frame.length)
  rw [if_neg hshort, Frame.hProto, hproto, Option.bind_eq_bind,
    Option.bind_some]
  by_cases hother : hProto ≠ htons ethPIp
  · rw [if_pos hother]
    exact ⟨_, rfl⟩
  rw [if_neg hother]
  by_cases hheader : ethhdrSize + iphdrSize > frame.length
  · rw [if_pos hheader]
    exact ⟨_, rfl⟩
  obtain ⟨first, hfirst⟩ :=
    Frame.load8_isSome (by omega : ethhdrSize < frame.length)
  rw [if_neg hheader, Frame.versionIhl, hfirst, Option.bind_eq_bind,
    Option.bind_some]
  by_cases hihl : ipIhl first < 5
  · rw [if_pos hihl]
    exact ⟨_, rfl⟩
  obtain ⟨protocol, hprotocol⟩ :=
    Frame.load8_isSome (by omega : ethhdrSize + 9 < frame.length)
  rw [if_neg hihl, Frame.protocol, hprotocol, Option.bind_some]
  by_cases hudp : protocol ≠ ipprotoUdp
  · rw [if_pos hudp]
    exact ⟨_, rfl⟩
  rw [if_neg hudp]
  dsimp only
  by_cases hend : ethhdrSize + (ipIhl first).toNat * 4 + udphdrSize >
    frame.length
  · rw [if_pos hend]
    exact ⟨_, rfl⟩
  obtain ⟨dest, hdest⟩ := Frame.load16_isSome
    (by omega : ethhdrSize + (ipIhl first).toNat * 4 + 2 + 2 ≤ frame.length)
  rw [if_neg hend, Frame.udpDest, hdest, Option.bind_some]
  split
  · split <;> exact ⟨_, rfl⟩
  · exact ⟨_, rfl⟩

/-- What the filter does with a frame. -/
inductive Handled (sockets : UInt32 → Bool) (ctx : XdpMd) (stats : XdpStats) :
    XdpAction × XdpStats → Prop
  | uncounted (hother : ∀ first payload, ¬ Redirected ctx.frame first payload) :
      Handled sockets ctx stats (.pass, stats)
  | passed (hother : ∀ first payload, ¬ Redirected ctx.frame first payload) :
      Handled sockets ctx stats (.pass, { countReceived stats ctx.frame with
        passed := stats.passed + 1 })
  | redirected {first : UInt8} {payload : ℕ}
      (hdata : Redirected ctx.frame first payload) :
      Handled sockets ctx stats (bpfRedirectMap sockets ctx.rxQueueIndex,
        { countReceived stats ctx.frame with
          redirected := stats.redirected + 1 })

theorem xdpMarketDataFilter_handled (sockets : UInt32 → Bool) (ctx : XdpMd)
    (stats : XdpStats) :
    ∃ outcome, xdpMarketDataFilter sockets ctx stats = some outcome ∧
      Handled sockets ctx stats outcome := by
  obtain ⟨finding, hfinding⟩ := inspect_isSome ctx.frame
  have hother : ∀ found, inspect ctx.frame = some found →
      (∀ payload, found ≠ .marketData payload) →
      ∀ first payload, ¬ Redirected ctx.frame first payload := by
    intro found hfound hne first payload hdata
    rw [hdata.inspect_eq] at hfound
    exact hne payload (Option.some.inj hfound).symm
  rw [xdpMarketDataFilter, hfinding, Option.map_some]
  refine ⟨_, rfl, ?_⟩
  cases finding with
  | unrelated =>
      exact .uncounted (hother _ hfinding fun _ => Finding.noConfusion)
  | otherPort => exact .passed (hother _ hfinding fun _ => Finding.noConfusion)
  | tooSmall => exact .passed (hother _ hfinding fun _ => Finding.noConfusion)
  | marketData payload =>
      obtain ⟨first, hdata⟩ := redirected_of_inspect hfinding
      exact .redirected hdata

/-! ## Runs of the filter -/

/-- A frame as it arrives on a CPU, with the queues that have a socket then. -/
structure Arrival (Cpu : Type*) where
  cpu : Cpu
  ctx : XdpMd
  sockets : UInt32 → Bool

variable {Cpu : Type*} [DecidableEq Cpu]

/-- The verdict on a frame and the counters of its CPU behind it. -/
def Arrival.handle (arrival : Arrival Cpu) (stats : XdpStats) :
    XdpAction × XdpStats :=
  (xdpMarketDataFilter arrival.sockets arrival.ctx stats).getD (.pass, stats)

/-- The queue of a frame to be redirected has a socket. -/
def Arrival.FindsSocket (arrival : Arrival Cpu) : Prop :=
  ∀ first payload, Redirected arrival.ctx.frame first payload →
    arrival.sockets arrival.ctx.rxQueueIndex = true

def statsMachine (Cpu : Type*) [DecidableEq Cpu] :
    Machine (Cpu → XdpStats) (Arrival Cpu) where
  allowed _ _ := True
  step stats arrival :=
    Function.update stats arrival.cpu (arrival.handle (stats arrival.cpu)).2

/-- How often each verdict was given on a frame counted
in `STATS_RX_PACKETS`. -/
structure Verdicts where
  redirect : ℕ
  pass : ℕ

def Verdicts.note (verdicts : Verdicts) (before : XdpStats)
    (outcome : XdpAction × XdpStats) :
    Verdicts :=
  if outcome.2.rxPackets = before.rxPackets then verdicts
  else if outcome.1 = .redirect then
    { verdicts with redirect := verdicts.redirect + 1 }
  else { verdicts with pass := verdicts.pass + 1 }

/-- The counters with the verdicts beside them. -/
def verdictMachine (Cpu : Type*) [DecidableEq Cpu] :
    Machine ((Cpu → XdpStats) × (Cpu → Verdicts)) (Arrival Cpu) :=
  (statsMachine Cpu).observed fun stats arrival verdicts =>
    Function.update verdicts arrival.cpu
      ((verdicts arrival.cpu).note (stats arrival.cpu)
        (arrival.handle (stats arrival.cpu)))

theorem verdictMachine_step (state : (Cpu → XdpStats) × (Cpu → Verdicts))
    (arrival : Arrival Cpu) : (verdictMachine Cpu).step state arrival =
      (Function.update state.1 arrival.cpu
        (arrival.handle (state.1 arrival.cpu)).2,
        Function.update state.2 arrival.cpu
          ((state.2 arrival.cpu).note (state.1 arrival.cpu)
          (arrival.handle (state.1 arrival.cpu)))) := rfl

def fresh : (Cpu → XdpStats) × (Cpu → Verdicts) :=
  (fun _ => ⟨0, 0, 0, 0⟩, fun _ => ⟨0, 0⟩)

/-- Every counted frame is in one of the two other counters. -/
def AddUp (stats : XdpStats) : Prop :=
  stats.redirected + stats.passed = stats.rxPackets

/-- The counters, of 64 bits each, are the numbers of verdicts. -/
structure Matches (stats : XdpStats) (verdicts : Verdicts) : Prop where
  redirected : stats.redirected = .ofNat verdicts.redirect
  passed : stats.passed = .ofNat verdicts.pass

omit [DecidableEq Cpu] in
theorem Arrival.handled (arrival : Arrival Cpu) (stats : XdpStats) :
    Handled arrival.sockets arrival.ctx stats (arrival.handle stats) := by
  obtain ⟨outcome, houtcome, hhandled⟩ :=
    xdpMarketDataFilter_handled arrival.sockets arrival.ctx stats
  rw [Arrival.handle, houtcome]
  exact hhandled

omit [DecidableEq Cpu] in
theorem AddUp.handle {stats : XdpStats} (hsum : AddUp stats)
    (arrival : Arrival Cpu) :
    AddUp (arrival.handle stats).2 := by
  have hhandled := arrival.handled stats
  generalize arrival.handle stats = outcome at hhandled ⊢
  rw [AddUp] at hsum ⊢
  cases hhandled with
  | uncounted => exact hsum
  | passed =>
      calc stats.redirected + (stats.passed + 1)
          = stats.redirected + stats.passed + 1 := (add_assoc _ _ _).symm
        _ = stats.rxPackets + 1 := by rw [hsum]
  | redirected =>
      calc stats.redirected + 1 + stats.passed
          = stats.redirected + stats.passed + 1 := add_right_comm _ _ _
        _ = stats.rxPackets + 1 := by rw [hsum]

omit [DecidableEq Cpu] in
/-- A frame keeps the counters equal to the numbers of verdicts exactly when it
finds a socket or needs none. -/
theorem Matches.handle_iff {stats : XdpStats} {verdicts : Verdicts}
    (hmatches : Matches stats verdicts) (arrival : Arrival Cpu) :
    Matches (arrival.handle stats).2
      (verdicts.note stats (arrival.handle stats)) ↔
      arrival.FindsSocket := by
  have hhandled := arrival.handled stats
  generalize arrival.handle stats = outcome at hhandled ⊢
  have hnext : ∀ n : ℕ, UInt64.ofNat (n + 1) = UInt64.ofNat n + 1 := fun n => by
    rw [UInt64.ofNat_add]
    rfl
  cases hhandled with
  | uncounted hother =>
      rw [Verdicts.note, if_pos rfl]
      exact iff_of_true hmatches fun first payload hdata =>
        absurd hdata (hother first payload)
  | passed hother =>
      rw [Verdicts.note, if_neg (by simp [countReceived]),
        if_neg XdpAction.noConfusion]
      refine iff_of_true ⟨hmatches.redirected, ?_⟩ fun first payload hdata =>
        absurd hdata (hother first payload)
      dsimp only
      rw [hnext, hmatches.passed]
  | redirected hdata =>
      rw [Verdicts.note, if_neg (by simp [countReceived])]
      by_cases hsocket : arrival.sockets arrival.ctx.rxQueueIndex = true
      · have hverdict : bpfRedirectMap arrival.sockets
          arrival.ctx.rxQueueIndex = .redirect :=
          if_pos hsocket
        rw [if_pos hverdict]
        refine iff_of_true ⟨?_, hmatches.passed⟩ fun _ _ _ => hsocket
        dsimp only
        rw [hnext, hmatches.redirected]
      · have hverdict : bpfRedirectMap arrival.sockets
          arrival.ctx.rxQueueIndex = .pass :=
          if_neg hsocket
        rw [hverdict, if_neg XdpAction.noConfusion]
        refine iff_of_false (fun hafter => ?_) fun hfinds =>
          hsocket (hfinds _ _ hdata)
        -- The frame was passed, and counted as redirected.
        have hmore : stats.redirected + 1 = stats.redirected :=
          hafter.redirected.trans hmatches.redirected.symm
        simp at hmore

/-- A frame changes the counters of its CPU only, and keeps their sum right. -/
theorem addUp_step {state : (Cpu → XdpStats) × (Cpu → Verdicts)}
    (hall : ∀ cpu, AddUp (state.1 cpu)) (arrival : Arrival Cpu) (cpu : Cpu) :
    AddUp (((verdictMachine Cpu).step state arrival).1 cpu) := by
  rw [verdictMachine_step]
  dsimp only
  by_cases hcpu : cpu = arrival.cpu
  · subst hcpu
    rw [Function.update_self]
    exact (hall arrival.cpu).handle arrival
  · rw [Function.update_of_ne hcpu]
    exact hall cpu

/-- A frame keeps the counters of all CPUs equal to the numbers of verdicts
exactly when it finds a socket or needs none. -/
theorem matches_step_iff {state : (Cpu → XdpStats) × (Cpu → Verdicts)}
    (hall : ∀ cpu, Matches (state.1 cpu) (state.2 cpu))
    (arrival : Arrival Cpu) :
    (∀ cpu, Matches (((verdictMachine Cpu).step state arrival).1 cpu)
      (((verdictMachine Cpu).step state arrival).2 cpu)) ↔
        arrival.FindsSocket := by
  rw [← (hall arrival.cpu).handle_iff arrival, verdictMachine_step]
  dsimp only
  constructor
  · intro hafter
    have hown := hafter arrival.cpu
    rwa [Function.update_self, Function.update_self] at hown
  · intro hown cpu
    by_cases hcpu : cpu = arrival.cpu
    · subst hcpu
      rwa [Function.update_self, Function.update_self]
    · rw [Function.update_of_ne hcpu, Function.update_of_ne hcpu]
      exact hall cpu

/-- In every run of the filter over frames on any queues, the counters of each
CPU add up.  They are the numbers of the verdicts on the counted frames in all
states reached if and only if every frame to be redirected finds a socket. -/
theorem stats_match_verdicts_iff (arrivals : List (Arrival Cpu)) :
    (∀ cpu, AddUp (((verdictMachine Cpu).run fresh arrivals).1 cpu)) ∧
    ((∀ done, done <+: arrivals → ∀ cpu,
      Matches (((verdictMachine Cpu).run fresh done).1 cpu)
        (((verdictMachine Cpu).run fresh done).2 cpu)) ↔
      ∀ arrival ∈ arrivals, arrival.FindsSocket) := by
  have hlegal : (verdictMachine Cpu).Legal fresh arrivals :=
    Machine.legal_of_forall (fun _ _ => trivial) _ _
  have hstart : ∀ cpu : Cpu, AddUp (fresh.1 cpu) := fun _ => UInt64.add_zero 0
  constructor
  · exact Machine.invariant (fun state : (Cpu → XdpStats) × (Cpu → Verdicts) =>
      ∀ cpu, AddUp (state.1 cpu)) (fun state arrival hall _ =>
        addUp_step hall arrival) hstart
      hlegal
  · rw [← @Machine.each_iff_forall_mem _ _ (verdictMachine Cpu) _ fresh]
    exact Machine.always_iff_each (fun _ => True)
      (fun state => ∀ cpu, Matches (state.1 cpu) (state.2 cpu))
      _ (fun _ _ _ _ => trivial)
      (fun _ arrival _ _ hall => matches_step_iff hall arrival) trivial
        (fun _ => ⟨rfl, rfl⟩) hlegal

/-- A frame on a queue without a socket is passed and counted as redirected. -/
theorem unconfigured_queue_counted_redirected :
    ¬ ∀ arrivals : List (Arrival Unit),
      Matches (((verdictMachine Unit).run fresh arrivals).1 ())
      (((verdictMachine Unit).run fresh arrivals).2 ()) := by
  intro hclaim
  have hmatches := hclaim [⟨(), ⟨sampleFrame 0x45, 0⟩, fun _ => false⟩]
  exact absurd hmatches.redirected (by decide +kernel)

end XdpFilter

end MarketDataPipeline
