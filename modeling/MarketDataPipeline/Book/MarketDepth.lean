import MarketDataPipeline.Book.DeadHandles
import MarketDataPipeline.Book.Quotes

/-!
# Market depth

`bid_depth` and `ask_depth` add up the levels from the best price on.  The
bounds are machine words next to sentinels: a best bid of 0 stands for no bid
and for the price 0, and `best_ask + levels` may wrap.  Depth is exact away from
these two.
-/

namespace MarketDataPipeline

open AbstractBook DepthTally

variable {size : UInt32} {ι : Type*}

/-! ## Exact depth -/

/-- The volume at the prices from `low` to `high`. -/
def depthBetween (volume : UInt32 → ℕ) (low high : ℕ) : ℕ :=
  ∑ price ∈ Finset.range maxPriceLevels.toNat with low ≤ price ∧ price ≤ high,
    volume (.ofNat price)

def wholeVolume (volume : UInt32 → ℕ) : ℕ :=
  ∑ price ∈ Finset.range maxPriceLevels.toNat, volume (.ofNat price)

variable {volume : UInt32 → ℕ} {low low' high high' : ℕ}

theorem depthBetween_mono (volume : UInt32 → ℕ) (hlow : low' ≤ low)
    (hhigh : high ≤ high') :
    depthBetween volume low high ≤ depthBetween volume low' high' := by
  refine Finset.sum_le_sum_of_subset fun price hprice => ?_
  rw [Finset.mem_filter] at hprice ⊢
  exact ⟨hprice.1, by omega⟩

theorem depthBetween_of_lt (volume : UInt32 → ℕ) (hempty : high < low) :
    depthBetween volume low high = 0 := by
  rw [depthBetween, Finset.sum_eq_zero]
  intro price hprice
  have hbounds := (Finset.mem_filter.mp hprice).2
  omega

/-- Bounds that leave no volume out make the whole. -/
theorem depthBetween_eq_whole
    (hin : ∀ price < maxPriceLevels.toNat, volume (.ofNat price) ≠ 0 → low ≤
      price ∧ price ≤ high) :
    depthBetween volume low high = wholeVolume volume :=
  Finset.sum_filter_of_ne fun price hprice =>
    hin price (Finset.mem_range.mp hprice)

theorem depthBetween_zero (volume : UInt32 → ℕ) :
    depthBetween volume 0 0 = volume 0 := by
  have hlevels : (Finset.range maxPriceLevels.toNat).filter
      (fun price => 0 ≤ price ∧ price ≤ 0) = {0} := by
    ext price
    have hpos := maxPriceLevels_pos
    simp only [Finset.mem_filter, Finset.mem_range, Finset.mem_singleton]
    omega
  rw [depthBetween, hlevels, Finset.sum_singleton]
  rfl

/-! ## What the code computes -/

section Computed

variable {book : MBOBookWithBIT} {a : AbstractBook}

theorem MBOBookWithBIT.bidDepth_eq (htracks : book.tally.Tracks a)
    (levels : UInt32) :
    bidDepth book levels =
      if book.getBestBid = 0 then 0
      else depthBetween (a.volume .bid) (book.getBestBid.toNat - levels.toNat)
        book.getBestBid.toNat := by
  rw [bidDepth]
  split
  case isTrue => rfl
  case isFalse =>
    have hlow :
        (if book.getBestBid > levels then book.getBestBid -
        levels else 0).toNat =
        book.getBestBid.toNat - levels.toNat := by
      split
      case isTrue hlt => exact UInt32.toNat_sub_of_le _ _ (UInt32.le_of_lt hlt)
      case isFalse hle =>
        rw [gt_iff_lt, UInt32.not_lt, UInt32.le_iff_toNat_le] at hle
        rw [UInt32.toNat_zero]
        omega
    dsimp only
    rw [htracks.rangeSum_eq, volumeBetween, hlow]
    rfl

theorem MBOBookWithBIT.askDepth_eq (htracks : book.tally.Tracks a)
    (hquoted : book.tally.Quoted) (levels : UInt32) :
    askDepth book levels =
      if book.getBestAsk.toNat + levels.toNat < 2 ^ 32 then
        depthBetween (a.volume .ask) book.getBestAsk.toNat
          (min (book.getBestAsk.toNat + levels.toNat)
            (maxPriceLevels.toNat - 1))
      else 0 := by
  have hmax : maxPriceLevels.toNat = 100000 := rfl
  have hlast : (maxPriceLevels - 1).toNat = 99999 := rfl
  have hinvalid : invalidPrice.toNat = 2 ^ 32 - 1 := rfl
  rw [askDepth]
  split
  case isTrue hnone =>
    rw [hnone, hinvalid, depthBetween_of_lt _ (by omega)]
    split <;> rfl
  case isFalse hsome =>
    have hbest : book.getBestAsk < maxPriceLevels :=
      (hquoted .ask).resolve_left hsome
    have hbestNat := UInt32.lt_iff_toNat_lt.mp hbest
    have hlevels := levels.toNat_lt
    dsimp only
    rw [htracks.rangeSum_eq, volumeBetween]
    by_cases hexact : book.getBestAsk.toNat + levels.toNat < 2 ^ 32
    · have hsum : (book.getBestAsk + levels).toNat =
        book.getBestAsk.toNat + levels.toNat := by
        rw [UInt32.toNat_add, Nat.mod_eq_of_lt hexact]
      have hhigh :
          (if book.getBestAsk + levels <
          maxPriceLevels then book.getBestAsk + levels
          else maxPriceLevels - 1).toNat =
            min (book.getBestAsk.toNat + levels.toNat)
              (maxPriceLevels.toNat - 1) := by
        split
        case isTrue hlt =>
          rw [UInt32.lt_iff_toNat_lt, hsum] at hlt
          omega
        case isFalse hge =>
          rw [UInt32.lt_iff_toNat_lt, hsum] at hge
          omega
      rw [if_pos hexact, hhigh]
      rfl
    · -- The wrapped bound lies below the best price.
      have hsum : (book.getBestAsk + levels).toNat =
          book.getBestAsk.toNat + levels.toNat - 2 ^ 32 := by
        rw [UInt32.toNat_add]
        omega
      have hlt : book.getBestAsk + levels < maxPriceLevels := by
        rw [UInt32.lt_iff_toNat_lt, hsum]
        omega
      rw [if_neg hexact, if_pos hlt, hsum]
      exact congrArg Nat.cast (depthBetween_of_lt (a.volume .ask) (by omega))

/-! ## When depth is exact -/

/-- Both depths are the volumes between their exact bounds, and the whole
volume of the side from `MAX_PRICE_LEVELS` levels on. -/
structure DepthExact (book : MBOBookWithBIT) (volume : Side → UInt32 → ℕ)
    (levels : UInt32) :
    Prop where
  bid : MBOBookWithBIT.bidDepth book levels = depthBetween (volume .bid)
    (book.getBestBid.toNat - levels.toNat) book.getBestBid.toNat
  ask : MBOBookWithBIT.askDepth book levels =
    depthBetween (volume .ask) book.getBestAsk.toNat
    (min (book.getBestAsk.toNat + levels.toNat) (maxPriceLevels.toNat - 1))
  bid_whole : maxPriceLevels ≤ levels →
    MBOBookWithBIT.bidDepth book levels = wholeVolume (volume .bid)
  ask_whole : maxPriceLevels ≤ levels →
    MBOBookWithBIT.askDepth book levels = wholeVolume (volume .ask)

/-- No bid volume hides behind a best bid of 0, and the upper bound of the asks
does not wrap, unless there are none. -/
structure DepthInRange (book : MBOBookWithBIT) (volume : Side → UInt32 → ℕ)
    (levels : UInt32) :
    Prop where
  bid : book.getBestBid ≠ 0 ∨ volume .bid 0 = 0
  ask : book.getBestAsk.toNat + levels.toNat < 2 ^ 32 ∨
    wholeVolume (volume .ask) = 0

/-- All bid volume lies at or below the best bid. -/
theorem bidDepth_whole (htracks : book.tally.Tracks a) {low : ℕ}
    (hlow : low = 0) :
    depthBetween (a.volume .bid) low book.getBestBid.toNat =
      wholeVolume (a.volume .bid) := by
  refine depthBetween_eq_whole fun price hprice hvolume => ⟨by omega, ?_⟩
  have hbound := htracks.best .bid _ (Nat.pos_of_ne_zero hvolume)
  have hmax : maxPriceLevels.toNat = 100000 := rfl
  rw [Side.improves, gt_iff_lt, UInt32.not_lt, UInt32.le_iff_toNat_le,
    UInt32.toNat_ofNat', Nat.mod_eq_of_lt (by omega)] at hbound
  exact hbound

/-- All ask volume lies at or above the best ask. -/
theorem askDepth_whole (htracks : book.tally.Tracks a) {high : ℕ}
    (hhigh : maxPriceLevels.toNat - 1 ≤ high) :
    depthBetween (a.volume .ask) book.getBestAsk.toNat high =
      wholeVolume (a.volume .ask) := by
  refine depthBetween_eq_whole fun price hprice hvolume => ⟨?_, by omega⟩
  have hbound := htracks.best .ask _ (Nat.pos_of_ne_zero hvolume)
  have hmax : maxPriceLevels.toNat = 100000 := rfl
  rw [Side.improves, UInt32.not_lt, UInt32.le_iff_toNat_le, UInt32.toNat_ofNat',
    Nat.mod_eq_of_lt (by omega)] at hbound
  exact hbound

theorem bidDepth_exact_iff (htracks : book.tally.Tracks a) (levels : UInt32) :
    MBOBookWithBIT.bidDepth book levels = depthBetween (a.volume .bid)
        (book.getBestBid.toNat - levels.toNat) book.getBestBid.toNat ↔
      book.getBestBid ≠ 0 ∨ a.volume .bid 0 = 0 := by
  rw [MBOBookWithBIT.bidDepth_eq htracks]
  split
  case isTrue hzero =>
    have hnone :
        depthBetween (a.volume .bid) (book.getBestBid.toNat - levels.toNat)
        book.getBestBid.toNat = a.volume .bid 0 := by
      rw [hzero, UInt32.toNat_zero, Nat.zero_sub, depthBetween_zero]
    rw [hnone]
    simp only [hzero, ne_eq, not_true_eq_false, false_or]
    omega
  case isFalse hne => exact iff_of_true rfl (Or.inl hne)

theorem askDepth_exact_iff (htracks : book.tally.Tracks a)
    (hquoted : book.tally.Quoted) (levels : UInt32) :
    MBOBookWithBIT.askDepth book levels =
      depthBetween (a.volume .ask) book.getBestAsk.toNat
        (min (book.getBestAsk.toNat + levels.toNat)
          (maxPriceLevels.toNat - 1)) ↔
      book.getBestAsk.toNat + levels.toNat < 2 ^ 32 ∨
        wholeVolume (a.volume .ask) = 0 := by
  have hmax : maxPriceLevels.toNat = 100000 := rfl
  rw [MBOBookWithBIT.askDepth_eq htracks hquoted]
  split
  case isTrue hexact => exact iff_of_true rfl (Or.inl hexact)
  case isFalse hwraps =>
    rw [askDepth_whole htracks (by omega)]
    simp only [hwraps, false_or]
    omega

theorem depthExact_iff (htracks : book.tally.Tracks a)
    (hquoted : book.tally.Quoted) (levels : UInt32) :
    DepthExact book a.volume levels ↔ DepthInRange book a.volume levels := by
  have hbid := bidDepth_exact_iff htracks levels
  have hask := askDepth_exact_iff htracks hquoted levels
  have hmax : maxPriceLevels.toNat = 100000 := rfl
  constructor
  · intro hexact
    exact ⟨hbid.mp hexact.bid, hask.mp hexact.ask⟩
  · intro hrange
    have hbidEq := hbid.mpr hrange.bid
    have haskEq := hask.mpr hrange.ask
    refine ⟨hbidEq, haskEq, fun hlevels => ?_, fun hlevels => ?_⟩
    all_goals rw [UInt32.le_iff_toNat_le] at hlevels
    · have hbest : book.getBestBid.toNat < maxPriceLevels.toNat := by
        rcases hquoted .bid with hnone | hlt
        · rw [MBOBookWithBIT.getBestBid, hnone]
          decide
        · exact UInt32.lt_iff_toNat_lt.mp hlt
      rw [hbidEq, bidDepth_whole htracks (by omega)]
    · rw [haskEq, askDepth_whole htracks (by omega)]

/-- Further levels only add volume. -/
theorem depth_mono (htracks : book.tally.Tracks a) (hquoted : book.tally.Quoted)
    {levels levels' : UInt32} (hle : levels' ≤ levels)
    (hrange : DepthInRange book a.volume levels) :
    MBOBookWithBIT.bidDepth book levels' ≤ MBOBookWithBIT.bidDepth book levels ∧
      MBOBookWithBIT.askDepth book levels' ≤
        MBOBookWithBIT.askDepth book levels := by
  rw [UInt32.le_iff_toNat_le] at hle
  have hrange' : DepthInRange book a.volume levels' :=
    ⟨hrange.bid, hrange.ask.imp_left fun hexact => by omega⟩
  have hexact := (depthExact_iff htracks hquoted levels).mpr hrange
  have hexact' := (depthExact_iff htracks hquoted levels').mpr hrange'
  rw [hexact.bid, hexact.ask, hexact'.bid, hexact'.ask,
    Nat.cast_le, Nat.cast_le]
  exact ⟨depthBetween_mono _ (by omega) le_rfl,
    depthBetween_mono _ le_rfl (by omega)⟩

end Computed

/-! ## Depth in every run -/

namespace Books

variable [DecidableEq ι] {books : Books ι DepthTally size}
  {a : ι → AbstractBook}

omit [DecidableEq ι] in
def restingVolume (books : Books ι DepthTally size) (i : ι) :
    Side → UInt32 → ℕ :=
  (books.book i).queues.volume books.pool

/-- The books hold the abstract books with exact tallies and valid best
prices. -/
structure Quoting (books : Books ι DepthTally size) (a : ι → AbstractBook) :
    Prop where
  sound : books.Sound a
  quoted : ∀ i, (books.book i).tally.Quoted

theorem Quoting.apply (hquoting : books.Quoting a) {i : ι} {op : BookOp}
    (hallowed : op.Allowed (books.book i).queues books.pool) :
    (books.apply i op).2.Quoting
      (Function.update a i ((a i).apply op (books.apply i op).1)) := by
  refine ⟨hquoting.sound.apply hallowed, fun j => ?_⟩
  by_cases hj : j = i
  · subst hj
    obtain ⟨_, _, _, -, -, hstep⟩ := hquoting.sound.holds.apply_step hallowed
    exact (hquoting.quoted j).step hstep
  · simpa [Books.apply, hj] using hquoting.quoted j

theorem handleMachine_run_quoting (hsize : 0 < size.toNat)
    (memory : UInt32 → Order) {calls : List (ι × BookOp)}
    (hlegal : (handleMachine ι DepthTally size).Legal
      (init .init memory) calls) :
    ∃ a, ((handleMachine ι DepthTally size).run (init .init memory)
      calls).Quoting a :=
  handleMachine_invariant (fun books => ∃ a, books.Quoting a)
    (fun _ _ _ ⟨_, hquoting⟩ hown => ⟨_, hquoting.apply hown⟩)
    ⟨_, init_sound hsize memory, fun _ => init_quoted⟩ hlegal

omit [DecidableEq ι] in
theorem Quoting.restingVolume_eq (hquoting : books.Quoting a) (i : ι) :
    books.restingVolume i = (a i).volume := by
  funext side price
  exact (hquoting.sound.holds.represents i).volume_eq side price

omit [DecidableEq ι] in
theorem Quoting.depthExact_iff (hquoting : books.Quoting a) (i : ι)
    (levels : UInt32) :
    DepthExact (books.book i) (books.restingVolume i) levels ↔
      DepthInRange (books.book i) (books.restingVolume i) levels := by
  rw [hquoting.restingVolume_eq]
  exact MarketDataPipeline.depthExact_iff (hquoting.sound.tracks i)
    (hquoting.quoted i) levels

/-- In every run, both depths are exact for a number of levels exactly when no
bid volume hides behind a best bid of 0 and `best_ask + levels` does not wrap;
they then grow with the levels.  No tree leaves the 64-bit range. -/
theorem market_depth_exact_iff (memory : UInt32 → Order)
    (calls : List (ι × BookOp))
    (hlegal : (handleMachine ι DepthTally maxOrders).Legal (init .init memory)
      calls) (i : ι)
    (levels : UInt32) :
    let books := (handleMachine ι DepthTally maxOrders).run
      (init .init memory) calls
    let book := books.book i
    (DepthExact book (books.restingVolume i) levels ↔
      DepthInRange book (books.restingVolume i) levels) ∧
    (DepthInRange book (books.restingVolume i) levels → ∀ levels' ≤ levels,
      MBOBookWithBIT.bidDepth book levels' ≤
        MBOBookWithBIT.bidDepth book levels ∧
        MBOBookWithBIT.askDepth book levels' ≤
          MBOBookWithBIT.askDepth book levels) ∧
    ∀ side, (book.tally.bit side).WithinInt64 := by
  intro books book
  obtain ⟨a, hquoting⟩ := handleMachine_run_quoting maxOrders_pos memory hlegal
  have htracks := hquoting.sound.tracks i
  refine ⟨hquoting.depthExact_iff i levels, fun hrange levels' hle => ?_, ?_⟩
  · rw [hquoting.restingVolume_eq] at hrange
    exact depth_mono htracks (hquoting.quoted i) hle hrange
  · exact htracks.withinInt64 (by decide) (hquoting.sound.holds.represents i)

/-- A bid and two asks, with all levels asked for that do not wrap. -/
theorem market_depth_exact_iff_asks :
    let books := (handleMachine Unit DepthTally maxOrders).run
      (init .init fun _ => default)
      [((), .enqueue .bid 90 6 4), ((), .enqueue .ask 100 7 5),
        ((), .enqueue .ask 200 8 9)]
    DepthExact (books.book ()) (books.restingVolume ()) 0xFFFFFF00 :=
  (market_depth_exact_iff (fun _ => default)
    [((), .enqueue .bid 90 6 4), ((), .enqueue .ask 100 7 5),
      ((), .enqueue .ask 200 8 9)]
    ⟨trivial, trivial, trivial, trivial⟩ () 0xFFFFFF00).1.mpr
    ⟨Or.inl (by decide +kernel), Or.inl (by decide +kernel)⟩

/-- A bound that wraps hides the asks, and the price 0 hides the bids. -/
theorem market_depth_misses_volume :
    (let books := (handleMachine Unit DepthTally maxOrders).run
      (init .init fun _ => default) [((), .enqueue .ask 100 7 5)]
    ¬ DepthExact (books.book ()) (books.restingVolume ()) 0xFFFFFFFF) ∧
    let books := (handleMachine Unit DepthTally maxOrders).run
      (init .init fun _ => default)
      [((), .enqueue .bid 0 7 5)]
    ¬ DepthExact (books.book ()) (books.restingVolume ()) 10 := by
  constructor
  · have hlegal : (handleMachine Unit DepthTally maxOrders).Legal
      (init .init fun _ => default)
        [((), .enqueue .ask 100 7 5)] := ⟨trivial, trivial⟩
    obtain ⟨a, hquoting⟩ :=
      handleMachine_run_quoting maxOrders_pos (fun _ => default) hlegal
    have hfive :
        ((handleMachine Unit DepthTally maxOrders).run
        (init .init fun _ => default)
        [((), .enqueue .ask 100 7 5)]).restingVolume () .ask 100 = 5 := by
          decide +kernel
    intro books hexact
    rcases ((hquoting.depthExact_iff () 0xFFFFFFFF).mp
      hexact).ask with hbound | hnone
    · revert hbound
      decide +kernel
    · have hlevel := Finset.sum_eq_zero_iff.mp hnone 100 (by decide +kernel)
      exact absurd (hfive.symm.trans hlevel) (by decide)
  · have hlegal : (handleMachine Unit DepthTally maxOrders).Legal
      (init .init fun _ => default)
        [((), .enqueue .bid 0 7 5)] := ⟨trivial, trivial⟩
    obtain ⟨a, hquoting⟩ :=
      handleMachine_run_quoting maxOrders_pos (fun _ => default) hlegal
    intro books hexact
    rcases ((hquoting.depthExact_iff () 10).mp hexact).bid with hbest | hnone
    · exact hbest (by decide +kernel)
    · revert hnone
      decide +kernel

end Books

end MarketDataPipeline
