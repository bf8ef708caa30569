import MarketDataPipeline.Book.BestPrices

/-!
# The 32-bit level totals

`bid_qty` and `ask_qty` hold the quantity of each level in 32 bits.  They agree
with what rests at the level, and so with the tree, until an enqueue lifts a
level to 2^32 or more.  Until then no subtraction saturates or wraps.
-/

namespace MarketDataPipeline

open AbstractBook DepthTally

variable {size : UInt32} {ι : Type*}

namespace DepthTally

variable {tally tally' : DepthTally} {book book' : AbstractBook} {side : Side}
  {price qty : UInt32}

def Agrees (tally : DepthTally) (book : AbstractBook) : Prop :=
  ∀ side price, price < maxPriceLevels →
    (tally.qty side price).toNat = book.volume side price

theorem init_agrees : DepthTally.init.Agrees AbstractBook.empty :=
  fun _ _ _ => rfl

/-- An enqueue keeps the totals exactly when its level stays below 2^32. -/
theorem Agrees.add_iff (hagrees : tally.Agrees book)
    (hprice : price < maxPriceLevels) (r : Resting) :
    (tally.add side price r.qty).Agrees
    (setAt book side price (book side price ++ [r])) ↔
      book.volume side price + r.qty.toNat < 2 ^ 32 := by
  have hlevel : AbstractBook.volume
      (setAt book side price (book side price ++ [r])) side price =
      book.volume side price + r.qty.toNat := by
    simp [AbstractBook.volume]
  have hqty : (tally.add side price r.qty).qty =
      setAt tally.qty side price (tally.qty side price + r.qty) := rfl
  have hsum : ((tally.add side price r.qty).qty side price).toNat =
      (book.volume side price + r.qty.toNat) % 2 ^ 32 := by
    rw [hqty, setAt_self, UInt32.toNat_add, hagrees side price hprice]
  constructor
  · intro hafter
    have hthis := hafter side price hprice
    rw [hsum, hlevel] at hthis
    have := Nat.mod_lt (book.volume side price + r.qty.toNat)
      (Nat.two_pow_pos 32)
    omega
  · intro hfits s p hp
    by_cases hother : s = side ∧ p = price
    · obtain ⟨rfl, rfl⟩ := hother
      rw [hsum, hlevel, Nat.mod_eq_of_lt hfits]
    · rw [volume_setAt_other book _ s p hother, hqty, setAt_of_ne _ _ hother]
      exact hagrees s p hp

theorem remove_qty_other (tally : DepthTally) {side s : Side} {price p : UInt32}
    (hother : ¬ (s = side ∧ p = price)) (qty : UInt32) :
    (tally.remove side price qty).qty s p = tally.qty s p := by
  have hsubtract : (tally.subtract side price qty).qty s p = tally.qty s p :=
    setAt_of_ne _ _ hother
  rw [remove, ← hsubtract]
  split
  · cases side <;> rfl
  · rfl

/-- A removal keeps the totals. -/
theorem Agrees.remove (hagrees : tally.Agrees book)
    (hprice : price < maxPriceLevels)
    (hother : ∀ s p, ¬ (s = side ∧ p = price) → book'.volume s p =
      book.volume s p)
    (hvolume : book.volume side price = book'.volume side price + qty.toNat) :
    (tally.remove side price qty).Agrees book' := by
  intro s p hp
  by_cases hlevel : s = side ∧ p = price
  · obtain ⟨rfl, rfl⟩ := hlevel
    rw [remove_qty, hagrees s p hprice]
    omega
  · rw [remove_qty_other tally hlevel, hother s p hlevel]
    exact hagrees s p hp

/-- A partial fill keeps the totals. -/
theorem Agrees.reduce (hagrees : tally.Agrees book)
    (hprice : price < maxPriceLevels)
    (hother : ∀ s p, ¬ (s = side ∧ p = price) → book'.volume s p =
      book.volume s p)
    (hvolume : book.volume side price = book'.volume side price + qty.toNat) :
    (tally.reduce side price qty).Agrees book' := by
  have hqty : (tally.reduce side price qty).qty =
      setAt tally.qty side price (tally.qty side price - qty) := rfl
  intro s p hp
  by_cases hlevel : s = side ∧ p = price
  · obtain ⟨rfl, rfl⟩ := hlevel
    have htotal := hagrees s p hprice
    have hle : qty ≤ tally.qty s p := by
      rw [UInt32.le_iff_toNat_le]
      omega
    rw [hqty, setAt_self, UInt32.toNat_sub_of_le _ _ hle]
    omega
  · rw [hqty, setAt_of_ne _ _ hlevel, hother s p hlevel]
    exact hagrees s p hp

/-- A trade keeps the totals, order by order. -/
theorem Agrees.recordTrade (hagrees : tally.Agrees book)
    (hprice : price < maxPriceLevels) (qty : UInt32) :
    (AbstractBook.recordTrade side price qty (book side price) tally).Agrees
      (setAt book side price (consume qty (book side price))) := by
  have hremove : ∀ (book : AbstractBook) (tally : DepthTally) r rest,
      tally.Agrees book →
      book side price = r :: rest →
      DepthTally.Agrees (LevelTally.remove tally side price r.qty)
        (setAt book side price rest) := by
    intro book tally r rest hagrees hqueue
    have hsplit : book side price = [] ++ r :: rest := hqueue
    exact hagrees.remove hprice (volume_setAt_other book _)
      (volume_removed hsplit)
  have hreduce : ∀ (book : AbstractBook) (tally : DepthTally) r rest qty,
      tally.Agrees book →
      book side price = r :: rest → qty < r.qty →
      DepthTally.Agrees (LevelTally.reduce tally side price qty)
        (setAt book side price ({ r with qty := r.qty - qty } :: rest)) := by
    intro book tally r rest qty hagrees hqueue hlt
    exact hagrees.reduce hprice (volume_setAt_other book _)
      (volume_reduced hqueue hlt)
  have hqueue : book side price = book side price ++ [] :=
    (List.append_nil _).symm
  let property : AbstractBook → DepthTally → Prop :=
    fun book tally => tally.Agrees book
  have hdone :=
    recordTrade_preserves property hremove hreduce hagrees qty hqueue
  rwa [List.append_nil] at hdone

/-! ## Subtractions -/

/-- No round of a trade of `qty` takes more from the level total than it holds:
`dequeue` does not saturate and a partial fill does not wrap. -/
def SubtractsExactly (side : Side) (price : UInt32) :
    UInt32 → List Resting → DepthTally → Prop
  | _, [], _ => True
  | qty, r :: rest, tally =>
      if qty = 0 then True
      else if r.qty ≤ qty then
        r.qty ≤ tally.qty side price ∧
          SubtractsExactly side price (qty - r.qty) rest
            (tally.remove side price r.qty)
      else qty ≤ tally.qty side price

/-- A total that covers its queue covers every round of a trade. -/
theorem subtractsExactly_of_le {queue : List Resting}
    (hcovers : quantity queue ≤ (tally.qty side price).toNat) (qty : UInt32) :
    SubtractsExactly side price qty queue tally := by
  induction queue generalizing tally qty with
  | nil => trivial
  | cons r rest ih =>
      rw [quantity_cons] at hcovers
      rw [SubtractsExactly]
      split
      case isTrue => trivial
      case isFalse =>
        split
        case isTrue =>
          refine ⟨?_, ih ?_ _⟩
          · rw [UInt32.le_iff_toNat_le]
            omega
          · rw [remove_qty]
            omega
        case isFalse hle =>
          have hlt := UInt32.lt_iff_toNat_lt.mp (UInt32.not_le.mp hle)
          rw [UInt32.le_iff_toNat_le]
          omega

end DepthTally

/-! ## Steps and runs -/

/-- The calls that keep the level totals: an order that is placed leaves its
level below 2^32. -/
def BookOp.KeepsTotals (pool : OrderPool size) (book : AbstractBook) :
    BookOp → Prop
  | .enqueue side price _ qty =>
      price < maxPriceLevels → pool.freeHead ≠ nullIdx →
      book.volume side price + qty.toNat < 2 ^ 32
  | _ => True

/-- One step from totals that agree leads to totals that agree exactly when its
call keeps them. -/
theorem DepthTally.Agrees.step_iff {pool : OrderPool size}
    {tally tally' : DepthTally} {book book' : AbstractBook}
    {free free' : List UInt32} {op : BookOp} {ret : UInt32}
    (hagrees : tally.Agrees book) (hfree : pool.FreeList free)
    (hstep : Step free book tally op ret free' book' tally') :
    tally'.Agrees book' ↔ op.KeepsTotals pool book := by
  cases hstep with
  | invalid hprice =>
      exact iff_of_true hagrees fun hvalid =>
        absurd hprice (UInt32.not_le.mpr hvalid)
  | full _ hnone =>
      exact iff_of_true hagrees fun _ hsome =>
        absurd (hfree.head_iff.mpr hnone) hsome
  | @placed side price orderId qty _ _ hprice _ hhead =>
      have hsome : pool.freeHead ≠ nullIdx := by
        rw [Ne, hfree.head_iff, hhead]
        exact List.cons_ne_nil _ _
      refine (hagrees.add_iff hprice ⟨ret, orderId, qty⟩).trans ?_
      exact ⟨fun hfits _ _ => hfits, fun hkeeps => hkeeps hprice hsome⟩
  | untraded => exact iff_of_true hagrees trivial
  | traded hprice => exact iff_of_true (hagrees.recordTrade hprice _) trivial
  | dequeued hprice hsplit =>
      exact iff_of_true (hagrees.remove hprice (volume_setAt_other book _)
        (volume_removed hsplit))
        trivial
  | cleared =>
      refine iff_of_true (fun side price hprice => ?_) trivial
      have hzero : (LevelTally.clear tally : DepthTally).qty side price = 0 :=
        if_pos hprice
      rw [hzero]
      rfl

/-- Totals that agree are those of the tree, and cover every subtraction. -/
theorem DepthTally.Agrees.covers {tally : DepthTally} {book : AbstractBook}
    (hagrees : tally.Agrees book) (htracks : tally.Tracks book) (side : Side)
    {price : UInt32} (hprice : price < maxPriceLevels) :
    ((tally.qty side price).toNat : ℤ) = (tally.bit side).rangeSum price price ∧
      (∀ r ∈ book side price, r.qty ≤ tally.qty side price) ∧
      ∀ qty, SubtractsExactly side price qty (book side price) tally := by
  have htotal := hagrees side price hprice
  refine ⟨?_, fun r hr => ?_, subtractsExactly_of_le htotal.ge⟩
  · rw [htracks.rangeSum_eq, htotal,
      AbstractBook.volumeBetween_self book side hprice]
  · obtain ⟨before, after, hsplit⟩ := List.append_of_mem hr
    rw [UInt32.le_iff_toNat_le, htotal, volume_removed hsplit]
    exact Nat.le_add_left _ _

namespace Books

variable [DecidableEq ι]

/-- In every legal run, the two aggregates of all levels agree in every state
reached if and only if every order that is placed leaves its level below 2^32.
Then the 32-bit total is the exact sum of the resting quantities and the volume
in the tree, a `dequeue` of a resting order does not saturate, and no round of a
trade saturates or wraps. -/
theorem level_totals_agree_iff (memory : UInt32 → Order)
    (calls : List (ι × BookOp))
    (hlegal : (ghostMachine ι DepthTally maxOrders).Legal
      (init .init memory, fun _ => empty) calls) :
    (∀ done, done <+: calls →
      let state := (ghostMachine ι DepthTally maxOrders).run
        (init .init memory, fun _ => empty) done
      ∀ i side price, price < maxPriceLevels →
        let book : MBOBookWithBIT := state.1.book i
        let queue := book.queues.contents state.1.pool side price
        (book.getQty side price).toNat = quantity queue ∧
          ((book.getQty side price).toNat : ℤ) =
            book.volumeRange side price price ∧
          (∀ r ∈ queue, r.qty ≤ book.getQty side price) ∧
          ∀ qty, SubtractsExactly side price qty queue book.tally) ↔
    (ghostMachine ι DepthTally maxOrders).Each
      (fun state call => call.2.KeepsTotals state.1.pool (state.2 call.1))
      (init .init memory, fun _ => empty) calls := by
  have hrule := Machine.always_iff_each
    (fun state : Books ι DepthTally maxOrders × (ι → AbstractBook) =>
      state.1.Sound state.2)
    (fun state => ∀ i, (state.1.book i).tally.Agrees (state.2 i))
    (fun state call => call.2.KeepsTotals state.1.pool (state.2 call.1))
    (fun _ _ hsound hallowed => hsound.apply hallowed) ?_
      (init_sound maxOrders_pos memory)
    (fun _ => init_agrees) hlegal
  · rw [← hrule]
    refine forall_congr' fun done => forall_congr' fun hdone => ?_
    obtain ⟨later, rfl⟩ := hdone
    have hsound :=
      run_sound maxOrders_pos memory
        ((Machine.legal_append _ _ _ _).mp hlegal).1
    generalize (ghostMachine ι DepthTally maxOrders).run _ done =
      state at hsound ⊢
    have hcontents : ∀ i side price,
        (state.1.book i).queues.contents state.1.pool side price =
          state.2 i side price :=
      fun i => (hsound.holds.represents i).contents_eq
    simp only [hcontents]
    constructor
    · exact fun hagree i side price hprice => (hagree i side price hprice).1
    · intro hagrees i side price hprice
      exact ⟨hagrees i side price hprice,
        (hagrees i).covers (hsound.tracks i) side hprice⟩
  · intro state call hsound hallowed hall
    obtain ⟨free, _, a', hfree, -, hstep⟩ := hsound.holds.apply_step hallowed
    have hrep := hsound.holds.represents call.1
    have hstepIff := (hall call.1).step_iff hfree hstep
    rw [hstep.apply_eq hrep.distinct hrep.nil_of_invalid] at hstepIff
    refine Iff.trans ?_ hstepIff
    exact forall_apply_iff DepthTally.Agrees hall _

/-- The equivalence on a run with a partial fill. -/
theorem level_totals_agree_iff_trade :
    let calls : List (Unit × BookOp) :=
      [((), .enqueue .bid 100 7 5), ((), .enqueue .bid 100 8 2),
        ((), .trade .bid 100 6)]
    (∀ done, done <+: calls →
      let state := (ghostMachine Unit DepthTally maxOrders).run
        (init .init fun _ => default, fun _ => empty) done
      ∀ i side price, price < maxPriceLevels →
        let book : MBOBookWithBIT := state.1.book i
        let queue := book.queues.contents state.1.pool side price
        (book.getQty side price).toNat = quantity queue ∧
          ((book.getQty side price).toNat : ℤ) =
            book.volumeRange side price price ∧
          (∀ r ∈ queue, r.qty ≤ book.getQty side price) ∧
          ∀ qty, SubtractsExactly side price qty queue book.tally) ↔
    (ghostMachine Unit DepthTally maxOrders).Each
      (fun state call => call.2.KeepsTotals state.1.pool (state.2 call.1))
      (init .init fun _ => default, fun _ => empty) calls :=
  level_totals_agree_iff (fun _ => default) _ ⟨trivial, trivial,
    trivial, trivial⟩

/-- Two orders of 2^31 make a total of 0. -/
theorem level_total_wraps :
    ¬ ∀ (memory : UInt32 → Order) (calls : List (Unit × BookOp)),
      (ghostMachine Unit DepthTally maxOrders).Legal
        (init .init memory, fun _ => empty) calls →
      let state := (ghostMachine Unit DepthTally maxOrders).run
        (init .init memory, fun _ => empty) calls
      ∀ side price, price < maxPriceLevels →
        let book : MBOBookWithBIT := state.1.book ()
        (book.getQty side price).toNat =
          quantity (book.queues.contents state.1.pool side price) := by
  intro hclaim
  have htotal := hclaim (fun _ => default)
    [((), .enqueue .bid 100 7 0x80000000), ((), .enqueue .bid 100 8 0x80000000)]
    ⟨trivial, trivial, trivial⟩ .bid 100 (by decide)
  revert htotal
  decide +kernel

end Books

end MarketDataPipeline
