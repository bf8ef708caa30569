import MarketDataPipeline.Book.VolumeQueries

/-!
# When the best prices are exact

The best price of a side is exact when it is the best price with volume, or the
side's empty value when nothing rests there.  From exact best prices a call
leads to exact ones unless it enqueues an order without quantity in front of
the best price, or takes the last volume of the best level while the 32-bit
quantity of that level is larger than what rests there.
-/

namespace MarketDataPipeline

open AbstractBook DepthTally

variable {size : UInt32} {ι : Type*}

namespace Side

/-- Every price but the empty value improves on it. -/
theorem eq_noPrice_of_not_improves {side : Side} {price : UInt32}
    (hprice : ¬ side.improves price side.noPrice) : price = side.noPrice := by
  cases side with
  | bid =>
      simp only [improves, noPrice, gt_iff_lt, UInt32.not_lt] at hprice ⊢
      exact UInt32.le_zero_iff.mp hprice
  | ask =>
      simp only [improves, noPrice, UInt32.not_lt,
        UInt32.le_iff_toNat_le] at hprice ⊢
      have hlt := price.toNat_lt
      have hinvalid : invalidPrice.toNat = 2 ^ 32 - 1 := rfl
      exact UInt32.toNat_inj.mp (by omega)

/-- The empty value improves on nothing. -/
theorem not_improves_noPrice (side : Side) (best : UInt32) :
    ¬ side.improves side.noPrice best := by
  intro himproves
  cases side with
  | bid =>
      rw [improves, gt_iff_lt, UInt32.lt_iff_toNat_lt] at himproves
      simp [noPrice] at himproves
  | ask =>
      have hlt := best.toNat_lt
      have hinvalid : invalidPrice.toNat = 2 ^ 32 - 1 := rfl
      rw [improves, noPrice, UInt32.lt_iff_toNat_lt] at himproves
      omega

end Side

namespace AbstractBook

variable {book book' : AbstractBook} {side : Side} {price best : UInt32}

/-- A side has one best price. -/
theorem IsBest.unique (hbest : book.IsBest side best)
    (hprice : book.IsBest side price) :
    best = price := by
  rcases hbest with ⟨hpos, hbound⟩ | ⟨hzero, hnone⟩
  · rcases hprice with ⟨hpos', hbound'⟩ | ⟨hzero', -⟩
    · have hleft := hbound price hpos'
      have hright := hbound' best hpos
      cases side <;> simp only [Side.improves, gt_iff_lt,
        UInt32.not_lt] at hleft hright
      · exact UInt32.le_antisymm hright hleft
      · exact UInt32.le_antisymm hleft hright
    · rw [hzero' best] at hpos
      exact absurd hpos (lt_irrefl 0)
  · rcases hprice with ⟨hpos', -⟩ | ⟨-, hnone'⟩
    · rw [hzero price] at hpos'
      exact absurd hpos' (lt_irrefl 0)
    · rw [hnone, hnone']

theorem IsBest.congr (hbest : book.IsBest side best)
    (hvolume : ∀ p, book'.volume side p = book.volume side p) :
    book'.IsBest side best := by
  simpa only [IsBest, hvolume] using hbest

/-- The best price stays best while its level keeps some volume and no level
gains any. -/
theorem IsBest.of_le (hbest : book.IsBest side best)
    (hle : ∀ p, book'.volume side p ≤ book.volume side p)
    (hkept : 0 < book.volume side best → 0 < book'.volume side best) :
    book'.IsBest side best := by
  rcases hbest with ⟨hpos, hbound⟩ | ⟨hzero, hnone⟩
  · exact Or.inl ⟨hkept hpos, fun p hp => hbound p (lt_of_lt_of_le hp (hle p))⟩
  · refine Or.inr ⟨fun p => ?_, hnone⟩
    have := hle p
    rw [hzero p] at this
    exact Nat.le_zero.mp this

/-- A level that lost its volume is not best, except where the side's empty
value names it. -/
theorem isBest_iff_of_emptied (hbest : book.IsBest side price)
    (hother : ∀ p, p ≠ price → book'.volume side p = book.volume side p)
    (hempty : book'.volume side price = 0) :
    book'.IsBest side price ↔ price = side.noPrice := by
  constructor
  · rintro (⟨hpos, -⟩ | ⟨-, hnone⟩)
    · rw [hempty] at hpos
      exact absurd hpos (lt_irrefl 0)
    · exact hnone
  · intro hnone
    refine Or.inr ⟨fun p => ?_, hnone⟩
    by_cases hp : p = price
    · rw [hp, hempty]
    · by_contra hpos
      rw [hother p hp] at hpos
      subst hnone
      exact hp (Side.eq_noPrice_of_not_improves
        (hbest.bound (Nat.pos_of_ne_zero hpos)))

end AbstractBook

namespace DepthTally

variable {tally : DepthTally} {book book' : AbstractBook} {side : Side}
  {price qty : UInt32}

def Exact (tally : DepthTally) (book : AbstractBook) : Prop :=
  ∀ side, book.IsBest side (tally.best side)

/-- The quantity the tally keeps for the best level is no larger than what
rests there, so that it is zero when the level is emptied. -/
def Guarded (tally : DepthTally) (book : AbstractBook) (side : Side)
    (price : UInt32) : Prop :=
  price = tally.best side → price ≠ side.noPrice →
    (tally.qty side price).toNat ≤ book.volume side price

theorem subtract_qty (tally : DepthTally) (side : Side) (price qty : UInt32) :
    ((tally.subtract side price qty).qty side price).toNat =
      (tally.qty side price).toNat - qty.toNat := by
  have hqty : (tally.subtract side price qty).qty side price =
      if tally.qty side price ≥ qty then tally.qty side price - qty
      else 0 := setAt_self ..
  rw [hqty]
  split
  case isTrue hge => exact UInt32.toNat_sub_of_le _ _ hge
  case isFalse hlt =>
    rw [ge_iff_le, UInt32.not_le, UInt32.lt_iff_toNat_lt] at hlt
    rw [UInt32.toNat_zero]
    omega

/-- A change on one side leaves the other side's best price exact. -/
theorem Exact.own_side_iff (hexact : tally.Exact book) {tally' : DepthTally}
    (hbest : ∀ s, s ≠ side → tally'.best s = tally.best s)
    (hother : ∀ s p, ¬ (s = side ∧ p = price) → book'.volume s p =
      book.volume s p) :
    tally'.Exact book' ↔ book'.IsBest side (tally'.best side) := by
  refine ⟨fun hexact' => hexact' side, fun hown s => ?_⟩
  by_cases hs : s = side
  · rwa [hs]
  · rw [hbest s hs]
    exact (hexact s).congr fun p => hother s p fun hlevel => hs hlevel.1

section Removal

variable (hother : ∀ s p, ¬ (s = side ∧ p = price) → book'.volume s p =
    book.volume s p)
  (hvolume : book.volume side price = book'.volume side price + qty.toNat)

include hother hvolume

/-- Best prices that a removal leaves alone are exact on the other side, and
on its own side unless the best level was emptied. -/
theorem exact_kept_iff (hexact : tally.Exact book) :
    tally.Exact book' ↔
      (0 < book.volume side price → book'.volume side price = 0 →
      price = tally.best side → price = side.noPrice) := by
  have hle := volume_le_of_removal hother hvolume side
  rw [hexact.own_side_iff (fun _ _ => rfl) hother]
  by_cases hbest : price = tally.best side
  · rw [← hbest]
    have hold : book.IsBest side price := hbest ▸ hexact side
    by_cases hemptied : 0 < book.volume side price ∧ book'.volume side price = 0
    · rw [isBest_iff_of_emptied hold
        (fun p hp => hother side p fun hlevel => hp hlevel.2)
        hemptied.2]
      simp [hemptied]
    · have hkept : book'.IsBest side price := hold.of_le hle fun hpos => by
        by_contra hzero
        exact hemptied ⟨hpos, Nat.eq_zero_of_not_pos hzero⟩
      exact iff_of_true hkept fun hpos hzero => absurd ⟨hpos, hzero⟩ hemptied
  · refine iff_of_true ((hexact side).of_le hle fun hpos => ?_) fun _ _ heq =>
      absurd heq hbest
    rwa [hother side _ fun hlevel => hbest hlevel.2.symm]

/-- After a removal the best prices are exact unless it emptied the best level
behind the back of the 32-bit quantity. -/
theorem exact_remove_iff (hexact : tally.Exact book)
    (htracks : tally.Tracks book)
    (hprice : price < maxPriceLevels) (hpriced : book'.Priced) :
    (tally.remove side price qty).Exact book' ↔
      (0 < book.volume side price → book'.volume side price = 0 →
        tally.Guarded book side price) := by
  have hsubtract := htracks.subtract hprice hother hvolume
  have hqty := subtract_qty tally side price qty
  have hbest : (tally.subtract side price qty).best = tally.best := rfl
  rw [remove]
  split
  case isTrue hrescan =>
    refine iff_of_true ?_ fun _ hzero _ _ => ?_
    · have hkept : ∀ s, s ≠ side →
          ((tally.subtract side price qty).updateBest side).best s =
            tally.best s :=
        fun s hs => (updateBest_best_of_ne _ hs).trans (congrFun hbest s)
      rw [hexact.own_side_iff hkept hother]
      exact updateBest_isBest hsubtract.bit hpriced side
    · rw [hrescan.2, UInt32.toNat_zero] at hqty
      omega
  case isFalse hkeep =>
    refine (exact_kept_iff hother hvolume hexact).trans ?_
    refine forall_congr' fun hpos => forall_congr' fun hzero =>
      forall_congr' fun heq => ?_
    -- The level is best and was not rescanned, so its quantity exceeds what was
    -- removed.
    have hlarge : ¬ (tally.qty side price).toNat ≤ book.volume side price := by
      intro hle
      refine hkeep ⟨heq, UInt32.toNat_inj.mp ?_⟩
      rw [hqty, UInt32.toNat_zero]
      omega
    constructor
    · exact fun hnone hsome => absurd hnone hsome
    · intro hguard
      by_contra hsome
      exact hlarge (hguard hsome)

end Removal

/-- An enqueue keeps the best prices exact unless it puts an order without
quantity in front of the best one. -/
theorem exact_add_iff (hexact : tally.Exact book) (r : Resting) :
    (tally.add side price r.qty).Exact
      (setAt book side price (book side price ++ [r])) ↔
      (side.improves price (tally.best side) → 0 < r.qty.toNat) := by
  have hlevel : AbstractBook.volume
      (setAt book side price (book side price ++ [r])) side price =
      book.volume side price + r.qty.toNat := by simp [volume]
  have hother : ∀ s p, ¬ (s = side ∧ p = price) →
      AbstractBook.volume (setAt book side price (book side price ++ [r])) s p =
        book.volume s p := volume_setAt_other book _
  have hsame : ∀ p, p ≠ price →
      AbstractBook.volume (setAt book side price (book side price ++ [r]))
        side p = book.volume side p :=
    fun p hp => hother side p fun heq => hp heq.2
  rw [hexact.own_side_iff (fun s hs => add_best_of_ne tally hs price r.qty)
    hother, add_best_self]
  by_cases himproves : side.improves price (tally.best side)
  · -- Nothing rested in front of the best price, so the new order is all there
    -- is.
    have hzero : book.volume side price = 0 := by
      by_contra hpos
      exact (hexact side).bound (Nat.pos_of_ne_zero hpos) himproves
    rw [if_pos himproves]
    constructor
    · rintro (⟨hpos, -⟩ | ⟨-, hnone⟩) _
      · rwa [hlevel, hzero, Nat.zero_add] at hpos
      · exact absurd (hnone ▸ himproves) (Side.not_improves_noPrice side _)
    · intro hqty
      refine Or.inl ⟨?_, fun p hp => ?_⟩
      · rw [hlevel]
        exact Nat.lt_add_left _ (hqty himproves)
      · by_cases hp' : p = price
        · rw [hp']
          exact side.improves_irrefl price
        · rw [hsame p hp'] at hp
          exact Side.not_improves_of_improves himproves ((hexact side).bound hp)
  · rw [if_neg himproves]
    refine iff_of_true ?_ fun hbetter => absurd hbetter himproves
    rcases hexact side with ⟨hpos, hbound⟩ | ⟨hzero, hnone⟩
    · refine Or.inl ⟨?_, fun p hp => ?_⟩
      · by_cases hp : tally.best side = price
        · rw [hp, hlevel, ← hp]
          exact Nat.lt_add_right _ hpos
        · rwa [hsame _ hp]
      · by_cases hp' : p = price
        · rwa [hp']
        · exact hbound p (hsame p hp' ▸ hp)
    · have hprice : price = side.noPrice :=
        Side.eq_noPrice_of_not_improves (hnone ▸ himproves)
      rw [hnone, ← hprice]
      by_cases hqty : r.qty.toNat = 0
      · refine Or.inr ⟨fun p => ?_, hprice⟩
        by_cases hp : p = price
        · rw [hp, hlevel, hzero, hqty]
        · rw [hsame p hp, hzero]
      · refine Or.inl ⟨by omega, fun p hp => ?_⟩
        by_cases hp' : p = price
        · rw [hp']
          exact side.improves_irrefl price
        · rw [hsame p hp', hzero] at hp
          exact absurd hp (lt_irrefl 0)

/-- A 32-bit quantity larger than what rests at its level stays positive and
keeps the best price from being looked up again. -/
theorem recordTrade_best_of_lt {queue : List Resting}
    (hlarge : quantity queue < (tally.qty side price).toNat) :
    (AbstractBook.recordTrade side price qty queue tally).best =
      tally.best := by
  induction queue generalizing tally qty with
  | nil => rfl
  | cons r rest ih =>
      rw [quantity_cons] at hlarge
      rw [AbstractBook.recordTrade]
      split
      · rfl
      split
      case isTrue =>
        have hqty := subtract_qty tally side price r.qty
        have hkept : tally.remove side price r.qty =
            tally.subtract side price r.qty := by
          rw [remove, if_neg]
          rintro ⟨-, hzero⟩
          rw [hzero, UInt32.toNat_zero] at hqty
          omega
        change (AbstractBook.recordTrade side price _ rest
          (tally.remove side price r.qty)).best = _
        rw [hkept, ih (by omega)]
        rfl
      case isFalse => rfl

theorem remove_qty (tally : DepthTally) (side : Side) (price qty : UInt32) :
    ((tally.remove side price qty).qty side price).toNat =
      (tally.qty side price).toNat - qty.toNat := by
  rw [← subtract_qty, remove]
  split
  · cases side <;> rfl
  · rfl

/-- A removal that leaves volume at the level leaves the guard as it was. -/
theorem guarded_remove_iff {rest : List Resting} {r : Resting}
    (hexact : tally.Exact book) (hexact' : (tally.remove side price r.qty).Exact
      (setAt book side price rest))
    (hvolume : book.volume side price = r.qty.toNat + quantity rest)
    (hrest : 0 < quantity rest) :
    (tally.remove side price r.qty).Guarded
      (setAt book side price rest) side price ↔
      tally.Guarded book side price := by
  have hlevel : AbstractBook.volume (setAt book side price rest) side price =
      quantity rest := by
    rw [volume, setAt_self]
  have hsame : ∀ p, p ≠ price →
      AbstractBook.volume (setAt book side price rest) side p =
        book.volume side p :=
    fun p hp => volume_setAt_other book _ side p fun heq => hp heq.2
  have hpos : ∀ p, 0 < AbstractBook.volume (setAt book side price rest) side p ↔
      0 < book.volume side p := by
    intro p
    by_cases hp : p = price
    · rw [hp, hlevel, hvolume]
      omega
    · rw [hsame p hp]
  have hzero : ∀ p, AbstractBook.volume
      (setAt book side price rest) side p = 0 ↔
      book.volume side p = 0 := fun p => by
    have := hpos p
    omega
  have hbestIff : AbstractBook.IsBest (setAt book side price rest) side price ↔
      book.IsBest side price := by
    simp only [IsBest, hpos, hzero]
  have hbest : price = (tally.remove side price r.qty).best side ↔
      price = tally.best side := by
    constructor
    · intro heq
      have hown := hexact' side
      rw [← heq] at hown
      exact (hbestIff.mp hown).unique (hexact side)
    · intro heq
      have hown := hexact side
      rw [← heq] at hown
      exact (hbestIff.mpr hown).unique (hexact' side)
  have hqty := remove_qty tally side price r.qty
  rw [Guarded, Guarded, hbest, hqty, hlevel, hvolume]
  refine imp_congr_right fun _ => imp_congr_right fun _ => ?_
  omega

/-- A trade leads to exact best prices unless it empties the best level behind
the back of the 32-bit quantity. -/
theorem exact_recordTrade_iff (qty : UInt32) (hexact : tally.Exact book)
    (htracks : tally.Tracks book)
    (hprice : price < maxPriceLevels) (hpriced : book.Priced) :
    (AbstractBook.recordTrade side price qty (book side price) tally).Exact
        (setAt book side price (consume qty (book side price))) ↔
      (0 < book.volume side price → book.volume side price ≤ qty.toNat →
        tally.Guarded book side price) := by
  generalize hqueue : book side price = queue
  -- Along the queue both best prices stay exact until the level is emptied.
  induction queue generalizing tally book qty with
  | nil =>
      have hzero : book.volume side price = 0 := by
        rw [volume, hqueue, quantity_nil]
      rw [setAt_eq_self _ _ _ (by rw [consume, hqueue])]
      refine iff_of_true hexact fun hpos => ?_
      rw [hzero] at hpos
      exact absurd hpos (lt_irrefl 0)
  | cons r rest ih =>
      have hvolume : book.volume side price = r.qty.toNat + quantity rest := by
        rw [volume, hqueue, quantity_cons]
      by_cases hqty : qty = 0
      · subst hqty
        rw [consume_zero, recordTrade_zero, setAt_eq_self _ _ _ hqueue.symm]
        refine iff_of_true hexact fun hpos hle => ?_
        rw [UInt32.toNat_zero] at hle
        omega
      rw [AbstractBook.recordTrade, consume, if_neg hqty, if_neg hqty]
      by_cases hle : r.qty ≤ qty
      · rw [if_pos hle, if_pos hle]
        have hleNat := UInt32.le_iff_toNat_le.mp hle
        have hqtyNat := UInt32.toNat_sub_of_le _ _ hle
        have hother : ∀ s p, ¬ (s = side ∧ p = price) →
            AbstractBook.volume (setAt book side price rest) s p =
              book.volume s p :=
          volume_setAt_other book _
        have hrest : AbstractBook.volume
            (setAt book side price rest) side price =
            quantity rest := by rw [volume, setAt_self]
        have hvolume' : book.volume side price =
            AbstractBook.volume (setAt book side price rest) side price +
              r.qty.toNat := by
          omega
        have hpriced' : AbstractBook.Priced (setAt book side price rest) :=
          hpriced.setAt hprice rest
        have htracks' : (tally.remove side price r.qty).Tracks
            (setAt book side price rest) :=
          htracks.remove hprice hother hvolume' hpriced'
        have hiff :=
          exact_remove_iff hother hvolume' hexact htracks hprice hpriced'
        have hremoved :
            (LevelTally.remove tally side price r.qty : DepthTally) =
            tally.remove side price r.qty := rfl
        rw [hremoved]
        by_cases hexact' : (tally.remove side price r.qty).Exact
          (setAt book side price rest)
        · have hdone := ih (qty - r.qty) hexact' htracks' hpriced'
            (setAt_self ..)
          rw [setAt_setAt, hrest, hqtyNat] at hdone
          rw [hdone, hvolume]
          by_cases hleft : 0 < quantity rest
          · rw [guarded_remove_iff hexact hexact' hvolume hleft]
            refine ⟨fun hguard _ hall => hguard hleft (by omega),
              fun hguard _ hall => hguard (by omega) (by omega)⟩
          · refine iff_of_true (fun hpos => absurd hpos hleft) fun hpos _ => ?_
            exact hiff.mp hexact' (by omega) (by omega)
        · -- The level was emptied and its quantity stayed positive, to the end
          -- of the loop.
          have hfailed := mt hiff.mpr hexact'
          push Not at hfailed
          obtain ⟨hpos, hempty, hunguarded⟩ := hfailed
          rw [hrest] at hempty
          refine iff_of_false (fun hfinal => hexact' fun s => ?_) fun hguard =>
            hunguarded (hguard hpos (by omega))
          have hlarge : book.volume side price <
              (tally.qty side price).toNat := by
            rw [Guarded] at hunguarded
            push Not at hunguarded
            exact hunguarded.2.2
          have hqtyLeft := remove_qty tally side price r.qty
          have hfinalBest := hfinal s
          rw [recordTrade_best_of_lt (by omega)] at hfinalBest
          refine hfinalBest.congr fun p => ?_
          by_cases hlevel : s = side ∧ p = price
          · obtain ⟨rfl, rfl⟩ := hlevel
            have hconsumed := quantity_consume (qty - r.qty) rest
            simp only [volume, setAt_self]
            omega
          · rw [volume_setAt_other _ _ _ _ hlevel,
              volume_setAt_other _ _ _ _ hlevel]
      · rw [if_neg hle, if_neg hle]
        have hlt := UInt32.lt_iff_toNat_lt.mp (UInt32.not_le.mp hle)
        refine iff_of_true ?_ fun _ hall => by omega
        have hreduced := volume_reduced hqueue (UInt32.not_le.mp hle)
        refine (exact_kept_iff (volume_setAt_other book _) hreduced
          hexact).mpr ?_
        intro _ hempty
        omega

end DepthTally

/-! ## Steps and runs -/

/-- The calls that keep exact best prices exact, told from the state before
them: an order placed in front of the best price has a quantity, and a call
that takes the last volume of a level finds the level guarded. -/
def BookOp.KeepsBest (pool : OrderPool size) (tally : DepthTally)
    (book : AbstractBook) :
    BookOp → Prop
  | .enqueue side price _ qty =>
      price < maxPriceLevels → pool.freeHead ≠ nullIdx →
        side.improves price (tally.best side) → 0 < qty.toNat
  | .trade side price qty =>
      0 < book.volume side price → book.volume side price ≤ qty.toNat →
        tally.Guarded book side price
  | .dequeue idx =>
      let o := pool.orders idx
      let side := Side.ofIsBid o.isBid
      0 < book.volume side o.price → book.volume side o.price = o.qty.toNat →
        tally.Guarded book side o.price
  | .clear => True

/-- The free list of a pool with a free slot is not empty. -/
theorem OrderPool.FreeList.head_iff {pool : OrderPool size} {free : List UInt32}
    (hfree : pool.FreeList free) : pool.freeHead = nullIdx ↔ free = [] := by
  cases free with
  | nil => exact iff_of_true hfree.path rfl
  | cons idx free =>
      obtain ⟨hhead, hne, -⟩ := hfree.path
      simp [hhead, hne]

/-- One step from exact best prices leads to exact ones exactly when its call
keeps them. -/
theorem DepthTally.Exact.step_iff {queues : Queues} {pool : OrderPool size}
    {tally tally' : DepthTally} {book book' : AbstractBook}
    {free free' : List UInt32} {op : BookOp} {ret : UInt32}
    (hexact : tally.Exact book) (htracks : tally.Tracks book)
    (hrep : Represents queues pool book) (hfree : pool.FreeList free)
    (hstep : Step free book tally op ret free' book' tally') :
    tally'.Exact book' ↔ op.KeepsBest pool tally book := by
  have hpriced := hrep.isPriced
  cases hstep with
  | invalid hprice =>
      exact iff_of_true hexact fun hvalid =>
        absurd hprice (UInt32.not_le.mpr hvalid)
  | full _ hnone =>
      exact iff_of_true hexact fun _ hsome =>
        absurd (hfree.head_iff.mpr hnone) hsome
  | @placed side price orderId qty _ _ hprice _ hhead =>
      have hsome : pool.freeHead ≠ nullIdx := by
        rw [Ne, hfree.head_iff, hhead]
        exact List.cons_ne_nil _ _
      refine (exact_add_iff hexact ⟨ret, orderId, qty⟩).trans ?_
      exact ⟨fun hkeeps _ _ => hkeeps, fun hkeeps => hkeeps hprice hsome⟩
  | @untraded side price qty hprice =>
      refine iff_of_true hexact fun hpos => ?_
      rw [hpriced side price hprice] at hpos
      exact absurd hpos (lt_irrefl 0)
  | @traded side price qty _ hprice =>
      exact exact_recordTrade_iff qty hexact htracks hprice hpriced
  | @dequeued side price r before after hprice hsplit =>
      have hmem : r ∈ book side price := by simp [hsplit]
      have hstored := (hrep.stored side price r hmem).2
      have hvolume := volume_removed hsplit
      refine (exact_remove_iff (volume_setAt_other book _) hvolume hexact
        htracks hprice
        (hpriced.setAt hprice _)).trans ?_
      simp only [BookOp.KeepsBest, hstored.isBid, hstored.price, hstored.qty,
        Side.ofIsBid_isBid]
      refine imp_congr_right fun _ => imp_congr_left ?_
      omega
  | cleared =>
      exact iff_of_true (fun side => Or.inr ⟨fun _ => rfl, rfl⟩) trivial

namespace Books

variable [DecidableEq ι]

/-- In every legal run, the best prices of all books are exact in every state
reached if and only if every call keeps them exact: no order without quantity
is placed in front of a best price, and no call takes the last volume of a best
level whose 32-bit quantity exceeds that volume. -/
theorem best_prices_exact_iff (memory : UInt32 → Order)
    (calls : List (ι × BookOp))
    (hlegal : (ghostMachine ι DepthTally maxOrders).Legal
      (init .init memory, fun _ => empty) calls) :
    (∀ done, done <+: calls →
      let state := (ghostMachine ι DepthTally maxOrders).run
        (init .init memory, fun _ => empty) done
      ∀ i, (state.2 i).IsBest .bid
        (MBOBookWithBIT.getBestBid (state.1.book i)) ∧
        (state.2 i).IsBest .ask (MBOBookWithBIT.getBestAsk (state.1.book i))) ↔
    (ghostMachine ι DepthTally maxOrders).Each
      (fun state call => call.2.KeepsBest state.1.pool
        (state.1.book call.1).tally
        (state.2 call.1))
      (init .init memory, fun _ => empty) calls := by
  have hexact : ∀ (tally : DepthTally) (book : AbstractBook),
      book.IsBest .bid (tally.best .bid) ∧ book.IsBest .ask (tally.best .ask) ↔
        tally.Exact book := by
    intro tally book
    refine ⟨fun hboth side => ?_, fun hall => ⟨hall .bid, hall .ask⟩⟩
    cases side with
    | bid => exact hboth.1
    | ask => exact hboth.2
  simp only [MBOBookWithBIT.getBestBid, MBOBookWithBIT.getBestAsk, hexact]
  refine Machine.always_iff_each (fun state => state.1.Sound state.2)
    (fun state => ∀ i, (state.1.book i).tally.Exact (state.2 i)) _
    (fun _ _ hsound hallowed => hsound.apply hallowed) ?_
      (init_sound maxOrders_pos memory)
    (fun _ side => Or.inr ⟨fun _ => rfl, rfl⟩) hlegal
  intro state call hsound hallowed hall
  obtain ⟨free, _, a', hfree, -, hstep⟩ := hsound.holds.apply_step hallowed
  have hrep := hsound.holds.represents call.1
  have hstepIff :=
    (hall call.1).step_iff (hsound.tracks call.1) hrep hfree hstep
  rw [hstep.apply_eq hrep.distinct hrep.nil_of_invalid] at hstepIff
  exact (forall_apply_iff DepthTally.Exact hall _).trans hstepIff

/-- The equivalence on a run with a partial fill. -/
theorem best_prices_exact_iff_trade :
    let calls : List (Unit × BookOp) :=
      [((), .enqueue .bid 100 7 5), ((), .enqueue .ask 101 8 2),
        ((), .trade .bid 100 3)]
    (∀ done, done <+: calls →
      let state := (ghostMachine Unit DepthTally maxOrders).run
        (init .init fun _ => default, fun _ => empty) done
      ∀ i, (state.2 i).IsBest .bid
        (MBOBookWithBIT.getBestBid (state.1.book i)) ∧
        (state.2 i).IsBest .ask (MBOBookWithBIT.getBestAsk (state.1.book i))) ↔
    (ghostMachine Unit DepthTally maxOrders).Each
      (fun state call => call.2.KeepsBest state.1.pool
        (state.1.book call.1).tally
        (state.2 call.1))
      (init .init fun _ => default, fun _ => empty) calls :=
  best_prices_exact_iff (fun _ => default) _ ⟨trivial, trivial,
    trivial, trivial⟩

/-- A bid without quantity at 100 becomes the best bid of an empty book. -/
theorem best_bid_without_volume :
    ¬ ∀ (memory : UInt32 → Order) (calls : List (Unit × BookOp)),
      (ghostMachine Unit DepthTally maxOrders).Legal
        (init .init memory, fun _ => empty) calls →
      let state := (ghostMachine Unit DepthTally maxOrders).run
        (init .init memory, fun _ => empty) calls
      (state.2 ()).IsBest .bid
        (MBOBookWithBIT.getBestBid (state.1.book ())) := by
  intro hclaim
  have hbest := hclaim (fun _ => default) [((), .enqueue .bid 100 7 0)]
    ⟨trivial, trivial⟩
  rcases hbest with ⟨hpos, -⟩ | ⟨-, hnone⟩
  · revert hpos
    decide
  · revert hnone
    decide

end Books

end MarketDataPipeline
