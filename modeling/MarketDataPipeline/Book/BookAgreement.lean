import MarketDataPipeline.Book.BestPrices
import MarketDataPipeline.Book.PlainBook

/-!
# The two books agree

Both books run the same queue code, so they return the same slots and fills and
hold the same queues, whatever their pools held before.  Their level
quantities and counters take the same updates.  Their best prices are found in
different ways and agree as long as no level outgrows its 32-bit quantity.
-/

namespace MarketDataPipeline

open AbstractBook DepthTally

variable {size : UInt32} {T U : Type*}

/-! ## Two tallies along one step -/

/-- Two tallies kept side by side. -/
instance [LevelTally T] [LevelTally U] : LevelTally (T × U) where
  add both side price qty :=
    (LevelTally.add both.1 side price qty, LevelTally.add both.2 side price qty)
  remove both side price qty :=
    (LevelTally.remove both.1 side price qty,
      LevelTally.remove both.2 side price qty)
  reduce both side price qty :=
    (LevelTally.reduce both.1 side price qty,
      LevelTally.reduce both.2 side price qty)
  countTrade both :=
    (LevelTally.countTrade both.1, LevelTally.countTrade both.2)
  clear both := (LevelTally.clear both.1, LevelTally.clear both.2)

namespace AbstractBook

variable [LevelTally T] [LevelTally U]

theorem recordTrade_pair (side : Side) (price qty : UInt32)
    (queue : List Resting) (tally : T) (tally' : U) :
    recordTrade side price qty queue (tally, tally') =
      (recordTrade side price qty queue tally,
        recordTrade side price qty queue tally') := by
  induction queue generalizing qty tally tally' with
  | nil => rfl
  | cons r rest ih =>
      simp only [recordTrade]
      split
      · rfl
      split
      · exact ih (qty - r.qty) _ _
      · rfl

/-- What a step of a `dequeue` did. -/
theorem Step.dequeue_inv {free free' : List UInt32} {book book' : AbstractBook}
    {tally tally' : T} {idx ret : UInt32}
    (hstep : Step free book tally (.dequeue idx) ret free' book' tally') :
    ∃ side price r before after, r.idx = idx ∧
      book side price = before ++ r :: after ∧
      ret = 0 ∧ free' = r.idx :: free ∧
        book' = setAt book side price (before ++ after) ∧
      tally' = LevelTally.remove tally side price r.qty := by
  generalize hop : BookOp.dequeue idx = op at hstep
  cases hstep with
  | @dequeued side price r before after _ hsplit =>
      exact ⟨side, price, r, before, after, (BookOp.dequeue.inj hop).symm,
        hsplit, rfl, rfl,
        rfl, rfl⟩
  | _ => exact BookOp.noConfusion hop

/-- A resting order has one place in the book. -/
theorem Distinct.split_unique {book : AbstractBook} (hdistinct : book.Distinct)
    {side side' : Side} {price price' : UInt32} {r r' : Resting}
    {before before' after after' : List Resting}
    (hsplit : book side price = before ++ r :: after)
    (hsplit' : book side' price' = before' ++ r' :: after')
    (hidx : r'.idx = r.idx) :
    side' = side ∧ price' = price ∧ r' = r ∧
      before' ++ after' = before ++ after := by
  have hmem : r ∈ book side price := by simp [hsplit]
  have hmem' : r' ∈ book side' price' := by simp [hsplit']
  obtain ⟨rfl, rfl⟩ :=
    hdistinct.2 side price side' price' r hmem r' hmem' hidx.symm
  have hnodup := hdistinct.1 side' price'
  have hsame : r' = r := List.inj_on_of_nodup_map hnodup hmem' hmem hidx
  subst hsame
  refine ⟨rfl, rfl, rfl, ?_⟩
  calc
    before' ++ after' = (book side' price').filter fun other =>
        other.idx ≠ r'.idx := by
      rw [hsplit', filter_ne_of_split (hsplit' ▸ hnodup)]
    _ = before ++ after := by rw [hsplit, filter_ne_of_split (hsplit ▸ hnodup)]

/-- Two steps of the same call from the same free list and book are one step of
both tallies. -/
theorem Step.both {free free' free'' : List UInt32}
    {book book' book'' : AbstractBook} {tally tally' : T} {other other' : U}
    {op : BookOp} {ret ret' : UInt32}
    (hstep : Step free book tally op ret free' book' tally')
    (hstep' : Step free book other op ret' free'' book'' other')
    (hdistinct : book.Distinct) :
    ret' = ret ∧ free'' = free' ∧ book'' = book' ∧
      Step free book (tally, other) op ret free' book' (tally', other') := by
  cases hstep with
  | invalid hprice =>
      cases hstep' with
      | invalid => exact ⟨rfl, rfl, rfl, Step.invalid hprice⟩
      | full hvalid => exact absurd hprice (UInt32.not_le.mpr hvalid)
      | placed hvalid => exact absurd hprice (UInt32.not_le.mpr hvalid)
  | full hprice hnone =>
      cases hstep' with
      | invalid hinvalid => exact absurd hinvalid (UInt32.not_le.mpr hprice)
      | full => exact ⟨rfl, rfl, rfl, Step.full hprice hnone⟩
      | placed _ _ hsome =>
          exact absurd (hnone.symm.trans hsome) (List.cons_ne_nil _ _).symm
  | placed hprice hidx hsome =>
      cases hstep' with
      | invalid hinvalid => exact absurd hinvalid (UInt32.not_le.mpr hprice)
      | full _ hnone =>
          exact absurd (hnone.symm.trans hsome) (List.cons_ne_nil _ _).symm
      | placed _ _ hsome' =>
          obtain ⟨rfl, rfl⟩ := List.cons.inj (hsome'.symm.trans hsome)
          exact ⟨rfl, rfl, rfl, Step.placed hprice hidx hsome⟩
  | untraded hprice =>
      cases hstep' with
      | untraded => exact ⟨rfl, rfl, rfl, Step.untraded hprice⟩
      | traded hvalid => exact absurd hprice (UInt32.not_le.mpr hvalid)
  | traded hprice hfilled =>
      cases hstep' with
      | untraded hinvalid => exact absurd hinvalid (UInt32.not_le.mpr hprice)
      | traded _ hfilled' =>
          obtain rfl := UInt32.toNat_inj.mp (hfilled'.trans hfilled.symm)
          refine ⟨rfl, rfl, rfl, ?_⟩
          have hpair : Step free book (tally, other) _ _ _ _ _ :=
            Step.traded hprice hfilled
          rwa [recordTrade_pair] at hpair
  | dequeued hprice hsplit =>
      obtain ⟨side, price, r, before, after, hidx, hsplit', rfl,
          rfl, rfl, rfl⟩ :=
        hstep'.dequeue_inv
      obtain ⟨rfl, rfl, rfl, hsame⟩ :=
        hdistinct.split_unique hsplit hsplit' hidx
      rw [hsame]
      exact ⟨rfl, rfl, rfl, Step.dequeued hprice hsplit⟩
  | cleared =>
      cases hstep' with
      | cleared => exact ⟨rfl, rfl, rfl, Step.cleared⟩

end AbstractBook

/-! ## Quantities and counters -/

/-- The two tallies keep the same level quantities and counters. -/
structure SameCounts (both : DepthTally × PlainTally) : Prop where
  qty : both.2.qty = both.1.qty
  totalAdds : both.2.totalAdds = both.1.totalAdds
  totalTrades : both.2.totalTrades = both.1.totalTrades

namespace SameCounts

variable {both both' : DepthTally × PlainTally}

theorem add (hsame : SameCounts both) (side : Side) (price qty : UInt32) :
    SameCounts (LevelTally.add both side price qty) where
  qty := congrArg (fun q => setAt q side price (q side price + qty)) hsame.qty
  totalAdds := congrArg (· + 1) hsame.totalAdds
  totalTrades := hsame.totalTrades

theorem reduce (hsame : SameCounts both) (side : Side) (price qty : UInt32) :
    SameCounts (LevelTally.reduce both side price qty) where
  qty := congrArg (fun q => setAt q side price (q side price - qty)) hsame.qty
  totalAdds := hsame.totalAdds
  totalTrades := hsame.totalTrades

theorem subtract (hsame : SameCounts both) (side : Side) (price qty : UInt32) :
    SameCounts (both.1.subtract side price qty,
      both.2.subtract side price qty) where
  qty := congrArg (fun q => setAt q side price
    (if q side price ≥ qty then q side price - qty else 0)) hsame.qty
  totalAdds := hsame.totalAdds
  totalTrades := hsame.totalTrades

/-- Looking for a best price changes no quantity and no counter. -/
theorem remove (hsame : SameCounts both) (side : Side) (price qty : UInt32) :
    SameCounts (LevelTally.remove both side price qty) := by
  have hsubtract := hsame.subtract side price qty
  change SameCounts (both.1.remove side price qty, both.2.remove side price qty)
  rw [DepthTally.remove, PlainTally.remove]
  split <;> split <;> cases side <;>
    exact ⟨hsubtract.qty, hsubtract.totalAdds, hsubtract.totalTrades⟩

theorem step {free free' : List UInt32} {book book' : AbstractBook}
    {op : BookOp} {ret : UInt32} (hsame : SameCounts both)
    (hstep : Step free book both op ret free' book' both') :
    SameCounts both' := by
  cases hstep with
  | invalid => exact hsame
  | full => exact hsame
  | placed => exact hsame.add _ _ _
  | untraded => exact hsame
  | @traded side price qty _ _ _ =>
      have htraded : SameCounts
          (recordTrade side price qty (book side price) both) :=
        recordTrade_preserves (fun _ both => SameCounts both)
          (fun _ _ r _ hsame _ => hsame.remove side price r.qty)
          (fun _ _ _ _ qty hsame _ _ => hsame.reduce side price qty) hsame qty
          (List.append_nil (book side price)).symm
      exact ⟨htraded.qty, htraded.totalAdds,
        congrArg (· + 1) htraded.totalTrades⟩
  | dequeued => exact hsame.remove _ _ _
  | cleared =>
      refine ⟨?_, hsame.totalAdds, hsame.totalTrades⟩
      exact congrArg (fun (q : Side → UInt32 → UInt32) side price =>
        if price < maxPriceLevels then 0 else q side price) hsame.qty

end SameCounts

/-! ## Best prices -/

def AbstractBook.FitsQty (book : AbstractBook) : Prop :=
  ∀ side price, book.volume side price < 2 ^ 32

/-- The two tallies of a book none of whose levels outgrew its quantity. -/
structure Agree (book : AbstractBook) (both : DepthTally × PlainTally) :
    Prop where
  tracks : both.1.Tracks book
  priced : book.Priced
  counts : SameCounts both
  exact : ∀ side price, (both.1.qty side price).toNat = book.volume side price
  best : both.2.best = both.1.best

/-- With exact quantities the scans find the best price of the side. -/
theorem PlainTally.updateBest_isBest {tally : PlainTally} {book : AbstractBook}
    {side : Side}
    (hexact : ∀ price, (tally.qty side price).toNat = book.volume side price)
    (hbound : ∀ price, 0 < book.volume side price →
      ¬ side.improves price (tally.best side))
    (hbest : tally.best side < maxPriceLevels) (hpriced : book.Priced) :
    book.IsBest side ((tally.updateBest side).best side) := by
  have hzero : ∀ price, tally.qty side price = 0 ↔
      book.volume side price = 0 := by
    intro price
    rw [← hexact price, ← UInt32.toNat_inj, UInt32.toNat_zero]
  cases side with
  | bid =>
      obtain ⟨habove, hstop⟩ :=
        scanDown_spec (tally.qty .bid) (tally.best .bid).toNat
        (tally.best .bid) le_rfl
      have hfound : (tally.updateBest .bid).best .bid =
          if tally.qty .bid (scanDown (tally.qty .bid) (tally.best .bid).toNat
            (tally.best .bid)) = 0 then 0
          else scanDown (tally.qty .bid) (tally.best .bid).toNat
            (tally.best .bid) := by
        simp [updateBest, updateBestBid]
      generalize scanDown (tally.qty .bid) (tally.best .bid).toNat
        (tally.best .bid) = found at *
      have hlow : ∀ price, 0 < book.volume .bid price → price ≤ found := by
        intro price hpos
        by_contra hgt
        have hle := UInt32.not_lt.mp (hbound price hpos)
        have hnone := (hzero price).mp (habove price (UInt32.not_le.mp hgt) hle)
        omega
      rw [hfound]
      split
      case isTrue hnone =>
        refine Or.inr ⟨fun price => ?_, rfl⟩
        by_contra hsome
        have hle := hlow price (Nat.pos_of_ne_zero hsome)
        rw [hstop hnone] at hle
        have hprice : price = found :=
          (UInt32.le_zero_iff.mp hle).trans (hstop hnone).symm
        rw [hprice, ← hzero] at hsome
        exact hsome hnone
      case isFalse hsome =>
        rw [hzero] at hsome
        exact Or.inl ⟨Nat.pos_of_ne_zero hsome, fun price hpos =>
          UInt32.not_lt.mpr (hlow price hpos)⟩
  | ask =>
      obtain ⟨hbelow, hstop⟩ :=
        scanUp_spec (tally.qty .ask) maxPriceLevels.toNat
        (tally.best .ask) (UInt32.le_of_lt hbest) (by omega)
      have hfound : (tally.updateBest .ask).best .ask =
          if scanUp (tally.qty .ask) maxPriceLevels.toNat (tally.best .ask) ≥
            maxPriceLevels ∨
            tally.qty .ask (scanUp (tally.qty .ask) maxPriceLevels.toNat
              (tally.best .ask)) = 0
          then invalidPrice
          else scanUp (tally.qty .ask) maxPriceLevels.toNat
            (tally.best .ask) := by
        simp [updateBest, updateBestAsk]
      generalize scanUp (tally.qty .ask) maxPriceLevels.toNat
        (tally.best .ask) = found at *
      have hhigh : ∀ price, 0 < book.volume .ask price → found ≤ price := by
        intro price hpos
        by_contra hlt
        have hge := UInt32.not_lt.mp (hbound price hpos)
        have hnone := (hzero price).mp (hbelow price hge (UInt32.not_le.mp hlt))
        omega
      rw [hfound]
      split
      case isTrue hnone =>
        have hpast : maxPriceLevels ≤ found := hnone.elim id hstop
        refine Or.inr ⟨fun price => ?_, rfl⟩
        by_contra hsome
        have hpos := Nat.pos_of_ne_zero hsome
        exact UInt32.not_le.mpr (hpriced.lt hpos)
          (UInt32.le_trans hpast (hhigh price hpos))
      case isFalse hsome =>
        rw [not_or, hzero] at hsome
        exact Or.inl ⟨Nat.pos_of_ne_zero hsome.2, fun price hpos =>
          UInt32.not_lt.mpr (hhigh price hpos)⟩

namespace Agree

variable {book book' : AbstractBook} {both both' : DepthTally × PlainTally}
  {side : Side} {price : UInt32}

/-- An enqueue that its level's quantity can hold. -/
theorem add (hagree : Agree book both) (hprice : price < maxPriceLevels)
    (r : Resting) (hfits : AbstractBook.FitsQty
      (setAt book side price (book side price ++ [r]))) :
    Agree (setAt book side price (book side price ++ [r]))
      (LevelTally.add both side price r.qty) where
  tracks := hagree.tracks.add hprice r
  priced := hagree.priced.setAt hprice _
  counts := hagree.counts.add side price r.qty
  exact s p := by
    have hqty : (LevelTally.add both side price r.qty).1.qty s p =
        setAt both.1.qty side price (both.1.qty side price + r.qty) s p := rfl
    rw [hqty]
    by_cases hlevel : s = side ∧ p = price
    · obtain ⟨rfl, rfl⟩ := hlevel
      have hfit := hfits s p
      have hold := hagree.exact s p
      simp only [volume, setAt_self, quantity_append, quantity_cons,
        quantity_nil] at hfit hold ⊢
      rw [UInt32.toNat_add, Nat.mod_eq_of_lt (by omega), hold]
      omega
    · rw [setAt_of_ne _ _ hlevel, volume_setAt_other book _ s p hlevel,
        hagree.exact]
  best := by
    change (if side.improves price (both.2.best side) then Function.update
      both.2.best side price
      else both.2.best) = if side.improves price (both.1.best side) then
        Function.update both.1.best side price else both.1.best
    rw [hagree.best]

section Removal

variable {qty : UInt32} (hprice : price < maxPriceLevels)
  (hother : ∀ s p, ¬ (s = side ∧ p = price) → book'.volume s p =
    book.volume s p)
  (hvolume : book.volume side price = book'.volume side price + qty.toNat)

include hprice hother hvolume

/-- A quantity that rests at a level can be taken off its 32-bit quantity. -/
theorem exact_of_removal (hagree : Agree book both) (s : Side) (p : UInt32) :
    (setAt both.1.qty side price (both.1.qty side price - qty) s p).toNat =
      book'.volume s p := by
  by_cases hlevel : s = side ∧ p = price
  · obtain ⟨rfl, rfl⟩ := hlevel
    have hold := hagree.exact s p
    rw [setAt_self, UInt32.toNat_sub_of_le
      _ _ (by rw [UInt32.le_iff_toNat_le]; omega), hold]
    omega
  · rw [setAt_of_ne _ _ hlevel, hother s p hlevel, hagree.exact]

theorem reduce (hagree : Agree book both) (hpriced : book'.Priced) :
    Agree book' (LevelTally.reduce both side price qty) where
  tracks := hagree.tracks.reduce hprice hother hvolume
  priced := hpriced
  counts := hagree.counts.reduce side price qty
  exact := hagree.exact_of_removal hprice hother hvolume
  best := hagree.best

theorem subtract (hagree : Agree book both) (hpriced : book'.Priced) :
    Agree book' (both.1.subtract side price qty,
      both.2.subtract side price qty) where
  tracks := hagree.tracks.subtract hprice hother hvolume
  priced := hpriced
  counts := hagree.counts.subtract side price qty
  exact s p := by
    have hle : qty ≤ both.1.qty side price := by
      have hold := hagree.exact side price
      rw [UInt32.le_iff_toNat_le]
      omega
    have hqty : (both.1.subtract side price qty).qty =
        setAt both.1.qty side price (both.1.qty side price - qty) := by
      simp [DepthTally.subtract, DepthTally.updateBit, hle]
    exact hqty ▸ hagree.exact_of_removal hprice hother hvolume s p
  best := hagree.best

/-- The tree and the scan find the same best price after a removal. -/
theorem remove (hagree : Agree book both) (hpriced : book'.Priced) :
    Agree book' (LevelTally.remove both side price qty) := by
  have hsubtract := hagree.subtract hprice hother hvolume hpriced
  have htracks := hagree.tracks.remove hprice hother hvolume hpriced
  have hcounts := hagree.counts.remove side price qty
  change SameCounts (both.1.remove side price qty,
    both.2.remove side price qty) at hcounts
  change Agree book' (both.1.remove side price qty,
    both.2.remove side price qty)
  have hguard : (price = (both.2.subtract side price qty).best side ∧
      (both.2.subtract side price qty).qty side price = 0) ↔
      (price = (both.1.subtract side price qty).best side ∧
        (both.1.subtract side price qty).qty side price = 0) := by
    rw [hsubtract.best, hsubtract.counts.qty]
  rw [DepthTally.remove, PlainTally.remove,
    if_congr hguard rfl rfl] at hcounts ⊢
  rw [DepthTally.remove] at htracks
  split at hcounts
  case isFalse hkeep =>
    rw [if_neg hkeep, if_neg hkeep]
    exact hsubtract
  case isTrue hrescan =>
    rw [if_pos hrescan] at htracks ⊢
    rw [if_pos hrescan]
    refine ⟨htracks, hpriced, hcounts, fun s p => ?_, ?_⟩
    · have hqty : ((both.1.subtract side price qty).updateBest side).qty =
          (both.1.subtract side price qty).qty := by cases side <;> rfl
      rw [hqty]
      exact hsubtract.exact s p
    · funext s
      by_cases hs : s = side
      · subst hs
        have hplain : book'.IsBest s
            (((both.2.subtract s price qty).updateBest s).best s) := by
          refine PlainTally.updateBest_isBest (fun p => ?_)
            (fun p hpos => ?_) ?_ hpriced
          · rw [hsubtract.counts.qty]
            exact hsubtract.exact s p
          · rw [hsubtract.best]
            exact hsubtract.tracks.best s p hpos
          · rw [hsubtract.best, ← hrescan.1]
            exact hprice
        exact hplain.unique
          (DepthTally.updateBest_isBest hsubtract.tracks.bit hpriced s)
      · have hkept : ((both.2.subtract side price qty).updateBest side).best s =
            (both.2.subtract side price qty).best s := by
          cases side <;> exact Function.update_of_ne hs ..
        rw [hkept, DepthTally.updateBest_best_of_ne _ hs, hsubtract.best]

end Removal

/-- Along a trade levels only shrink, so they keep fitting. -/
theorem recordTrade (hagree : Agree book both) (side : Side)
    (hprice : price < maxPriceLevels) (qty : UInt32) :
    Agree (setAt book side price (consume qty (book side price)))
      (AbstractBook.recordTrade side price qty (book side price) both) := by
  have hremove : ∀ book both r rest, Agree book both →
      book side price = r :: rest →
      Agree (setAt book side price rest)
        (LevelTally.remove both side price r.qty) := by
    intro book both r rest hagree hqueue
    have hsplit : book side price = [] ++ r :: rest := hqueue
    exact hagree.remove hprice (volume_setAt_other book _)
      (volume_removed hsplit)
      (hagree.priced.setAt hprice _)
  have hreduce : ∀ book both r rest qty, Agree book both →
      book side price = r :: rest →
      qty < r.qty →
        Agree (setAt book side price ({ r with qty := r.qty - qty } :: rest))
        (LevelTally.reduce both side price qty) := by
    intro book both r rest qty hagree hqueue hlt
    exact hagree.reduce hprice (volume_setAt_other book _)
      (volume_reduced hqueue hlt)
      (hagree.priced.setAt hprice _)
  have htraded := recordTrade_preserves Agree hremove hreduce hagree qty
    (List.append_nil (book side price)).symm
  rwa [List.append_nil] at htraded

theorem step {free free' : List UInt32} {op : BookOp} {ret : UInt32}
    (hagree : Agree book both)
    (hstep : Step free book both op ret free' book' both')
    (hfits : book'.FitsQty) :
    Agree book' both' := by
  cases hstep with
  | invalid => exact hagree
  | full => exact hagree
  | @placed side price orderId qty _ _ hprice =>
      exact hagree.add hprice ⟨ret, orderId, qty⟩ hfits
  | untraded => exact hagree
  | @traded side price qty _ hprice =>
      have htraded := hagree.recordTrade side hprice qty
      refine ⟨htraded.tracks.countTrade, htraded.priced, ?_, htraded.exact,
        htraded.best⟩
      exact ⟨htraded.counts.qty, htraded.counts.totalAdds,
        congrArg (· + 1) htraded.counts.totalTrades⟩
  | @dequeued side price r before after hprice hsplit =>
      exact hagree.remove hprice (volume_setAt_other book _)
        (volume_removed hsplit)
        (hagree.priced.setAt hprice _)
  | cleared =>
      have hcleared : Step free book both .clear 0 _ AbstractBook.empty _ :=
        Step.cleared
      refine ⟨Tracks.clear both.1, fun _ _ _ =>
        rfl, hagree.counts.step hcleared,
        fun side price => ?_, rfl⟩
      change (if price < maxPriceLevels then 0 else both.1.qty side
        price).toNat = 0
      split
      case isTrue => rfl
      case isFalse hge =>
        rw [hagree.exact, hagree.priced side price (UInt32.not_lt.mp hge)]

end Agree

/-! ## Runs -/

def OrderBook.machine (T : Type*) [LevelTally T] (size : UInt32) :
    Machine (OrderBook T × OrderPool size) BookOp where
  allowed state op := op.Allowed state.1.queues state.2
  step state op := (state.1.apply state.2 op).2

def MBOBook.machine (size : UInt32) :
    Machine (MBOBook × OrderPool size) BookOp where
  allowed state op := op.Allowed state.1.queues state.2
  step state op := (MBOBook.apply state.1 state.2 op).2

/-- Two books, each on its pool, with the same free list and the same orders. -/
structure SameOrders (state : MBOBookWithBIT × OrderPool size)
    (plain : MBOBook × OrderPool size) (free : List UInt32)
    (book : AbstractBook) : Prop where
  represents : Represents state.1.queues state.2 book
  freeList : state.2.FreeList free
  represents' : Represents plain.1.queues plain.2 book
  freeList' : plain.2.FreeList free

namespace SameOrders

variable {state : MBOBookWithBIT × OrderPool size}
  {plain : MBOBook × OrderPool size} {free : List UInt32} {book : AbstractBook}
  {op : BookOp}

theorem allowed (hsame : SameOrders state plain free book)
    (hallowed : op.Allowed state.1.queues state.2) :
    op.Allowed plain.1.queues plain.2 := by
  cases op with
  | dequeue idx =>
      exact (hsame.represents'.rests_iff idx).mpr
        ((hsame.represents.rests_iff idx).mp hallowed)
  | _ => trivial

/-- A call returns the same from both books and is one step of both tallies. -/
theorem apply (hsame : SameOrders state plain free book)
    (hallowed : op.Allowed state.1.queues state.2) :
    (MBOBook.apply plain.1 plain.2 op).1 = (state.1.apply state.2 op).1 ∧
      ∃ free' book',
        SameOrders (state.1.apply state.2 op).2
          (MBOBook.apply plain.1 plain.2 op).2 free' book' ∧
        Step free book (state.1.tally, plain.1.tally) op
          (state.1.apply state.2 op).1 free' book'
          ((state.1.apply state.2 op).2.1.tally,
            (MBOBook.apply plain.1 plain.2 op).2.1.tally) := by
  rw [MBOBook.apply_eq]
  obtain ⟨free', book', hfollows, hstep⟩ :=
    hsame.represents.apply_step hsame.freeList hallowed
  obtain ⟨free'', book'', hfollows', hstep'⟩ :=
    hsame.represents'.apply_step hsame.freeList' (hsame.allowed hallowed)
  obtain ⟨hret, rfl, rfl, hboth⟩ := hstep.both hstep' hsame.represents.distinct
  exact ⟨hret, free'', book'',
    ⟨hfollows.represents, hfollows.freeList, hfollows'.represents,
    hfollows'.freeList⟩, hboth⟩

end SameOrders

/-- The books start with the same orders, whatever their pools held before. -/
theorem sameOrders_init (hsize : 0 < size.toNat)
    (memory plainMemory : UInt32 → Order) :
    SameOrders (MBOBookWithBIT.init, (.init memory : OrderPool size))
      (MBOBook.init, .init plainMemory)
      ((List.range size.toNat).map UInt32.ofNat)
      AbstractBook.empty :=
  ⟨Represents.init _, OrderPool.init_freeList hsize memory, Represents.init _,
    OrderPool.init_freeList hsize plainMemory⟩

/-- On every sequence of calls, both books return the same slots and fills and
hold the same queues, level quantities and counters.  While no level's volume
has exceeded `2 ^ 32 - 1` they also have the same best prices. -/
theorem plain_book_agrees (memory plainMemory : UInt32 → Order)
    (calls : List BookOp)
    (hlegal : (OrderBook.machine DepthTally maxOrders).Legal
      (MBOBookWithBIT.init, .init memory) calls) :
    let state := (OrderBook.machine DepthTally maxOrders).run
      (MBOBookWithBIT.init, .init memory) calls
    let plain :=
      (MBOBook.machine maxOrders).run (MBOBook.init, .init plainMemory) calls
    (∀ op, op.Allowed state.1.queues state.2 →
      op.Allowed plain.1.queues plain.2 ∧
      (MBOBook.apply plain.1 plain.2 op).1 = (state.1.apply state.2 op).1) ∧
    (∀ side price, plain.1.queues.head side price =
      state.1.queues.head side price ∧
      plain.1.queues.tail side price = state.1.queues.tail side price ∧
      plain.1.queues.contents plain.2 side price =
        state.1.queues.contents state.2 side price) ∧
    plain.1.tally.qty = state.1.tally.qty ∧
    plain.1.tally.totalAdds = state.1.tally.totalAdds ∧
    plain.1.tally.totalTrades = state.1.tally.totalTrades ∧
    ((∀ done, done <+: calls →
      let earlier := (OrderBook.machine DepthTally maxOrders).run
        (MBOBookWithBIT.init, .init memory) done
      ∀ side price, quantity (earlier.1.queues.contents earlier.2 side price) ≤
        2 ^ 32 - 1) →
      MBOBook.getBestBid plain.1 = MBOBookWithBIT.getBestBid state.1 ∧
      MBOBook.getBestAsk plain.1 = MBOBookWithBIT.getBestAsk state.1) := by
  intro state plain
  have hinit : SameCounts (DepthTally.init, PlainTally.init) := ⟨rfl, rfl, rfl⟩
  have hrun : ∃ free book, SameOrders state plain free book ∧
      SameCounts (state.1.tally, plain.1.tally) := by
    refine Machine.simulation (fun state plain => ∃ free book,
      SameOrders state plain free book ∧
        SameCounts (state.1.tally, plain.1.tally))
      ?_ ⟨_, _, sameOrders_init maxOrders_pos memory plainMemory, hinit⟩ hlegal
    rintro state plain op ⟨free, book, hsame, hcounts⟩ hallowed
    obtain ⟨-, free', book', hsame', hstep⟩ := hsame.apply hallowed
    exact ⟨free', book', hsame', hcounts.step hstep⟩
  obtain ⟨free, book, hsame, hcounts⟩ := hrun
  refine ⟨fun op hallowed => ⟨hsame.allowed hallowed, (hsame.apply hallowed).1⟩,
    fun side price => ⟨?_, ?_, ?_⟩, hcounts.qty, hcounts.totalAdds,
    hcounts.totalTrades, ?_⟩
  · rw [hsame.represents'.head_eq, hsame.represents.head_eq]
  · rw [hsame.represents'.tail_eq, hsame.represents.tail_eq]
  · rw [hsame.represents'.contents_eq, hsame.represents.contents_eq]
  intro hfits
  have hbest : ∃ free book, SameOrders state plain free book ∧
      Agree book (state.1.tally, plain.1.tally) := by
    refine Machine.simulation_within (fun state plain => ∃ free book,
      SameOrders state plain free book ∧
        Agree book (state.1.tally, plain.1.tally))
      (fun state => ∀ side price,
        quantity (state.1.queues.contents state.2 side price) ≤ 2 ^ 32 - 1)
      ?_ ⟨_, _, sameOrders_init maxOrders_pos memory plainMemory,
        ?_⟩ hlegal hfits
    · rintro state plain op ⟨free, book, hsame, hagree⟩ hallowed hfit
      obtain ⟨-, free', book', hsame', hstep⟩ := hsame.apply hallowed
      refine ⟨free', book', hsame', hagree.step hstep fun side price => ?_⟩
      have hcontents := hsame'.represents.contents_eq side price
      have hlevel : quantity (book' side price) ≤ 2 ^ 32 - 1 :=
        hcontents ▸ hfit side price
      rw [volume]
      omega
    · exact ⟨init_tracks, fun _ _ _ => rfl, hinit, fun _ _ => rfl, rfl⟩
  obtain ⟨_, _, -, hagree⟩ := hbest
  exact ⟨congrFun hagree.best .bid, congrFun hagree.best .ask⟩

/-- Two orders of one level, the second without quantity, and a trade. -/
theorem plain_book_agrees_trade :
    let calls : List BookOp :=
      [.enqueue .bid 0 7 5, .enqueue .bid 0 8 0, .trade .bid 0 5]
    let state := (OrderBook.machine DepthTally maxOrders).run
      (MBOBookWithBIT.init, .init fun _ => default) calls
    let plain := (MBOBook.machine maxOrders).run (MBOBook.init, .init fun _ =>
      default) calls
    plain.1.tally.qty = state.1.tally.qty :=
  (plain_book_agrees (fun _ => default) (fun _ => default)
    [.enqueue .bid 0 7 5, .enqueue .bid 0 8 0, .trade .bid 0 5]
    ⟨trivial, trivial, trivial, trivial⟩).2.2.1

end MarketDataPipeline
