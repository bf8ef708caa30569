import MarketDataPipeline.Book.BestPrices

/-!
# How the best prices move

A best price is a valid price or the value for an empty side.  A trade moves
only the best price of its own side, never to a better one, and only when it
trades at that price.
-/

namespace MarketDataPipeline

open AbstractBook

namespace DepthTally

variable {tally tally' : DepthTally} {book book' : AbstractBook} {side : Side}
  {price qty : UInt32}

/-- Each best price is a valid price or stands for none. -/
def Quoted (tally : DepthTally) : Prop :=
  ∀ side, tally.best side = side.noPrice ∨ tally.best side < maxPriceLevels

theorem init_quoted : DepthTally.init.Quoted := fun _ => Or.inl rfl

theorem Quoted.updateBest (hquoted : tally.Quoted) (side : Side) :
    (tally.updateBest side).Quoted := by
  intro s
  by_cases hs : s = side
  case neg =>
    rw [updateBest_best_of_ne _ hs]
    exact hquoted s
  subst hs
  cases s with
  | bid =>
      have hbest : (tally.updateBest .bid).best .bid =
          if (tally.bit .bid).findLastNonzero < maxPriceLevels
          then (tally.bit .bid).findLastNonzero else 0 := by
        simp [DepthTally.updateBest, updateBestBid]
      rw [hbest]
      split
      case isTrue hlt => exact Or.inr hlt
      case isFalse => exact Or.inl rfl
  | ask =>
      have hbest : (tally.updateBest .ask).best .ask =
          if (tally.bit .ask).findFirstNonzero < maxPriceLevels
          then (tally.bit .ask).findFirstNonzero else invalidPrice := by
        simp [DepthTally.updateBest, updateBestAsk]
      rw [hbest]
      split
      case isTrue hlt => exact Or.inr hlt
      case isFalse => exact Or.inl rfl

theorem Quoted.remove (hquoted : tally.Quoted) (side : Side)
    (price qty : UInt32) :
    (tally.remove side price qty).Quoted := by
  have hsubtracted : (tally.subtract side price qty).Quoted := hquoted
  rw [DepthTally.remove]
  split
  · exact hsubtracted.updateBest side
  · exact hsubtracted

theorem Quoted.add (hquoted : tally.Quoted) (side : Side)
    (hprice : price < maxPriceLevels)
    (qty : UInt32) : (tally.add side price qty).Quoted := by
  intro s
  by_cases hs : s = side
  · subst hs
    rw [add_best_self]
    split
    · exact Or.inr hprice
    · exact hquoted s
  · rw [add_best_of_ne tally hs]
    exact hquoted s

theorem Quoted.recordTrade (hquoted : tally.Quoted) (side : Side)
    (price qty : UInt32) (queue : List Resting) :
    (AbstractBook.recordTrade side price qty queue tally).Quoted := by
  induction queue generalizing qty tally with
  | nil => exact hquoted
  | cons r rest ih =>
      rw [AbstractBook.recordTrade]
      split
      · exact hquoted
      · split
        · exact ih (hquoted.remove side price r.qty) _
        · exact hquoted

/-- Every step keeps the best prices valid. -/
theorem Quoted.step {free free' : List UInt32} {op : BookOp} {ret : UInt32}
    (hquoted : tally.Quoted)
    (hstep : Step free book tally op ret free' book' tally') :
    tally'.Quoted := by
  cases hstep with
  | invalid | full | untraded => exact hquoted
  | placed hprice => exact hquoted.add _ hprice _
  | traded => exact hquoted.recordTrade _ _ _ _
  | dequeued => exact hquoted.remove _ _ _
  | cleared => exact fun _ => Or.inl rfl

/-! ## The best prices along a trade -/

/-- The best prices `tally'` after trades at `price` on `side`. -/
structure Receded (tally tally' : DepthTally) (side : Side) (price : UInt32) :
    Prop where
  other : ∀ s, s ≠ side → tally'.best s = tally.best s
  back : ¬ side.improves (tally'.best side) (tally.best side)
  away : price ≠ tally.best side → tally'.best side = tally.best side

theorem Receded.refl (tally : DepthTally) (side : Side) (price : UInt32) :
    Receded tally tally side price :=
      ⟨fun _ _ => rfl, side.improves_irrefl _, fun _ => rfl⟩

/-- A removal, with or without a rescan, moves the best price further back. -/
theorem Receded.remove (hreceded : Receded tally tally' side price)
    (htracks : tally.Tracks book)
    (hsubtracted : (tally'.subtract side price qty).Tracks book')
    (hpriced : book'.Priced)
    (hle : ∀ p, book'.volume side p ≤ book.volume side p) :
    Receded tally (tally'.remove side price qty) side price := by
  have hkept : (tally'.subtract side price qty).best = tally'.best := rfl
  rw [DepthTally.remove]
  split
  case isFalse => exact ⟨hreceded.other, hreceded.back, hreceded.away⟩
  case isTrue hrescan =>
    refine ⟨fun s hs => ?_, ?_, fun hne => ?_⟩
    · rw [updateBest_best_of_ne _ hs, hkept]
      exact hreceded.other s hs
    · rcases updateBest_isBest hsubtracted.bit hpriced side with
        ⟨hpos, -⟩ | ⟨-, hnone⟩
      · exact htracks.best side _ (lt_of_lt_of_le hpos (hle _))
      · rw [hnone]
        exact side.not_improves_noPrice _
    · exact absurd (hrescan.1.trans (hreceded.away hne)) hne

/-- A trade moves the best price of its side back, if at all. -/
theorem Tracks.receded (htracks : tally.Tracks book) (hpriced : book.Priced)
    (hprice : price < maxPriceLevels) (qty : UInt32) :
    Receded tally (AbstractBook.recordTrade side price qty (book side price)
      tally) side price := by
  let property : AbstractBook → DepthTally → Prop := fun book' tally' =>
    tally'.Tracks book' ∧ book'.Priced ∧
      (∀ s p, book'.volume s p ≤ book.volume s p) ∧
      Receded tally tally' side price
  have hremove : ∀ book' tally' r rest, property book' tally' →
      book' side price = r :: rest →
      property (setAt book' side price rest)
        (LevelTally.remove tally' side price r.qty) := by
    rintro book' tally' r rest ⟨htracks', hpriced', hle, hreceded⟩ hqueue
    have hsplit : book' side price = [] ++ r :: rest := hqueue
    have hother : ∀ s p, ¬ (s = side ∧ p = price) →
        AbstractBook.volume (setAt book' side price rest) s p =
          book'.volume s p :=
      volume_setAt_other book' rest
    have hpriced'' : AbstractBook.Priced (setAt book' side price rest) :=
      hpriced'.setAt hprice rest
    have hle' : ∀ s p, AbstractBook.volume (setAt book' side price rest) s p ≤
        book.volume s p :=
      fun s p => (volume_le_of_removal hother (volume_removed hsplit) s p).trans
        (hle s p)
    refine ⟨htracks'.remove hprice hother (volume_removed hsplit) hpriced'',
      hpriced'', hle', ?_⟩
    exact hreceded.remove htracks
      (htracks'.subtract hprice hother (volume_removed hsplit))
      hpriced''
      (hle' side)
  have hreduce : ∀ book' tally' r rest qty, property book' tally' →
      book' side price = r :: rest → qty < r.qty →
      property (setAt book' side price ({ r with qty := r.qty - qty } :: rest))
        (LevelTally.reduce tally' side price qty) := by
    rintro book' tally' r rest qty
      ⟨htracks', hpriced', hle, hreceded⟩ hqueue hlt
    have hother : ∀ s p, ¬ (s = side ∧ p = price) → AbstractBook.volume
        (setAt book' side price ({ r with qty := r.qty - qty } :: rest)) s p =
          book'.volume s p :=
      volume_setAt_other book' _
    have hreduced := volume_reduced hqueue hlt
    exact ⟨htracks'.reduce hprice hother hreduced, hpriced'.setAt hprice _,
      fun s p => (volume_le_of_removal hother hreduced s p).trans (hle s p),
      hreceded.other, hreceded.back, hreceded.away⟩
  have hstart : property book tally :=
    ⟨htracks, hpriced, fun _ _ => le_rfl, Receded.refl tally side price⟩
  have hqueue : book side price = book side price ++ [] :=
    (List.append_nil _).symm
  exact (recordTrade_preserves property hremove hreduce hstart qty hqueue).2.2.2

/-- A trade that empties the best level, whose 32-bit quantity does not exceed
what rests there, leaves the exact best price. -/
theorem Tracks.recordTrade_isBest {queue : List Resting}
    (htracks : tally.Tracks book) (hpriced : book.Priced)
    (hprice : price < maxPriceLevels) (hsome : price ≠ side.noPrice)
    (hbest : price = tally.best side) (hqueue : book side price = queue)
    (horders : queue ≠ []) (hqty : qty ≠ 0) (hall : quantity queue ≤ qty.toNat)
    (hguard : (tally.qty side price).toNat ≤ quantity queue) :
    AbstractBook.IsBest (setAt book side price (consume qty queue)) side
      ((AbstractBook.recordTrade side price qty queue tally).best side) := by
  induction queue generalizing tally book qty with
  | nil => exact absurd rfl horders
  | cons r rest ih =>
      rw [quantity_cons] at hall hguard
      have hle : r.qty ≤ qty := by
        rw [UInt32.le_iff_toNat_le]
        omega
      have hsub := UInt32.toNat_sub_of_le _ _ hle
      have hsplit : book side price = [] ++ r :: rest := hqueue
      let book' : AbstractBook := setAt book side price rest
      have hqueue' : book' side price = rest := setAt_self ..
      have hvolume' : book'.volume side price = quantity rest :=
        congrArg quantity hqueue'
      have hother : ∀ s p, ¬ (s = side ∧ p = price) →
          book'.volume s p = book.volume s p :=
        volume_setAt_other book rest
      have hremoved : book.volume side price =
          book'.volume side price + r.qty.toNat :=
        volume_removed hsplit
      have hpriced' : book'.Priced := hpriced.setAt hprice rest
      have hsubtract := htracks.subtract hprice hother hremoved
      have htracks' := htracks.remove hprice hother hremoved hpriced'
      have hqty' := remove_qty tally side price r.qty
      rw [AbstractBook.recordTrade, consume, if_neg hqty, if_neg hqty,
        if_pos hle, if_pos hle]
      change AbstractBook.IsBest _ side
        ((AbstractBook.recordTrade side price (qty - r.qty) rest
        (tally.remove side price r.qty)).best side)
      by_cases hrest : quantity rest = 0
      · -- The level is empty, so the best price was looked up and does not move
        -- again.
        have hrescan : price = (tally.subtract side price r.qty).best side ∧
            (tally.subtract side price r.qty).qty side price = 0 := by
          refine ⟨hbest, UInt32.toNat_inj.mp ?_⟩
          rw [subtract_qty, UInt32.toNat_zero]
          omega
        have hisBest : book'.IsBest side
            ((tally.remove side price r.qty).best side) := by
          rw [DepthTally.remove, if_pos hrescan]
          exact updateBest_isBest hsubtract.bit hpriced' side
        have hmoved : price ≠ (tally.remove side price r.qty).best side := by
          intro heq
          rcases hisBest with ⟨hpos, -⟩ | ⟨-, hnone⟩
          · rw [← heq, hvolume', hrest] at hpos
            exact absurd hpos (lt_irrefl 0)
          · exact hsome (heq.trans hnone)
        have haway :=
          (htracks'.receded hpriced' hprice (qty - r.qty)).away hmoved
        rw [hqueue'] at haway
        rw [haway]
        refine hisBest.congr fun p => ?_
        by_cases hp : p = price
        · have hconsumed := quantity_consume (qty - r.qty) rest
          rw [hp, hvolume', AbstractBook.volume, setAt_self]
          omega
        · rw [volume_setAt_other _ _ _ _ fun heq => hp heq.2,
            hother _ _ fun heq => hp heq.2]
      · -- The level stays best, whether or not it was looked up.
        have hstays : book'.IsBest side price := by
          refine Or.inl ⟨by omega, fun p hp => ?_⟩
          rw [hbest]
          exact htracks.best side p
            (lt_of_lt_of_le hp (volume_le_of_removal hother hremoved side p))
        have hbest' : price = (tally.remove side price r.qty).best side := by
          rw [DepthTally.remove]
          split
          · exact hstays.unique (updateBest_isBest hsubtract.bit hpriced' side)
          · exact hbest
        have hleft : qty - r.qty ≠ 0 := by
          rw [Ne, ← UInt32.toNat_inj, UInt32.toNat_zero]
          omega
        have hdone :=
          ih htracks' hpriced' hbest' hqueue'
            (fun hnil => hrest (by simp [hnil])) hleft
          (by omega) (by omega)
        rwa [setAt_setAt] at hdone

end DepthTally

end MarketDataPipeline
