import MarketDataPipeline.Book.PriceLevelBook

/-!
# Trades on the price level book

A trade looks at a level only where the best price of its side admits it.  The
best prices bound all levels with quantity, so that no trade misses one.
-/

namespace MarketDataPipeline

namespace PriceLevelBook

variable {book : PriceLevelBook}

/-! ## Best prices as bounds -/

/-- No level with quantity improves on the best price of its side. -/
def BestBounds (book : PriceLevelBook) : Prop :=
  ∀ side, ∀ price < maxPriceLevels,
    side.improves price (book.best side) → book.qty side price = 0

theorem init_bestBounds : init.BestBounds := fun _ _ _ _ => rfl

/-- The bound is about quantities and best prices alone. -/
theorem BestBounds.congr {other : PriceLevelBook} (hbounds : book.BestBounds)
    (hqty : other.qty = book.qty) (hbest : other.best = book.best) :
    other.BestBounds := by
  intro side price hprice himproves
  rw [hbest] at himproves
  rw [hqty]
  exact hbounds side price hprice himproves

/-- Adding raises the best price before it could be passed. -/
theorem BestBounds.add (hbounds : book.BestBounds) (side : Side)
    (price qty : UInt32) :
    (book.add side price qty).BestBounds := by
  intro s p hp himproves
  have hbest : (book.add side price qty).best =
      if side.improves price (book.best side) then
        Function.update book.best side price
      else book.best := rfl
  rw [hbest] at himproves
  by_cases hlevel : s = side ∧ p = price
  · obtain ⟨rfl, rfl⟩ := hlevel
    split at himproves
    case isTrue hraised =>
      rw [Function.update_self] at himproves
      exact absurd himproves (s.improves_irrefl p)
    case isFalse hbelow => exact absurd himproves hbelow
  · have hqty : (book.add side price qty).qty s p = book.qty s p :=
      setAt_of_ne book.qty (book.qty side price + qty) hlevel
    rw [hqty]
    refine hbounds s p hp ?_
    split at himproves
    case isTrue hraised =>
      by_cases hside : s = side
      · subst hside
        rw [Function.update_self] at himproves
        by_contra hother
        exact Side.not_improves_of_improves hraised hother himproves
      · rwa [Function.update_of_ne hside] at himproves
    case isFalse => exact himproves

/-- The scan for a new best bid passes empty levels only. -/
theorem BestBounds.updateBestBid (hbounds : book.BestBounds) :
    book.updateBestBid.BestBounds := by
  obtain ⟨hpassed, hstop⟩ :=
    PlainTally.scanDown_spec (book.qty .bid) (book.best .bid).toNat
      (book.best .bid) le_rfl
  let found := PlainTally.scanDown (book.qty .bid) (book.best .bid).toNat
    (book.best .bid)
  have hbest : book.updateBestBid.best =
      Function.update book.best .bid found := by
    refine congrArg (Function.update book.best .bid) ?_
    by_cases hempty : book.qty .bid found = 0
    · exact (if_pos hempty).trans (hstop hempty).symm
    · exact if_neg hempty
  intro side price hprice himproves
  rw [hbest] at himproves
  cases side with
  | bid =>
      rw [Function.update_self] at himproves
      by_cases hold : price ≤ book.best .bid
      · exact hpassed price himproves hold
      · exact hbounds .bid price hprice (UInt32.not_le.mp hold)
  | ask =>
      rw [Function.update_of_ne Side.noConfusion] at himproves
      exact hbounds .ask price hprice himproves

/-- The scan for a new best ask passes empty levels only. -/
theorem BestBounds.updateBestAsk (hbounds : book.BestBounds)
    (hvalid : book.best .ask < maxPriceLevels) :
    book.updateBestAsk.BestBounds := by
  obtain ⟨hpassed, hstop⟩ :=
    PlainTally.scanUp_spec (book.qty .ask) maxPriceLevels.toNat
    (book.best .ask) (UInt32.le_of_lt hvalid) (Nat.le_add_left _ _)
  let found := PlainTally.scanUp (book.qty .ask) maxPriceLevels.toNat
    (book.best .ask)
  have hbest : book.updateBestAsk.best = Function.update book.best .ask
      (if found ≥ maxPriceLevels ∨ book.qty .ask found = 0 then invalidPrice
       else found) := rfl
  intro side price hprice himproves
  rw [hbest] at himproves
  cases side with
  | bid =>
      rw [Function.update_of_ne Side.noConfusion] at himproves
      exact hbounds .bid price hprice himproves
  | ask =>
      rw [Function.update_self] at himproves
      by_cases hold : price < book.best .ask
      · exact hbounds .ask price hprice hold
      · refine hpassed price (UInt32.not_lt.mp hold) ?_
        split at himproves
        case isTrue hnone =>
          have hend : maxPriceLevels ≤ found := hnone.elim id hstop
          exact UInt32.lt_of_lt_of_le hprice hend
        case isFalse => exact himproves

/-- What a trade leaves at its level. -/
theorem trade_qty (book : PriceLevelBook) (side : Side) (price qty : UInt32) :
    (book.trade side price qty).qty = setAt book.qty side price
      (if book.qty side price ≥ qty then book.qty side price - qty else 0) := by
  have hupdate : ∀ reduced : PriceLevelBook, (reduced.updateBest side).qty =
      reduced.qty :=
    fun _ => by cases side <;> rfl
  rw [trade]
  dsimp only
  generalize (if book.qty side price ≥ qty then book.qty side price - qty
              else 0) = left
  split
  · rw [hupdate]
  · rfl

/-- A trade empties levels but fills none, and looks for a new best price where
it emptied the best level. -/
theorem BestBounds.trade (hbounds : book.BestBounds) {price : UInt32}
    (hprice : price < maxPriceLevels) (side : Side) (qty : UInt32) :
    (book.trade side price qty).BestBounds := by
  rw [PriceLevelBook.trade]
  dsimp only
  have hleft : book.qty side price = 0 →
      (if book.qty side price ≥ qty then book.qty side price - qty else 0) =
        0 := by
    intro hzero
    rw [hzero]
    split
    case isTrue hge => rw [UInt32.le_zero_iff.mp hge, UInt32.sub_zero]
    case isFalse => rfl
  generalize (if book.qty side price ≥ qty then book.qty side price - qty
              else 0) = left at hleft ⊢
  have hreduced : BestBounds
      { book with qty := setAt book.qty side price left } := by
    intro s p hp himproves
    by_cases hlevel : s = side ∧ p = price
    · obtain ⟨rfl, rfl⟩ := hlevel
      exact (setAt_self book.qty s p left).trans
        (hleft (hbounds s p hp himproves))
    · exact (setAt_of_ne book.qty left hlevel).trans (hbounds s p hp himproves)
  split
  case isTrue hemptied =>
    cases side with
    | bid => exact hreduced.updateBestBid
    | ask => exact hreduced.updateBestAsk (hemptied.1 ▸ hprice)
  case isFalse => exact hreduced

/-- Every message keeps the bounds. -/
theorem BestBounds.process (hbounds : book.BestBounds) (message : ItchMessage) :
    (book.process message).BestBounds := by
  rw [PriceLevelBook.process]
  split
  · rw [processAdd]
    split
    · exact hbounds
    · split
      · exact (hbounds.add .bid message.price message.qty).congr rfl rfl
      · exact (hbounds.add .ask message.price message.qty).congr rfl rfl
  split
  · rw [processTrade]
    split
    · exact hbounds
    case isFalse hprice =>
      have hvalid := UInt32.not_le.mp hprice
      dsimp only
      split
      · exact (hbounds.trade hvalid .bid message.qty).congr rfl rfl
      split
      · exact (hbounds.trade hvalid .ask message.qty).congr rfl rfl
      · exact hbounds.congr rfl rfl
  · exact hbounds

theorem machine_run_bestBounds (messages : List ItchMessage) :
    (machine.run init messages).BestBounds :=
  Machine.invariant BestBounds (fun _ message hbounds _ =>
    hbounds.process message)
    init_bestBounds (Machine.legal_of_forall (fun _ _ => trivial) _ messages)

/-! ## The level a trade hits -/

/-- A trade took what it asks for, or all there is, from one level of the book
and nothing from the others. -/
structure Hits (before after : PriceLevelBook) (side : Side)
    (price qty : UInt32) : Prop where
  level : (after.qty side price).toNat =
    (before.qty side price).toNat - min qty.toNat (before.qty side price).toNat
  others : ∀ s p, ¬ (s = side ∧ p = price) → after.qty s p = before.qty s p

theorem trade_hits (book : PriceLevelBook) (side : Side) (price qty : UInt32) :
    Hits book (book.trade side price qty) side price qty := by
  constructor
  · rw [trade_qty, setAt_self]
    split
    case isTrue hge =>
      rw [UInt32.toNat_sub_of_le _ _ hge,
        Nat.min_eq_left (UInt32.le_iff_toNat_le.mp hge)]
    case isFalse hlt =>
      have hmin :=
        Nat.le_of_lt (UInt32.lt_iff_toNat_lt.mp (UInt32.not_le.mp hlt))
      rw [Nat.min_eq_right hmin, Nat.sub_self, UInt32.toNat_zero]
  · intro s p hlevel
    rw [trade_qty, setAt_of_ne _ _ hlevel]

/-- Where the best prices bound the levels, a trade hits the bid level of its
price if that has quantity, else the ask level. -/
theorem BestBounds.processTrade (hbounds : book.BestBounds) {price : UInt32}
    (hprice : price < maxPriceLevels) (qty : UInt32) (tsNs : UInt64) :
    let after := book.processTrade price qty tsNs
    (0 < book.qty .bid price → Hits book after .bid price qty) ∧
      (book.qty .bid price = 0 → 0 < book.qty .ask price →
        Hits book after .ask price qty) ∧
      (book.qty .bid price = 0 → book.qty .ask price = 0 → after.qty =
        book.qty) := by
  have hreach : ∀ side, 0 < book.qty side price →
      ¬ side.improves price (book.best side) := by
    intro side hpos himproves
    exact (UInt32.pos_iff_ne_zero.mp hpos) (hbounds side price hprice himproves)
  intro after
  have hafter : after = PriceLevelBook.processTrade book price qty tsNs := rfl
  rw [PriceLevelBook.processTrade, if_neg (UInt32.not_le.mpr hprice)] at hafter
  dsimp only at hafter
  refine ⟨fun hbid => ?_, fun hbid hask => ?_, fun hbid hask => ?_⟩
  · rw [if_pos ⟨UInt32.not_lt.mp (hreach .bid hbid), hbid⟩] at hafter
    have hhits := book.trade_hits .bid price qty
    rw [hafter]
    exact ⟨hhits.level, hhits.others⟩
  · rw [if_neg (by simp [hbid]),
      if_pos ⟨UInt32.not_lt.mp (hreach .ask hask), hask⟩] at hafter
    have hhits := book.trade_hits .ask price qty
    rw [hafter]
    exact ⟨hhits.level, hhits.others⟩
  · rw [if_neg (by simp [hbid]), if_neg (by simp [hask])] at hafter
    rw [hafter]

/-- In every reachable book the best prices bound the levels with quantity, and
every trade at a valid price hits the level that holds quantity, the bid first,
and no other. -/
theorem trade_hits_nonempty_level (messages : List ItchMessage)
    (trade : ItchMessage) (htype : trade.type = tradeType)
    (hprice : trade.price < maxPriceLevels) :
    let book := machine.run init messages
    let after := book.process trade
    (∀ level < maxPriceLevels,
      (0 < book.qty .bid level → level ≤ book.best .bid) ∧
      (0 < book.qty .ask level → book.best .ask ≤ level)) ∧
    (0 < book.qty .bid trade.price →
      Hits book after .bid trade.price trade.qty) ∧
    (book.qty .bid trade.price = 0 → 0 < book.qty .ask trade.price →
      Hits book after .ask trade.price trade.qty) ∧
    (book.qty .bid trade.price = 0 → book.qty .ask trade.price = 0 → after.qty =
      book.qty) := by
  intro book after
  have hbounds : book.BestBounds := machine_run_bestBounds messages
  have hafter : after = book.processTrade trade.price trade.qty trade.tsNs := by
    have hadd : trade.type ≠ addType := by
      rw [htype]
      decide
    exact (if_neg hadd).trans (if_pos htype)
  refine ⟨fun level hlevel => ⟨fun hbid => ?_, fun hask => ?_⟩, ?_⟩
  · by_contra habove
    exact UInt32.pos_iff_ne_zero.mp hbid
      (hbounds .bid level hlevel (UInt32.not_le.mp habove))
  · by_contra hbelow
    exact UInt32.pos_iff_ne_zero.mp hask
      (hbounds .ask level hlevel (UInt32.not_le.mp hbelow))
  · rw [hafter]
    exact hbounds.processTrade hprice trade.qty trade.tsNs

/-- A level whose quantity wraps is still hit by the trades at its price. -/
theorem trade_hits_nonempty_level_wrapped :
    Hits (machine.run init [⟨addType, 0, 1, 50, 0xFFFFFFFF⟩,
      ⟨addType, 0, 2, 50, 4⟩])
      (machine.run init [⟨addType, 0, 1, 50, 0xFFFFFFFF⟩,
        ⟨addType, 0, 2, 50, 4⟩,
        ⟨tradeType, 0, 3, 50, 2⟩]) .bid 50 2 :=
  (trade_hits_nonempty_level [⟨addType, 0, 1, 50, 0xFFFFFFFF⟩,
    ⟨addType, 0, 2, 50, 4⟩]
    ⟨tradeType, 0, 3, 50, 2⟩ rfl (by decide)).2.1 (by decide +kernel)

end PriceLevelBook

end MarketDataPipeline
