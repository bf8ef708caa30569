import MarketDataPipeline.Book.BookWithBIT

/-!
# The tally follows the resting volume

Whatever quantities are enqueued, each Fenwick tree holds the exact volume of
every level of its side, and no level with volume is better than the best
price.  A rescan of the tree finds the best price exactly.
-/

namespace MarketDataPipeline

open AbstractBook

namespace AbstractBook

theorem volume_setAt (book : AbstractBook) (side s : Side) (price p : UInt32)
    (queue : List Resting) :
    AbstractBook.volume (setAt book side price queue) s p =
      if s = side ∧ p = price then quantity queue else book.volume s p := by
  simp only [volume, setAt]
  split <;> rfl

/-- The volumes after the queue at one level was replaced. -/
theorem volume_setAt_other (book : AbstractBook) {side : Side} {price : UInt32}
    (queue : List Resting) (s : Side) (p : UInt32)
    (hlevel : ¬ (s = side ∧ p = price)) :
    AbstractBook.volume (setAt book side price queue) s p =
      book.volume s p := by
  rw [volume_setAt, if_neg hlevel]

/-- An order that leaves takes its quantity off its level. -/
theorem volume_removed {book : AbstractBook} {side : Side} {price : UInt32}
    {r : Resting} {before after : List Resting}
    (hsplit : book side price = before ++ r :: after) :
    book.volume side price =
      AbstractBook.volume (setAt book side price (before ++ after)) side price +
        r.qty.toNat := by
  simp only [volume, hsplit, setAt_self, quantity_append, quantity_cons]
  omega

/-- A partial fill takes its quantity off its level. -/
theorem volume_reduced {book : AbstractBook} {side : Side} {price qty : UInt32}
    {r : Resting} {rest : List Resting} (hqueue : book side price = r :: rest)
    (hlt : qty < r.qty) :
    book.volume side price =
      AbstractBook.volume
        (setAt book side price ({ r with qty := r.qty - qty } :: rest))
        side price + qty.toNat := by
  have hsub := UInt32.toNat_sub_of_le _ _ (UInt32.le_of_lt hlt)
  have hltNat := UInt32.lt_iff_toNat_lt.mp hlt
  simp only [volume, hqueue, setAt_self, quantity_cons, hsub]
  omega

/-- `best` is the best price of a side: the best one with volume, or the value
for an empty side. -/
def IsBest (book : AbstractBook) (side : Side) (best : UInt32) : Prop :=
  (0 < book.volume side best ∧
      ∀ price, 0 < book.volume side price → ¬ side.improves price best) ∨
    ((∀ price, book.volume side price = 0) ∧ best = side.noPrice)

/-- The best price of a side bounds every level with volume. -/
theorem IsBest.bound {book : AbstractBook} {side : Side} {best : UInt32}
    (hbest : book.IsBest side best) {price : UInt32}
    (hprice : 0 < book.volume side price) :
    ¬ side.improves price best := by
  rcases hbest with ⟨_, hbound⟩ | ⟨hzero, _⟩
  · exact hbound price hprice
  · rw [hzero price] at hprice
    exact absurd hprice (lt_irrefl 0)

/-- Orders rest at valid prices only. -/
def Priced (book : AbstractBook) : Prop :=
  ∀ side price, maxPriceLevels ≤ price → book.volume side price = 0

theorem Priced.lt {book : AbstractBook} (hpriced : book.Priced) {side : Side}
    {price : UInt32}
    (hpos : 0 < book.volume side price) : price < maxPriceLevels := by
  by_contra hge
  rw [hpriced side price (UInt32.not_lt.mp hge)] at hpos
  exact lt_irrefl 0 hpos

end AbstractBook

theorem Represents.isPriced {size : UInt32} {queues : Queues}
    {pool : OrderPool size} {book : AbstractBook}
    (hrep : Represents queues pool book) :
    book.Priced := by
  intro side price hprice
  have hnil : book side price = [] := by
    by_contra hne
    exact UInt32.not_lt.mpr hprice (hrep.priced side price hne)
  simp [volume, hnil]

theorem FenwickTree.Holds.congr {n : UInt32} {bit : FenwickTree n}
    {cell cell' : ℕ → ℤ} (hholds : bit.Holds cell)
    (hcell : ∀ i < n.toNat, cell' i = cell i) :
    bit.Holds cell' := by
  intro node hpos hle
  rw [hholds node hpos hle]
  refine Finset.sum_congr rfl fun i hi => (hcell i ?_).symm
  rw [Finset.mem_Ico] at hi
  rw [UInt32.le_iff_toNat_le] at hle
  omega

namespace DepthTally

variable {tally : DepthTally} {book : AbstractBook}

/-- The volume of a side as the cells of a tree. -/
def cells (book : AbstractBook) (side : Side) (price : ℕ) : ℤ :=
  book.volume side (.ofNat price)

structure Tracks (tally : DepthTally) (book : AbstractBook) : Prop where
  bit : ∀ side, (tally.bit side).Holds (cells book side)
  best : ∀ side price, 0 < book.volume side price →
    ¬ side.improves price (tally.best side)

theorem cells_nonneg (book : AbstractBook) (side : Side) (price : ℕ) :
    0 ≤ cells book side price := Int.natCast_nonneg _

@[simp]
theorem cells_toNat (book : AbstractBook) (side : Side) (price : UInt32) :
    cells book side price.toNat = book.volume side price := by
  rw [cells, UInt32.ofNat_toNat]

theorem maxPriceLevels_pos : 0 < maxPriceLevels.toNat := by decide

theorem maxPriceLevels_bound : maxPriceLevels.toNat < 2 ^ 31 := by decide

/-- A tree update follows a change of volume at one level. -/
theorem holds_updateBit (tally : DepthTally)
    (hbit : ∀ side, (tally.bit side).Holds (cells book side))
    {book' : AbstractBook} {side : Side} {price : UInt32} {delta : ℤ}
    (hprice : price < maxPriceLevels)
    (hother : ∀ s p, ¬ (s = side ∧ p = price) → book'.volume s p =
      book.volume s p)
    (hdelta : (book'.volume side price : ℤ) = book.volume side price + delta)
    (s : Side) :
    ((tally.updateBit side price delta).bit s).Holds (cells book' s) := by
  by_cases hside : s = side
  · subst hside
    have hholds := (hbit s).update maxPriceLevels_bound hprice delta
    have hbitEq : (tally.updateBit s price delta).bit s =
        (tally.bit s).update price delta :=
      Function.update_self ..
    rw [hbitEq]
    refine hholds.congr fun i hi => ?_
    have hlt := maxPriceLevels.toNat_lt
    by_cases hi' : i = price.toNat
    · subst hi'
      rw [Function.update_self, cells_toNat, cells_toNat, hdelta]
    · rw [Function.update_of_ne hi', cells, cells, hother]
      rintro ⟨-, heq⟩
      apply hi'
      rw [← heq, UInt32.toNat_ofNat', Nat.mod_eq_of_lt (by omega)]
  · have hbitEq : (tally.updateBit side price delta).bit s = tally.bit s :=
      Function.update_of_ne hside ..
    rw [hbitEq]
    refine (hbit s).congr fun i _ => ?_
    rw [cells, cells, hother]
    rintro ⟨heq, -⟩
    exact hside heq

/-- A rescan finds the best price of the side. -/
theorem updateBest_isBest
    (hbit : ∀ side, (tally.bit side).Holds (cells book side))
    (hpriced : book.Priced) (side : Side) : book.IsBest side
      ((tally.updateBest side).best side) := by
  have hempty : (∀ i < maxPriceLevels.toNat, cells book side i = 0) →
      ∀ price, book.volume side price = 0 := by
    intro hzero price
    by_cases hprice : price < maxPriceLevels
    · have := hzero price.toNat (UInt32.lt_iff_toNat_lt.mp hprice)
      rw [cells_toNat] at this
      omega
    · exact hpriced side price (UInt32.not_lt.mp hprice)
  cases side with
  | bid =>
      have hbest : (tally.updateBest .bid).best .bid =
          if (tally.bit .bid).findLastNonzero < maxPriceLevels
          then (tally.bit .bid).findLastNonzero else 0 := by
        simp [updateBest, updateBestBid]
      rcases (hbit .bid).findLastNonzero_spec maxPriceLevels_pos
        maxPriceLevels_bound
        (cells_nonneg book .bid) with ⟨hnone, hzero⟩ | ⟨hlt, hpos, habove⟩
      · rw [hbest, if_neg (by simp [hnone])]
        exact Or.inr ⟨hempty hzero, rfl⟩
      · rw [hbest, if_pos hlt]
        rw [cells_toNat] at hpos
        refine Or.inl ⟨by omega, fun price hprice hbetter => ?_⟩
        have hprice' := hpriced.lt hprice
        have hzero := habove price.toNat (UInt32.lt_iff_toNat_lt.mp hbetter)
          (UInt32.lt_iff_toNat_lt.mp hprice')
        rw [cells_toNat] at hzero
        omega
  | ask =>
      have hbest : (tally.updateBest .ask).best .ask =
          if (tally.bit .ask).findFirstNonzero < maxPriceLevels
          then (tally.bit .ask).findFirstNonzero else invalidPrice := by
        simp [updateBest, updateBestAsk]
      rcases (hbit .ask).findFirstNonzero_spec maxPriceLevels_pos
        maxPriceLevels_bound
        (cells_nonneg book .ask) with ⟨hnone, hzero⟩ | ⟨hlt, hpos, hbelow⟩
      · rw [hbest, if_neg (by simp [hnone])]
        exact Or.inr ⟨hempty hzero, rfl⟩
      · rw [hbest, if_pos hlt]
        rw [cells_toNat] at hpos
        refine Or.inl ⟨by omega, fun price hprice hbetter => ?_⟩
        have hzero := hbelow price.toNat (UInt32.lt_iff_toNat_lt.mp hbetter)
        rw [cells_toNat] at hzero
        omega

@[simp]
theorem updateBest_bit (tally : DepthTally) (side : Side) :
    (tally.updateBest side).bit = tally.bit := by
  cases side <;> rfl

theorem updateBest_best_of_ne (tally : DepthTally) {side s : Side}
    (hne : s ≠ side) :
    (tally.updateBest side).best s = tally.best s := by
  cases side <;> exact Function.update_of_ne hne ..

theorem add_best_self (tally : DepthTally) (side : Side) (price qty : UInt32) :
    (tally.add side price qty).best side =
      if side.improves price (tally.best side) then price
      else tally.best side := by
  have hbest : (tally.add side price qty).best =
      if side.improves price (tally.best side) then
        Function.update tally.best side price
      else tally.best := rfl
  rw [hbest]
  split
  · exact Function.update_self ..
  · rfl

theorem add_best_of_ne (tally : DepthTally) {s : Side} (hs : s ≠ side)
    (price qty : UInt32) :
    (tally.add side price qty).best s = tally.best s := by
  have hbest : (tally.add side price qty).best =
      if side.improves price (tally.best side) then
        Function.update tally.best side price
      else tally.best := rfl
  rw [hbest]
  split
  · exact Function.update_of_ne hs ..
  · rfl

/-! ## The operations -/

theorem init_tracks : DepthTally.init.Tracks AbstractBook.empty where
  bit side := by
    refine FenwickTree.init_holds.congr fun i _ => ?_
    simp [cells, AbstractBook.empty, volume]
  best side price hpos := by simp [AbstractBook.empty, volume] at hpos

theorem Tracks.clear (tally : DepthTally) :
    tally.clear.Tracks AbstractBook.empty :=
  ⟨init_tracks.bit, init_tracks.best⟩

/-- An enqueue adds the order's quantity, whatever the 32-bit total does. -/
theorem Tracks.add (htracks : tally.Tracks book) {side : Side} {price : UInt32}
    (hprice : price < maxPriceLevels) (r : Resting) :
    (tally.add side price r.qty).Tracks
      (setAt book side price (book side price ++ [r])) where
  bit s := by
    refine holds_updateBit { tally with qty := _ } htracks.bit hprice
      (volume_setAt_other book _) ?_ s
    simp [volume]
  best s p hpos := by
    by_cases hlevel : s = side ∧ p = price
    · obtain ⟨rfl, rfl⟩ := hlevel
      rw [add_best_self]
      split
      case isTrue => exact s.improves_irrefl p
      case isFalse hnot => exact hnot
    · rw [volume_setAt_other book _ s p hlevel] at hpos
      have hold := htracks.best s p hpos
      by_cases hside : s = side
      · subst hside
        rw [add_best_self]
        split
        case isTrue himproves =>
          exact Side.not_improves_of_improves himproves hold
        case isFalse => exact hold
      · rwa [add_best_of_ne tally hside]

section Removal

variable {book' : AbstractBook} {side : Side} {price qty : UInt32}
  (hprice : price < maxPriceLevels)
  (hother : ∀ s p, ¬ (s = side ∧ p = price) → book'.volume s p =
    book.volume s p)
  (hvolume : book.volume side price = book'.volume side price + qty.toNat)

include hother hvolume

theorem volume_le_of_removal (s : Side) (p : UInt32) :
    book'.volume s p ≤ book.volume s p := by
  by_cases hlevel : s = side ∧ p = price
  · obtain ⟨rfl, rfl⟩ := hlevel
    omega
  · exact (hother s p hlevel).le

include hprice

/-- A partial fill takes its quantity off the level. -/
theorem Tracks.reduce (htracks : tally.Tracks book) :
    (tally.reduce side price qty).Tracks book' where
  bit := holds_updateBit { tally with qty := _ } htracks.bit hprice
    hother (by omega)
  best s p hpos :=
    htracks.best s p
      (lt_of_lt_of_le hpos (volume_le_of_removal hother hvolume s p))

theorem Tracks.subtract (htracks : tally.Tracks book) :
    (tally.subtract side price qty).Tracks book' where
  bit := holds_updateBit { tally with qty := _ } htracks.bit hprice
    hother (by omega)
  best s p hpos :=
    htracks.best s p
      (lt_of_lt_of_le hpos (volume_le_of_removal hother hvolume s p))

/-- A removal takes its quantity off the level, with or without a rescan. -/
theorem Tracks.remove (htracks : tally.Tracks book) (hpriced : book'.Priced) :
    (tally.remove side price qty).Tracks book' := by
  have hsubtract := htracks.subtract hprice hother hvolume
  rw [DepthTally.remove]
  split
  case isFalse => exact hsubtract
  case isTrue =>
    refine ⟨fun s => ?_, fun s p hpos => ?_⟩
    · rw [updateBest_bit]
      exact hsubtract.bit s
    · by_cases hside : s = side
      · subst hside
        exact (updateBest_isBest hsubtract.bit hpriced s).bound hpos
      · rw [updateBest_best_of_ne _ hside]
        exact hsubtract.best s p hpos

end Removal

end DepthTally

end MarketDataPipeline
