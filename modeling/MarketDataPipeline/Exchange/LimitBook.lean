import MarketDataPipeline.Book.ServedQueues
import MarketDataPipeline.Pipeline.MessageStep
import MarketDataPipeline.Pipeline.Midpoint

/-!
# A limit order book

What the book of a symbol is for, in plain terms: at every price of each side a
queue of orders, served from its front; best prices read off the queues; a
message placed or traded on the side its price selects.  There are no links, no
slots, no level totals, no trees and no cached best prices.  `Describes` says
that an `MBOBookWithBIT` is such a book.
-/

namespace MarketDataPipeline

open AbstractBook PriceTime

variable {size : UInt32}

/-- The queues of a book, by side and price. -/
abbrev LimitBook := Side → ℕ → List (Ticket UInt64)

namespace LimitBook

def empty : LimitBook := fun _ _ => []

/-- The highest price at which a bid waits, 0 if there is none. -/
noncomputable def bestBid (book : LimitBook) : ℕ := highest (book .bid)

open Classical in
/-- The lowest price at which an ask waits, `INVALID_PRICE` if there is none. -/
noncomputable def bestAsk (book : LimitBook) : ℕ :=
  if occupied (book .ask) = ∅ then invalidPrice.toNat else lowest (book .ask)

open Classical in
/-- The last price that is taken for a bid: the middle of the best prices, and
half of what is below the best bid where there is no ask. -/
noncomputable def middle (book : LimitBook) : ℕ :=
  let half :=
    if occupied (book .ask) = ∅ then
      if book.bestBid = 0 then 2 ^ 31 - 1 else (book.bestBid - 1) / 2
    else (book.bestBid + book.bestAsk) / 2
  if half = 0 then 50000 else half

noncomputable def sideOf (book : LimitBook) (price : ℕ) : Side :=
  if price ≤ book.middle then .bid else .ask

def setQueue (book : LimitBook) (side : Side) (price : ℕ)
    (queue : List (Ticket UInt64)) :
    LimitBook :=
  fun s p => if s = side ∧ p = price then queue else book s p

/-- What a message does; `room` says whether another order can be placed. -/
noncomputable def process (book : LimitBook) (room : Prop) [Decidable room]
    (message : ItchMessage) : LimitBook :=
  let price := message.price.toNat
  let side := book.sideOf price
  if message.type = addType then
    if price < maxPriceLevels.toNat ∧ room then
      book.setQueue side price
        (book side price ++ [⟨orderIdOf message, message.qty.toNat⟩])
    else book
  else if message.type = tradeType then
    book.setQueue side price (serve message.qty.toNat (book side price))
  else book

def count (book : LimitBook) : ℕ :=
  ∑ price ∈ Finset.range maxPriceLevels.toNat,
    ((book .bid price).length + (book .ask price).length)

def Fits (book : LimitBook) : Prop :=
  ∀ side price, volume (book side price) < 2 ^ 32

theorem setQueue_self (book : LimitBook) (side : Side) (price : ℕ)
    (queue : List (Ticket UInt64)) :
    book.setQueue side price queue side price = queue :=
  if_pos ⟨rfl, rfl⟩

/-- A message adds at most its quantity to a level. -/
theorem volume_process_le (book : LimitBook) (room : Prop) [Decidable room]
    (message : ItchMessage) (side : Side)
    (price : ℕ) : volume (book.process room message side price) ≤
      volume (book side price) +
        if message.type = addType then message.qty.toNat else 0 := by
  have hset : ∀ (queue : List (Ticket UInt64)) s p added, volume queue ≤
      volume (book s p) + added →
      volume (book.setQueue s p queue side price) ≤
        volume (book side price) + added := by
    intro queue s p added hle
    rw [setQueue]
    split
    case isTrue hlevel => rwa [hlevel.1, hlevel.2]
    case isFalse => exact Nat.le_add_right _ _
  rw [process]
  split
  case isTrue =>
    split
    · refine hset _ _ _ _ ?_
      rw [volume_append, volume_cons, volume_nil]
      rfl
    · exact Nat.le_add_right _ _
  case isFalse =>
    split
    · refine hset _ _ _ _ ?_
      rw [volume_serve]
      omega
    · exact Nat.le_add_right _ _

end LimitBook

open Classical in
/-- What a client reads off a book is what is in it. -/
structure LimitBook.Reports (book : LimitBook) (source : MBOBookWithBIT) :
    Prop where
  bestBid : source.getBestBid.toNat = book.bestBid
  bestAsk : source.getBestAsk.toNat = book.bestAsk
  spread : book.bestBid ≤ book.bestAsk → source.spread.toNat =
    if occupied (book .ask) = ∅ ∨ book.bestBid = 0 then 0
    else book.bestAsk - book.bestBid
  level : ∀ side price, price < maxPriceLevels →
    (source.getQty side price).toNat = volume (book side price.toNat)
  range : ∀ side low high, source.volumeRange side low high =
    ∑ price ∈ Finset.Icc low.toNat high.toNat, volume (book side price)

/-! ## Description -/

/-- `book` is what the queues hold, and the tally is right about it. -/
structure LimitBook.Describes (book : LimitBook) (tally : DepthTally)
    (resting : AbstractBook) :
    Prop where
  queue : ∀ side price, (resting side price).map Resting.order =
    book side price.toNat
  valid : ∀ side price, maxPriceLevels.toNat ≤ price → book side price = []
  positive : ∀ side price, Positive (book side price)
  best : tally.Exact resting
  totals : tally.Agrees resting

theorem LimitBook.setQueue_eq_self {book : LimitBook} {side : Side} {price : ℕ}
    {queue : List (Ticket UInt64)} (hqueue : queue = book side price) :
    book.setQueue side price queue = book := by
  funext s p
  rw [setQueue]
  split
  case isTrue hlevel => rw [hqueue, hlevel.1, hlevel.2]
  case isFalse => rfl

theorem length_flatMap_range {α : Type*} (n : ℕ) (items : ℕ → List α) :
    ((List.range n).flatMap items).length =
      ∑ i ∈ Finset.range n, (items i).length := by
  induction n with
  | zero => rfl
  | succ n ih =>
      rw [List.range_succ, List.flatMap_append, List.length_append,
        List.flatMap_singleton, ih, Finset.sum_range_succ]

namespace LimitBook

theorem empty_describes : empty.Describes .init AbstractBook.empty where
  queue _ _ := rfl
  valid _ _ _ := rfl
  positive _ _ := positive_nil
  best _ := Or.inr ⟨fun _ => rfl, rfl⟩
  totals := DepthTally.init_agrees

namespace Describes

variable {book : LimitBook} {tally : DepthTally} {resting : AbstractBook}

theorem volume_eq (hdescribes : book.Describes tally resting) (side : Side)
    (price : UInt32) :
    resting.volume side price = PriceTime.volume (book side price.toNat) := by
  rw [AbstractBook.volume, ← hdescribes.queue, Resting.order, volume_tickets]

theorem mem_occupied_iff (hdescribes : book.Describes tally resting)
    (side : Side) (price : UInt32) :
    price.toNat ∈ occupied (book side) ↔ 0 < resting.volume side price := by
  rw [hdescribes.volume_eq, (hdescribes.positive side _).volume_pos_iff]
  rfl

/-- Orders wait at 32-bit prices only. -/
theorem exists_of_mem_occupied (hdescribes : book.Describes tally resting)
    {side : Side} {price : ℕ} (hprice : price ∈ occupied (book side)) :
    ∃ p : UInt32, p.toNat = price ∧ p < maxPriceLevels ∧
      0 < resting.volume side p := by
  have hlt : price < maxPriceLevels.toNat := by
    by_contra hge
    exact hprice (hdescribes.valid side price (not_lt.mp hge))
  have hmax := maxPriceLevels.toNat_lt
  have htoNat : (UInt32.ofNat price).toNat = price := by
    rw [UInt32.toNat_ofNat', Nat.mod_eq_of_lt (by omega)]
  refine ⟨.ofNat price, htoNat, ?_, ?_⟩
  · rwa [UInt32.lt_iff_toNat_lt, htoNat]
  · rwa [← hdescribes.mem_occupied_iff, htoNat]

theorem price_lt (hdescribes : book.Describes tally resting) {side : Side}
    {price : UInt32}
    (hpos : 0 < resting.volume side price) : price < maxPriceLevels := by
  obtain ⟨p, hp, hlt, -⟩ :=
    hdescribes.exists_of_mem_occupied
      ((hdescribes.mem_occupied_iff side price).mpr hpos)
  rwa [← UInt32.toNat_inj.mp hp]

theorem occupied_eq_empty_iff (hdescribes : book.Describes tally resting)
    (side : Side) :
    occupied (book side) = ∅ ↔ ∀ price, resting.volume side price = 0 := by
  rw [Set.eq_empty_iff_forall_notMem]
  constructor
  · intro hnone price
    by_contra hpos
    exact hnone _ ((hdescribes.mem_occupied_iff side price).mpr
      (Nat.pos_of_ne_zero hpos))
  · intro hzero price hprice
    obtain ⟨p, -, -, hpos⟩ := hdescribes.exists_of_mem_occupied hprice
    exact absurd (hzero p) hpos.ne'

theorem bestBid_eq (hdescribes : book.Describes tally resting) :
    (tally.best .bid).toNat = book.bestBid := by
  rcases hdescribes.best .bid with ⟨hpos, hbound⟩ | ⟨hzero, hnone⟩
  · refine (highest_of_isGreatest ⟨?_, fun price hprice => ?_⟩).symm
    · exact (hdescribes.mem_occupied_iff .bid _).mpr hpos
    · obtain ⟨p, rfl, -, hp⟩ := hdescribes.exists_of_mem_occupied hprice
      exact UInt32.le_iff_toNat_le.mp (UInt32.not_lt.mp (hbound p hp))
  · rw [hnone, bestBid,
      highest_of_empty ((hdescribes.occupied_eq_empty_iff .bid).mpr hzero)]
    rfl

/-- The best ask, with what tells whether there is one. -/
theorem bestAsk_eq (hdescribes : book.Describes tally resting) :
    (tally.best .ask).toNat = book.bestAsk ∧
      (occupied (book .ask) = ∅ ↔ tally.best .ask = invalidPrice) ∧
      (tally.best .ask ≠ invalidPrice →
        0 < resting.volume .ask (tally.best .ask)) := by
  rcases hdescribes.best .ask with ⟨hpos, hbound⟩ | ⟨hzero, hnone⟩
  · have hmem := (hdescribes.mem_occupied_iff .ask _).mpr hpos
    have hsome : occupied (book .ask) ≠ ∅ :=
      Set.nonempty_iff_ne_empty.mp ⟨_, hmem⟩
    have hlt := hdescribes.price_lt hpos
    refine ⟨?_, iff_of_false hsome fun heq => ?_, fun _ => hpos⟩
    · rw [bestAsk, if_neg hsome]
      refine (lowest_of_isLeast ⟨hmem, fun price hprice => ?_⟩).symm
      obtain ⟨p, rfl, -, hp⟩ := hdescribes.exists_of_mem_occupied hprice
      exact UInt32.le_iff_toNat_le.mp (UInt32.not_lt.mp (hbound p hp))
    · rw [heq] at hlt
      exact absurd hlt (by decide)
  · have hempty := (hdescribes.occupied_eq_empty_iff .ask).mpr hzero
    have hinvalid : tally.best .ask = invalidPrice := hnone
    exact ⟨by rw [bestAsk, if_pos hempty,
      hinvalid], iff_of_true hempty hinvalid,
      fun hne => absurd hinvalid hne⟩

/-- The midpoint of the source is the middle of the book. -/
theorem midPrice_eq (hdescribes : book.Describes tally resting)
    (queues : Queues) :
    (midPrice ⟨queues, tally⟩).toNat = book.middle := by
  have hbid := hdescribes.bestBid_eq
  obtain ⟨hask, hnone, hsome⟩ := hdescribes.bestAsk_eq
  have hbidLt : MBOBookWithBIT.getBestBid ⟨queues, tally⟩ < maxPriceLevels := by
    rcases hdescribes.best .bid with ⟨hpos, -⟩ | ⟨-, hzero⟩
    · exact hdescribes.price_lt hpos
    · rw [MBOBookWithBIT.getBestBid, hzero]
      decide
  simp only [middle]
  by_cases hempty : occupied (book .ask) = ∅
  · rw [if_pos hempty, midPrice_toNat_of_no_ask hbidLt (hnone.mp hempty),
      MBOBookWithBIT.getBestBid, hbid]
    split_ifs <;> first | contradiction | omega
  · have haskLt : MBOBookWithBIT.getBestAsk ⟨queues, tally⟩ < maxPriceLevels :=
      hdescribes.price_lt (hsome (hnone.not.mp hempty))
    rw [if_neg hempty, midPrice_toNat hbidLt haskLt, MBOBookWithBIT.getBestBid,
      MBOBookWithBIT.getBestAsk, hbid, hask]
    split_ifs <;> first | contradiction | omega

theorem routedSide_eq (hdescribes : book.Describes tally resting)
    (queues : Queues) (price : UInt32) :
    routedSide ⟨queues, tally⟩ price = book.sideOf price.toNat := by
  simp only [routedSide, sideOf, UInt32.le_iff_toNat_le, hdescribes.midPrice_eq]

theorem length_eq (hdescribes : book.Describes tally resting) (side : Side)
    (price : UInt32) :
    (resting side price).length = (book side price.toNat).length := by
  rw [← hdescribes.queue, List.length_map]

/-- A book holds as many orders as it is described to. -/
theorem length_slots (hdescribes : book.Describes tally resting) :
    resting.slots.length = book.count := by
  have hlevel : ∀ side, ∀ price ∈ Finset.range maxPriceLevels.toNat,
      (resting side (.ofNat price)).length = (book side price).length := by
    intro side price hprice
    have hmax := maxPriceLevels.toNat_lt
    rw [Finset.mem_range] at hprice
    rw [hdescribes.length_eq, UInt32.toNat_ofNat', Nat.mod_eq_of_lt (by omega)]
  have hside : ∀ side, (resting.sideSlots side).length =
      ∑ price ∈ Finset.range maxPriceLevels.toNat,
        (book side price).length := by
    intro side
    rw [← Finset.sum_congr rfl (hlevel side), sideSlots, length_flatMap_range]
    simp only [List.length_map]
  rw [slots, List.length_append, hside, hside, count, Finset.sum_add_distrib]

/-- The volume between two prices, added up over the queues. -/
theorem volumeBetween_eq (hdescribes : book.Describes tally resting)
    (side : Side) (low high : UInt32) : resting.volumeBetween side low high =
      ∑ price ∈ Finset.Icc low.toNat high.toNat, volume (book side price) := by
  have hmax := maxPriceLevels.toNat_lt
  have hlevel : ∀ price < maxPriceLevels.toNat,
      resting.volume side (.ofNat price) =
        PriceTime.volume (book side price) := by
    intro price hprice
    rw [hdescribes.volume_eq, UInt32.toNat_ofNat', Nat.mod_eq_of_lt (by omega)]
  rw [volumeBetween, Finset.sum_congr rfl fun price hprice =>
    hlevel price (Finset.mem_range.mp (Finset.mem_filter.mp hprice).1)]
  refine Finset.sum_subset (fun price hprice => ?_) fun price hprice hnot => ?_
  · exact Finset.mem_Icc.mpr (Finset.mem_filter.mp hprice).2
  · have hge : maxPriceLevels.toNat ≤ price := by
      by_contra hlt
      exact hnot (Finset.mem_filter.mpr
        ⟨Finset.mem_range.mpr (not_le.mp hlt), Finset.mem_Icc.mp hprice⟩)
    rw [hdescribes.valid side price hge, volume_nil]

/-- The queue at a level replaced on both sides of the description. -/
theorem setQueue (hdescribes : book.Describes tally resting)
    {tally' : DepthTally} {side : Side} {price : UInt32}
    (hprice : price < maxPriceLevels) {queue : List Resting}
    (hpositive : Positive (queue.map Resting.order))
    (hbest : tally'.Exact (setAt resting side price queue))
    (htotals : tally'.Agrees (setAt resting side price queue)) :
    (book.setQueue side price.toNat (queue.map Resting.order)).Describes tally'
      (setAt resting side price queue) where
  queue s p := by
    simp only [setAt, LimitBook.setQueue, UInt32.toNat_inj]
    split
    · rfl
    · exact hdescribes.queue s p
  valid s p hge := by
    have hne : ¬ (s = side ∧ p = price.toNat) := by
      rintro ⟨-, rfl⟩
      exact absurd (UInt32.lt_iff_toNat_lt.mp hprice) (not_lt.mpr hge)
    rw [LimitBook.setQueue, if_neg hne]
    exact hdescribes.valid s p hge
  positive s p := by
    rw [LimitBook.setQueue]
    split
    · exact hpositive
    · exact hdescribes.positive s p
  best := hbest
  totals := htotals

section Steps

variable {queues : Queues} {pool : OrderPool size} {free free' : List UInt32}
  {side : Side} {price qty ret : UInt32} {resting' : AbstractBook}
  {tally' : DepthTally}

/-- An order is placed as the description says, if it has a quantity and its
level fits in 32 bits. -/
theorem enqueue (hdescribes : book.Describes tally resting)
    (htracks : tally.Tracks resting) (hrep : Represents queues pool resting)
    (hfree : pool.FreeList free) {orderId : UInt64}
    (hstep : Step free resting tally (.enqueue side price orderId qty) ret free'
      resting' tally')
    {room : Prop} [Decidable room] (hroom : room ↔ pool.freeHead ≠ nullIdx)
    (hqty : 0 < qty) {book' : LimitBook} (hbook' : book' =
      if price.toNat < maxPriceLevels.toNat ∧ room then
        book.setQueue side price.toNat
          (book side price.toNat ++ [⟨orderId, qty.toNat⟩])
      else book)
    (hfits : book'.Fits) : book'.Describes tally' resting' := by
  have hquantity := UInt32.lt_iff_toNat_lt.mp hqty
  have hplaces : price < maxPriceLevels → pool.freeHead ≠ nullIdx →
      resting.volume side price + qty.toNat < 2 ^ 32 := by
    intro hprice hsome
    rw [if_pos ⟨UInt32.lt_iff_toNat_lt.mp hprice, hroom.mpr hsome⟩] at hbook'
    have hlevel := hfits side price.toNat
    rw [hbook', setQueue_self, volume_append, volume_cons, volume_nil] at hlevel
    rwa [hdescribes.volume_eq]
  have hbest := (hdescribes.best.step_iff htracks hrep hfree hstep).mpr
    fun _ _ _ => hquantity
  have htotals := (hdescribes.totals.step_iff hfree hstep).mpr hplaces
  cases hstep with
  | invalid hprice =>
      have hrefused : book' = book := by
        rw [hbook', if_neg fun hplaced =>
          not_lt.mpr (UInt32.le_iff_toNat_le.mp hprice) hplaced.1]
      rw [hrefused]
      exact hdescribes
  | full _ hnone =>
      have hrefused : book' = book := by
        rw [hbook', if_neg fun hplaced =>
          hroom.mp hplaced.2 (hfree.head_iff.mpr hnone)]
      rw [hrefused]
      exact hdescribes
  | placed hprice _ hhead =>
      have hsome : pool.freeHead ≠ nullIdx := by
        rw [Ne, hfree.head_iff, hhead]
        exact List.cons_ne_nil _ _
      have hqueue := hdescribes.queue side price
      have hplaced :
          (resting side price ++ [(⟨ret, orderId, qty⟩ : Resting)]).map
          Resting.order =
          book side price.toNat ++ [⟨orderId, qty.toNat⟩] := by
        rw [List.map_append, hqueue]
        rfl
      have hback : Positive [(⟨orderId, qty.toNat⟩ : Ticket UInt64)] := by
        intro ticket hticket
        rw [List.mem_singleton.mp hticket]
        exact hquantity
      rw [hbook', if_pos ⟨UInt32.lt_iff_toNat_lt.mp hprice, hroom.mpr hsome⟩,
        ← hplaced]
      refine hdescribes.setQueue hprice ?_ hbest htotals
      rw [hplaced]
      exact (hdescribes.positive _ _).append hback

/-- A trade serves the queue of the description. -/
theorem trade (hdescribes : book.Describes tally resting)
    (htracks : tally.Tracks resting) (hrep : Represents queues pool resting)
    (hfree : pool.FreeList free)
    (hstep : Step free resting tally (.trade side price qty) ret free'
      resting' tally') :
    (book.setQueue side price.toNat
      (serve qty.toNat (book side price.toNat))).Describes tally'
      resting' := by
  -- The level totals are exact, so that no level is emptied behind their back.
  have hguarded : 0 < resting.volume side price →
      tally.Guarded resting side price :=
    fun hpos _ _ => (hdescribes.totals side price (hdescribes.price_lt hpos)).le
  have hbest := (hdescribes.best.step_iff htracks hrep hfree hstep).mpr
    fun hpos _ => hguarded hpos
  have htotals := (hdescribes.totals.step_iff hfree hstep).mpr trivial
  cases hstep with
  | untraded hprice =>
      have hnil :=
        hdescribes.valid side price.toNat (UInt32.le_iff_toNat_le.mp hprice)
      rw [setQueue_eq_self (by rw [hnil]; rfl)]
      exact hdescribes
  | traded hprice =>
      have hserved : (consume qty (resting side price)).map Resting.order =
          serve qty.toNat (book side price.toNat) := by
        rw [← hdescribes.queue side price]
        exact consume_tickets _ _ _
      rw [← hserved]
      refine hdescribes.setQueue hprice ?_ hbest htotals
      rw [hserved]
      exact (hdescribes.positive _ _).serve _

end Steps

/-- A message does to a book what it does to its description. -/
theorem deliver {ι : Type*} [DecidableEq ι] {books : Books ι DepthTally size}
    {a : ι → AbstractBook} {slot : ι} {message : ItchMessage}
    {book' : AbstractBook}
    (hdescribes : book.Describes (books.book slot).tally (a slot))
    (hsound : books.Sound a) (hdelivered : books.Delivered a slot message
      (books.deliver slot message) book')
    {room : Prop} [Decidable room]
    (hroom : room ↔ books.pool.freeHead ≠ nullIdx)
    (hqty : message.type = addType → 0 < message.qty)
    (hfits : (book.process room message).Fits) :
    (book.process room message).Describes
      ((books.deliver slot message).book slot).tally book' := by
  have hside : routedSide (books.book slot) message.price =
      book.sideOf message.price.toNat :=
    hdescribes.routedSide_eq (books.book slot).queues message.price
  have hrep := hsound.holds.represents slot
  have htracks := hsound.tracks slot
  generalize books.deliver slot message = after at hdelivered ⊢
  cases hdelivered with
  | ignored hroute =>
      have hneither : message.type ≠ addType ∧ message.type ≠ tradeType := by
        rw [route] at hroute
        split at hroute
        · simp at hroute
        · split at hroute
          · simp at hroute
          · exact ⟨‹_›, ‹_›⟩
      rw [process, if_neg hneither.1, if_neg hneither.2]
      exact hdescribes
  | step hroute hfree hstep =>
      rcases route_eq_some hroute with ⟨htype, rfl⟩ | ⟨htype, rfl⟩
      · rw [hside] at hstep ⊢
        rw [process, if_pos htype] at hfits ⊢
        exact hdescribes.enqueue htracks hrep hfree hstep hroom
          (hqty htype) rfl hfits
      · rw [hside] at hstep ⊢
        rw [process, if_neg (by rw [htype]; decide), if_pos htype]
        exact hdescribes.trade htracks hrep hfree hstep

theorem reports (hdescribes : book.Describes tally resting)
    (htracks : tally.Tracks resting)
    (queues : Queues) : book.Reports ⟨queues, tally⟩ := by
  have hbid := hdescribes.bestBid_eq
  obtain ⟨hask, hnone, -⟩ := hdescribes.bestAsk_eq
  refine ⟨hbid, hask, fun huncrossed => ?_, fun side price hprice =>
    ?_, fun side low high => ?_⟩
  · have hzero : MBOBookWithBIT.getBestBid ⟨queues, tally⟩ = 0 ↔
      book.bestBid = 0 := by
      rw [← hbid, ← UInt32.toNat_inj]
      rfl
    have habsent : MBOBookWithBIT.getBestAsk ⟨queues, tally⟩ = invalidPrice ∨
        MBOBookWithBIT.getBestBid ⟨queues, tally⟩ = 0 ↔
          occupied (book .ask) = ∅ ∨ book.bestBid = 0 :=
            or_congr hnone.symm hzero
    rw [MBOBookWithBIT.spread]
    by_cases hempty : occupied (book .ask) = ∅ ∨ book.bestBid = 0
    · rw [if_pos hempty, if_pos (habsent.mpr hempty)]
      rfl
    · have hle : tally.best .bid ≤ tally.best .ask := by
        rw [UInt32.le_iff_toNat_le, hbid, hask]
        exact huncrossed
      rw [if_neg hempty, if_neg (habsent.not.mpr hempty)]
      exact (UInt32.toNat_sub_of_le _ _ hle).trans (by rw [hbid, hask])
  · exact (hdescribes.totals side price hprice).trans
      (hdescribes.volume_eq side price)
  · rw [MBOBookWithBIT.volumeRange, htracks.rangeSum_eq,
      hdescribes.volumeBetween_eq]

end Describes

end LimitBook

end MarketDataPipeline
