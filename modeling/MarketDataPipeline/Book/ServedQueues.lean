import MarketDataPipeline.Book.LevelTotals
import MarketDataPipeline.Core.PriceTime

/-!
# Trades serve queues

A trade serves the queue of its level in the sense of `PriceTime`.  A trade may
therefore be split: two trades at a level do together what one trade of the
sum does, slot by slot, and count as two.
-/

namespace MarketDataPipeline

open AbstractBook DepthTally

variable {size : UInt32} {ι Id : Type*}

/-- A resting order as a ticket, under an id made of its slot and its
order id. -/
def Resting.ticket (ident : UInt32 → UInt64 → Id) (r : Resting) :
    PriceTime.Ticket Id :=
  ⟨ident r.idx r.orderId, r.qty.toNat⟩

def Resting.order : Resting → PriceTime.Ticket UInt64 :=
  Resting.ticket fun _ orderId => orderId

@[simp]
theorem Resting.ticket_qty (ident : UInt32 → UInt64 → Id) (r : Resting) :
    (r.ticket ident).qty = r.qty.toNat := rfl

namespace AbstractBook

theorem volume_tickets (ident : UInt32 → UInt64 → Id) (queue : List Resting) :
    PriceTime.volume (queue.map (Resting.ticket ident)) = quantity queue := by
  rw [PriceTime.volume, quantity, List.map_map]
  rfl

/-- What a trade leaves of a queue. -/
theorem consume_tickets (ident : UInt32 → UInt64 → Id) (qty : UInt32)
    (queue : List Resting) :
    (consume qty queue).map (Resting.ticket ident) =
      PriceTime.serve qty.toNat (queue.map (Resting.ticket ident)) := by
  induction queue generalizing qty with
  | nil => rfl
  | cons r rest ih =>
      have hzero : qty = 0 ↔ qty.toNat = 0 := by
        rw [← UInt32.toNat_inj, UInt32.toNat_zero]
      rw [List.map_cons, PriceTime.serve, consume, Resting.ticket_qty]
      by_cases hqty : qty = 0
      · rw [if_pos hqty, if_pos (hzero.mp hqty), List.map_cons]
      rw [if_neg hqty, if_neg (hzero.not.mp hqty)]
      by_cases hle : r.qty ≤ qty
      · have hsub := UInt32.toNat_sub_of_le _ _ hle
        rw [if_pos hle, if_pos (UInt32.le_iff_toNat_le.mp hle), ih, hsub]
      · have hsub :=
          UInt32.toNat_sub_of_le _ _ (UInt32.le_of_lt (UInt32.not_le.mp hle))
        rw [if_neg hle, if_neg (UInt32.le_iff_toNat_le.not.mp hle),
          List.map_cons, ← hsub]
        rfl

/-! ## Two trades -/

section Split

variable {qty later : UInt32} (hsum : qty.toNat + later.toNat < 2 ^ 32)

include hsum

end Split

end AbstractBook

/-! ## What two trades record -/

theorem FenwickTree.updateLoop_eq (n : UInt32) (delta : ℤ) (fuel : ℕ)
    (idx : UInt32) (tree : UInt32 → ℤ) (node : UInt32) :
    updateLoop n delta fuel idx tree node =
      tree node + delta * updateLoop n 1 fuel idx (fun _ => 0) node := by
  induction fuel generalizing delta idx tree with
  | zero => simp [updateLoop]
  | succ fuel ih =>
      rw [updateLoop, updateLoop]
      split
      case isTrue =>
        have hrest :=
          ih delta (idx + (idx &&& -idx))
            (Function.update tree idx (tree idx + delta))
        have hone :=
          ih 1 (idx + (idx &&& -idx)) (Function.update (fun _ => 0) idx (0 + 1))
        rw [one_mul] at hone
        rw [hrest, hone]
        by_cases hnode : node = idx
        · subst hnode
          rw [Function.update_self, Function.update_self]
          ring
        · rw [Function.update_of_ne hnode,
            Function.update_of_ne hnode, zero_add]
      case isFalse => ring

namespace DepthTally

variable {tally : DepthTally} {side : Side} {price : UInt32}

end DepthTally

namespace Books

variable [DecidableEq ι] {books : Books ι DepthTally size}
  {a : ι → AbstractBook}

/-- A trade from a known free list, with what it records. -/
theorem Holds.traded (hholds : books.Holds a) {free : List UInt32}
    (hfree : books.pool.FreeList free) (i : ι) (side : Side) {price : UInt32}
    (hprice : price < maxPriceLevels) (qty : UInt32) :
    let done := books.apply i (.trade side price qty)
    done.2.pool.FreeList (releaseTraded qty (a i side price) free) ∧
      done.2.Holds (Function.update a i (setAt (a i) side price
        (consume qty (a i side price)))) ∧
      done.1.toNat = fill qty (a i side price) ∧
      (done.2.book i).tally = LevelTally.countTrade
        (AbstractBook.recordTrade side price qty (a i side price)
          (books.book i).tally) := by
  intro done
  have hallowed : BookOp.Allowed (books.book i).queues books.pool
    (.trade side price qty) := trivial
  obtain ⟨free', a', hfollows, hstep⟩ :=
    (hholds.represents i).apply_step hfree hallowed
  have hholds' : done.2.Holds (Function.update a i a') :=
    hholds.update hfollows _
  have hfree' : done.2.pool.FreeList free' := hfollows.freeList
  have htally : (done.2.book i).tally =
      ((books.book i).apply books.pool (.trade side price qty)).2.1.tally :=
    congrArg OrderBook.tally (Function.update_self ..)
  have hdone : done.1 =
    ((books.book i).apply books.pool (.trade side price qty)).1 := rfl
  rw [htally, hdone]
  generalize ((books.book i).apply books.pool (.trade side price qty)).1 =
    filled at hstep ⊢
  generalize ((books.book i).apply books.pool
    (.trade side price qty)).2.1.tally = tally' at hstep ⊢
  cases hstep with
  | untraded hinvalid => exact absurd hprice (UInt32.not_lt.mpr hinvalid)
  | traded _ hfilled => exact ⟨hfree', hholds', hfilled, rfl⟩

end Books

end MarketDataPipeline
