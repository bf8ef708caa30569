import MarketDataPipeline.Pipeline.MessageStep

/-!
# A book on a pool of its own

Two books that differ only in the slots of their orders stay alike under the
same calls.  A book on a shared pool is compared here with a book on a pool of
its own: a message does the same to both unless the shared pool is full.
-/

namespace MarketDataPipeline

open AbstractBook LFUPolicy

variable {size : UInt32}

/-! ## Books alike up to slots -/

/-- What is visible of a resting order: its id and what is left of it. -/
def Resting.visible (r : Resting) : UInt64 × UInt32 := (r.orderId, r.qty)

namespace AbstractBook

/-- The same visible orders in the same places. -/
def Alike (book other : AbstractBook) : Prop :=
  ∀ side price, (book side price).map Resting.visible =
    (other side price).map Resting.visible

theorem Alike.setAt {book other : AbstractBook} (halike : Alike book other)
    (side : Side) (price : UInt32) {queue queue' : List Resting}
    (hqueue : queue.map Resting.visible = queue'.map Resting.visible) :
    Alike (setAt book side price queue) (setAt other side price queue') := by
  intro s p
  rw [MarketDataPipeline.setAt, MarketDataPipeline.setAt]
  split
  · exact hqueue
  · exact halike s p

/-- A trade takes the same from queues that look the same. -/
theorem consume_visible {queue queue' : List Resting}
    (hqueue : queue.map Resting.visible = queue'.map Resting.visible)
    (qty : UInt32) :
    (consume qty queue).map Resting.visible =
      (consume qty queue').map Resting.visible := by
  induction queue generalizing queue' qty with
  | nil =>
      obtain rfl := List.map_eq_nil_iff.mp hqueue.symm
      rfl
  | cons r rest ih =>
      cases queue' with
      | nil => simp at hqueue
      | cons r' rest' =>
          rw [List.map_cons, List.map_cons, List.cons.injEq, Resting.visible,
            Resting.visible, Prod.mk.injEq] at hqueue
          obtain ⟨⟨hid, hqty⟩, hrest⟩ := hqueue
          rw [consume, consume, hqty]
          split
          · simp [Resting.visible, hid, hqty, hrest]
          · split
            · exact ih hrest _
            · simp [Resting.visible, hid, hrest]

/-- The tally of a trade depends on what is visible only. -/
theorem recordTrade_visible {T : Type*} [LevelTally T]
    {queue queue' : List Resting}
    (hqueue : queue.map Resting.visible = queue'.map Resting.visible)
    (side : Side) (price qty : UInt32) (tally : T) :
    recordTrade side price qty queue tally =
      recordTrade side price qty queue' tally := by
  induction queue generalizing queue' qty tally with
  | nil =>
      obtain rfl := List.map_eq_nil_iff.mp hqueue.symm
      rfl
  | cons r rest ih =>
      cases queue' with
      | nil => simp at hqueue
      | cons r' rest' =>
          rw [List.map_cons, List.map_cons, List.cons.injEq, Resting.visible,
            Resting.visible, Prod.mk.injEq] at hqueue
          obtain ⟨⟨-, hqty⟩, hrest⟩ := hqueue
          rw [recordTrade, recordTrade, hqty]
          split
          · rfl
          · split
            · exact ih hrest _ _
            · rfl

/-- Books that look alike hold the same number of orders. -/
theorem Alike.length_slots {book other : AbstractBook}
    (halike : Alike book other) :
    book.slots.length = other.slots.length := by
  have hlevel : ∀ side price, ((book side price).map Resting.idx).length =
      ((other side price).map Resting.idx).length := by
    intro side price
    have hlength := congrArg List.length (halike side price)
    simpa only [List.length_map] using hlength
  simp only [slots, sideSlots, List.length_append, List.length_flatMap, hlevel]

/-- An enqueue places nothing when its price is invalid or no slot is free. -/
theorem Step.enqueue_null_iff {T : Type*} [LevelTally T]
    {book book' : AbstractBook} {tally tally' : T} {free free' : List UInt32}
    {side : Side} {price qty ret : UInt32} {orderId : UInt64}
    (hstep : Step free book tally (.enqueue side price orderId qty) ret free'
      book' tally') :
    ret = nullIdx ↔ maxPriceLevels ≤ price ∨ free = [] := by
  cases hstep with
  | invalid hprice => exact iff_of_true rfl (Or.inl hprice)
  | full _ hfree => exact iff_of_true rfl (Or.inr hfree)
  | placed hprice hidx hfree =>
      refine iff_of_false hidx ?_
      rintro (hinvalid | hnone)
      · exact UInt32.not_lt.mpr hinvalid hprice
      · simp [hnone] at hfree

/-- An enqueue that places nothing changes nothing. -/
theorem Step.eq_of_unplaced {T : Type*} [LevelTally T]
    {book book' : AbstractBook} {tally tally' : T} {free free' : List UInt32}
    {side : Side} {price qty ret : UInt32} {orderId : UInt64}
    (hstep : Step free book tally (.enqueue side price orderId qty) ret free'
      book' tally')
    (hnull : ret = nullIdx) : book' = book ∧ tally' = tally := by
  cases hstep with
  | invalid | full => exact ⟨rfl, rfl⟩
  | placed _ hidx => exact absurd hnull hidx

/-- Steps of books that look alike lead to books that look alike, unless only
one of them finds a slot for an order. -/
theorem Alike.step {T : Type*} [LevelTally T]
    {book other book' other' : AbstractBook} {tally tally' tally'' : T}
    {free free' freeOther freeOther' : List UInt32} {op : BookOp}
    {ret ret' : UInt32} (halike : Alike book other)
    (hop : ∀ idx, op ≠ .dequeue idx)
    (hstep : Step free book tally op ret free' book' tally')
    (hother : Step freeOther other tally op ret' freeOther' other' tally'')
    (hplaced : ∀ side price orderId qty, op = .enqueue side price orderId qty →
      (ret = nullIdx ↔ ret' = nullIdx)) :
    Alike book' other' ∧ tally' = tally'' := by
  cases hstep with
  | invalid hprice =>
      cases hother with
      | invalid | full => exact ⟨halike, rfl⟩
      | placed _ hidx => exact absurd ((hplaced _ _ _ _ rfl).mp rfl) hidx
  | full =>
      cases hother with
      | invalid | full => exact ⟨halike, rfl⟩
      | placed _ hidx => exact absurd ((hplaced _ _ _ _ rfl).mp rfl) hidx
  | @placed side price _ _ _ _ _ hidx =>
      cases hother with
      | invalid | full => exact absurd ((hplaced _ _ _ _ rfl).mpr rfl) hidx
      | placed =>
          refine ⟨halike.setAt side price ?_, rfl⟩
          simp [halike side price, Resting.visible]
  | untraded hprice =>
      cases hother with
      | untraded => exact ⟨halike, rfl⟩
      | traded hvalid => exact absurd hvalid (UInt32.not_lt.mpr hprice)
  | @traded side price qty _ hprice =>
      cases hother with
      | untraded hinvalid => exact absurd hprice (UInt32.not_lt.mpr hinvalid)
      | traded =>
          have hqueue := halike side price
          refine ⟨halike.setAt side price (consume_visible hqueue qty), ?_⟩
          rw [recordTrade_visible hqueue]
  | dequeued => exact absurd rfl (hop _)
  | cleared =>
      cases hother
      exact ⟨fun _ _ => rfl, rfl⟩

end AbstractBook

/-! ## A book on a pool of its own -/

/-- The allocation for an Add message at a valid price fails. -/
def AllocationFails (pool : OrderPool size) (message : ItchMessage) : Prop :=
  message.type = addType ∧ message.price < maxPriceLevels ∧
    pool.alloc.1 = nullIdx

instance (pool : OrderPool size) (message : ItchMessage) :
    Decidable (AllocationFails pool message) :=
  inferInstanceAs (Decidable (_ ∧ _ ∧ _))

/-- A fresh book on a fresh pool, fed messages by the same routing rule. -/
def soloRun (size : UInt32) (orders : UInt32 → Order)
    (messages : List ItchMessage) :
    Books Unit DepthTally size :=
  messages.foldl (fun solo message => solo.deliver () message)
    (.init .init orders)

theorem soloRun_concat (orders : UInt32 → Order) (messages : List ItchMessage)
    (message : ItchMessage) : soloRun size orders (messages ++ [message]) =
      (soloRun size orders messages).deliver () message := by
  rw [soloRun, List.foldl_append]
  rfl

namespace Books

/-- A free slot leaves room for one more order than a book holds. -/
theorem Holds.length_slots_lt {ι : Type*} {books : Books ι DepthTally size}
    {a : ι → AbstractBook} (hholds : books.Holds a) {idx : UInt32}
    {rest : List UInt32} (hfree : books.pool.FreeList (idx :: rest)) (i : ι) :
    (a i).slots.length < size.toNat := by
  have hrep := hholds.represents i
  obtain ⟨hidx, hinactive⟩ := (hfree.mem_iff idx).mp (by simp)
  have hnodup : (idx :: (a i).slots).Nodup := by
    refine List.nodup_cons.mpr ⟨fun hmem => ?_, hrep.slots_nodup_all⟩
    exact hrep.not_rests hinactive ((hrep.mem_slots idx).mp hmem)
  have hinside : ∀ slot ∈ idx :: (a i).slots, slot < size := by
    intro slot hslot
    rcases List.mem_cons.mp hslot with rfl | hmem
    · exact hidx
    · exact hrep.lt_size ((hrep.mem_slots slot).mp hmem)
  have hlength := OrderPool.length_le_of_nodup hnodup hinside
  rw [List.length_cons] at hlength
  exact Nat.lt_of_succ_le hlength

/-- A book alone on a pool without a free slot holds them all. -/
theorem Holds.le_length_slots {solo : Books Unit DepthTally size}
    {own : Unit → AbstractBook} (hholds : solo.Holds own)
    (hfree : solo.pool.FreeList []) :
    size.toNat ≤ (own ()).slots.length := by
  have hsubset : OrderPool.allSlots size ⊆ (own ()).slots := by
    intro idx hidx
    rw [OrderPool.mem_allSlots] at hidx
    have hactive : solo.pool.active idx = true :=
      hfree.eq_nil_iff.mp rfl idx hidx
    obtain ⟨i, hrests⟩ := (hholds.active_iff hidx).mp hactive
    exact ((hholds.represents ()).mem_slots idx).mpr hrests
  have hlength :=
    (List.subperm_of_subset (OrderPool.allSlots_nodup size) hsubset).length_le
  rwa [OrderPool.allSlots_length] at hlength

/-- Where a shared pool has a free slot, so has the pool of a book alone. -/
theorem Holds.free_ne_nil {ι : Type*} {books : Books ι DepthTally size}
    {a : ι → AbstractBook} {i : ι} {solo : Books Unit DepthTally size}
    {own : Unit → AbstractBook} {free freeOwn : List UInt32}
    (hown : solo.Holds own) (hholds : books.Holds a)
    (halike : Alike (own ()) (a i)) (hfreeOwn : solo.pool.FreeList freeOwn)
    (hfree : books.pool.FreeList free) (hsome : free ≠ []) : freeOwn ≠ [] := by
  rintro rfl
  obtain ⟨idx, rest, rfl⟩ := List.exists_cons_of_ne_nil hsome
  have hshared := hholds.length_slots_lt hfree i
  have halone := hown.le_length_slots hfreeOwn
  rw [halike.length_slots] at halone
  omega

/-- A book on a pool of its own looks like `book` and has its tally. -/
structure Mirrors (solo : Books Unit DepthTally size) (book : AbstractBook)
    (tally : DepthTally) : Prop where
  tally_eq : (solo.book ()).tally = tally
  alike : ∃ own, solo.Sound own ∧ Alike (own ()) book

theorem init_mirrors (hsize : 0 < size.toNat) (orders : UInt32 → Order) :
    (soloRun size orders []).Mirrors empty .init :=
  ⟨rfl, _, init_sound hsize orders, fun _ _ => rfl⟩

/-- A message that does not fail to allocate does the same to both. -/
theorem Mirrors.deliver {ι : Type*} [DecidableEq ι]
    {books : Books ι DepthTally size} {a : ι → AbstractBook} {slot : ι}
    {solo : Books Unit DepthTally size} {message : ItchMessage}
    {book' : AbstractBook}
    (hmirrors : solo.Mirrors (a slot) (books.book slot).tally)
    (hsound : books.Sound a)
    (hdelivered : books.Delivered a slot message
      (books.deliver slot message) book') :
    (if AllocationFails books.pool message then solo else solo.deliver
      () message).Mirrors book'
      ((books.deliver slot message).book slot).tally := by
  obtain ⟨htally, own, hown, halike⟩ := hmirrors
  have hroutes := route_congr htally message
  generalize hafter : books.deliver slot message = after at hdelivered
  cases hdelivered with
  | ignored hroute =>
      have hnotFails : ¬ AllocationFails books.pool message := by
        rintro ⟨hadd, -⟩
        rw [route, if_pos hadd] at hroute
        simp at hroute
      have hsame : solo.deliver () message = solo := by
        rw [Books.deliver, hroutes, hroute]
      rw [if_neg hnotFails, hsame]
      exact ⟨htally, own, hown, halike⟩
  | @step op free free' _ hroute hfree hstep =>
      by_cases hfails : AllocationFails books.pool message
      · obtain ⟨hadd, hprice, hnull⟩ := hfails
        have hnone := hfree.alloc_eq_null.mp hnull
        rw [route, if_pos hadd, Option.some.injEq] at hroute
        subst hroute
        rw [if_pos ⟨hadd, hprice, hnull⟩]
        obtain ⟨rfl, hkept⟩ :=
          hstep.eq_of_unplaced (hstep.enqueue_null_iff.mpr (Or.inr hnone))
        rw [hkept]
        exact ⟨htally, own, hown, halike⟩
      · rw [if_neg hfails]
        obtain ⟨own', hdelivered, hown'⟩ := hown.deliver () message
        generalize solo.deliver () message = soloAfter at hdelivered hown'
        cases hdelivered with
        | ignored hignored =>
            rw [hroutes, hroute] at hignored
            simp at hignored
        | @step opOwn freeOwn freeOwn' _ hrouteOwn hfreeOwn hstepOwn =>
            rw [hroutes, hroute, Option.some.injEq] at hrouteOwn
            subst hrouteOwn
            rw [htally] at hstepOwn
            have hop : ∀ idx, op ≠ .dequeue idx := by
              rintro idx rfl
              rcases route_eq_some hroute with
                ⟨-, heq⟩ | ⟨-, heq⟩ <;> simp at heq
            have hplaced : ∀ side price orderId qty, op =
                .enqueue side price orderId qty →
                ((solo.apply () op).1 = nullIdx ↔ (books.apply slot op).1 =
                  nullIdx) := by
              rintro side price orderId qty rfl
              rw [hstepOwn.enqueue_null_iff, hstep.enqueue_null_iff]
              refine or_congr_right' fun hvalid => ?_
              rcases route_eq_some hroute with ⟨hadd, heq⟩ | ⟨-, heq⟩
              · obtain ⟨-, hprice, -⟩ := BookOp.enqueue.inj heq
                have hsome : free ≠ [] := fun hnone => hfails
                  ⟨hadd, hprice ▸ UInt32.not_le.mp hvalid,
                    hfree.alloc_eq_null.mpr hnone⟩
                exact iff_of_false
                  (hown.holds.free_ne_nil hsound.holds halike
                  hfreeOwn hfree hsome)
                  hsome
              · simp at heq
            obtain ⟨halike', htally'⟩ := halike.step hop hstepOwn hstep hplaced
            exact ⟨htally', _, hown', by rwa [Function.update_self]⟩

end Books

end MarketDataPipeline
