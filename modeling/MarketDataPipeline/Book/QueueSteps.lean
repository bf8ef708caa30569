import MarketDataPipeline.Book.QueueEdits

/-!
# Queue operations with their frame

The three steps that every book operation is made of: placing an order,
removing one, and reducing one.  Each keeps the free list, follows the
abstract book, and leaves the slots of other books alone.
-/

namespace MarketDataPipeline

open LinkRing AbstractBook

variable {size : UInt32} {queues : Queues} {pool : OrderPool size}
  {book : AbstractBook}

/-- The state after a step holds the new book, and the step was local. -/
structure Follows (queues' : Queues) (pool' : OrderPool size)
    (book' : AbstractBook) (free' : List UInt32) (pool : OrderPool size)
    (book : AbstractBook) :
    Prop where
  represents : Represents queues' pool' book'
  freeList : pool'.FreeList free'
  isLocal : Local pool book pool' book'

/-! ## Placing an order -/

theorem Queues.place_of_ge {side : Side} {price : UInt32}
    (hprice : maxPriceLevels ≤ price) (orderId : UInt64) (qty : UInt32) :
    queues.place pool side price orderId qty = (nullIdx, queues, pool) :=
      if_pos hprice

/-- A pool without free slots refuses the order and stays as it was. -/
theorem Queues.place_full (hfree : pool.FreeList []) (side : Side)
    (price : UInt32) (orderId : UInt64) (qty : UInt32) :
    queues.place pool side price orderId qty = (nullIdx, queues, pool) := by
  rw [place]
  split
  · rfl
  · simp [hfree.alloc_nil]

/-- With a free slot and a valid price the order goes to the tail of its
level. -/
theorem Represents.place (hrep : Represents queues pool book) {idx : UInt32}
    {free : List UInt32} (hfree : pool.FreeList (idx :: free)) (side : Side)
    {price : UInt32} (hprice : price < maxPriceLevels) (orderId : UInt64)
    (qty : UInt32) :
    (queues.place pool side price orderId qty).1 = idx ∧
      Follows (queues.place pool side price orderId qty).2.1
        (queues.place pool side price orderId qty).2.2
        (setAt book side price (book side price ++ [⟨idx, orderId, qty⟩])) free
          pool book := by
  obtain ⟨hlt, hinactive⟩ := (hfree.mem_iff idx).mp (by simp)
  have hnull : idx ≠ nullIdx := OrderPool.ne_nullIdx_of_lt hlt
  obtain ⟨halloc, hfree', horders⟩ := hfree.alloc_cons
  have hplace : queues.place pool side price orderId qty =
      (idx, queues.pushBack pool.alloc.2 side price orderId qty idx) := by
    rw [Queues.place, if_neg (by simpa using hprice)]
    simp [halloc, hnull]
  have hfresh : ¬ book.Rests idx := hrep.not_rests hinactive
  have hactive : pool.alloc.2.active idx = true := by
    rw [OrderPool.active, horders, if_pos rfl]
  have hother : ∀ i, i ≠ idx → pool.alloc.2.orders i = pool.orders i := by
    intro i hi
    rw [horders, if_neg hi]
  have hrep' : Represents queues pool.alloc.2 book := by
    refine hrep.congr fun i hi => hother i ?_
    rintro rfl
    exact hfresh hi
  let fill : Order → Order := fun o =>
    { o with
      orderId, qty, price, isBid := side.isBid,
      prevIdx := queues.tail side price,
      nextIdx := nullIdx }
  have hfilled : ∀ i, ((pool.alloc.2.modify idx fill).orders i).active =
      (pool.alloc.2.orders i).active := by
    intro i
    rw [OrderPool.modify_orders]
    split <;> rfl
  have hdetached :=
    Queues.setNext_detached queues (pool.alloc.2.modify idx fill) side price
    (queues.tail side price) idx
  have hactiveIff : ∀ i,
      (queues.pushBack pool.alloc.2 side price orderId qty idx).2.active i =
      pool.alloc.2.active i := by
    intro i
    exact (OrderPool.active_of_detached (hdetached i)).trans (hfilled i)
  have htail := List.mem_cons.mp (hrep'.tail_mem_cons side price)
  rw [hplace]
  refine ⟨rfl, hrep'.pushBack orderId qty hlt hactive hfresh hprice,
    ?freeList, ?frame, ?foreign⟩
  case freeList =>
    refine (hfree'.modify hactive fill hactive).of_detached ?_ ?_ hdetached
      fun i hi => ?_
    · exact Queues.setNext_freeHead ..
    · exact Queues.setNext_activeCount ..
    · refine Queues.setNext_orders_of_ne queues _ side price _ idx
        fun htailNe heq => ?_
      have hmem := hrep'.active_of_mem (htail.resolve_left htailNe)
      rw [OrderPool.active, hfilled, heq] at hi
      exact Bool.noConfusion (hi.symm.trans hmem)
  case frame =>
    rintro i ⟨hi, hnotRests⟩
    have hne : i ≠ idx := by
      rintro rfl
      rw [hinactive] at hi
      exact Bool.noConfusion hi
    have hset :
        (queues.pushBack pool.alloc.2 side price orderId qty idx).2.orders i =
        (pool.alloc.2.modify idx fill).orders i := by
      refine Queues.setNext_orders_of_ne queues _ side price _ idx
        fun htailNe heq => ?_
      obtain ⟨r, hr, hridx⟩ := List.mem_map.mp (htail.resolve_left htailNe)
      exact hnotRests ⟨side, price, r, hr, hridx.trans heq.symm⟩
    rw [hset, OrderPool.modify_orders, if_neg hne, hother i hne]
  case foreign =>
    intro i
    rw [Foreign, Foreign, rests_setAt_append, hactiveIff]
    by_cases hi : i = idx
    · subst hi
      simp [hinactive]
    · simp [hi, OrderPool.active, hother i hi]

/-! ## Removing an order -/

namespace AbstractBook

theorem rests_setAt_remove {side : Side} {price : UInt32} {r : Resting}
    {before after : List Resting}
    (hsplit : book side price = before ++ r :: after) {idx : UInt32}
    (hidx : idx ≠ r.idx) :
    AbstractBook.Rests (setAt book side price (before ++ after)) idx ↔
      book.Rests idx := by
  constructor
  · rintro ⟨s, p, r', hr', rfl⟩
    by_cases hlevel : s = side ∧ p = price
    · obtain ⟨rfl, rfl⟩ := hlevel
      rw [setAt_self] at hr'
      exact ⟨s, p, r', mem_of_split hsplit hr', rfl⟩
    · rw [setAt_of_ne _ _ hlevel] at hr'
      exact rests_of_mem hr'
  · rintro ⟨s, p, r', hr', rfl⟩
    by_cases hlevel : s = side ∧ p = price
    · obtain ⟨rfl, rfl⟩ := hlevel
      refine ⟨s, p, r', ?_, rfl⟩
      rw [hsplit, List.mem_append, List.mem_cons] at hr'
      rw [setAt_self, List.mem_append]
      rcases hr' with hr' | rfl | hr'
      · exact Or.inl hr'
      · exact absurd rfl hidx
      · exact Or.inr hr'
    · refine ⟨s, p, r', ?_, rfl⟩
      rwa [setAt_of_ne _ _ hlevel]

end AbstractBook

namespace Represents

theorem not_rests_removed (hrep : Represents queues pool book) {side : Side}
    {price : UInt32} {r : Resting} {before after : List Resting}
    (hsplit : book side price = before ++ r :: after) :
    ¬ AbstractBook.Rests (setAt book side price (before ++ after)) r.idx := by
  have hmem : r ∈ book side price := by simp [hsplit]
  rintro ⟨s, p, r', hr', hidx⟩
  by_cases hlevel : s = side ∧ p = price
  · obtain ⟨rfl, rfl⟩ := hlevel
    have hnodup := hrep.slots_nodup s p
    rw [hsplit, List.map_append, List.map_cons] at hnodup
    have hnotMem :=
      (List.nodup_cons.mp (List.perm_middle.nodup_iff.mp hnodup)).1
    rw [← List.map_append, ← hidx] at hnotMem
    rw [setAt_self] at hr'
    exact hnotMem (List.mem_map_of_mem hr')
  · rw [setAt_of_ne _ _ hlevel] at hr'
    exact hlevel (hrep.level_unique hmem hr' hidx.symm)

/-- Removing an order takes it out of its level and frees its slot. -/
theorem remove (hrep : Represents queues pool book) {free : List UInt32}
    (hfree : pool.FreeList free) {side : Side} {price : UInt32} {r : Resting}
    {before after : List Resting}
    (hsplit : book side price = before ++ r :: after) :
    Follows (queues.remove pool r.idx).1 (queues.remove pool r.idx).2
      (setAt book side price (before ++ after)) (r.idx :: free) pool book := by
  have hmem : r ∈ book side price := by simp [hsplit]
  obtain ⟨hlt, hstored⟩ := hrep.stored side price r hmem
  obtain ⟨hrep', hdetached, hframe⟩ := hrep.unlink hsplit
  have hactiveOf : ∀ i, (queues.unlink pool r.idx).2.active i = pool.active i :=
    fun i => OrderPool.active_of_detached (hdetached i)
  have hnotRests := hrep.not_rests_removed hsplit
  have hfree' : (queues.unlink pool r.idx).2.FreeList free := by
    refine hfree.of_detached (by simp [Queues.unlink])
      (by simp [Queues.unlink]) hdetached ?_
    intro i hi
    refine hframe i fun hmem' => ?_
    have hmem'' : i ∈ (book side price).map Resting.idx :=
      List.map_subset _ (fun r' => mem_of_split hsplit) hmem'
    rw [hrep.active_of_mem hmem''] at hi
    exact Bool.noConfusion hi
  obtain ⟨hfree'', horders⟩ :=
    hfree'.free_cons hlt ((hactiveOf r.idx).trans hstored.active)
  have hother : ∀ i, i ≠ r.idx →
      (queues.remove pool r.idx).2.orders i =
        (queues.unlink pool r.idx).2.orders i := by
    intro i hi
    exact (horders i).trans (if_neg hi)
  refine ⟨?represents, hfree'', ?frame, ?foreign⟩
  case represents =>
    refine hrep'.congr fun i hi => hother i ?_
    rintro rfl
    exact hnotRests hi
  case frame =>
    rintro i ⟨_, hi⟩
    have hne : i ≠ r.idx := by
      rintro rfl
      exact hi (rests_of_mem hmem)
    rw [hother i hne]
    refine hframe i fun hmem' => ?_
    obtain ⟨r', hr', rfl⟩ := List.mem_map.mp hmem'
    exact hi ⟨side, price, r', mem_of_split hsplit hr', rfl⟩
  case foreign =>
    intro i
    by_cases hi : i = r.idx
    · subst hi
      have hfreed : (queues.remove pool r.idx).2.active r.idx = false := by
        rw [OrderPool.active, Queues.remove, horders, if_pos rfl]
      simp [Foreign, hfreed, rests_of_mem hmem]
    · rw [Foreign, Foreign, rests_setAt_remove hsplit hi,
        OrderPool.active, hother i hi]
      exact and_congr_left fun _ => by rw [← hactiveOf i]; rfl

end Represents

/-! ## Reducing an order -/

/-- Replacing an order by one with the same slot changes no resting slot. -/
theorem AbstractBook.rests_setAt_replace {side : Side} {price : UInt32}
    {r r' : Resting} {before after : List Resting}
    (hsplit : book side price = before ++ r :: after) (hidx : r'.idx = r.idx)
    (idx : UInt32) :
    AbstractBook.Rests (setAt book side price (before ++ r' :: after)) idx ↔
      book.Rests idx := by
  have hmap : ∀ s p, (setAt book side price (before ++ r' :: after) s p).map
      Resting.idx =
      (book s p).map Resting.idx := by
    intro s p
    by_cases hlevel : s = side ∧ p = price
    · obtain ⟨rfl, rfl⟩ := hlevel
      rw [setAt_self, hsplit]
      simp [hidx]
    · rw [setAt_of_ne _ _ hlevel]
  have hmem : ∀ (other : AbstractBook), other.Rests idx ↔
      ∃ s p, idx ∈ (other s p).map Resting.idx := by
    intro other
    simp only [AbstractBook.Rests, List.mem_map]
  rw [hmem, hmem]
  simp only [hmap]

/-- A partial fill lowers the quantity of one order and moves nothing. -/
theorem Represents.reduce (hrep : Represents queues pool book)
    {free : List UInt32} (hfree : pool.FreeList free) {side : Side}
    {price : UInt32} {r : Resting} {before after : List Resting}
    (hsplit : book side price = before ++ r :: after) (qty : UInt32) :
    Follows queues (pool.modify r.idx fun o => { o with qty := o.qty - qty })
      (setAt book side price (before ++ { r with qty := r.qty - qty } :: after))
      free pool book := by
  have hmem : r ∈ book side price := by simp [hsplit]
  obtain ⟨hlt, hstored⟩ := hrep.stored side price r hmem
  let write : Order → Order := fun o => { o with qty := o.qty - qty }
  have hidx : ({ r with qty := r.qty - qty } : Resting).idx = r.idx := rfl
  have hlinks : ∀ i, (pool.modify r.idx write).nextIdx i = pool.nextIdx i ∧
      (pool.modify r.idx write).prevIdx i = pool.prevIdx i ∧
      (pool.modify r.idx write).active i = pool.active i := by
    intro i
    simp only [OrderPool.nextIdx, OrderPool.prevIdx, OrderPool.active,
      OrderPool.modify_orders]
    split <;> exact ⟨rfl, rfl, rfl⟩
  have hnext : ∀ s p, queues.nextRing (pool.modify r.idx write) s p =
      queues.nextRing pool s p := by
    intro s p
    funext i
    simp only [Queues.nextRing, Function.update_apply, (hlinks i).1]
  have hprev : ∀ s p, queues.prevRing (pool.modify r.idx write) s p =
      queues.prevRing pool s p := by
    intro s p
    funext i
    simp only [Queues.prevRing, Function.update_apply, (hlinks i).2.1]
  have hother : ∀ i, i ≠ r.idx →
      (pool.modify r.idx write).orders i = pool.orders i := by
    intro i hi
    rw [OrderPool.modify_orders, if_neg hi]
  have hring := hrep.ring side price
  rw [hsplit, List.map_append, List.map_cons] at hring
  have hrestored : ∀ r' ∈ before ++ after,
      r'.idx < size ∧ Stores ((pool.modify r.idx write).orders r'.idx) side
        price r' := by
    intro r' hr'
    rw [hother r'.idx fun heq =>
      hring.notMem_others (List.mem_cons_of_mem _ ?_)]
    · exact hrep.stored side price r' (mem_of_split hsplit hr')
    · rw [← heq, ← List.map_append]
      exact List.mem_map_of_mem hr'
  refine ⟨hrep.edit ?ring (fun s p _ i _ => congrFun (hnext s p) i)
      (fun s p _ i _ => congrFun (hprev s p) i) ?stored ?others
      (hrep.priced side price (List.ne_nil_of_mem hmem)),
    hfree.modify hstored.active write hstored.active, ?frame, ?foreign⟩
  case ring =>
    rw [hnext, hprev, List.map_append, List.map_cons]
    exact hring
  case stored =>
    intro r' hr'
    rcases List.mem_append.mp hr' with hbefore | hrest
    · exact hrestored r' (List.mem_append_left _ hbefore)
    · rcases List.mem_cons.mp hrest with rfl | hafter
      · refine ⟨hlt, ?_⟩
        rw [OrderPool.modify_orders, if_pos rfl]
        exact ⟨hstored.orderId, by rw [hstored.qty], hstored.price,
          hstored.isBid, hstored.active⟩
      · exact hrestored r' (List.mem_append_right _ hafter)
  case others =>
    intro s p hlevel r' hr'
    rw [hother r'.idx fun heq => hlevel (hrep.level_unique hmem hr' heq.symm)]
  case frame =>
    rintro i ⟨_, hi⟩
    refine hother i ?_
    rintro rfl
    exact hi (rests_of_mem hmem)
  case foreign =>
    intro i
    have hrests := rests_setAt_replace hsplit hidx i
    exact and_congr (by rw [← (hlinks i).2.2]) (not_congr hrests)

/-! ## Clearing a level -/

/-- Freeing along a path frees exactly its members. -/
theorem OrderPool.FreeList.freeChain {pool : OrderPool size}
    {free members : List UInt32} (hfree : pool.FreeList free) {start : UInt32}
    (hpath : IsPath pool.nextIdx nullIdx start members) (hnodup : members.Nodup)
    (hmembers : ∀ idx ∈ members, idx < size ∧ pool.active idx = true) {fuel : ℕ}
    (hfuel : members.length ≤ fuel) :
    (Queues.freeChain fuel start pool).FreeList (members.reverse ++ free) ∧
      ∀ i, i ∉ members →
        (Queues.freeChain fuel start pool).orders i = pool.orders i := by
  induction members generalizing pool free start fuel with
  | nil =>
      obtain rfl : start = nullIdx := hpath
      cases fuel <;>
          exact ⟨by simpa [Queues.freeChain] using hfree, fun i _ => by
        simp [Queues.freeChain]⟩
  | cons member rest ih =>
      obtain ⟨rfl, hne, hrest⟩ := hpath
      obtain ⟨hnotMem, hnodup'⟩ := List.nodup_cons.mp hnodup
      obtain ⟨hlt, hactive⟩ := hmembers start (by simp)
      obtain ⟨hfree', horders⟩ := hfree.free_cons hlt hactive
      have hother : ∀ i, i ≠ start →
          (pool.free start).orders i = pool.orders i := by
        intro i hi
        rw [horders, if_neg hi]
      cases fuel with
      | zero => simp at hfuel
      | succ fuel =>
          have hmemberNe : ∀ i ∈ rest, i ≠ start :=
            fun i hi heq => hnotMem (heq ▸ hi)
          have hpath' : IsPath (pool.free start).nextIdx nullIdx
              (pool.nextIdx start) rest :=
            hrest.congr fun i hi => by
              rw [OrderPool.nextIdx, hother i (hmemberNe i hi)]
              rfl
          obtain ⟨hdone, hframe⟩ := ih hfree' hpath' hnodup'
            (fun i hi => by
              rw [OrderPool.active, hother i (hmemberNe i hi)]
              exact hmembers i (by simp [hi]))
            (by simpa using hfuel)
          rw [Queues.freeChain, if_neg hne]
          refine ⟨?_, fun i hi => ?_⟩
          · rw [List.reverse_cons, List.append_assoc]
            exact hdone
          rw [List.mem_cons, not_or] at hi
          exact (hframe i hi.2).trans (hother i hi.1)

/-- The book without the orders at one price. -/
def AbstractBook.clearedAt (book : AbstractBook) (price : UInt32) :
    AbstractBook :=
  fun s p => if p = price then [] else book s p

/-- The free list after freeing the orders at the first `count` prices. -/
def AbstractBook.release (book : AbstractBook) (free : List UInt32) :
    ℕ → List UInt32
  | 0 => free
  | count + 1 =>
      ((book .ask (.ofNat count)).map Resting.idx).reverse ++
        (((book .bid (.ofNat count)).map Resting.idx).reverse ++
          book.release free count)

/-- One round of `clear` frees the slots of both sides of a price, and no
others. -/
theorem Represents.freeLevel (hrep : Represents queues pool book)
    {free : List UInt32} (hfree : pool.FreeList free) (price : UInt32) :
    (queues.freeLevel pool price).FreeList
    (((book .ask price).map Resting.idx).reverse ++
        (((book .bid price).map Resting.idx).reverse ++ free)) ∧
      ∀ i, (∀ side, i ∉ (book side price).map Resting.idx) →
        (queues.freeLevel pool price).orders i = pool.orders i := by
  have hinUse : ∀ side, ∀ idx ∈ (book side price).map Resting.idx,
      idx < size ∧ pool.active idx = true := by
    intro side idx hidx
    obtain ⟨r, hr, rfl⟩ := List.mem_map.mp hidx
    exact ⟨(hrep.stored side price r hr).1, hrep.active (rests_of_mem hr)⟩
  have hapart : ∀ idx ∈ (book .ask price).map Resting.idx,
      idx ∉ (book .bid price).map Resting.idx := by
    intro idx hask hbid
    exact hrep.ne_of_level_ne (by simp) hask hbid rfl
  obtain ⟨hfreeBid, hframeBid⟩ := hfree.freeChain (hrep.path .bid price)
    (hrep.slots_nodup .bid price) (hinUse .bid) (hrep.length_le .bid price)
  have hpathAsk := (hrep.path .ask price).congr fun idx hidx =>
    congrArg Order.nextIdx (hframeBid idx (hapart idx hidx))
  obtain ⟨hfreeAsk, hframeAsk⟩ :=
    hfreeBid.freeChain hpathAsk (hrep.slots_nodup .ask price)
    (fun idx hidx => by
      rw [OrderPool.active, hframeBid idx (hapart idx hidx)]
      exact hinUse .ask idx hidx) (hrep.length_le .ask price)
  exact ⟨hfreeAsk, fun i hi =>
    (hframeAsk i (hi .ask)).trans (hframeBid i (hi .bid))⟩

theorem Represents.rests_clearedAt_iff (hrep : Represents queues pool book)
    (price i : UInt32) :
    (book.clearedAt price).Rests i ↔
      book.Rests i ∧ ∀ side, i ∉ (book side price).map Resting.idx := by
  constructor
  · rintro ⟨s, p, r, hr, rfl⟩
    have hne : p ≠ price := by
      rintro rfl
      simp [clearedAt] at hr
    rw [clearedAt, if_neg hne] at hr
    refine ⟨rests_of_mem hr, fun side hmem => ?_⟩
    exact hrep.ne_of_level_ne (by simp [hne]) (List.mem_map_of_mem hr) hmem rfl
  · rintro ⟨⟨s, p, r, hr, rfl⟩, hnot⟩
    refine ⟨s, p, r, ?_, rfl⟩
    have hne : p ≠ price := by
      rintro rfl
      exact hnot s (List.mem_map_of_mem hr)
    rwa [clearedAt, if_neg hne]

/-- One round of `clear` empties both sides of a price. -/
theorem Represents.clearLevel (hrep : Represents queues pool book)
    {free : List UInt32} (hfree : pool.FreeList free) (price : UInt32) :
    Follows (queues.resetLevel price) (queues.freeLevel pool price)
      (book.clearedAt price) (((book .ask price).map Resting.idx).reverse ++
        (((book .bid price).map Resting.idx).reverse ++ free)) pool book := by
  obtain ⟨hfree', hframe⟩ := hrep.freeLevel hfree price
  have hrestsIff := hrep.rests_clearedAt_iff price
  have hfreed : ∀ side, ∀ i ∈ (book side price).map Resting.idx,
      (queues.freeLevel pool price).active i = false := by
    intro side i hi
    refine ((hfree'.mem_iff i).mp ?_).2
    cases side with
    | bid =>
        exact List.mem_append_right
          _ (List.mem_append_left _ (List.mem_reverse.mpr hi))
    | ask => exact List.mem_append_left _ (List.mem_reverse.mpr hi)
  refine ⟨⟨?ring, ?stored, ?priced⟩, hfree', ?frame, ?foreign⟩
  case ring =>
    intro s p
    by_cases hp : p = price
    · subst hp
      simp only [clearedAt, if_pos, List.map_nil]
      rw [isRing_nil_iff]
      simp [Queues.resetLevel]
    · simp only [clearedAt, if_neg hp]
      have hring := hrep.ring s p
      have hsame : ∀ i ∈ (book s p).map Resting.idx,
          (queues.freeLevel pool price).orders i = pool.orders i := by
        intro i hi
        refine hframe i fun side hmem => ?_
        exact hrep.ne_of_level_ne (by simp [hp]) hi hmem rfl
      refine hring.congr (fun i hi => ?_) (fun i hi => ?_)
      all_goals
        rcases List.mem_cons.mp hi with rfl | hi
        · simp [Queues.resetLevel, hp]
        · have hinull : i ≠ nullIdx := fun heq => hring.null_notMem (heq ▸ hi)
          simp only [Queues.nextRing_of_ne _ _ _ _ hinull,
            Queues.prevRing_of_ne _ _ _ _ hinull, hsame i hi]
  case stored =>
    intro s p r hr
    have hrests := (hrestsIff r.idx).mp (rests_of_mem hr)
    have hold : r ∈ book s p := by
      rw [clearedAt] at hr
      split at hr
      · simp at hr
      · exact hr
    rw [hframe r.idx hrests.2]
    exact hrep.stored s p r hold
  case priced =>
    intro s p hne
    rw [clearedAt] at hne
    split at hne
    · exact absurd rfl hne
    · exact hrep.priced s p hne
  case frame =>
    rintro i ⟨_, hi⟩
    refine hframe i fun side hmem => hi ?_
    obtain ⟨r, hr, rfl⟩ := List.mem_map.mp hmem
    exact rests_of_mem hr
  case foreign =>
    intro i
    rw [Foreign, Foreign, hrestsIff]
    by_cases hmem : ∃ side, i ∈ (book side price).map Resting.idx
    · obtain ⟨side, hi⟩ := hmem
      obtain ⟨r, hr, rfl⟩ := List.mem_map.mp hi
      simp [hfreed side r.idx hi, rests_of_mem hr]
    · have hnone : ∀ side, i ∉ (book side price).map Resting.idx :=
        fun side hi => hmem ⟨side, hi⟩
      rw [OrderPool.active, hframe i hnone]
      exact and_congr_right fun _ => by simp [hnone]

/-- The whole loop of `clear` empties the book. -/
theorem Represents.clearLevels (hrep : Represents queues pool book)
    {free : List UInt32} (hfree : pool.FreeList free) :
    Follows (queues.clearLevels pool maxPriceLevels.toNat).1
      (queues.clearLevels pool maxPriceLevels.toNat).2 AbstractBook.empty
      (book.release free maxPriceLevels.toNat) pool book := by
  have hloop : ∀ count, count < 2 ^ 32 →
      Follows (queues.clearLevels pool count).1
        (queues.clearLevels pool count).2
        (fun s p => if p.toNat < count then [] else book s p)
          (book.release free count)
        pool book := by
    intro count
    induction count with
    | zero =>
        intro _
        have hbook : (fun s p => if p.toNat < 0 then [] else book s p) =
            book := by
          funext s p
          exact if_neg (Nat.not_lt_zero _)
        rw [hbook]
        exact ⟨hrep, hfree, Local.refl pool book⟩
    | succ count ih =>
        intro hcount
        have hbefore := ih (by omega)
        have hround := hbefore.represents.clearLevel hbefore.freeList
          (.ofNat count)
        have hthis : (UInt32.ofNat count).toNat = count := by
          rw [UInt32.toNat_ofNat', Nat.mod_eq_of_lt (by omega)]
        have hbook : AbstractBook.clearedAt
            (fun s p => if p.toNat < count then [] else book s p)
            (.ofNat count) =
            fun s p => if p.toNat < count + 1 then [] else book s p := by
          funext s p
          have hiff : p = .ofNat count ↔ p.toNat = count := by
            rw [← UInt32.toNat_inj, hthis]
          simp only [AbstractBook.clearedAt, hiff]
          split
          · rw [if_pos (by omega)]
          · rename_i hne
            congr 1
            exact propext (by omega)
        rw [hbook] at hround
        simp only [hthis, lt_irrefl, if_false] at hround
        exact ⟨hround.represents, hround.freeList,
          hbefore.isLocal.trans hround.isLocal⟩
  have hdone := hloop maxPriceLevels.toNat maxPriceLevels.toNat_lt
  have hempty :
      (fun s p => if p.toNat < maxPriceLevels.toNat then [] else book s p) =
      AbstractBook.empty := by
    funext s p
    split
    · rfl
    · rename_i hge
      by_contra hne
      exact hge (UInt32.lt_iff_toNat_lt.mp (hrep.priced s p hne))
  rwa [hempty] at hdone

end MarketDataPipeline
