import MarketDataPipeline.Core.LinkRing

/-!
# The order pool

`OrderPool` is a flat array of orders with a free list threaded through the
`next_idx` of its inactive slots.  The pool size is a parameter; the pipeline
uses `maxOrders` slots.
-/

namespace MarketDataPipeline

open LinkRing

/-- `NULL_IDX` of the intrusive lists. -/
def nullIdx : UInt32 := 0xFFFFFFFF

def maxOrders : UInt32 := 1000000

theorem maxOrders_pos : 0 < maxOrders.toNat := by decide

structure Order where
  orderId : UInt64
  qty : UInt32
  prevIdx : UInt32
  nextIdx : UInt32
  price : UInt32
  isBid : Bool
  active : Bool
  deriving Inhabited, DecidableEq

structure OrderPool (size : UInt32) where
  orders : UInt32 → Order
  freeHead : UInt32
  activeCount : UInt32

namespace OrderPool

variable {size : UInt32}

/-- `init` on whatever the array holds: only the free list and the active
flags are written. -/
def init (memory : UInt32 → Order) : OrderPool size where
  orders i :=
    if i < size - 1 then { memory i with nextIdx := i + 1, active := false }
    else if i = size - 1 then
      { memory i with nextIdx := nullIdx, active := false }
    else memory i
  freeHead := 0
  activeCount := 0

def alloc (pool : OrderPool size) : UInt32 × OrderPool size :=
  if pool.freeHead = nullIdx then (nullIdx, pool)
  else
    let idx := pool.freeHead
    (idx,
      { orders := Function.update pool.orders idx
          { pool.orders idx with
            active := true, prevIdx := nullIdx, nextIdx := nullIdx }
        freeHead := (pool.orders idx).nextIdx
        activeCount := pool.activeCount + 1 })

def free (pool : OrderPool size) (idx : UInt32) : OrderPool size :=
  if idx ≥ size ∨ (pool.orders idx).active = false then pool
  else
    { orders := Function.update pool.orders idx
        { pool.orders idx with active := false, nextIdx := pool.freeHead }
      freeHead := idx
      activeCount := pool.activeCount - 1 }

/-- Writing through the reference that `operator[]` returns. -/
def modify (pool : OrderPool size) (idx : UInt32) (write : Order → Order) :
    OrderPool size :=
  { pool with
    orders := Function.update pool.orders idx (write (pool.orders idx)) }

def nextIdx (pool : OrderPool size) (idx : UInt32) : UInt32 :=
  (pool.orders idx).nextIdx

def prevIdx (pool : OrderPool size) (idx : UInt32) : UInt32 :=
  (pool.orders idx).prevIdx

def active (pool : OrderPool size) (idx : UInt32) : Bool :=
  (pool.orders idx).active

theorem modify_orders (pool : OrderPool size) (idx : UInt32)
    (write : Order → Order) (i : UInt32) : (pool.modify idx write).orders i =
      if i = idx then write (pool.orders i) else pool.orders i := by
  by_cases hi : i = idx
  · subst hi
    simp [modify]
  · simp [modify, hi]

/-! ## The free list -/

/-- The free list of the pool visits `free`: exactly the inactive slots, each
once. -/
structure FreeList (pool : OrderPool size) (free : List UInt32) : Prop where
  path : IsPath pool.nextIdx nullIdx pool.freeHead free
  nodup : free.Nodup
  mem_iff : ∀ idx, idx ∈ free ↔ idx < size ∧ pool.active idx = false
  count : pool.activeCount.toNat + free.length = size.toNat

/-- A slot is active when it is not on the free list. -/
theorem FreeList.active_iff {pool : OrderPool size} {free : List UInt32}
    (hfree : pool.FreeList free) {idx : UInt32} (hidx : idx < size) :
    pool.active idx = true ↔ idx ∉ free := by
  rw [hfree.mem_iff idx, not_and, Bool.not_eq_false]
  exact ⟨fun hactive _ => hactive, fun hactive => hactive hidx⟩

/-- Where slots were added to a free list, exactly these went out of use. -/
theorem FreeList.freed_iff {pool pool' : OrderPool size}
    {free freed : List UInt32} (hfree : pool.FreeList free)
    (hfree' : pool'.FreeList (freed ++ free)) {idx : UInt32}
    (hidx : idx < size) :
    (pool.active idx = true ∧ pool'.active idx = false ↔ idx ∈ freed) ∧
      (pool'.active idx = true → pool.active idx = true) := by
  have hafter := hfree'.active_iff hidx
  have hapart := List.disjoint_of_nodup_append hfree'.nodup
  rw [List.mem_append] at hafter
  rw [← Bool.not_eq_true, hafter, hfree.active_iff hidx]
  refine ⟨⟨fun hmem => ?_, fun hmem =>
    ⟨hapart hmem, fun hnot => hnot (Or.inl hmem)⟩⟩,
    fun hnot hmem => hnot (Or.inr hmem)⟩
  exact (not_not.mp hmem.2).resolve_right hmem.1

theorem ne_nullIdx_of_lt {idx : UInt32} (hidx : idx < size) :
    idx ≠ nullIdx := by
  rintro rfl
  have hsize := size.toNat_lt
  have hnull : nullIdx.toNat = 2 ^ 32 - 1 := rfl
  rw [UInt32.lt_iff_toNat_lt, hnull] at hidx
  omega

/-- Distinct slots are at most as many as the pool has. -/
theorem length_le_of_nodup {slots : List UInt32} (hnodup : slots.Nodup)
    (hlt : ∀ idx ∈ slots, idx < size) : slots.length ≤ size.toNat := by
  have hmap : (slots.map UInt32.toNat).Nodup :=
    hnodup.map fun left right heq => UInt32.toNat_inj.mp heq
  have hsubset : (slots.map UInt32.toNat).toFinset ⊆ Finset.range
      size.toNat := by
    intro slot hslot
    obtain ⟨idx, hidx, rfl⟩ := List.mem_map.mp (List.mem_toFinset.mp hslot)
    exact Finset.mem_range.mpr (UInt32.lt_iff_toNat_lt.mp (hlt idx hidx))
  have hcard := Finset.card_le_card hsubset
  rwa [List.toFinset_card_of_nodup hmap, List.length_map,
    Finset.card_range] at hcard

def allSlots (size : UInt32) : List UInt32 :=
  (List.range size.toNat).map UInt32.ofNat

theorem allSlots_nodup (size : UInt32) : (allSlots size).Nodup := by
  have hlt := size.toNat_lt
  refine List.Nodup.map_on (fun left hleft right hright heq => ?_)
    List.nodup_range
  rw [List.mem_range] at hleft hright
  rw [← UInt32.toNat_inj, UInt32.toNat_ofNat', UInt32.toNat_ofNat'] at heq
  omega

theorem allSlots_length (size : UInt32) :
    (allSlots size).length = size.toNat := by
  rw [allSlots, List.length_map, List.length_range]

theorem mem_allSlots (idx : UInt32) : idx ∈ allSlots size ↔ idx < size := by
  have hlt := size.toNat_lt
  rw [allSlots, List.mem_map, UInt32.lt_iff_toNat_lt]
  constructor
  · rintro ⟨slot, hslot, rfl⟩
    rw [List.mem_range] at hslot
    rw [UInt32.toNat_ofNat']
    omega
  · intro hidx
    exact ⟨idx.toNat, List.mem_range.mpr hidx, UInt32.ofNat_toNat⟩

/-- The free list depends on its head, the count, the active flags and the
links of the inactive slots only. -/
theorem FreeList.congr {pool pool' : OrderPool size} {free : List UInt32}
    (hfree : pool.FreeList free) (hhead : pool'.freeHead = pool.freeHead)
    (hcount : pool'.activeCount = pool.activeCount)
    (hactive : ∀ idx, pool'.active idx = pool.active idx)
    (hnext : ∀ idx, pool.active idx = false → pool'.nextIdx idx =
      pool.nextIdx idx) :
    pool'.FreeList free where
  path := by
    rw [hhead]
    exact hfree.path.congr fun idx hidx =>
      hnext idx ((hfree.mem_iff idx).mp hidx).2
  nodup := hfree.nodup
  mem_iff idx := by rw [hactive, hfree.mem_iff]
  count := by rw [hcount, hfree.count]

/-- Callers may write any field but `active` of an active slot. -/
theorem FreeList.modify {pool : OrderPool size} {free : List UInt32}
    (hfree : pool.FreeList free) {idx : UInt32} (hidx : pool.active idx = true)
    (write : Order → Order) (hwrite : (write (pool.orders idx)).active = true) :
    (pool.modify idx write).FreeList free := by
  refine hfree.congr rfl rfl (fun i => ?_) (fun i hi => ?_)
  · rw [active, modify_orders]
    split
    case isTrue heq => rw [heq, hwrite, hidx]
    case isFalse => rfl
  · rw [nextIdx, modify_orders, if_neg]
    · rfl
    · rintro rfl
      rw [hidx] at hi
      exact Bool.noConfusion hi

theorem FreeList.alloc_nil {pool : OrderPool size} (hfree : pool.FreeList []) :
    pool.alloc = (nullIdx, pool) := if_pos hfree.path

/-- Allocation takes the head of the free list. -/
theorem FreeList.alloc_cons {pool : OrderPool size} {idx : UInt32}
    {free : List UInt32} (hfree : pool.FreeList (idx :: free)) :
    pool.alloc.1 = idx ∧ pool.alloc.2.FreeList free ∧
      ∀ i, pool.alloc.2.orders i =
        if i = idx then
          { pool.orders idx with
            active := true, prevIdx := nullIdx, nextIdx := nullIdx }
        else pool.orders i := by
  obtain ⟨hhead, hne, hpath⟩ := hfree.path
  have halloc : pool.alloc = (idx,
      { orders := Function.update pool.orders idx
          { pool.orders idx with
            active := true, prevIdx := nullIdx, nextIdx := nullIdx }
        freeHead := pool.nextIdx idx
        activeCount := pool.activeCount + 1 }) := by
    rw [alloc, if_neg (by rwa [hhead]), hhead]
    rfl
  have hmem := (hfree.mem_iff idx).mp (by simp)
  obtain ⟨hnotMem, hnodup⟩ := List.nodup_cons.mp hfree.nodup
  have horders : ∀ i, pool.alloc.2.orders i =
      if i = idx then
        { pool.orders idx with
          active := true, prevIdx := nullIdx, nextIdx := nullIdx }
      else pool.orders i := by
    intro i
    rw [halloc]
    exact Function.update_apply ..
  refine ⟨by rw [halloc], ?_, horders⟩
  constructor
  case path =>
    have hfreeHead : pool.alloc.2.freeHead = pool.nextIdx idx := by rw [halloc]
    rw [hfreeHead]
    refine hpath.congr fun i hi => ?_
    have hi' : i ≠ idx := fun heq => hnotMem (heq ▸ hi)
    simp [nextIdx, horders, hi']
  case nodup => exact hnodup
  case mem_iff =>
    intro i
    by_cases hi : i = idx
    · subst hi
      simp [active, horders, hnotMem]
    · have := hfree.mem_iff i
      simpa [active, horders, hi] using this
  case count =>
    have hcount := hfree.count
    have hsize := size.toNat_lt
    have hactiveCount : pool.alloc.2.activeCount = pool.activeCount + 1 := by
      rw [halloc]
    rw [List.length_cons] at hcount
    rw [hactiveCount, UInt32.toNat_add, UInt32.toNat_one]
    omega

/-- The free list is empty exactly when an allocation fails. -/
theorem FreeList.alloc_eq_null {pool : OrderPool size} {free : List UInt32}
    (hfree : pool.FreeList free) : pool.alloc.1 = nullIdx ↔ free = [] := by
  cases free with
  | nil => simp [hfree.alloc_nil]
  | cons idx rest =>
      have hne := ne_nullIdx_of_lt ((hfree.mem_iff idx).mp (by simp)).1
      simp [hfree.alloc_cons.1, hne]

/-- The free list is empty exactly when all slots are in use. -/
theorem FreeList.eq_nil_iff {pool : OrderPool size} {free : List UInt32}
    (hfree : pool.FreeList free) :
    free = [] ↔ ∀ idx < size, pool.active idx = true := by
  constructor
  · rintro rfl idx hidx
    exact (hfree.active_iff hidx).mpr List.not_mem_nil
  · intro hall
    refine List.eq_nil_iff_forall_not_mem.mpr fun idx hidx => ?_
    have hlt := ((hfree.mem_iff idx).mp hidx).1
    exact (hfree.active_iff hlt).mp (hall idx hlt) hidx

/-- A slot that is out of range or not in use cannot be freed. -/
theorem free_of_unused (pool : OrderPool size) {idx : UInt32}
    (hunused : size ≤ idx ∨ pool.active idx = false) : pool.free idx = pool :=
  if_pos hunused

/-- Freeing an active slot puts it at the head of the free list. -/
theorem FreeList.free_cons {pool : OrderPool size} {idx : UInt32}
    {free : List UInt32} (hfree : pool.FreeList free) (hidx : idx < size)
    (hactive : pool.active idx = true) :
    (pool.free idx).FreeList (idx :: free) ∧
      ∀ i, (pool.free idx).orders i =
        if i = idx then
          { pool.orders idx with active := false, nextIdx := pool.freeHead }
        else pool.orders i := by
  have hdef : pool.free idx =
      { orders := Function.update pool.orders idx
          { pool.orders idx with active := false, nextIdx := pool.freeHead }
        freeHead := idx
        activeCount := pool.activeCount - 1 } := by
    rw [OrderPool.free, if_neg]
    rintro (hge | hinactive)
    · exact UInt32.not_le.mpr hidx hge
    · have : pool.active idx = false := hinactive
      rw [hactive] at this
      exact Bool.noConfusion this
  have horders : ∀ i, (pool.free idx).orders i =
      if i = idx then
        { pool.orders idx with active := false, nextIdx := pool.freeHead }
      else pool.orders i := by
    intro i
    rw [hdef]
    exact Function.update_apply ..
  have hnotMem : idx ∉ free := by
    rw [hfree.mem_iff, hactive]
    simp
  refine ⟨?_, horders⟩
  constructor
  case path =>
    have hhead : (pool.free idx).freeHead = idx := by rw [hdef]
    have hnext : (pool.free idx).nextIdx idx = pool.freeHead := by
      simp [nextIdx, horders]
    refine ⟨hhead, ne_nullIdx_of_lt hidx, ?_⟩
    rw [hnext]
    refine hfree.path.congr fun i hi => ?_
    have hi' : i ≠ idx := fun heq => hnotMem (heq ▸ hi)
    simp [nextIdx, horders, hi']
  case nodup => exact List.nodup_cons.mpr ⟨hnotMem, hfree.nodup⟩
  case mem_iff =>
    intro i
    by_cases hi : i = idx
    · subst hi
      simp [active, horders, hidx]
    · have := hfree.mem_iff i
      simpa [active, horders, hi] using this
  case count =>
    have hcount := hfree.count
    have hsize := size.toNat_lt
    -- An active slot is in no free list, so at least one slot is counted as
    -- active.
    have hlength : (idx :: free).length ≤ size.toNat := by
      refine length_le_of_nodup (List.nodup_cons.mpr ⟨hnotMem, hfree.nodup⟩)
        fun i hi => ?_
      rcases List.mem_cons.mp hi with rfl | hi
      · exact hidx
      · exact ((hfree.mem_iff i).mp hi).1
    rw [List.length_cons] at hlength
    have hactiveCount : (pool.free idx).activeCount = pool.activeCount - 1 := by
      rw [hdef]
    have hone : (1 : UInt32) ≤ pool.activeCount := by
      rw [UInt32.le_iff_toNat_le, UInt32.toNat_one]
      omega
    rw [hactiveCount, List.length_cons, UInt32.toNat_sub_of_le _ _ hone,
      UInt32.toNat_one]
    omega

theorem toNat_size_sub_one (hsize : 0 < size.toNat) :
    (size - 1).toNat = size.toNat - 1 := by
  have hone : (1 : UInt32) ≤ size := by
    rw [UInt32.le_iff_toNat_le, UInt32.toNat_one]
    exact hsize
  rw [UInt32.toNat_sub_of_le _ _ hone, UInt32.toNat_one]

theorem init_inactive (hsize : 0 < size.toNat) (memory : UInt32 → Order)
    {idx : UInt32} (hidx : idx < size) :
    (init memory : OrderPool size).active idx = false := by
  have hlast := toNat_size_sub_one hsize
  rw [UInt32.lt_iff_toNat_lt] at hidx
  simp only [active, init]
  split
  case isTrue => rfl
  case isFalse hnot =>
    rw [if_pos]
    rw [UInt32.lt_iff_toNat_lt, hlast] at hnot
    rw [← UInt32.toNat_inj, hlast]
    omega

/-- After `init` slot `first` leads through all later slots to the end of the
list. -/
theorem init_path (hsize : 0 < size.toNat) (memory : UInt32 → Order)
    {count first : ℕ} (hsum : first + count = size.toNat) (hcount : 0 < count) :
    IsPath (init memory : OrderPool size).nextIdx nullIdx (UInt32.ofNat first)
      ((List.range' first count).map UInt32.ofNat) := by
  have hlt := size.toNat_lt
  have hlast := toNat_size_sub_one hsize
  induction count generalizing first with
  | zero => exact absurd hcount (lt_irrefl 0)
  | succ count ih =>
      have hfirst : (UInt32.ofNat first).toNat = first := by
        rw [UInt32.toNat_ofNat']
        exact Nat.mod_eq_of_lt (by omega)
      have hfirstLt : UInt32.ofNat first < size := by
        rw [UInt32.lt_iff_toNat_lt, hfirst]
        omega
      refine ⟨rfl, ne_nullIdx_of_lt hfirstLt, ?_⟩
      by_cases hrest : count = 0
      · subst hrest
        have hisLast : UInt32.ofNat first = size - 1 := by
          rw [← UInt32.toNat_inj, hfirst, hlast]
          omega
        simp [IsPath, nextIdx, init, hisLast]
      · have hbefore : UInt32.ofNat first < size - 1 := by
          rw [UInt32.lt_iff_toNat_lt, hfirst, hlast]
          omega
        have hnext : (init memory : OrderPool size).nextIdx
            (UInt32.ofNat first) =
            UInt32.ofNat (first + 1) := by
          simp only [nextIdx, init, if_pos hbefore]
          rw [← UInt32.toNat_inj, UInt32.toNat_add, hfirst, UInt32.toNat_ofNat',
            UInt32.toNat_one]
        rw [hnext]
        exact ih (by omega) (by omega)

theorem init_freeList (hsize : 0 < size.toNat) (memory : UInt32 → Order) :
    (init memory : OrderPool size).FreeList (allSlots size) where
  path := by
    rw [allSlots, List.range_eq_range']
    exact init_path hsize memory (Nat.zero_add size.toNat) hsize
  nodup := allSlots_nodup size
  mem_iff idx := by
    rw [mem_allSlots]
    exact ⟨fun hidx => ⟨hidx, init_inactive hsize memory hidx⟩, And.left⟩
  count := (Nat.zero_add _).trans (allSlots_length size)

end OrderPool

end MarketDataPipeline
