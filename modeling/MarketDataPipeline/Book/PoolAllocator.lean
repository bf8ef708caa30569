import MarketDataPipeline.Book.OrderPool
import MarketDataPipeline.Core.Machine

/-!
# The order pool as an allocator

The pool keeps a stack of the slots that are not in use: an allocation pops it,
and a free pushes a slot that was in use.  The links of the stack are in the
slots themselves, but callers write only into slots that are not on it.
-/

namespace MarketDataPipeline

open LinkRing

/-- The calls on a pool.  A write is of all fields of an order but `active`. -/
inductive PoolOp
  | alloc
  | free (idx : UInt32)
  | write (idx : UInt32) (fields : Order)

namespace OrderPool

variable {size : UInt32} {pool : OrderPool size} {free : List UInt32}

def callerMachine (size : UInt32) : Machine (OrderPool size) PoolOp where
  allowed pool
    | .write idx _ => idx < size ∧ pool.active idx = true
    | _ => True
  step pool
    | .alloc => pool.alloc.2
    | .free idx => pool.free idx
    | .write idx fields =>
        pool.modify idx fun order => { fields with active := order.active }

/-- What the pool is for: a stack of the slots that are not in use. -/
def stackMachine (size : UInt32) : Machine (List UInt32) PoolOp where
  allowed _ _ := True
  step stack
    | .alloc => stack.tail
    | .free idx => if idx < size ∧ idx ∉ stack then idx :: stack else stack
    | .write _ _ => stack

/-! ## The pool refines the stack -/

theorem FreeList.free_step (hfree : pool.FreeList free) (idx : UInt32) :
    (pool.free idx).FreeList
      (if idx < size ∧ idx ∉ free then idx :: free else free) := by
  by_cases hused : idx < size ∧ idx ∉ free
  · obtain ⟨hidx, hnot⟩ := hused
    rw [if_pos ⟨hidx, hnot⟩]
    exact (hfree.free_cons hidx ((hfree.active_iff hidx).mpr hnot)).1
  · have hunused : size ≤ idx ∨ pool.active idx = false := by
      by_cases hidx : idx < size
      · have hmem : idx ∈ free := not_not.mp fun hnot => hused ⟨hidx, hnot⟩
        exact Or.inr ((hfree.mem_iff idx).mp hmem).2
      · exact Or.inl (UInt32.not_lt.mp hidx)
    rw [if_neg hused, pool.free_of_unused hunused]
    exact hfree

/-- Every call does to the free list what it does to the stack. -/
theorem FreeList.step (hfree : pool.FreeList free) {op : PoolOp}
    (hallowed : (callerMachine size).allowed pool op) :
    ((callerMachine size).step pool op).FreeList
      ((stackMachine size).step free op) := by
  cases op with
  | alloc =>
      change pool.alloc.2.FreeList free.tail
      cases free with
      | nil =>
          rw [hfree.alloc_nil]
          exact hfree
      | cons idx rest => exact hfree.alloc_cons.2.1
  | free idx => exact hfree.free_step idx
  | write idx fields =>
      obtain ⟨-, hactive⟩ := hallowed
      exact hfree.modify hactive
        (fun order => { fields with active := order.active }) hactive

/-- The free list is the stack, after any calls. -/
theorem run_freeList (hsize : 0 < size.toNat) (memory : UInt32 → Order)
    {ops : List PoolOp}
    (hlegal : (callerMachine size).Legal (init memory) ops) :
    ((callerMachine size).run (init memory) ops).FreeList
      ((stackMachine size).run (allSlots size) ops) :=
  Machine.simulation (fun pool stack => pool.FreeList stack)
    (fun _ _ _ hfree hallowed => hfree.step hallowed)
    (init_freeList hsize memory) hlegal

/-! ## What callers rely on -/

/-- The free list holds the slots not in use, the count is that of the others,
an allocation returns a slot not in use unless there is none, and only a slot in
use can be freed. -/
structure Allocates (pool : OrderPool size) : Prop where
  visits : ∃ free, IsPath pool.nextIdx nullIdx pool.freeHead free ∧ free.Nodup ∧
    ∀ idx, idx ∈ free ↔ idx < size ∧ pool.active idx = false
  count : pool.activeCount.toNat = (allSlots size).countP pool.active
  fresh : pool.alloc.1 ≠ nullIdx →
    pool.alloc.1 < size ∧ pool.active pool.alloc.1 = false
  exhausted : pool.alloc.1 = nullIdx ↔ ∀ idx < size, pool.active idx = true
  inert : ∀ idx, size ≤ idx ∨ pool.active idx = false → pool.free idx = pool

/-- The slots of the free list are the inactive ones of the array. -/
theorem FreeList.perm (hfree : pool.FreeList free) :
    free.Perm ((allSlots size).filter fun idx => ¬ pool.active idx) := by
  refine (List.perm_ext_iff_of_nodup hfree.nodup
    ((allSlots_nodup size).filter _)).mpr fun idx => ?_
  rw [hfree.mem_iff, List.mem_filter, mem_allSlots, decide_eq_true_eq,
    Bool.not_eq_true]

/-- The count is the number of slots in use. -/
theorem FreeList.activeCount_eq (hfree : pool.FreeList free) :
    pool.activeCount.toNat = (allSlots size).countP pool.active := by
  have hunused : free.length = (allSlots size).countP fun idx =>
      ¬ pool.active idx := by
    rw [List.countP_eq_length_filter]
    exact hfree.perm.length_eq
  have hsplit := (allSlots size).length_eq_countP_add_countP pool.active
  rw [allSlots_length, ← hunused, ← hfree.count] at hsplit
  exact Nat.add_right_cancel hsplit

theorem FreeList.allocates (hfree : pool.FreeList free) : pool.Allocates where
  visits := ⟨free, hfree.path, hfree.nodup, hfree.mem_iff⟩
  count := hfree.activeCount_eq
  fresh := by
    intro hsome
    cases free with
    | nil => exact absurd (hfree.alloc_eq_null.mpr rfl) hsome
    | cons idx rest =>
        rw [hfree.alloc_cons.1]
        exact (hfree.mem_iff idx).mp (by simp)
  exhausted := hfree.alloc_eq_null.trans hfree.eq_nil_iff
  inert _ := pool.free_of_unused

/-- A pool of any size, where an array has at least one element, is an allocator
after any calls of `alloc` and `free`, between which callers write what they
like into active slots. -/
theorem pool_allocates (hsize : 0 < size.toNat) (memory : UInt32 → Order)
    (ops : List PoolOp)
    (hlegal : (callerMachine size).Legal (init memory) ops) :
    ((callerMachine size).run (init memory) ops).Allocates :=
  (run_freeList hsize memory hlegal).allocates

/-- Three slots, with a link overwritten, a double free and a free out
of range. -/
theorem pool_allocates_three :
    let pool := (callerMachine 3).run (init fun _ => default)
      [.alloc, .write 0 ⟨7, 5, 9, 0, 100, true, false⟩, .alloc, .free 0,
        .free 0, .free 8]
    pool.alloc.1 = 0 ∧ pool.Allocates :=
  ⟨by decide, pool_allocates (by decide) (fun _ => default)
    [.alloc, .write 0 ⟨7, 5, 9, 0, 100, true, false⟩, .alloc, .free 0,
      .free 0, .free 8]
    ⟨trivial, ⟨by decide, by decide⟩, trivial, trivial, trivial,
      trivial, trivial⟩⟩

end OrderPool

end MarketDataPipeline
