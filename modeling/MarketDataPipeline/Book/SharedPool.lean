import MarketDataPipeline.Book.BookSteps
import MarketDataPipeline.Core.Machine

/-!
# Books on a shared pool

Any number of books may draw their orders from one pool.  `Books.Holds` is the
separation invariant of that arrangement: every book holds its abstract book,
no slot rests in two books, and every slot in use rests in some book.  A call on
one book keeps it.
-/

namespace MarketDataPipeline

open AbstractBook

variable {size : UInt32} {ι T : Type*}

structure Books (ι T : Type*) (size : UInt32) where
  book : ι → OrderBook T
  pool : OrderPool size

namespace AbstractBook

def apply (book : AbstractBook) (op : BookOp) (ret : UInt32) : AbstractBook :=
  match op with
  | .enqueue side price orderId qty =>
      if ret = nullIdx then book
      else setAt book side price (book side price ++ [⟨ret, orderId, qty⟩])
  | .trade side price qty =>
      setAt book side price (consume qty (book side price))
  | .dequeue idx =>
      fun side price => (book side price).filter fun r => r.idx ≠ idx
  | .clear => empty

theorem apply_dequeue (book : AbstractBook) (idx ret : UInt32) (side : Side)
    (price : UInt32) :
    book.apply (.dequeue idx) ret side price =
      (book side price).filter fun r => r.idx ≠ idx := rfl

/-- The slot of an order tells it from all others of the book. -/
def Distinct (book : AbstractBook) : Prop :=
  (∀ side price, ((book side price).map Resting.idx).Nodup) ∧
    ∀ side price side' price', ∀ r ∈ book side price, ∀ r' ∈ book side' price',
      r.idx = r'.idx → side' = side ∧ price' = price

theorem filter_ne_of_notMem {queue : List Resting} {idx : UInt32}
    (hidx : idx ∉ queue.map Resting.idx) :
    (queue.filter fun r => r.idx ≠ idx) = queue := by
  rw [List.filter_eq_self]
  intro r hr
  have hne : r.idx ≠ idx := fun heq => hidx (heq ▸ List.mem_map_of_mem hr)
  simpa using hne

/-- Filtering an order out of its queue leaves what was before and after it. -/
theorem filter_ne_of_split {before after : List Resting} {r : Resting}
    (hnodup : ((before ++ r :: after).map Resting.idx).Nodup) :
    ((before ++ r :: after).filter fun other => other.idx ≠ r.idx) =
      before ++ after := by
  rw [List.map_append, List.map_cons] at hnodup
  have hnotMem := (List.nodup_cons.mp (List.perm_middle.nodup_iff.mp hnodup)).1
  rw [List.mem_append, not_or] at hnotMem
  rw [List.filter_append, List.filter_cons_of_neg (by simp),
    filter_ne_of_notMem hnotMem.1, filter_ne_of_notMem hnotMem.2]

/-- A step leads to the book that the call and its result determine. -/
theorem Step.apply_eq [LevelTally T] {free free' : List UInt32}
    {book book' : AbstractBook} {tally tally' : T} {op : BookOp} {ret : UInt32}
    (hstep : Step free book tally op ret free' book' tally')
    (hdistinct : book.Distinct)
    (hpriced : ∀ side price, maxPriceLevels ≤ price → book side price = []) :
    book' = book.apply op ret := by
  cases hstep with
  | invalid => simp [apply]
  | full => simp [apply]
  | placed _ hidx _ => simp [apply, hidx]
  | @untraded side price qty hprice =>
      refine (setAt_eq_self _ _ _ ?_).symm
      rw [hpriced side price hprice, consume]
  | traded => rfl
  | @dequeued side price r before after _ hsplit =>
      have hmem : r ∈ book side price := by simp [hsplit]
      funext s p
      by_cases hlevel : s = side ∧ p = price
      · obtain ⟨rfl, rfl⟩ := hlevel
        have hnodup := hdistinct.1 s p
        rw [hsplit] at hnodup
        rw [setAt_self, apply_dequeue, hsplit, filter_ne_of_split hnodup]
      · rw [setAt_of_ne _ _ hlevel, apply_dequeue, filter_ne_of_notMem]
        intro hidx
        obtain ⟨r', hr', heq⟩ := List.mem_map.mp hidx
        exact hlevel (hdistinct.2 side price s p r hmem r' hr' heq.symm)
  | cleared => rfl

end AbstractBook

theorem Represents.distinct {queues : Queues} {pool : OrderPool size}
    {book : AbstractBook}
    (hrep : Represents queues pool book) : book.Distinct :=
  ⟨hrep.slots_nodup, fun _ _ _ _ _ hr _ hr' hidx =>
    hrep.level_unique hr hr' hidx⟩

theorem Represents.nil_of_invalid {queues : Queues} {pool : OrderPool size}
    {book : AbstractBook} (hrep : Represents queues pool book) (side : Side)
    (price : UInt32)
    (hprice : maxPriceLevels ≤ price) : book side price = [] := by
  by_contra hne
  exact UInt32.not_lt.mpr hprice (hrep.priced side price hne)

namespace Books

/-- The books hold the abstract books `a`, each with slots of its own, and no
slot in use is lost. -/
structure Holds (books : Books ι T size) (a : ι → AbstractBook) : Prop where
  represents : ∀ i, Represents (books.book i).queues books.pool (a i)
  apart : ∀ i j, i ≠ j → ∀ idx, (a i).Rests idx → ¬ (a j).Rests idx
  covered : ∀ idx < size, books.pool.active idx = true → ∃ i, (a i).Rests idx
  freeList : ∃ free, books.pool.FreeList free

def init (tally : T) (memory : UInt32 → Order) : Books ι T size :=
  ⟨fun _ => ⟨.init, tally⟩, .init memory⟩

theorem init_holds (hsize : 0 < size.toNat) (tally : T)
    (memory : UInt32 → Order) :
    (init tally memory : Books ι T size).Holds fun _ => AbstractBook.empty where
  represents _ := Represents.init _
  apart _ _ _ idx hrests := absurd hrests (AbstractBook.not_rests_empty idx)
  covered idx hidx hactive := by
    have hfree := OrderPool.init_freeList hsize memory
    have hinactive :=
      ((hfree.mem_iff idx).mp ((OrderPool.mem_allSlots idx).mpr hidx)).2
    exact Bool.noConfusion (hinactive.symm.trans hactive)
  freeList := ⟨_, OrderPool.init_freeList hsize memory⟩

variable [DecidableEq ι] {books : Books ι T size} {a : ι → AbstractBook} {i : ι}

omit [DecidableEq ι] in
/-- A slot is in use exactly when it rests in some book. -/
theorem Holds.active_iff (hholds : books.Holds a) {idx : UInt32}
    (hidx : idx < size) :
    books.pool.active idx = true ↔ ∃ i, (a i).Rests idx :=
  ⟨hholds.covered idx hidx, fun ⟨i, hrests⟩ =>
    (hholds.represents i).active hrests⟩

omit [DecidableEq ι] in
theorem Holds.inactive_iff (hholds : books.Holds a) {idx : UInt32}
    (hidx : idx < size) :
    books.pool.active idx = false ↔ ¬ ∃ i, (a i).Rests idx := by
  rw [← hholds.active_iff hidx, Bool.not_eq_true]

/-- A local step of one book keeps all of them. -/
theorem Holds.update (hholds : books.Holds a) {queues : Queues}
    {pool : OrderPool size} {a' : AbstractBook} {free : List UInt32}
    (hfollows : Follows queues pool a' free books.pool (a i)) (tally : T) :
    (⟨Function.update books.book i ⟨queues, tally⟩, pool⟩ : Books ι
      T size).Holds
      (Function.update a i a') where
  represents j := by
    by_cases hj : j = i
    · subst hj
      simpa using hfollows.represents
    · dsimp only
      rw [Function.update_of_ne hj, Function.update_of_ne hj]
      exact (hholds.represents j).of_local hfollows.isLocal
        (hholds.apart j i hj)
  apart j k hjk idx := by
    -- A slot of another book was foreign before, so it is foreign after.
    have hforeign : ∀ j, j ≠ i → (a j).Rests idx → ¬ a'.Rests idx := by
      intro j hj hrests
      have hactive := (hholds.represents j).active hrests
      exact ((hfollows.isLocal.foreign_iff idx).mpr
        ⟨hactive, hholds.apart j i hj idx hrests⟩).2
    by_cases hj : j = i
    · subst hj
      rw [Function.update_self, Function.update_of_ne (Ne.symm hjk)]
      exact fun hrests hother => hforeign k (Ne.symm hjk) hother hrests
    · rw [Function.update_of_ne hj]
      by_cases hk : k = i
      · subst hk
        rw [Function.update_self]
        exact hforeign j hj
      · rw [Function.update_of_ne hk]
        exact hholds.apart j k hjk idx
  covered idx hidx hactive := by
    by_cases hrests : a'.Rests idx
    · exact ⟨i, by rwa [Function.update_self]⟩
    · obtain ⟨hold, hnot⟩ :=
        (hfollows.isLocal.foreign_iff idx).mp ⟨hactive, hrests⟩
      obtain ⟨j, hj⟩ := hholds.covered idx hidx hold
      refine ⟨j, ?_⟩
      rwa [Function.update_of_ne]
      rintro rfl
      exact hnot hj
  freeList := ⟨free, hfollows.freeList⟩

variable [LevelTally T]

/-- A call on book `i`, with what it returns. -/
def apply (books : Books ι T size) (i : ι) (op : BookOp) :
    UInt32 × Books ι T size :=
  let done := (books.book i).apply books.pool op
  (done.1, ⟨Function.update books.book i done.2.1, done.2.2⟩)

def machine (ι T : Type*) [DecidableEq ι] [LevelTally T] (size : UInt32) :
    Machine (Books ι T size) (ι × BookOp) where
  allowed books call := call.2.Allowed (books.book call.1).queues books.pool
  step books call := (books.apply call.1 call.2).2

/-- An allowed call is a step of its abstract book and keeps the books apart. -/
theorem Holds.apply_step (hholds : books.Holds a) {op : BookOp}
    (hallowed : op.Allowed (books.book i).queues books.pool) :
    ∃ free free' a', books.pool.FreeList free ∧
      (books.apply i op).2.Holds (Function.update a i a') ∧
      Step free (a i) (books.book i).tally op (books.apply i op).1 free' a'
        ((books.apply i op).2.book i).tally := by
  obtain ⟨free, hfree⟩ := hholds.freeList
  obtain ⟨free', a', hfollows, hstep⟩ :=
    (hholds.represents i).apply_step hfree hallowed
  refine ⟨free, free', a', hfree, hholds.update hfollows _, ?_⟩
  simpa [apply] using hstep

/-- A call on one book leaves a property of the others as it was. -/
theorem forall_apply_iff (property : T → AbstractBook → Prop) {op : BookOp}
    (hall : ∀ j, property (books.book j).tally (a j)) (a' : AbstractBook) :
    (∀ j, property ((books.apply i op).2.book j).tally
      (Function.update a i a' j)) ↔
      property ((books.apply i op).2.book i).tally a' := by
  constructor
  · intro hafter
    have hown := hafter i
    rwa [Function.update_self] at hown
  · intro hown j
    by_cases hj : j = i
    · subst hj
      rwa [Function.update_self]
    · rw [Function.update_of_ne hj]
      simpa [apply, hj] using hall j

/-- The books together with the abstract books they are to hold. -/
def ghostMachine (ι T : Type*) [DecidableEq ι] [LevelTally T] (size : UInt32) :
    Machine (Books ι T size × (ι → AbstractBook)) (ι × BookOp) where
  allowed state call := (machine ι T size).allowed state.1 call
  step state call :=
    let done := state.1.apply call.1 call.2
    (done.2, Function.update state.2 call.1
      ((state.2 call.1).apply call.2 done.1))

theorem Holds.apply (hholds : books.Holds a) {op : BookOp}
    (hallowed : op.Allowed (books.book i).queues books.pool) :
    (books.apply i op).2.Holds
      (Function.update a i ((a i).apply op (books.apply i op).1)) := by
  obtain ⟨_, _, a', -, hholds', hstep⟩ := hholds.apply_step hallowed
  have hrep := hholds.represents i
  rwa [← hstep.apply_eq hrep.distinct hrep.nil_of_invalid]

/-- The books hold their abstract books after every legal run. -/
theorem run_holds (hsize : 0 < size.toNat) (tally : T) (memory : UInt32 → Order)
    {calls : List (ι × BookOp)}
    (hlegal : (ghostMachine ι T size).Legal (init tally memory, fun _ =>
      empty) calls) :
    ((ghostMachine ι T size).run (init tally memory, fun _ => empty)
      calls).1.Holds
      ((ghostMachine ι T size).run (init tally memory, fun _ =>
        empty) calls).2 :=
  Machine.invariant (fun state => state.1.Holds state.2)
    (fun _ _ hholds hallowed => hholds.apply hallowed)
    (init_holds hsize tally memory) hlegal

end Books

end MarketDataPipeline
