import MarketDataPipeline.Book.OrderPool
import MarketDataPipeline.Wire.ItchMessage

/-!
# Frequency buckets

The LFU cache keeps one node per symbol.  The nodes of the cached symbols hang
in doubly linked lists, one bucket for each access frequency.  `Holds` ties the
buckets to the lists of ids they stand for; adding at the front and removing a
member are followed on those lists.
-/

namespace MarketDataPipeline

open LinkRing

def lfuNullIdx : UInt32 := 0xFFFFFFFF

def maxSymbols : UInt32 := 256

structure LFUNode where
  bookId : UInt16
  symbol : Symbol
  frequency : UInt32
  freqPrev : UInt32
  freqNext : UInt32
  inCache : Bool
  valid : Bool
  deriving Inhabited

/-- What a node says besides its links. -/
def LFUNode.detached (node : LFUNode) : LFUNode :=
  { node with freqPrev := lfuNullIdx, freqNext := lfuNullIdx }

structure FreqBucket where
  head : UInt32
  tail : UInt32
  count : UInt32

/-- `nodes` and `freq_buckets` of the cache. -/
structure LFULists where
  nodes : UInt32 → LFUNode
  freqBuckets : UInt32 → FreqBucket

namespace LFULists

def modifyNode (lists : LFULists) (id : UInt32) (write : LFUNode → LFUNode) :
    LFULists :=
  { lists with
    nodes := Function.update lists.nodes id (write (lists.nodes id)) }

def modifyBucket (lists : LFULists) (freq : UInt32)
    (write : FreqBucket → FreqBucket) :
    LFULists :=
  { lists with
    freqBuckets := Function.update lists.freqBuckets freq
      (write (lists.freqBuckets freq)) }

/-- The node `id`, or the head of the bucket when there is none, links to
`link`. -/
def setNext (lists : LFULists) (freq id link : UInt32) : LFULists :=
  if id ≠ lfuNullIdx then
    lists.modifyNode id fun node => { node with freqNext := link }
  else lists.modifyBucket freq fun bucket => { bucket with head := link }

/-- The same for `freq_prev` and the tail of the bucket. -/
def setPrev (lists : LFULists) (freq id link : UInt32) : LFULists :=
  if id ≠ lfuNullIdx then
    lists.modifyNode id fun node => { node with freqPrev := link }
  else lists.modifyBucket freq fun bucket => { bucket with tail := link }

def addToBucket (lists : LFULists) (bookId : UInt16) (freq : UInt32) :
    LFULists :=
  let id := bookId.toUInt32
  let head := (lists.freqBuckets freq).head
  let linked := lists.modifyNode id fun node =>
    { node with freqPrev := lfuNullIdx, freqNext := head }
  (linked.setPrev freq head id).modifyBucket freq fun bucket =>
    { bucket with head := id, count := bucket.count + 1 }

/-- `remove_from_bucket`.  The node is read through a reference, so the second
half sees what the first wrote. -/
def removeFromBucket (lists : LFULists) (bookId : UInt16) (freq : UInt32) :
    LFULists :=
  let id := bookId.toUInt32
  let node := lists.nodes id
  let forward := lists.setNext freq node.freqPrev node.freqNext
  let node' := forward.nodes id
  let unlinked := forward.setPrev freq node'.freqNext node'.freqPrev
  let counted := unlinked.modifyBucket freq fun bucket =>
    { bucket with count := bucket.count - 1 }
  counted.modifyNode id fun node =>
    { node with freqPrev := lfuNullIdx, freqNext := lfuNullIdx }

/-! ## The rings of the buckets -/

def nextRing (lists : LFULists) (freq : UInt32) : UInt32 → UInt32 :=
  Function.update (fun id => (lists.nodes id).freqNext) lfuNullIdx
    (lists.freqBuckets freq).head

def prevRing (lists : LFULists) (freq : UInt32) : UInt32 → UInt32 :=
  Function.update (fun id => (lists.nodes id).freqPrev) lfuNullIdx
    (lists.freqBuckets freq).tail

/-- The buckets hold the lists of ids `members`, first the front. -/
structure Holds (lists : LFULists) (members : UInt32 → List UInt32) : Prop where
  ring : ∀ freq, IsRing (lists.nextRing freq) (lists.prevRing freq) lfuNullIdx
    (members freq)
  count : ∀ freq, (lists.freqBuckets freq).count.toNat = (members freq).length
  apart : ∀ freq freq' id, id ∈ members freq → id ∈ members freq' → freq' = freq
  small : ∀ freq, ∀ id ∈ members freq, id < maxSymbols

theorem modifyNode_nodes (lists : LFULists) (id : UInt32)
    (write : LFUNode → LFUNode)
    (i : UInt32) : (lists.modifyNode id write).nodes i =
      if i = id then write (lists.nodes i) else lists.nodes i := by
  by_cases hi : i = id
  · subst hi
    simp [modifyNode]
  · simp [modifyNode, hi]

theorem modifyBucket_buckets (lists : LFULists) (freq : UInt32)
    (write : FreqBucket → FreqBucket) (f : UInt32) :
    (lists.modifyBucket freq write).freqBuckets f =
      if f = freq then write (lists.freqBuckets f)
      else lists.freqBuckets f := by
  by_cases hf : f = freq
  · subst hf
    simp [modifyBucket]
  · simp [modifyBucket, hf]

@[simp]
theorem modifyNode_freqBuckets (lists : LFULists) (id : UInt32)
    (write : LFUNode → LFUNode) :
    (lists.modifyNode id write).freqBuckets = lists.freqBuckets := rfl

@[simp]
theorem modifyBucket_nodes (lists : LFULists) (freq : UInt32)
    (write : FreqBucket → FreqBucket) :
    (lists.modifyBucket freq write).nodes = lists.nodes := rfl

@[simp]
theorem nextRing_null (lists : LFULists) (freq : UInt32) :
    lists.nextRing freq lfuNullIdx = (lists.freqBuckets freq).head :=
      Function.update_self ..

@[simp]
theorem prevRing_null (lists : LFULists) (freq : UInt32) :
    lists.prevRing freq lfuNullIdx = (lists.freqBuckets freq).tail :=
      Function.update_self ..

theorem nextRing_of_ne (lists : LFULists) (freq : UInt32) {id : UInt32}
    (hid : id ≠ lfuNullIdx) :
    lists.nextRing freq id = (lists.nodes id).freqNext :=
  Function.update_of_ne hid ..

theorem prevRing_of_ne (lists : LFULists) (freq : UInt32) {id : UInt32}
    (hid : id ≠ lfuNullIdx) :
    lists.prevRing freq id = (lists.nodes id).freqPrev :=
  Function.update_of_ne hid ..

/-! ## One link -/

section Link

variable (lists : LFULists) (freq id link : UInt32)

/-- `setNext` writes one forward link of the ring of its bucket. -/
theorem setNext_nextRing :
    (lists.setNext freq id link).nextRing freq =
      Function.update (lists.nextRing freq) id link := by
  funext i
  rw [setNext, Function.update_apply]
  by_cases hi : i = lfuNullIdx
  · subst hi
    split
    case isTrue hid =>
      rw [if_neg (Ne.symm hid), nextRing_null, nextRing_null]; rfl
    case isFalse hid =>
      rw [if_pos (not_not.mp hid).symm, nextRing_null, modifyBucket_buckets,
      if_pos rfl]
  · rw [nextRing_of_ne _ _ hi, nextRing_of_ne _ _ hi]
    split
    case isTrue => rw [modifyNode_nodes]; split <;> rfl
    case isFalse hid =>
      have hne : i ≠ id := fun heq => hi (heq.trans (not_not.mp hid))
      rw [if_neg hne, modifyBucket_nodes]

/-- `setPrev` writes one backward link of the ring of its bucket. -/
theorem setPrev_prevRing :
    (lists.setPrev freq id link).prevRing freq =
      Function.update (lists.prevRing freq) id link := by
  funext i
  rw [setPrev, Function.update_apply]
  by_cases hi : i = lfuNullIdx
  · subst hi
    split
    case isTrue hid =>
      rw [if_neg (Ne.symm hid), prevRing_null, prevRing_null]; rfl
    case isFalse hid =>
      rw [if_pos (not_not.mp hid).symm, prevRing_null, modifyBucket_buckets,
      if_pos rfl]
  · rw [prevRing_of_ne _ _ hi, prevRing_of_ne _ _ hi]
    split
    case isTrue => rw [modifyNode_nodes]; split <;> rfl
    case isFalse hid =>
      have hne : i ≠ id := fun heq => hi (heq.trans (not_not.mp hid))
      rw [if_neg hne, modifyBucket_nodes]

theorem setNext_prevRing (f : UInt32) :
    (lists.setNext freq id link).prevRing f = lists.prevRing f := by
  funext i
  rw [setNext]
  by_cases hi : i = lfuNullIdx
  · subst hi
    rw [prevRing_null, prevRing_null]
    split
    case isTrue => rfl
    case isFalse => rw [modifyBucket_buckets]; split <;> rfl
  · rw [prevRing_of_ne _ _ hi, prevRing_of_ne _ _ hi]
    split
    case isTrue => rw [modifyNode_nodes]; split <;> rfl
    case isFalse => rfl

theorem setPrev_nextRing (f : UInt32) :
    (lists.setPrev freq id link).nextRing f = lists.nextRing f := by
  funext i
  rw [setPrev]
  by_cases hi : i = lfuNullIdx
  · subst hi
    rw [nextRing_null, nextRing_null]
    split
    case isTrue => rfl
    case isFalse => rw [modifyBucket_buckets]; split <;> rfl
  · rw [nextRing_of_ne _ _ hi, nextRing_of_ne _ _ hi]
    split
    case isTrue => rw [modifyNode_nodes]; split <;> rfl
    case isFalse => rfl

/-- The ring of another bucket sees a difference only at the node written to. -/
theorem setNext_nextRing_other {f i : UInt32} (hf : f ≠ freq)
    (hi : i = lfuNullIdx ∨ i ≠ id) :
    (lists.setNext freq id link).nextRing f i = lists.nextRing f i := by
  rw [setNext]
  by_cases hnull : i = lfuNullIdx
  · subst hnull
    rw [nextRing_null, nextRing_null]
    split
    case isTrue => rfl
    case isFalse => rw [modifyBucket_buckets, if_neg hf]
  · rw [nextRing_of_ne _ _ hnull, nextRing_of_ne _ _ hnull]
    split
    case isTrue => rw [modifyNode_nodes, if_neg (hi.resolve_left hnull)]
    case isFalse => rfl

theorem setPrev_prevRing_other {f i : UInt32} (hf : f ≠ freq)
    (hi : i = lfuNullIdx ∨ i ≠ id) :
    (lists.setPrev freq id link).prevRing f i = lists.prevRing f i := by
  rw [setPrev]
  by_cases hnull : i = lfuNullIdx
  · subst hnull
    rw [prevRing_null, prevRing_null]
    split
    case isTrue => rfl
    case isFalse => rw [modifyBucket_buckets, if_neg hf]
  · rw [prevRing_of_ne _ _ hnull, prevRing_of_ne _ _ hnull]
    split
    case isTrue => rw [modifyNode_nodes, if_neg (hi.resolve_left hnull)]
    case isFalse => rfl

theorem setNext_count (f : UInt32) :
    ((lists.setNext freq id link).freqBuckets f).count =
      (lists.freqBuckets f).count := by
  rw [setNext]
  split
  case isTrue => rfl
  case isFalse => rw [modifyBucket_buckets]; split <;> rfl

theorem setPrev_count (f : UInt32) :
    ((lists.setPrev freq id link).freqBuckets f).count =
      (lists.freqBuckets f).count := by
  rw [setPrev]
  split
  case isTrue => rfl
  case isFalse => rw [modifyBucket_buckets]; split <;> rfl

theorem setNext_nodes_of_ne {i : UInt32} (hi : i ≠ id) :
    (lists.setNext freq id link).nodes i = lists.nodes i := by
  rw [setNext]
  split
  case isTrue => rw [modifyNode_nodes, if_neg hi]
  case isFalse => rfl

theorem setNext_detached (i : UInt32) :
    ((lists.setNext freq id link).nodes i).detached =
      (lists.nodes i).detached := by
  rw [setNext]
  split
  case isTrue => rw [modifyNode_nodes]; split <;> rfl
  case isFalse => rfl

theorem setPrev_detached (i : UInt32) :
    ((lists.setPrev freq id link).nodes i).detached =
      (lists.nodes i).detached := by
  rw [setPrev]
  split
  case isTrue => rw [modifyNode_nodes]; split <;> rfl
  case isFalse => rfl

end Link

/-- Adding and removing change the links of nodes only. -/
theorem addToBucket_detached (lists : LFULists) (bookId : UInt16)
    (freq i : UInt32) :
    ((lists.addToBucket bookId freq).nodes i).detached =
      (lists.nodes i).detached := by
  rw [addToBucket, modifyBucket_nodes, setPrev_detached, modifyNode_nodes]
  split <;> rfl

theorem removeFromBucket_detached (lists : LFULists) (bookId : UInt16)
    (freq i : UInt32) :
    ((lists.removeFromBucket bookId freq).nodes i).detached =
      (lists.nodes i).detached := by
  have hwrite : ∀ node : LFUNode,
      ({ node with freqPrev := lfuNullIdx, freqNext := lfuNullIdx } :
        LFUNode).detached =
        node.detached := fun _ => rfl
  rw [removeFromBucket, modifyNode_nodes]
  split
  · rw [hwrite, modifyBucket_nodes, setPrev_detached, setNext_detached]
  · rw [modifyBucket_nodes, setPrev_detached, setNext_detached]

/-! ## Whole buckets -/

theorem ne_lfuNullIdx_of_lt {id : UInt32} (hid : id < maxSymbols) :
    id ≠ lfuNullIdx := by
  rintro rfl
  exact absurd hid (by decide)

theorem modifyNode_nextRing_of_ne (lists : LFULists) {id i : UInt32}
    (write : LFUNode → LFUNode) (freq : UInt32) (hi : i ≠ id) :
    (lists.modifyNode id write).nextRing freq i = lists.nextRing freq i := by
  by_cases hnull : i = lfuNullIdx
  · rw [hnull, nextRing_null, nextRing_null, modifyNode_freqBuckets]
  · rw [nextRing_of_ne _ _ hnull, nextRing_of_ne _ _ hnull,
      modifyNode_nodes, if_neg hi]

theorem modifyNode_prevRing_of_ne (lists : LFULists) {id i : UInt32}
    (write : LFUNode → LFUNode) (freq : UInt32) (hi : i ≠ id) :
    (lists.modifyNode id write).prevRing freq i = lists.prevRing freq i := by
  by_cases hnull : i = lfuNullIdx
  · rw [hnull, prevRing_null, prevRing_null, modifyNode_freqBuckets]
  · rw [prevRing_of_ne _ _ hnull, prevRing_of_ne _ _ hnull,
      modifyNode_nodes, if_neg hi]

theorem modifyBucket_nextRing_of_ne (lists : LFULists) (freq f : UInt32)
    (write : FreqBucket → FreqBucket) {i : UInt32}
    (hi : f ≠ freq ∨ i ≠ lfuNullIdx) :
    (lists.modifyBucket freq write).nextRing f i = lists.nextRing f i := by
  by_cases hnull : i = lfuNullIdx
  · have hf := hi.resolve_right (not_not.mpr hnull)
    rw [hnull, nextRing_null, nextRing_null, modifyBucket_buckets, if_neg hf]
  · rw [nextRing_of_ne _ _ hnull, nextRing_of_ne _ _ hnull, modifyBucket_nodes]

theorem modifyBucket_prevRing (lists : LFULists) (freq f : UInt32)
    {write : FreqBucket → FreqBucket} (hwrite : ∀ bucket, (write bucket).tail =
      bucket.tail) :
    (lists.modifyBucket freq write).prevRing f = lists.prevRing f := by
  funext i
  by_cases hnull : i = lfuNullIdx
  · rw [hnull, prevRing_null, prevRing_null, modifyBucket_buckets]
    split
    · exact hwrite _
    · rfl
  · rw [prevRing_of_ne _ _ hnull, prevRing_of_ne _ _ hnull, modifyBucket_nodes]

theorem modifyBucket_nextRing (lists : LFULists) (freq f : UInt32)
    {write : FreqBucket → FreqBucket} (hwrite : ∀ bucket, (write bucket).head =
      bucket.head) :
    (lists.modifyBucket freq write).nextRing f = lists.nextRing f := by
  funext i
  by_cases hnull : i = lfuNullIdx
  · rw [hnull, nextRing_null, nextRing_null, modifyBucket_buckets]
    split
    · exact hwrite _
    · rfl
  · rw [nextRing_of_ne _ _ hnull, nextRing_of_ne _ _ hnull, modifyBucket_nodes]

namespace Holds

variable {lists : LFULists} {members : UInt32 → List UInt32}

theorem length_le (hholds : lists.Holds members) (freq : UInt32) :
    (members freq).length ≤ maxSymbols.toNat :=
  OrderPool.length_le_of_nodup (List.nodup_cons.mp (hholds.ring freq).nodup).2
    (hholds.small freq)

/-- Writing anything but the links of a node leaves the buckets alone. -/
theorem modifyNode (hholds : lists.Holds members) (id : UInt32)
    {write : LFUNode → LFUNode}
    (hnext : ∀ node, (write node).freqNext = node.freqNext)
    (hprev : ∀ node, (write node).freqPrev = node.freqPrev) :
    (lists.modifyNode id write).Holds members where
  ring freq := by
    refine (hholds.ring freq).congr (fun i _ => ?_) fun i _ => ?_
    all_goals
      by_cases hi : i = lfuNullIdx
      · subst hi
        simp
    · rw [nextRing_of_ne _ _ hi, nextRing_of_ne _ _ hi, modifyNode_nodes]
      split
      · exact hnext _
      · rfl
    · rw [prevRing_of_ne _ _ hi, prevRing_of_ne _ _ hi, modifyNode_nodes]
      split
      · exact hprev _
      · rfl
  count := hholds.count
  apart := hholds.apart
  small := hholds.small

/-- The tail of a bucket is its last member. -/
theorem tail_eq (hholds : lists.Holds members) (freq : UInt32) :
    (lists.freqBuckets freq).tail = (members freq).getLastD lfuNullIdx := by
  rw [← (hholds.ring freq).prev_null, prevRing_null]

theorem head_eq (hholds : lists.Holds members) (freq : UInt32) :
    (lists.freqBuckets freq).head = (members freq).headD lfuNullIdx := by
  rw [← (hholds.ring freq).next_null, nextRing_null]

/-- What one bucket links is no member of another. -/
theorem ne_of_freq_ne (hholds : lists.Holds members) {freq f i j : UInt32}
    (hf : f ≠ freq) (hj : j ∈ lfuNullIdx :: members freq)
    (hi : i ∈ lfuNullIdx :: members f) :
    i = lfuNullIdx ∨ i ≠ j := by
  rcases List.mem_cons.mp hi with heq | hmem
  · exact Or.inl heq
  refine Or.inr fun heq => ?_
  subst heq
  rcases List.mem_cons.mp hj with hnone | hsome
  · exact (hholds.ring f).null_notMem (hnone ▸ hmem)
  · exact hf (hholds.apart freq f _ hsome hmem)

/-- The rule for an edit of one bucket: its ring is the one of the new list, and
nothing is seen of the edit in the other buckets. -/
theorem edit (hholds : lists.Holds members) {lists' : LFULists} {freq : UInt32}
    {queue : List UInt32}
    (hring : IsRing (lists'.nextRing freq) (lists'.prevRing freq)
      lfuNullIdx queue)
    (hnext : ∀ f, f ≠ freq → ∀ i ∈ lfuNullIdx :: members f,
      lists'.nextRing f i = lists.nextRing f i)
    (hprev : ∀ f, f ≠ freq → ∀ i ∈ lfuNullIdx :: members f,
      lists'.prevRing f i = lists.prevRing f i)
    (hcount : (lists'.freqBuckets freq).count.toNat = queue.length)
    (hcounts : ∀ f, f ≠ freq → (lists'.freqBuckets f).count =
      (lists.freqBuckets f).count)
    (hapart : ∀ f, f ≠ freq → ∀ id ∈ queue, id ∉ members f)
    (hsmall : ∀ id ∈ queue, id < maxSymbols) :
    lists'.Holds (Function.update members freq queue) where
  ring f := by
    by_cases hf : f = freq
    · rw [hf, Function.update_self]
      exact hring
    · rw [Function.update_of_ne hf]
      exact (hholds.ring f).congr (hnext f hf) (hprev f hf)
  count f := by
    by_cases hf : f = freq
    · rw [hf, Function.update_self]
      exact hcount
    · rw [Function.update_of_ne hf, hcounts f hf, hholds.count f]
  apart f f' id hid hid' := by
    by_cases hf : f = freq
    · by_cases hf' : f' = freq
      · rw [hf, hf']
      · rw [hf, Function.update_self] at hid
        rw [Function.update_of_ne hf'] at hid'
        exact absurd hid' (hapart f' hf' id hid)
    · rw [Function.update_of_ne hf] at hid
      by_cases hf' : f' = freq
      · rw [hf', Function.update_self] at hid'
        exact absurd hid (hapart f hf id hid')
      · rw [Function.update_of_ne hf'] at hid'
        exact hholds.apart f f' id hid hid'
  small f id hid := by
    by_cases hf : f = freq
    · rw [hf, Function.update_self] at hid
      exact hsmall id hid
    · rw [Function.update_of_ne hf] at hid
      exact hholds.small f id hid

/-- Adding a symbol that is in no bucket puts it at the front of its bucket. -/
theorem add (hholds : lists.Holds members) {bookId : UInt16} (freq : UInt32)
    (hid : bookId.toUInt32 < maxSymbols)
    (hfresh : ∀ f, bookId.toUInt32 ∉ members f) :
    (lists.addToBucket bookId freq).Holds
      (Function.update members freq (bookId.toUInt32 :: members freq)) := by
  have hnull := ne_lfuNullIdx_of_lt hid
  have hring := hholds.ring freq
  have hhead := hholds.head_eq freq
  have hheadMem : (lists.freqBuckets freq).head ∈
      lfuNullIdx :: members freq := by
    rw [← nextRing_null]
    exact hring.next_null_mem_cons
  have hmemNe : ∀ f, ∀ i ∈ lfuNullIdx :: members f, i ≠ bookId.toUInt32 := by
    rintro f i hi rfl
    exact (List.mem_cons.mp hi).elim hnull (hfresh f)
  have hnext : ∀ f i, f ≠ freq ∨ i ≠ lfuNullIdx → i ≠ bookId.toUInt32 →
      (lists.addToBucket bookId freq).nextRing f i = lists.nextRing f i := by
    intro f i hi hne
    rw [addToBucket, modifyBucket_nextRing_of_ne _ _ _ _ hi, setPrev_nextRing,
      modifyNode_nextRing_of_ne _ _ _ hne]
  have hprev : ∀ f, (lists.addToBucket bookId freq).prevRing f =
      ((lists.modifyNode bookId.toUInt32 fun node =>
        { node with
          freqPrev := lfuNullIdx,
          freqNext := (lists.freqBuckets freq).head }).setPrev
          freq (lists.freqBuckets freq).head bookId.toUInt32).prevRing f := by
    intro f
    rw [addToBucket, modifyBucket_prevRing]
    exact fun _ => rfl
  have hcount : ∀ f, ((lists.addToBucket bookId freq).freqBuckets f).count =
      if f = freq then (lists.freqBuckets f).count + 1
      else (lists.freqBuckets f).count := by
    intro f
    rw [addToBucket, modifyBucket_buckets]
    split
    · dsimp only
      rw [setPrev_count, modifyNode_freqBuckets]
    · rw [setPrev_count, modifyNode_freqBuckets]
  refine hholds.edit (hring.insertFront (fun hmem => hmemNe freq _ hmem rfl) ?_
    ?_ ?_ ?_ ?_ ?_)
    (fun f hf i hi => hnext f i (Or.inl hf) (hmemNe f i hi))
      (fun f hf i hi => ?_) ?_
    (fun f hf => ?_) (fun f hf id hmem => ?_) fun id hmem => ?_
  -- The links of the symbol and of its neighbours.
  · rw [nextRing_null, addToBucket, modifyBucket_buckets, if_pos rfl]
  · rw [hprev, setPrev_prevRing, ← hhead, Function.update_self]
  · rw [addToBucket, modifyBucket_nextRing_of_ne _ _ _ _ (Or.inr hnull),
      setPrev_nextRing, nextRing_of_ne _ _ hnull, modifyNode_nodes, if_pos rfl]
    exact hhead
  · rw [hprev, setPrev_prevRing,
      Function.update_of_ne (hmemNe freq _ hheadMem).symm,
      prevRing_of_ne _ _ hnull, modifyNode_nodes, if_pos rfl]
  · intro i hi
    exact hnext freq i (Or.inr fun heq => hring.null_notMem (heq ▸ hi))
      (hmemNe freq i (List.mem_cons_of_mem _ hi))
  · intro i hi hne
    rw [hprev, setPrev_prevRing, Function.update_of_ne (hhead ▸ hne),
      modifyNode_prevRing_of_ne _ _ _ (hmemNe freq i hi)]
  -- The other buckets and the counts.
  · rw [hprev, setPrev_prevRing_other _ _ _ _ hf
      (hholds.ne_of_freq_ne hf hheadMem hi),
      modifyNode_prevRing_of_ne _ _ _ (hmemNe f i hi)]
  · have hlength := hholds.length_le freq
    have hbound : maxSymbols.toNat < 2 ^ 31 := by decide
    rw [hcount, if_pos rfl, List.length_cons, UInt32.toNat_add,
      hholds.count freq, UInt32.toNat_one, Nat.mod_eq_of_lt (by omega)]
  · rw [hcount, if_neg hf]
  · rcases List.mem_cons.mp hmem with rfl | hold
    · exact hfresh f
    · exact fun hother => hf (hholds.apart freq f id hold hother)
  · rcases List.mem_cons.mp hmem with rfl | hold
    · exact hid
    · exact hholds.small freq id hold

/-- Removing a symbol takes it out of its bucket. -/
theorem remove (hholds : lists.Holds members) {bookId : UInt16} {freq : UInt32}
    {before after : List UInt32}
    (hsplit : members freq = before ++ bookId.toUInt32 :: after) :
    (lists.removeFromBucket bookId freq).Holds
      (Function.update members freq (before ++ after)) := by
  have hmemId : bookId.toUInt32 ∈ members freq := by simp [hsplit]
  have hnull := ne_lfuNullIdx_of_lt (hholds.small freq _ hmemId)
  have hsub : ∀ i ∈ before ++ after, i ∈ members freq :=
    fun i => mem_of_split hsplit
  have hsubCons : ∀ i ∈ lfuNullIdx :: (before ++ after), i ∈
      lfuNullIdx :: members freq :=
    fun i hi => List.mem_cons.mpr ((List.mem_cons.mp hi).imp_right (hsub i))
  have hring := hholds.ring freq
  rw [hsplit] at hring
  have hne : ∀ i ∈ lfuNullIdx :: (before ++ after), i ≠ bookId.toUInt32 := by
    rintro i hi rfl
    exact hring.notMem_others hi
  have hidOther : ∀ f, f ≠ freq →
      ∀ i ∈ lfuNullIdx :: members f, i ≠ bookId.toUInt32 := by
    intro f hf i hi
    rcases hholds.ne_of_freq_ne hf (List.mem_cons_of_mem _ hmemId)
      hi with rfl | hother
    · exact hnull.symm
    · exact hother
  -- The neighbours of the symbol are members of its bucket or the sentinel.
  have hprevMem := hring.prev_mem_others
  have hnextMem := hring.next_mem_others
  rw [prevRing_of_ne _ _ hnull] at hprevMem
  rw [nextRing_of_ne _ _ hnull] at hnextMem
  have hsame : ((lists.setNext freq (lists.nodes bookId.toUInt32).freqPrev
      (lists.nodes bookId.toUInt32).freqNext).nodes bookId.toUInt32) =
        lists.nodes bookId.toUInt32 :=
          setNext_nodes_of_ne _ _ _ _ (hne _ hprevMem).symm
  have hnext : ∀ f i, i ≠ bookId.toUInt32 →
      (lists.removeFromBucket bookId freq).nextRing f i =
        (lists.setNext freq (lists.nodes bookId.toUInt32).freqPrev
          (lists.nodes bookId.toUInt32).freqNext).nextRing f i := by
    intro f i hi
    rw [removeFromBucket, modifyNode_nextRing_of_ne _ _ _ hi,
      modifyBucket_nextRing, setPrev_nextRing]
    exact fun _ => rfl
  have hprev : ∀ f i, i ≠ bookId.toUInt32 →
      (lists.removeFromBucket bookId freq).prevRing f i =
        ((lists.setNext freq (lists.nodes bookId.toUInt32).freqPrev
          (lists.nodes bookId.toUInt32).freqNext).setPrev freq
            (lists.nodes bookId.toUInt32).freqNext
            (lists.nodes bookId.toUInt32).freqPrev).prevRing f i := by
    intro f i hi
    rw [removeFromBucket, modifyNode_prevRing_of_ne _ _ _ hi,
      modifyBucket_prevRing, hsame]
    exact fun _ => rfl
  have hcount : ∀ f,
      ((lists.removeFromBucket bookId freq).freqBuckets f).count =
      if f = freq then (lists.freqBuckets f).count - 1
      else (lists.freqBuckets f).count := by
    intro f
    rw [removeFromBucket, modifyNode_freqBuckets, modifyBucket_buckets]
    split
    · dsimp only
      rw [setPrev_count, setNext_count]
    · rw [setPrev_count, setNext_count]
  refine hholds.edit (hring.remove ?_ ?_ ?_ ?_) (fun f hf i hi => ?_)
    (fun f hf i hi => ?_) ?_
    (fun f hf => ?_) (fun f hf id hmem hother =>
      hf (hholds.apart freq f id (hsub id hmem) hother))
    fun id hmem => hholds.small freq id (hsub id hmem)
  -- The links of the neighbours.
  · rw [prevRing_of_ne _ _ hnull, nextRing_of_ne _ _ hnull,
      hnext _ _ (hne _ hprevMem), setNext_nextRing, Function.update_self]
  · rw [prevRing_of_ne _ _ hnull, nextRing_of_ne _ _ hnull,
      hprev _ _ (hne _ hnextMem), setPrev_prevRing, Function.update_self]
  · intro i hi hi'
    rw [prevRing_of_ne _ _ hnull] at hi'
    rw [hnext _ _ (hne i hi), setNext_nextRing, Function.update_of_ne hi']
  · intro i hi hi'
    rw [nextRing_of_ne _ _ hnull] at hi'
    rw [hprev _ _ (hne i hi), setPrev_prevRing, Function.update_of_ne hi',
      setNext_prevRing]
  -- The other buckets and the counts.
  · rw [hnext _ _ (hidOther f hf i hi), setNext_nextRing_other _ _ _ _ hf
      (hholds.ne_of_freq_ne hf (hsubCons _ hprevMem) hi)]
  · rw [hprev _ _ (hidOther f hf i hi), setPrev_prevRing_other _ _ _ _ hf
      (hholds.ne_of_freq_ne hf (hsubCons _ hnextMem) hi), setNext_prevRing]
  · have hlength := hholds.count freq
    rw [hsplit, List.length_append, List.length_cons] at hlength
    rw [hcount, if_pos rfl, UInt32.toNat_sub_of_le _ _ (by
      rw [UInt32.le_iff_toNat_le, UInt32.toNat_one]; omega), hlength,
        UInt32.toNat_one,
      List.length_append]
    omega
  · rw [hcount, if_neg hf]

end Holds

end LFULists

end MarketDataPipeline
