import MarketDataPipeline.Cache.FrequencyBuckets
import MarketDataPipeline.Core.LFUPolicy
import MarketDataPipeline.Core.Machine

/-!
# The index of the LFU cache

All of `LFUCache` but its books: the nodes and buckets, the two maps between
symbols and slots, and the counters.  `LFUCache.access` does to its index what
`access` does here and resets the book of a slot it reassigns.
-/

namespace MarketDataPipeline

def maxCacheSize : UInt32 := 5

def maxFrequency : UInt32 := 1024

structure LFUIndex where
  lists : LFULists
  bookToSlot : UInt32 → UInt32
  slotToBook : UInt32 → UInt32
  minFrequency : UInt32
  cacheSize : UInt32
  hits : UInt64
  misses : UInt64
  evictions : UInt64

/-- What `access` answers: no book, the book of a symbol it found, or the book
of a slot it has just assigned. -/
inductive Lookup
  | refused
  | hit (slot : UInt32)
  | miss (slot : UInt32)
  deriving DecidableEq

/-- The slot whose book is returned; `none` is the null pointer. -/
def Lookup.slot : Lookup → Option UInt32
  | refused => none
  | hit slot => some slot
  | miss slot => some slot

namespace LFUIndex

/-- `init` on whatever the nodes hold: ids and symbols are not written. -/
def init (memory : UInt32 → LFUNode) : LFUIndex where
  lists :=
    { nodes := fun i =>
        { memory i with
          inCache := false
          valid := false
          frequency := 0
          freqPrev := lfuNullIdx
          freqNext := lfuNullIdx }
      freqBuckets := fun _ => ⟨lfuNullIdx, lfuNullIdx, 0⟩ }
  bookToSlot _ := lfuNullIdx
  slotToBook _ := lfuNullIdx
  minFrequency := 0
  cacheSize := 0
  hits := 0
  misses := 0
  evictions := 0

def updateFrequency (index : LFUIndex) (bookId : UInt16) : LFUIndex :=
  let oldFreq := (index.lists.nodes bookId.toUInt32).frequency
  let newFreq := if oldFreq < maxFrequency - 1 then oldFreq + 1 else oldFreq
  let removed := index.lists.removeFromBucket bookId oldFreq
  { index with
    minFrequency :=
      if (removed.freqBuckets oldFreq).count = 0 ∧
          oldFreq = index.minFrequency then
        newFreq
      else index.minFrequency
    lists :=
      (removed.modifyNode bookId.toUInt32 fun node =>
        { node with frequency := newFreq }).addToBucket bookId newFreq }

/-- `evict_lfu`.  The victim's id is narrowed to the parameter of
`remove_from_bucket`. -/
def evictLfu (index : LFUIndex) : UInt32 × LFUIndex :=
  let victimId := (index.lists.freqBuckets index.minFrequency).tail
  if victimId = lfuNullIdx then (0, index)
  else
    let removed :=
      index.lists.removeFromBucket victimId.toUInt16 index.minFrequency
    (index.bookToSlot victimId,
      { index with
        lists := removed.modifyNode victimId fun node =>
          { node with inCache := false }
        bookToSlot := Function.update index.bookToSlot victimId lfuNullIdx
        evictions := index.evictions + 1 })

/-- The slot for a newcomer: the next unused one, or that of an
evicted symbol. -/
def claimSlot (index : LFUIndex) : UInt32 × LFUIndex :=
  if index.cacheSize < maxCacheSize then
    (index.cacheSize, { index with cacheSize := index.cacheSize + 1 })
  else index.evictLfu

/-- Entering a newcomer at its slot. -/
def occupy (index : LFUIndex) (bookId : UInt16) (symbol : Symbol)
    (slot : UInt32) : LFUIndex :=
  let initialized := index.lists.modifyNode bookId.toUInt32 fun node =>
    { node with bookId, symbol, inCache := true, valid := true, frequency := 1 }
  { index with
    lists := initialized.addToBucket bookId 1
    minFrequency := 1
    bookToSlot := Function.update index.bookToSlot bookId.toUInt32 slot
    slotToBook := Function.update index.slotToBook slot bookId.toUInt32 }

def access (index : LFUIndex) (bookId : UInt16) (symbol : Symbol) :
    Lookup × LFUIndex :=
  if bookId.toUInt32 ≥ maxSymbols then (.refused, index)
  else if (index.lists.nodes bookId.toUInt32).inCache then
    let updated := { index with hits := index.hits + 1 }.updateFrequency bookId
    (.hit (updated.bookToSlot bookId.toUInt32), updated)
  else
    let claimed := { index with misses := index.misses + 1 }.claimSlot
    (.miss claimed.1, claimed.2.occupy bookId symbol claimed.1)

def isCached (index : LFUIndex) (bookId : UInt16) : Bool :=
  bookId.toUInt32 < maxSymbols && (index.lists.nodes bookId.toUInt32).inCache

/-- The slot of the book that `peek` returns. -/
def peek (index : LFUIndex) (bookId : UInt16) : Option UInt32 :=
  if bookId.toUInt32 ≥ maxSymbols ∨
      (index.lists.nodes bookId.toUInt32).inCache = false then
    none
  else some (index.bookToSlot bookId.toUInt32)

def getFrequency (index : LFUIndex) (bookId : UInt16) : UInt32 :=
  if bookId.toUInt32 ≥ maxSymbols ∨
      (index.lists.nodes bookId.toUInt32).valid = false then
    0
  else (index.lists.nodes bookId.toUInt32).frequency

def machine : Machine LFUIndex (UInt16 × Symbol) where
  allowed _ _ := True
  step index call := (index.access call.1 call.2).2

theorem isCached_eq (index : LFUIndex) {bookId : UInt16}
    (hid : bookId.toUInt32 < maxSymbols) :
    index.isCached bookId = (index.lists.nodes bookId.toUInt32).inCache := by
  simp [isCached, hid]

theorem lt_maxSymbols_of_isCached {index : LFUIndex} {bookId : UInt16}
    (hcached : index.isCached bookId = true) :
    bookId.toUInt32 < maxSymbols := by
  simp only [isCached, Bool.and_eq_true, decide_eq_true_eq] at hcached
  exact hcached.1

/-- A hit leaves the cached symbols as they are. -/
theorem updateFrequency_isCached (index : LFUIndex) (bookId other : UInt16) :
    (index.updateFrequency bookId).isCached other = index.isCached other := by
  have hnode :
      ((index.updateFrequency bookId).lists.nodes other.toUInt32).inCache =
      (index.lists.nodes other.toUInt32).inCache := by
    have hadded := LFULists.addToBucket_detached
    have hremoved := LFULists.removeFromBucket_detached
    refine (congrArg LFUNode.inCache (hadded _ _ _ _) :).trans ?_
    rw [LFULists.modifyNode_nodes]
    split <;> exact (congrArg LFUNode.inCache (hremoved _ _ _ _) :)
  rw [isCached, isCached, hnode]

theorem access_of_ge (index : LFUIndex) {bookId : UInt16}
    (hid : maxSymbols ≤ bookId.toUInt32)
    (symbol : Symbol) : index.access bookId symbol = (.refused, index) :=
  if_pos hid

/-- An access of a cached symbol is a hit. -/
theorem access_of_isCached {index : LFUIndex} {bookId : UInt16}
    (hcached : index.isCached bookId = true) (symbol : Symbol) :
    index.access bookId symbol = (.hit (index.bookToSlot bookId.toUInt32),
      { index with hits := index.hits + 1 }.updateFrequency bookId) := by
  have hid := lt_maxSymbols_of_isCached hcached
  rw [isCached_eq index hid] at hcached
  rw [access, if_neg (UInt32.not_le.mpr hid), if_pos hcached]
  rfl

/-- What an access that is not refused answers tells whether the symbol was
cached. -/
theorem access_hit_iff (index : LFUIndex) {bookId : UInt16}
    (hid : bookId.toUInt32 < maxSymbols)
    (symbol : Symbol) : (∃ slot, (index.access bookId symbol).1 = .hit slot) ↔
      index.isCached bookId = true := by
  rw [access, if_neg (UInt32.not_le.mpr hid), isCached_eq index hid]
  split
  case isTrue hcached => simp [hcached]
  case isFalse hcached => simp [hcached]

/-- An access returns the book that the map then gives for the symbol. -/
theorem access_slot (index : LFUIndex) {bookId : UInt16}
    (hid : bookId.toUInt32 < maxSymbols)
    (symbol : Symbol) : (index.access bookId symbol).1.slot =
      some ((index.access bookId symbol).2.bookToSlot bookId.toUInt32) := by
  rw [access, if_neg (UInt32.not_le.mpr hid)]
  split
  · rfl
  · dsimp only [Lookup.slot, occupy]
    rw [Function.update_self]

end LFUIndex

end MarketDataPipeline
