import MarketDataPipeline.Cache.ReplacementPolicy

/-!
# The representation invariant of the index

What the buckets, the minimum frequency and the two maps say about the cached
symbols after any sequence of accesses, in terms of the index alone.
-/

namespace MarketDataPipeline

open LinkRing LFUPolicy

/-- The nodes of a bucket from head to tail. -/
def LFULists.bucket (lists : LFULists) (freq : UInt32) : List UInt32 :=
  walk (fun id => (lists.nodes id).freqNext) lfuNullIdx maxSymbols.toNat
    (lists.freqBuckets freq).head

/-- Walking from the head meets the members of the bucket in order. -/
theorem LFULists.Holds.bucket_eq {lists : LFULists}
    {members : UInt32 → List UInt32} (hholds : lists.Holds members)
    (freq : UInt32) :
    lists.bucket freq = members freq := by
  have hring := hholds.ring freq
  have hpath := hring.isPath
  rw [LFULists.nextRing_null] at hpath
  refine (hpath.congr fun id hid => ?_).walk_eq (hholds.length_le freq)
  have hne : id ≠ lfuNullIdx := fun heq => hring.null_notMem (heq ▸ hid)
  exact (LFULists.nextRing_of_ne lists freq hne).symm

namespace LFUIndex

def Cached (index : LFUIndex) (id : UInt32) : Prop :=
  id < maxSymbols ∧ (index.lists.nodes id).inCache = true

def cachedIds (index : LFUIndex) : List UInt16 :=
  ((List.range maxSymbols.toNat).map UInt16.ofNat).filter index.isCached

/-- The buckets sort the cached symbols by frequency. -/
structure BucketsSorted (index : LFUIndex) : Prop where
  linked : ∀ freq, IsRing (index.lists.nextRing freq)
    (index.lists.prevRing freq) lfuNullIdx
    (index.lists.bucket freq)
  count : ∀ freq, (index.lists.freqBuckets freq).count.toNat =
    (index.lists.bucket freq).length
  mem_iff : ∀ freq id, id ∈ index.lists.bucket freq ↔
    index.Cached id ∧ (index.lists.nodes id).frequency = freq
  bounded : ∀ id, index.Cached id →
    1 ≤ (index.lists.nodes id).frequency ∧
      (index.lists.nodes id).frequency ≤ maxFrequency - 1

/-- `min_frequency` is the smallest frequency of a cached symbol. -/
structure MinimumExact (index : LFUIndex) : Prop where
  attained : (∃ id, index.Cached id) →
    ∃ id, index.Cached id ∧
      (index.lists.nodes id).frequency = index.minFrequency
  least : ∀ id, index.Cached id →
    index.minFrequency ≤ (index.lists.nodes id).frequency

/-- `book_to_slot` and `slot_to_book` pair the cached symbols with the slots in
use. -/
structure SlotsPaired (index : LFUIndex) : Prop where
  size : index.cacheSize ≤ maxCacheSize
  slot : ∀ id, index.Cached id → index.bookToSlot id < index.cacheSize ∧
    index.slotToBook (index.bookToSlot id) = id
  book : ∀ slot, slot < index.cacheSize → index.Cached (index.slotToBook slot) ∧
    index.bookToSlot (index.slotToBook slot) = slot

namespace Refines

variable {index : LFUIndex} {cache : ReferenceCache}

theorem cached_iff (hrefines : index.Refines cache) (id : UInt32) :
    index.Cached id ↔ ∃ entry ∈ cache.entries, entry.node = id := by
  constructor
  · rintro ⟨hsmall, hinCache⟩
    have hmax : maxSymbols.toNat = 256 := rfl
    have hid : id.toUInt16.toUInt32 = id := by
      rw [UInt32.lt_iff_toNat_lt, hmax] at hsmall
      rw [← UInt32.toNat_inj, UInt16.toNat_toUInt32, UInt32.toNat_toUInt16,
        Nat.mod_eq_of_lt]
      omega
    have hcached : index.isCached id.toUInt16 = true := by
      rw [isCached_eq index (by rwa [hid]), hid, hinCache]
    obtain ⟨entry, hentry, hkey⟩ := List.mem_map.mp (hrefines.cached _ hcached)
    exact ⟨entry, hentry, (congrArg UInt16.toUInt32 hkey).trans hid⟩
  · rintro ⟨entry, hentry, rfl⟩
    exact ⟨hrefines.small hentry, (hrefines.node entry hentry).1⟩

theorem bucketsSorted (hrefines : index.Refines cache) :
    index.BucketsSorted := by
  obtain ⟨buckets, hfiled⟩ := hrefines.filed
  refine ⟨fun freq => ?_, fun freq => ?_, fun freq id =>
    ?_, fun id hcached => ?_⟩
  · rw [hfiled.holds.bucket_eq]
    exact hfiled.holds.ring freq
  · rw [hfiled.holds.bucket_eq, hfiled.holds.count]
  · rw [hfiled.holds.bucket_eq, hrefines.cached_iff, List.mem_map]
    constructor
    · rintro ⟨entry, hmem, rfl⟩
      obtain ⟨hentry, hcount⟩ := (hfiled.mem_iff freq entry).mp hmem
      refine ⟨⟨entry, hentry, rfl⟩, UInt32.toNat_inj.mp ?_⟩
      rw [(hrefines.node entry hentry).2, hcount]
    · rintro ⟨⟨entry, hentry, rfl⟩, hfrequency⟩
      refine ⟨entry, (hfiled.mem_iff freq entry).mpr ⟨hentry, ?_⟩, rfl⟩
      rw [← (hrefines.node entry hentry).2, hfrequency]
  · obtain ⟨entry, hentry, rfl⟩ := (hrefines.cached_iff id).mp hcached
    obtain ⟨hpos, hlt⟩ := hrefines.counted entry hentry
    have hfrequency := (hrefines.node entry hentry).2
    have hmax : maxFrequency.toNat = 1024 := rfl
    have hlast : (maxFrequency - 1).toNat = 1023 := rfl
    rw [UInt32.le_iff_toNat_le, UInt32.le_iff_toNat_le, hfrequency,
      UInt32.toNat_one, hlast]
    omega

theorem minimumExact (hrefines : index.Refines cache) : index.MinimumExact := by
  refine ⟨fun hsome => ?_, fun id hcached => ?_⟩
  · obtain ⟨id, hcached⟩ := hsome
    obtain ⟨entry, hentry, -⟩ := (hrefines.cached_iff id).mp hcached
    obtain ⟨⟨least, hmem, hcount⟩, -⟩ :=
      hrefines.least (List.ne_nil_of_mem hentry)
    refine ⟨least.node, (hrefines.cached_iff _).mpr ⟨least, hmem, rfl⟩,
      UInt32.toNat_inj.mp ?_⟩
    rw [(hrefines.node least hmem).2, hcount]
  · obtain ⟨entry, hentry, rfl⟩ := (hrefines.cached_iff id).mp hcached
    rw [UInt32.le_iff_toNat_le, (hrefines.node entry hentry).2]
    exact (hrefines.least (List.ne_nil_of_mem hentry)).2 entry hentry

theorem slotsPaired (hrefines : index.Refines cache) : index.SlotsPaired := by
  have hlength := cache.wellFormed.length_le
  have hsize : maxCacheSize.toNat = 5 := rfl
  refine ⟨?_, fun id hcached => ?_, fun slot hslot => ?_⟩
  · rwa [UInt32.le_iff_toNat_le, hrefines.size]
  · obtain ⟨entry, hentry, rfl⟩ := (hrefines.cached_iff id).mp hcached
    obtain ⟨place, hplace⟩ := List.getElem?_of_mem hentry
    obtain ⟨hbookToSlot, hslotToBook⟩ := hrefines.slots place entry hplace
    have hlt := (List.getElem?_eq_some_iff.mp hplace).1
    rw [hbookToSlot, hslotToBook, UInt32.lt_iff_toNat_lt, hrefines.size,
      UInt32.toNat_ofNat', Nat.mod_eq_of_lt (by omega)]
    exact ⟨hlt, rfl⟩
  · rw [UInt32.lt_iff_toNat_lt, hrefines.size] at hslot
    have hplace := List.getElem?_eq_getElem hslot
    obtain ⟨hbookToSlot, hslotToBook⟩ := hrefines.slots _ _ hplace
    rw [UInt32.ofNat_toNat] at hbookToSlot hslotToBook
    rw [hslotToBook]
    exact ⟨(hrefines.cached_iff _).mpr ⟨_, List.mem_of_getElem? hplace, rfl⟩,
      hbookToSlot⟩

/-- An access keeps the slots of all symbols but its own that stay cached. -/
theorem access_kept (hrefines : index.Refines cache) {bookId other : UInt16}
    (hid : bookId.toUInt32 < maxSymbols) (symbol : Symbol)
    (hne : other ≠ bookId)
    (hcached : (index.access bookId symbol).2.isCached other = true) :
    index.isCached other = true ∧
      (index.access bookId symbol).2.bookToSlot other.toUInt32 =
        index.bookToSlot other.toUInt32 := by
  have hrefines' := (hrefines.access hid symbol).1
  obtain ⟨entry, hentry, hkey⟩ :=
    List.mem_map.mp ((hrefines'.isCached_iff other).mp hcached)
  obtain ⟨place, hplace'⟩ := List.getElem?_of_mem hentry
  have hplace := (cache.access_step bookId).place_of_ne hplace' (hkey ▸ hne)
  have hnode : other.toUInt32 = entry.node := congrArg UInt16.toUInt32 hkey.symm
  rw [hrefines.isCached_iff, hnode, (hrefines'.slots place entry hplace').1,
    (hrefines.slots place entry hplace).1]
  exact ⟨hkey ▸ List.mem_map_of_mem (List.mem_of_getElem? hplace), rfl⟩

/-- The symbols of different ids have different slots. -/
theorem bookToSlot_ne (hrefines : index.Refines cache) {bookId other : UInt16}
    (hcached : index.isCached bookId = true)
    (hother : index.isCached other = true) (hne : other ≠ bookId) :
    index.bookToSlot other.toUInt32 ≠ index.bookToSlot bookId.toUInt32 := by
  have hpaired := hrefines.slotsPaired
  have hcached' : ∀ {id : UInt16}, index.isCached id = true →
      index.Cached id.toUInt32 := by
    intro id hid
    have hsmall := lt_maxSymbols_of_isCached hid
    exact ⟨hsmall, (isCached_eq index hsmall).symm.trans hid⟩
  intro heq
  have hslot := (hpaired.slot _ (hcached' hother)).2
  rw [heq, (hpaired.slot _ (hcached' hcached)).2] at hslot
  exact hne (UInt16.toUInt32_inj.mp hslot).symm

/-- A symbol that was accessed and not refused is cached. -/
theorem access_isCached (hrefines : index.Refines cache) {bookId : UInt16}
    (hid : bookId.toUInt32 < maxSymbols) (symbol : Symbol) :
    (index.access bookId symbol).2.isCached bookId = true :=
  ((hrefines.access hid symbol).1.isCached_iff bookId).mpr
    ((cache.access_step bookId).key_mem (by decide))

/-- A full cache has a victim. -/
theorem tail_ne_null (hrefines : index.Refines cache)
    (hfull : ¬ index.cacheSize < maxCacheSize) :
    (index.lists.freqBuckets index.minFrequency).tail ≠ lfuNullIdx := by
  have hused : 0 < index.cacheSize := by
    exact UInt32.lt_of_lt_of_le (by decide) (UInt32.not_lt.mp hfull)
  obtain ⟨id, hcached, hfrequency⟩ :=
    hrefines.minimumExact.attained ⟨_, (hrefines.slotsPaired.book 0 hused).1⟩
  have hmem := (hrefines.bucketsSorted.mem_iff index.minFrequency id).mpr
    ⟨hcached, hfrequency⟩
  have hring := hrefines.bucketsSorted.linked index.minFrequency
  have htail := hring.prev_null_mem (List.ne_nil_of_mem hmem)
  rw [LFULists.prevRing_null] at htail
  exact fun hnull => hring.null_notMem (hnull ▸ htail)

/-- The ids of the cached symbols number as many as the cache says. -/
theorem cacheSize_eq (hrefines : index.Refines cache) :
    index.cacheSize.toNat = index.cachedIds.length := by
  have hkeys : cache.keys.Nodup := cache.wellFormed.nodup
  have hnodup : index.cachedIds.Nodup := by
    refine List.Nodup.filter
      _ ((List.nodup_map_iff_inj_on List.nodup_range).mpr ?_)
    intro id hid other hother heq
    have hmax : maxSymbols.toNat = 256 := rfl
    rw [List.mem_range] at hid hother
    rw [← UInt16.toNat_inj, UInt16.toNat_ofNat', UInt16.toNat_ofNat',
      Nat.mod_eq_of_lt (by omega), Nat.mod_eq_of_lt (by omega)] at heq
    exact heq
  have hperm : index.cachedIds.Perm cache.keys := by
    refine (List.perm_ext_iff_of_nodup hnodup hkeys).mpr fun id => ?_
    rw [← hrefines.isCached_iff, cachedIds, List.mem_filter]
    refine ⟨fun hid => hid.2, fun hcached =>
      ⟨List.mem_map.mpr ⟨id.toNat, ?_, ?_⟩, hcached⟩⟩
    · have hlt := UInt32.lt_iff_toNat_lt.mp (lt_maxSymbols_of_isCached hcached)
      rw [UInt16.toNat_toUInt32] at hlt
      exact List.mem_range.mpr hlt
    · exact UInt16.ofNat_toNat
  rw [hrefines.size, hperm.length_eq, Cache.keys, List.length_map]

end Refines

/-- The representation invariant of the index, after any sequence of accesses.
Each cached symbol lies in one bucket, that of its frequency, which is between 1
and `MAX_FREQUENCY - 1`, and no other symbol lies in any; the links of the
buckets agree both ways and their counts are their lengths.  `min_frequency` is
the smallest frequency in the cache, so a full cache has a victim.  The two maps
are inverse bijections between the cached symbols and the slots in use. -/
theorem representation_invariant (memory : UInt32 → LFUNode)
    (calls : List (UInt16 × Symbol)) :
    let index := machine.run (init memory) calls
    index.BucketsSorted ∧ index.MinimumExact ∧
      (¬ index.cacheSize < maxCacheSize →
        (index.lists.freqBuckets index.minFrequency).tail ≠ lfuNullIdx) ∧
      index.SlotsPaired ∧
      ∀ id id', index.Cached id → index.Cached id' →
        index.bookToSlot id = index.bookToSlot id' →
        id = id' := by
  intro index
  have hrefines : index.Refines _ := run_refines memory calls
  have hsorted := hrefines.bucketsSorted
  have hpaired := hrefines.slotsPaired
  refine ⟨hsorted, hrefines.minimumExact, fun hfull => ?_, hpaired,
    fun id id' hid hid' heq => ?_⟩
  · exact hrefines.tail_ne_null hfull
  · rw [← (hpaired.slot id hid).2, heq, (hpaired.slot id' hid').2]

end LFUIndex

end MarketDataPipeline
