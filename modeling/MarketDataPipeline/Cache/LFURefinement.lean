import MarketDataPipeline.Cache.LFUIndex

/-!
# The index refines the LFU policy

`Filed` says that the buckets sort the entries of a reference cache by count
and, within a count, by recency.  `Refines` adds what the nodes, the two maps
and the minimum frequency say about these entries.  An access of the index then
is an access of the reference cache.
-/

namespace MarketDataPipeline

open LinkRing LFUPolicy

/-- The reference cache: `MAX_CACHE_SIZE` places, counts up to
`MAX_FREQUENCY - 1`. -/
abbrev ReferenceCache :=
  LFUPolicy.Cache UInt16 maxCacheSize.toNat (maxFrequency.toNat - 1)

namespace LFUPolicy

def Entry.node (entry : Entry UInt16) : UInt32 := entry.key.toUInt32

theorem Entry.node_eq_iff (entry other : Entry UInt16) :
    entry.node = other.node ↔ entry.key = other.key := UInt16.toUInt32_inj

def KeysUnique (entries : List (Entry UInt16)) : Prop :=
  ∀ entry ∈ entries, ∀ other ∈ entries, entry.key = other.key → entry = other

def without (key : UInt16) (entries : List (Entry UInt16)) :
    List (Entry UInt16) :=
  entries.filter fun entry => entry.key ≠ key

theorem mem_without {key : UInt16} {entries : List (Entry UInt16)}
    {entry : Entry UInt16} :
    entry ∈ without key entries ↔ entry ∈ entries ∧ entry.key ≠ key := by
  simp [without]

/-- Replacing an entry changes no entry of another key. -/
theorem mem_without_replace {key : UInt16} {new : Entry UInt16}
    {entries : List (Entry UInt16)} (hkey : key ∈ entries.map Entry.key)
    (hnew : new.key = key ∨ new.key ∉ entries.map Entry.key)
    (entry : Entry UInt16) :
    entry ∈ without new.key (replace key new entries) ↔
      entry ∈ without key entries := by
  rw [mem_without, mem_without, mem_replace hkey]
  constructor
  · rintro ⟨rfl | hentry, hne⟩
    · exact absurd rfl hne
    · exact hentry
  · rintro ⟨hentry, hne⟩
    refine ⟨Or.inr ⟨hentry, hne⟩, ?_⟩
    rcases hnew with heq | hfresh
    · rwa [heq]
    · exact fun heq => hfresh (heq ▸ List.mem_map_of_mem hentry)

end LFUPolicy

namespace LFULists

/-- The buckets hold the entries by count, the most recent first. -/
structure Filed (lists : LFULists) (entries : List (Entry UInt16))
    (buckets : UInt32 → List (Entry UInt16)) : Prop where
  holds : lists.Holds fun freq => (buckets freq).map Entry.node
  mem_iff : ∀ freq entry, entry ∈ buckets freq ↔
    entry ∈ entries ∧ entry.count = freq.toNat
  recent : ∀ freq, (buckets freq).Pairwise fun entry other =>
    other.last < entry.last

namespace Filed

variable {lists : LFULists} {entries : List (Entry UInt16)}
  {buckets : UInt32 → List (Entry UInt16)} {entry : Entry UInt16}
  {freq : UInt32}

theorem congr (hfiled : lists.Filed entries buckets)
    {entries' : List (Entry UInt16)}
    (hentries : ∀ entry, entry ∈ entries' ↔ entry ∈ entries) :
    lists.Filed entries' buckets where
  holds := hfiled.holds
  mem_iff freq entry := by rw [hfiled.mem_iff, hentries]
  recent := hfiled.recent

theorem modifyNode (hfiled : lists.Filed entries buckets) (id : UInt32)
    {write : LFUNode → LFUNode} (hnext : ∀ node, (write node).freqNext =
      node.freqNext)
    (hprev : ∀ node, (write node).freqPrev = node.freqPrev) :
    (lists.modifyNode id write).Filed entries buckets where
  holds := hfiled.holds.modifyNode id hnext hprev
  mem_iff := hfiled.mem_iff
  recent := hfiled.recent

theorem nodup (hfiled : lists.Filed entries buckets) (freq : UInt32) :
    ((buckets freq).map Entry.node).Nodup :=
  (List.nodup_cons.mp (hfiled.holds.ring freq).nodup).2

theorem small (hfiled : lists.Filed entries buckets)
    (hmem : entry ∈ buckets freq) :
    entry.node < maxSymbols :=
  hfiled.holds.small freq _ (List.mem_map_of_mem hmem)

/-- Mapping the buckets after an update. -/
theorem map_update (buckets : UInt32 → List (Entry UInt16)) (freq : UInt32)
    (queue : List (Entry UInt16)) :
    (fun f => (Function.update buckets freq queue f).map Entry.node) =
      Function.update (fun f => (buckets f).map Entry.node) freq
        (queue.map Entry.node) := by
  funext f
  by_cases hf : f = freq
  · subst hf
    simp
  · simp [hf]

/-- Removing the node of an entry. -/
theorem remove (hfiled : lists.Filed entries buckets)
    (hunique : KeysUnique entries) (hentry : entry ∈ entries)
    (hfreq : entry.count = freq.toNat) :
    ∃ buckets', (lists.removeFromBucket entry.key freq).Filed
      (without entry.key entries)
      buckets' := by
  have hmem : entry ∈ buckets freq :=
    (hfiled.mem_iff freq entry).mpr ⟨hentry, hfreq⟩
  obtain ⟨before, after, hsplit⟩ := List.append_of_mem hmem
  have hnodup := hfiled.nodup freq
  rw [hsplit, List.map_append, List.map_cons] at hnodup
  have hnotMem := (List.nodup_cons.mp (List.perm_middle.nodup_iff.mp hnodup)).1
  rw [← List.map_append] at hnotMem
  refine ⟨Function.update buckets freq (before ++ after), ?_, fun f other =>
    ?_, fun f => ?_⟩
  · rw [map_update, List.map_append]
    refine hfiled.holds.remove ?_
    rw [hsplit, List.map_append, List.map_cons]
    rfl
  · rw [mem_without]
    by_cases hf : f = freq
    · subst hf
      have hold := hfiled.mem_iff f other
      rw [hsplit] at hold
      have hkey : other ∈ before ++ after → other.key ≠ entry.key := by
        intro hother heq
        rw [← other.node_eq_iff] at heq
        exact hnotMem (heq ▸ List.mem_map_of_mem hother)
      rw [Function.update_self]
      constructor
      · intro hother
        obtain ⟨hentries, hcount⟩ := hold.mp (mem_of_split rfl hother)
        exact ⟨⟨hentries, hkey hother⟩, hcount⟩
      · rintro ⟨⟨hentries, hne⟩, hcount⟩
        have hold' := hold.mpr ⟨hentries, hcount⟩
        have hother : other ≠ entry := fun heq => hne (heq ▸ rfl)
        simp only [List.mem_append, List.mem_cons] at hold' ⊢
        tauto
    · rw [Function.update_of_ne hf, hfiled.mem_iff]
      refine ⟨fun ⟨hentries, hcount⟩ => ⟨⟨hentries, fun heq => hf ?_⟩, hcount⟩,
        fun ⟨⟨hentries, _⟩, hcount⟩ => ⟨hentries, hcount⟩⟩
      obtain rfl := hunique other hentries entry hentry heq
      exact UInt32.toNat_inj.mp (hcount.symm.trans hfreq)
  · by_cases hf : f = freq
    · subst hf
      have hrecent := hfiled.recent f
      rw [hsplit] at hrecent
      rw [Function.update_self]
      exact hrecent.sublist
        ((List.sublist_cons_self entry after).append_left before)
    · rw [Function.update_of_ne hf]
      exact hfiled.recent f

/-- Adding the node of an entry more recent than all others. -/
theorem add (hfiled : lists.Filed entries buckets)
    (hsmall : entry.node < maxSymbols)
    (hfresh : ∀ other ∈ entries, other.key ≠ entry.key)
    (hlast : ∀ other ∈ entries, other.last < entry.last)
    (hfreq : entry.count = freq.toNat) :
    ∃ buckets', (lists.addToBucket entry.key freq).Filed (entry :: entries)
      buckets' := by
  have hentries : ∀ f, ∀ other ∈ buckets f, other ∈ entries :=
    fun f other hother => ((hfiled.mem_iff f other).mp hother).1
  refine ⟨Function.update buckets freq (entry :: buckets freq), ?_,
    fun f other => ?_, fun f => ?_⟩
  · rw [map_update, List.map_cons]
    refine hfiled.holds.add freq hsmall fun f hmem => ?_
    obtain ⟨other, hother, heq⟩ := List.mem_map.mp hmem
    exact hfresh other (hentries f other hother)
      ((other.node_eq_iff entry).mp heq)
  · rw [List.mem_cons]
    by_cases hf : f = freq
    · subst hf
      rw [Function.update_self, List.mem_cons, hfiled.mem_iff]
      constructor
      · rintro (rfl | ⟨hother, hcount⟩)
        · exact ⟨Or.inl rfl, hfreq⟩
        · exact ⟨Or.inr hother, hcount⟩
      · rintro ⟨rfl | hother, hcount⟩
        · exact Or.inl rfl
        · exact Or.inr ⟨hother, hcount⟩
    · rw [Function.update_of_ne hf, hfiled.mem_iff]
      refine ⟨fun ⟨hother, hcount⟩ => ⟨Or.inr hother, hcount⟩, ?_⟩
      rintro ⟨rfl | hother, hcount⟩
      · exact absurd (UInt32.toNat_inj.mp (hcount.symm.trans hfreq)) hf
      · exact ⟨hother, hcount⟩
  · by_cases hf : f = freq
    · subst hf
      rw [Function.update_self, List.pairwise_cons]
      exact ⟨fun other hother => hlast other (hentries f other hother),
        hfiled.recent f⟩
    · rw [Function.update_of_ne hf]
      exact hfiled.recent f

/-- The tail of the least bucket is the entry that the policy displaces. -/
theorem tail_eq (hfiled : lists.Filed entries buckets) {victim : Entry UInt16}
    (hvictim : victim ∈ entries) (hleast : ∀ entry ∈ entries,
      victim.rank ≤ entry.rank)
    (hcount : victim.count = freq.toNat) :
    (lists.freqBuckets freq).tail = victim.node := by
  have hmem : victim ∈ buckets freq :=
    (hfiled.mem_iff freq victim).mpr ⟨hvictim, hcount⟩
  have hrecent := hfiled.recent freq
  obtain ⟨front, last, hsplit⟩ : ∃ front last, buckets freq =
      front ++ [last] := by
    rcases List.eq_nil_or_concat (buckets freq) with
      hnil | ⟨front, last, hconcat⟩
    · simp [hnil] at hmem
    · exact ⟨front, last, by simpa using hconcat⟩
  rw [hfiled.holds.tail_eq, hsplit]
  rw [hsplit] at hmem hrecent
  have hlastMem : last ∈ buckets freq := by simp [hsplit]
  obtain ⟨hlastEntry, hlastCount⟩ := (hfiled.mem_iff freq last).mp hlastMem
  rcases List.mem_append.mp hmem with hfront | hback
  · -- An entry further to the front was accessed later, so it is not the least.
    have hlater := (List.pairwise_append.mp hrecent).2.2 victim hfront
      last (by simp)
    have hrank := hleast last hlastEntry
    rw [Entry.rank, Entry.rank, Prod.Lex.toLex_le_toLex] at hrank
    omega
  · rw [List.mem_singleton.mp hback]
    simp

end Filed

end LFULists

namespace LFUIndex

structure Refines (index : LFUIndex) (cache : ReferenceCache) : Prop where
  filed : ∃ buckets, index.lists.Filed cache.entries buckets
  node : ∀ entry ∈ cache.entries,
    (index.lists.nodes entry.node).inCache = true ∧
    (index.lists.nodes entry.node).frequency.toNat = entry.count
  cached : ∀ bookId, index.isCached bookId = true → bookId ∈ cache.keys
  counted : ∀ entry ∈ cache.entries, 1 ≤ entry.count ∧
    entry.count < maxFrequency.toNat
  slots : ∀ place entry, cache.entries[place]? = some entry →
    index.bookToSlot entry.node = .ofNat place ∧
      index.slotToBook (.ofNat place) = entry.node
  unslotted : ∀ bookId : UInt16, bookId.toUInt32 < maxSymbols →
    bookId ∉ cache.keys →
    index.bookToSlot bookId.toUInt32 = lfuNullIdx
  size : index.cacheSize.toNat = cache.entries.length
  least : cache.entries ≠ [] →
    (∃ entry ∈ cache.entries, entry.count = index.minFrequency.toNat) ∧
      ∀ entry ∈ cache.entries, index.minFrequency.toNat ≤ entry.count

theorem init_refines (memory : UInt32 → LFUNode) :
    (init memory).Refines Cache.empty where
  filed := by
    refine ⟨fun _ => [], ⟨fun freq => ?_, fun _ => rfl, ?_, ?_⟩, ?_,
      fun _ => .nil⟩
    · rw [List.map_nil, isRing_nil_iff]
      exact ⟨LFULists.nextRing_null .., LFULists.prevRing_null ..⟩
    all_goals simp [Cache.empty]
  node := by simp [Cache.empty]
  cached bookId hcached := by simp [isCached, init] at hcached
  counted := by simp [Cache.empty]
  slots := by simp [Cache.empty]
  unslotted _ _ _ := rfl
  size := rfl
  least hne := absurd rfl hne

namespace Refines

variable {index : LFUIndex} {cache cache' : ReferenceCache}
  {entry : Entry UInt16}

theorem keysUnique (cache : ReferenceCache) : KeysUnique cache.entries :=
  fun _ hentry _ hother hkey => cache.entry_unique hentry hother hkey

theorem small (hrefines : index.Refines cache)
    (hentry : entry ∈ cache.entries) :
    entry.node < maxSymbols := by
  obtain ⟨buckets, hfiled⟩ := hrefines.filed
  have hcount : entry.count = (UInt32.ofNat entry.count).toNat := by
    have hlt := (hrefines.counted entry hentry).2
    have hmax : maxFrequency.toNat < 2 ^ 32 := maxFrequency.toNat_lt
    rw [UInt32.toNat_ofNat', Nat.mod_eq_of_lt (by omega)]
  exact hfiled.small ((hfiled.mem_iff _ entry).mpr ⟨hentry, hcount⟩)

/-- The counters do not matter. -/
theorem congr {index' : LFUIndex} (hrefines : index.Refines cache)
    (hlists : index'.lists = index.lists) (hbookToSlot : index'.bookToSlot =
      index.bookToSlot)
    (hslotToBook : index'.slotToBook = index.slotToBook)
    (hminFrequency : index'.minFrequency = index.minFrequency)
    (hcacheSize : index'.cacheSize = index.cacheSize) :
    index'.Refines cache := by
  cases index
  cases index'
  dsimp only at hlists hbookToSlot hslotToBook hminFrequency hcacheSize
  subst hlists hbookToSlot hslotToBook hminFrequency hcacheSize
  exact ⟨hrefines.filed, hrefines.node, hrefines.cached, hrefines.counted,
    hrefines.slots,
    hrefines.unslotted, hrefines.size, hrefines.least⟩

/-- The index and the reference cache hold the same symbols. -/
theorem isCached_iff (hrefines : index.Refines cache) (bookId : UInt16) :
    index.isCached bookId = true ↔ bookId ∈ cache.keys := by
  refine ⟨hrefines.cached bookId, fun hmem => ?_⟩
  obtain ⟨entry, hentry, rfl⟩ := List.mem_map.mp hmem
  rw [isCached_eq index (hrefines.small hentry)]
  exact (hrefines.node entry hentry).1

end Refines

/-! ## Entering an entry -/

/-- The index holds the reference cache but for one entry, whose node is in no
bucket yet. -/
structure Awaits (index : LFUIndex) (cache : ReferenceCache)
    (newcomer : Entry UInt16) (place : ℕ) : Prop where
  at_place : cache.entries[place]? = some newcomer
  small : newcomer.node < maxSymbols
  latest : ∀ entry ∈ without newcomer.key cache.entries, entry.last <
    newcomer.last
  filed : ∃ buckets, index.lists.Filed
    (without newcomer.key cache.entries) buckets
  node : ∀ entry ∈ without newcomer.key cache.entries,
    (index.lists.nodes entry.node).inCache = true ∧
      (index.lists.nodes entry.node).frequency.toNat = entry.count
  cached : ∀ bookId, index.isCached bookId = true → bookId ∈ cache.keys
  counted : ∀ entry ∈ cache.entries, 1 ≤ entry.count ∧
    entry.count < maxFrequency.toNat
  slots : ∀ p entry, cache.entries[p]? = some entry → entry.key ≠ newcomer.key →
    index.bookToSlot entry.node = .ofNat p ∧
      index.slotToBook (.ofNat p) = entry.node
  unslotted : ∀ bookId : UInt16, bookId.toUInt32 < maxSymbols →
    bookId ∉ cache.keys →
    index.bookToSlot bookId.toUInt32 = lfuNullIdx
  size : index.cacheSize.toNat = cache.entries.length

namespace Awaits

variable {index : LFUIndex} {cache : ReferenceCache}
  {newcomer : Entry UInt16} {place : ℕ}

theorem mem_iff (hawaits : index.Awaits cache newcomer place)
    (entry : Entry UInt16) :
    entry ∈ cache.entries ↔
      entry = newcomer ∨ entry ∈ without newcomer.key cache.entries := by
  have hmem := List.mem_of_getElem? hawaits.at_place
  rw [mem_without]
  constructor
  · intro hentry
    by_cases hkey : entry.key = newcomer.key
    · exact Or.inl (cache.entry_unique hentry hmem hkey)
    · exact Or.inr ⟨hentry, hkey⟩
  · rintro (rfl | ⟨hentry, -⟩)
    · exact hmem
    · exact hentry

/-- Places of different entries are different slots. -/
theorem ofNat_place_ne (hawaits : index.Awaits cache newcomer place) {p : ℕ}
    {entry : Entry UInt16} (hp : cache.entries[p]? = some entry)
    (hkey : entry.key ≠ newcomer.key) :
    UInt32.ofNat p ≠ UInt32.ofNat place := by
  have hlength := cache.wellFormed.length_le
  have hsize : maxCacheSize.toNat = 5 := rfl
  obtain ⟨hlt, -⟩ := List.getElem?_eq_some_iff.mp hp
  obtain ⟨hlt', -⟩ := List.getElem?_eq_some_iff.mp hawaits.at_place
  intro heq
  rw [← UInt32.toNat_inj, UInt32.toNat_ofNat', UInt32.toNat_ofNat',
    Nat.mod_eq_of_lt (by omega), Nat.mod_eq_of_lt (by omega)] at heq
  subst heq
  have := Option.some.inj (hp.symm.trans hawaits.at_place)
  exact hkey (this ▸ rfl)

/-- Writing the node, filing it and setting the maps completes the index. -/
theorem enter (hawaits : index.Awaits cache newcomer place)
    {write : LFUNode → LFUNode} {freq minFrequency : UInt32}
    (hnext : ∀ node, (write node).freqNext =
      node.freqNext)
    (hprev : ∀ node, (write node).freqPrev = node.freqPrev)
    (hinCache : (write (index.lists.nodes newcomer.node)).inCache = true)
    (hfrequency : ∀ node, (write node).frequency = freq)
    (hfreq : newcomer.count = freq.toNat)
    (hleast : ∃ entry ∈ cache.entries, entry.count = minFrequency.toNat)
    (hmin : ∀ entry ∈ cache.entries, minFrequency.toNat ≤ entry.count) :
    Refines
      { index with
        lists := (index.lists.modifyNode newcomer.node write).addToBucket
          newcomer.key freq
        minFrequency
        bookToSlot := Function.update index.bookToSlot newcomer.node
          (.ofNat place)
        slotToBook :=
          Function.update index.slotToBook (.ofNat place) newcomer.node }
      cache where
  filed := by
    obtain ⟨buckets, hfiled⟩ := hawaits.filed
    have hwritten := hfiled.modifyNode newcomer.node hnext hprev
    obtain ⟨added, hadded⟩ := hwritten.add hawaits.small
      (fun other hother => (mem_without.mp hother).2) hawaits.latest hfreq
    refine ⟨added, hadded.congr fun entry => ?_⟩
    rw [hawaits.mem_iff, List.mem_cons]
  node entry hentry := by
    have hdetached := LFULists.addToBucket_detached
      (index.lists.modifyNode newcomer.node write) newcomer.key freq entry.node
    rw [LFULists.modifyNode_nodes] at hdetached
    rcases (hawaits.mem_iff entry).mp hentry with rfl | hother
    · rw [if_pos rfl] at hdetached
      refine ⟨(congrArg LFUNode.inCache hdetached).trans hinCache, ?_⟩
      have hwritten :=
        (congrArg LFUNode.frequency hdetached).trans (hfrequency _)
      exact (congrArg UInt32.toNat hwritten).trans hfreq.symm
    · have hne : entry.node ≠ newcomer.node :=
        fun heq => (mem_without.mp hother).2
          ((entry.node_eq_iff newcomer).mp heq)
      rw [if_neg hne] at hdetached
      obtain ⟨hinCache', hfrequency'⟩ := hawaits.node entry hother
      exact ⟨(congrArg LFUNode.inCache hdetached).trans hinCache',
        (congrArg (fun node => node.frequency.toNat) hdetached).trans
          hfrequency'⟩
  cached bookId hcached := by
    by_cases hkey : bookId = newcomer.key
    · subst hkey
      exact List.mem_map_of_mem (List.mem_of_getElem? hawaits.at_place)
    · refine hawaits.cached bookId ?_
      have hdetached := LFULists.addToBucket_detached
        (index.lists.modifyNode newcomer.node write) newcomer.key freq
        bookId.toUInt32
      have hne : bookId.toUInt32 ≠ newcomer.node :=
        fun heq => hkey (UInt16.toUInt32_inj.mp heq)
      rw [LFULists.modifyNode_nodes, if_neg hne] at hdetached
      have hsmall := lt_maxSymbols_of_isCached hcached
      rw [isCached_eq _ hsmall] at hcached ⊢
      exact (congrArg LFUNode.inCache hdetached).symm.trans hcached
  counted := hawaits.counted
  slots p entry hp := by
    dsimp only
    by_cases hkey : entry.key = newcomer.key
    · have hmem := List.mem_of_getElem? hp
      obtain rfl :=
        cache.entry_unique hmem (List.mem_of_getElem? hawaits.at_place) hkey
      have hplace : p = place := by
        have hnodup := cache.wellFormed.nodup.of_map
        exact (List.getElem?_inj (List.getElem?_eq_some_iff.mp hp).1 hnodup).mp
          (hp.trans hawaits.at_place.symm)
      rw [hplace, Function.update_self, Function.update_self]
      exact ⟨rfl, rfl⟩
    · have hne : entry.node ≠ newcomer.node :=
        fun heq => hkey ((entry.node_eq_iff newcomer).mp heq)
      rw [Function.update_of_ne hne,
        Function.update_of_ne (hawaits.ofNat_place_ne hp hkey)]
      exact hawaits.slots p entry hp hkey
  unslotted bookId hid hnotMem := by
    have hne : bookId.toUInt32 ≠ newcomer.node := by
      intro heq
      obtain rfl := UInt16.toUInt32_inj.mp heq
      exact hnotMem
        (List.mem_map_of_mem (List.mem_of_getElem? hawaits.at_place))
    dsimp only
    rw [Function.update_of_ne hne]
    exact hawaits.unslotted bookId hid hnotMem
  size := hawaits.size
  least _ := ⟨hleast, hmin⟩

end Awaits

namespace Refines

variable {index index' : LFUIndex} {cache cache' : ReferenceCache}
  {old new : Entry UInt16}

/-- Taking the node of an entry out of its bucket makes its place wait for the
entry that replaces it. -/
theorem vacate (hrefines : index.Refines cache) (hold : old ∈ cache.entries)
    (hnew : new.key = old.key ∨ new.key ∉ cache.keys)
    (hentries : cache'.entries = replace old.key new cache.entries)
    (hlast : new.last = cache.clock) (hsmall : new.node < maxSymbols)
    (hcounted : 1 ≤ new.count ∧ new.count < maxFrequency.toNat)
    (hfiled : ∃ buckets,
      index'.lists.Filed (without old.key cache.entries) buckets)
    (hnodes : ∀ i, i ≠ old.node →
      (index'.lists.nodes i).inCache = (index.lists.nodes i).inCache ∧
        (index'.lists.nodes i).frequency = (index.lists.nodes i).frequency ∧
          index'.bookToSlot i = index.bookToSlot i)
    (hgone : new.key ≠ old.key →
      (index'.lists.nodes old.node).inCache = false ∧
        index'.bookToSlot old.node = lfuNullIdx)
    (hslotToBook : index'.slotToBook = index.slotToBook)
    (hcacheSize : index'.cacheSize = index.cacheSize) :
    ∃ place, cache.entries[place]? = some old ∧
      index'.Awaits cache' new place := by
  obtain ⟨place, hplace⟩ := List.getElem?_of_mem hold
  have hkey : old.key ∈ cache.entries.map Entry.key := List.mem_map_of_mem hold
  have hmem : ∀ entry, entry ∈ cache'.entries ↔
      entry = new ∨ entry ∈ cache.entries ∧ entry.key ≠ old.key := by
    intro entry
    rw [hentries]
    exact mem_replace hkey entry
  have hkeys : ∀ key, key ∈ cache'.keys ↔
      key = new.key ∨ key ∈ cache.keys ∧ key ≠ old.key := by
    intro key
    rw [Cache.keys, hentries]
    exact mem_keys_replace hkey key
  have hothers : ∀ entry, entry ∈ without new.key cache'.entries ↔
      entry ∈ without old.key cache.entries := by
    intro entry
    rw [hentries]
    exact mem_without_replace hkey hnew entry
  have hnode : ∀ entry : Entry UInt16, entry.key ≠ old.key →
      entry.node ≠ old.node :=
    fun entry hne heq => hne ((entry.node_eq_iff old).mp heq)
  have hbook : ∀ bookId : UInt16, bookId ≠ old.key →
      bookId.toUInt32 ≠ old.node :=
    fun bookId hne heq => hne (UInt16.toUInt32_inj.mp heq)
  refine ⟨place, hplace, ?_⟩
  constructor
  case at_place =>
    rw [hentries, replace_getElem?, hplace]
    simp
  case small => exact hsmall
  case latest =>
    intro entry hentry
    rw [hlast]
    exact cache.wellFormed.past entry
      (mem_without.mp ((hothers entry).mp hentry)).1
  case filed =>
    obtain ⟨buckets, hbuckets⟩ := hfiled
    exact ⟨buckets, hbuckets.congr hothers⟩
  case node =>
    intro entry hentry
    obtain ⟨hentry', hne⟩ := mem_without.mp ((hothers entry).mp hentry)
    obtain ⟨hinCache, hfrequency, -⟩ := hnodes entry.node (hnode entry hne)
    rw [hinCache, hfrequency]
    exact hrefines.node entry hentry'
  case cached =>
    intro bookId hcached
    have hid := lt_maxSymbols_of_isCached hcached
    by_cases heq : bookId = old.key
    · subst heq
      by_cases hsame : new.key = old.key
      · exact (hkeys old.key).mpr (Or.inl hsame.symm)
      · rw [isCached_eq _ hid] at hcached
        exact absurd ((hgone hsame).1.symm.trans hcached) Bool.false_ne_true
    · refine (hkeys bookId).mpr (Or.inr ⟨hrefines.cached bookId ?_, heq⟩)
      rw [isCached_eq _ hid] at hcached ⊢
      exact (hnodes _ (hbook bookId heq)).1.symm.trans hcached
  case counted =>
    intro entry hentry
    rcases (hmem entry).mp hentry with rfl | ⟨hentry', -⟩
    · exact hcounted
    · exact hrefines.counted entry hentry'
  case slots =>
    intro p entry hp hne
    rw [hentries, replace_getElem?] at hp
    obtain ⟨other, hother, hreplaced⟩ := Option.map_eq_some_iff.mp hp
    split at hreplaced
    case isTrue => exact absurd (hreplaced ▸ rfl) hne
    case isFalse hkey' =>
      subst hreplaced
      rw [(hnodes _ (hnode other hkey')).2.2, hslotToBook]
      exact hrefines.slots p other hother
  case unslotted =>
    intro bookId hid hnotMem
    rw [hkeys, not_or, not_and_not_right] at hnotMem
    obtain ⟨hnotNew, hold'⟩ := hnotMem
    by_cases heq : bookId = old.key
    · subst heq
      exact (hgone (Ne.symm hnotNew)).2
    · rw [(hnodes _ (hbook bookId heq)).2.2]
      exact hrefines.unslotted bookId hid fun hkey' => heq (hold' hkey')
  case size => rw [hcacheSize, hrefines.size, hentries, replace_length]

end Refines

end LFUIndex

end MarketDataPipeline
