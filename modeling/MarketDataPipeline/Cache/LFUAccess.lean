import MarketDataPipeline.Cache.LFURefinement

/-!
# Every access of the index is an access of the policy

A hit, an admission and an eviction, each followed by the result on `access` as
a whole: the index goes on holding the reference cache, and its answer is the
one the policy gives.
-/

namespace MarketDataPipeline

open LFUPolicy

/-- A bucket is empty when no entry has its count. -/
theorem LFULists.Filed.count_eq_zero_iff {lists : LFULists}
    {entries : List (Entry UInt16)} {buckets : UInt32 → List (Entry UInt16)}
    (hfiled : lists.Filed entries buckets)
    (freq : UInt32) : (lists.freqBuckets freq).count = 0 ↔
      ∀ entry ∈ entries, entry.count ≠ freq.toNat := by
  have hcount := hfiled.holds.count freq
  rw [List.length_map] at hcount
  rw [← UInt32.toNat_inj, hcount, UInt32.toNat_zero, List.length_eq_zero_iff,
    List.eq_nil_iff_forall_not_mem]
  constructor
  · intro hnone entry hentry heq
    exact hnone entry ((hfiled.mem_iff freq entry).mpr ⟨hentry, heq⟩)
  · intro hnone entry hmem
    obtain ⟨hentry, heq⟩ := (hfiled.mem_iff freq entry).mp hmem
    exact hnone entry hentry heq

/-- The least count after a hit.  It rises with the entry where that alone had
it, and stays where it is otherwise. -/
theorem LFUPolicy.least_moved {entries entries' : List (Entry UInt16)}
    {entry moved : Entry UInt16} (hunique : KeysUnique entries)
    (hentry : entry ∈ entries)
    (hmem : ∀ other, other ∈ entries' ↔ other = moved ∨ other ∈
      without entry.key entries)
    (hgrows : entry.count ≤ moved.count) (hstep : moved.count ≤ entry.count + 1)
    {least least' : ℕ} (hleast : ∃ other ∈ entries, other.count = least)
    (hmin : ∀ other ∈ entries, least ≤ other.count)
    (hrises : (∀ other ∈ without entry.key entries, other.count ≠ least) →
      entry.count = least →
      least' = moved.count)
    (hstays : ¬ ((∀ other ∈ without entry.key entries, other.count ≠ least) ∧
      entry.count = least) → least' = least) :
    (∃ other ∈ entries', other.count = least') ∧
      ∀ other ∈ entries', least' ≤ other.count := by
  by_cases halone : (∀ other ∈ without entry.key entries, other.count ≠ least) ∧
      entry.count = least
  · have hnew := hrises halone.1 halone.2
    refine ⟨⟨moved, (hmem moved).mpr (Or.inl rfl), hnew.symm⟩,
      fun other hother => ?_⟩
    rcases (hmem other).mp hother with rfl | hother'
    · exact hnew.le
    · have hne := halone.1 other hother'
      have hge := hmin other (mem_without.mp hother').1
      omega
  · rw [hstays halone]
    refine ⟨?_, fun other hother => ?_⟩
    · by_cases hsame : entry.count = least
      · have hsome : ¬ ∀ other ∈ without entry.key entries,
          other.count ≠ least :=
          fun hnone => halone ⟨hnone, hsame⟩
        push Not at hsome
        obtain ⟨other, hother, hcount⟩ := hsome
        exact ⟨other, (hmem other).mpr (Or.inr hother), hcount⟩
      · obtain ⟨lowest, hlowest, hcount⟩ := hleast
        refine ⟨lowest, (hmem lowest).mpr
          (Or.inr (mem_without.mpr ⟨hlowest, ?_⟩)), hcount⟩
        intro hkey
        obtain rfl := hunique lowest hlowest entry hentry hkey
        exact hsame hcount
    · rcases (hmem other).mp hother with rfl | hother'
      · exact (hmin entry hentry).trans hgrows
      · exact hmin other (mem_without.mp hother').1

namespace LFUIndex

namespace Refines

variable {index : LFUIndex} {cache cache' : ReferenceCache}
  {entry : Entry UInt16}

/-- A hit takes the entry to the front of the next bucket; from the last bucket
it goes back to the front of the same. -/
theorem updateFrequency (hrefines : index.Refines cache)
    (hentry : entry ∈ cache.entries) (hentries : cache'.entries =
      replace entry.key ⟨entry.key,
        min (entry.count + 1) (maxFrequency.toNat - 1), cache.clock⟩
        cache.entries) :
    (index.updateFrequency entry.key).Refines cache' := by
  obtain ⟨buckets, hfiled⟩ := hrefines.filed
  obtain ⟨hinCache, hfrequency⟩ := hrefines.node entry hentry
  obtain ⟨hpos, hlt⟩ := hrefines.counted entry hentry
  have hmax : maxFrequency.toNat = 1024 := rfl
  let oldFreq := (index.lists.nodes entry.node).frequency
  let newFreq := if oldFreq < maxFrequency - 1 then oldFreq + 1 else oldFreq
  let removed := index.lists.removeFromBucket entry.key oldFreq
  let moved : Entry UInt16 :=
    ⟨entry.key, min (entry.count + 1) (maxFrequency.toNat - 1), cache.clock⟩
  have hold : entry.count = oldFreq.toNat := hfrequency.symm
  have hnew : moved.count = newFreq.toNat := by
    have hlast : (maxFrequency - 1).toNat = 1023 := rfl
    simp only [moved, newFreq, UInt32.lt_iff_toNat_lt, hlast, ← hold, hmax]
    split
    · rw [UInt32.toNat_add, UInt32.toNat_one, ← hold]
      omega
    · omega
  have hmem : ∀ other, other ∈ cache'.entries ↔
      other = moved ∨ other ∈ without entry.key cache.entries := by
    intro other
    rw [hentries, mem_without]
    exact mem_replace (List.mem_map_of_mem hentry) other
  obtain ⟨buckets', hremoved⟩ := hfiled.remove (keysUnique cache) hentry hold
  have hdetached :=
    LFULists.removeFromBucket_detached index.lists entry.key oldFreq
  have hvacated : ∃ place, cache.entries[place]? = some entry ∧
      ({ index with lists := removed } : LFUIndex).Awaits cache'
        moved place := by
    have hsmall := hrefines.small hentry
    refine hrefines.vacate hentry (Or.inl rfl) hentries rfl hsmall ?_
      ⟨buckets', hremoved⟩ (fun i _ => ?_) (fun hne => absurd rfl hne) rfl rfl
    · simp only [moved]
      omega
    · exact ⟨(congrArg LFUNode.inCache (hdetached i) :),
        (congrArg LFUNode.frequency (hdetached i) :), rfl⟩
  obtain ⟨place, hplace, hawaits⟩ := hvacated
  obtain ⟨hslot, hbook⟩ := hrefines.slots place entry hplace
  have hempty := hremoved.count_eq_zero_iff oldFreq
  let minFrequency :=
    if (removed.freqBuckets oldFreq).count = 0 ∧
        oldFreq = index.minFrequency then
      newFreq
    else index.minFrequency
  obtain ⟨hleast, hmin⟩ := hrefines.least (List.ne_nil_of_mem hentry)
  -- The minimum moves exactly when the symbol leaves the least bucket empty.
  have hmoves : (removed.freqBuckets oldFreq).count = 0 ∧
      oldFreq = index.minFrequency ↔
      (∀ other ∈ without entry.key cache.entries, other.count ≠
        index.minFrequency.toNat) ∧
        entry.count = index.minFrequency.toNat := by
    rw [hempty, hold, UInt32.toNat_inj]
    exact and_congr_left fun heq => by rw [heq]
  have hgrows : entry.count ≤ moved.count ∧ moved.count ≤ entry.count + 1 := by
    simp only [moved]
    omega
  have hrises : (∀ other ∈ without entry.key cache.entries,
      other.count ≠ index.minFrequency.toNat) →
        entry.count = index.minFrequency.toNat →
        minFrequency.toNat = moved.count := by
    intro hnone heq
    have hdef : minFrequency = newFreq := if_pos (hmoves.mpr ⟨hnone, heq⟩)
    rw [hdef, hnew]
  have hstays : ¬ ((∀ other ∈ without entry.key cache.entries,
      other.count ≠ index.minFrequency.toNat) ∧
        entry.count = index.minFrequency.toNat) →
        minFrequency.toNat = index.minFrequency.toNat := by
    intro hnot
    have hdef : minFrequency = index.minFrequency :=
      if_neg (hmoves.not.mpr hnot)
    rw [hdef]
  obtain ⟨hleast', hmin'⟩ :=
    least_moved (keysUnique cache) hentry hmem hgrows.1 hgrows.2 hleast
    hmin hrises hstays
  have hentered := hawaits.enter
    (fun node =>
      (rfl : ({ node with frequency := newFreq } : LFUNode).freqNext =
        node.freqNext))
    (fun _ => rfl)
      ((congrArg LFUNode.inCache (hdetached entry.node)).trans hinCache)
    (fun _ => rfl) hnew hleast' hmin'
  have hmaps : index.updateFrequency entry.key =
      { index with
        lists := (removed.modifyNode entry.node fun node =>
          { node with frequency := newFreq }).addToBucket entry.key newFreq
        minFrequency
        bookToSlot := Function.update index.bookToSlot entry.node (.ofNat place)
        slotToBook :=
          Function.update index.slotToBook (.ofNat place) entry.node } := by
    have hbookToSlot :
        Function.update index.bookToSlot entry.node (.ofNat place) =
        index.bookToSlot := by rw [← hslot, Function.update_eq_self]
    have hslotToBook :
        Function.update index.slotToBook (.ofNat place) entry.node =
        index.slotToBook := by rw [← hbook, Function.update_eq_self]
    rw [hbookToSlot, hslotToBook]
    rfl
  rw [hmaps]
  exact hentered

/-- The slot of a victim is free for the newcomer. -/
theorem evictLfu {victim newcomer : Entry UInt16}
    (hrefines : index.Refines cache) (hvictim : victim ∈ cache.entries)
    (hleast : ∀ entry ∈ cache.entries,
      victim.rank ≤ entry.rank)
    (hnew : newcomer.key ∉ cache.keys) (hsmall : newcomer.node < maxSymbols)
    (hcount : newcomer.count = 1) (hlast : newcomer.last = cache.clock)
    (hentries : cache'.entries = replace victim.key newcomer cache.entries) :
    index.evictLfu.1 = index.bookToSlot victim.node ∧
      ∃ place, cache.entries[place]? = some victim ∧
        index.evictLfu.2.Awaits cache' newcomer place := by
  obtain ⟨buckets, hfiled⟩ := hrefines.filed
  have hmax : maxFrequency.toNat = 1024 := rfl
  have hfreq : victim.count = index.minFrequency.toNat := by
    obtain ⟨⟨least, hleastMem, hleastCount⟩, hmin⟩ :=
      hrefines.least (List.ne_nil_of_mem hvictim)
    have hrank := hleast least hleastMem
    have hge := hmin victim hvictim
    rw [Entry.rank, Entry.rank, Prod.Lex.toLex_le_toLex] at hrank
    omega
  have htail := hfiled.tail_eq hvictim hleast hfreq
  have hnull := LFULists.ne_lfuNullIdx_of_lt (hrefines.small hvictim)
  have hkey : victim.node.toUInt16 = victim.key :=
    UInt16.toUInt16_toUInt32 victim.key
  let removed := index.lists.removeFromBucket victim.key index.minFrequency
  have hevict : index.evictLfu =
      (index.bookToSlot victim.node,
        { index with
          lists := removed.modifyNode victim.node fun node =>
            { node with inCache := false }
          bookToSlot := Function.update index.bookToSlot victim.node lfuNullIdx
          evictions := index.evictions + 1 }) := by
    rw [LFUIndex.evictLfu, htail, if_neg hnull, hkey]
  have hdetached :=
    LFULists.removeFromBucket_detached index.lists victim.key index.minFrequency
  obtain ⟨buckets', hremoved⟩ := hfiled.remove (keysUnique cache) hvictim hfreq
  have hcleared : (removed.modifyNode victim.node fun node =>
      { node with inCache := false }).Filed
        (without victim.key cache.entries) buckets' :=
    hremoved.modifyNode victim.node (fun _ => rfl) (fun _ => rfl)
  rw [hevict]
  refine ⟨rfl, hrefines.vacate hvictim (Or.inr hnew) hentries hlast hsmall ?_
    ⟨buckets', hcleared⟩ (fun i hi => ?_) (fun _ => ?_) rfl rfl⟩
  · omega
  · dsimp only
    rw [LFULists.modifyNode_nodes, if_neg hi, Function.update_of_ne hi]
    exact ⟨(congrArg LFUNode.inCache (hdetached i) :),
      (congrArg LFUNode.frequency (hdetached i) :), rfl⟩
  · dsimp only
    rw [LFULists.modifyNode_nodes, if_pos rfl, Function.update_self]
    exact ⟨rfl, rfl⟩

/-- The next unused slot is free for the newcomer. -/
theorem claimUnused {newcomer : Entry UInt16} (hrefines : index.Refines cache)
    (hroom : cache.entries.length < maxCacheSize.toNat)
    (hnew : newcomer.key ∉ cache.keys) (hsmall : newcomer.node < maxSymbols)
    (hcount : newcomer.count = 1) (hlast : newcomer.last = cache.clock)
    (hentries : cache'.entries = cache.entries ++ [newcomer]) :
    ({ index with cacheSize := index.cacheSize + 1 } : LFUIndex).Awaits
    cache' newcomer
      cache.entries.length := by
  have hothers : ∀ entry, entry ∈ without newcomer.key cache'.entries ↔
      entry ∈ cache.entries := by
    intro entry
    rw [mem_without, hentries, List.mem_append, List.mem_singleton]
    constructor
    · rintro ⟨hentry | rfl, hne⟩
      · exact hentry
      · exact absurd rfl hne
    · exact fun hentry =>
        ⟨Or.inl hentry, fun heq => hnew (heq ▸ List.mem_map_of_mem hentry)⟩
  have hmax : maxFrequency.toNat = 1024 := rfl
  have hsize : maxCacheSize.toNat = 5 := rfl
  have hkeys : cache'.keys = cache.keys ++ [newcomer.key] := by
    rw [Cache.keys, Cache.keys, hentries, List.map_append, List.map_singleton]
  obtain ⟨buckets, hfiled⟩ := hrefines.filed
  constructor
  case at_place => simp [hentries]
  case small => exact hsmall
  case filed => exact ⟨buckets, hfiled.congr hothers⟩
  case node =>
    intro entry hentry
    exact hrefines.node entry ((hothers entry).mp hentry)
  case latest =>
    intro entry hentry
    rw [hlast]
    exact cache.wellFormed.past entry ((hothers entry).mp hentry)
  case cached =>
    intro bookId hcached
    rw [hkeys]
    exact List.mem_append_left _ (hrefines.cached bookId hcached)
  case counted =>
    intro entry hentry
    rw [hentries, List.mem_append, List.mem_singleton] at hentry
    rcases hentry with hold | rfl
    · exact hrefines.counted entry hold
    · omega
  case slots =>
    intro p entry hp hne
    rw [hentries] at hp
    rcases List.mem_append.mp (List.mem_of_getElem? hp) with hold | hback
    · have hlt : p < cache.entries.length := by
        by_contra hge
        rw [List.getElem?_append_right (not_lt.mp hge)] at hp
        exact hne
          (congrArg Entry.key (List.mem_singleton.mp (List.mem_of_getElem? hp)))
      rw [List.getElem?_append_left hlt] at hp
      exact hrefines.slots p entry hp
    · exact absurd (congrArg Entry.key (List.mem_singleton.mp hback)) hne
  case unslotted =>
    intro bookId hid hnotMem
    rw [hkeys, List.mem_append, not_or] at hnotMem
    exact hrefines.unslotted bookId hid hnotMem.1
  case size =>
    rw [hentries, List.length_append, List.length_singleton, ← hrefines.size,
      UInt32.toNat_add, UInt32.toNat_one, Nat.mod_eq_of_lt]
    rw [hrefines.size]
    omega

end Refines

/-- Admitting the newcomer an index waits for. -/
theorem Awaits.occupy {index : LFUIndex} {cache : ReferenceCache}
    {bookId : UInt16} {clock place : ℕ}
    (hawaits : index.Awaits cache ⟨bookId, 1, clock⟩ place) (symbol : Symbol) :
    (index.occupy bookId symbol (.ofNat place)).Refines cache := by
  refine hawaits.enter (fun _ => rfl) (fun _ => rfl) rfl
    (fun _ => rfl) rfl ?_ ?_
  · exact ⟨_, List.mem_of_getElem? hawaits.at_place, rfl⟩
  · exact fun entry hentry => (hawaits.counted entry hentry).1

/-- The answer to an access of `bookId` that the policy's outcome calls for: a
hit finds the slot of the symbol, an eviction reassigns that of the victim. -/
inductive Answers (index : LFUIndex) (bookId : UInt16) :
    Lookup → Outcome UInt16 → Prop
  | hit : Answers index bookId (.hit (index.bookToSlot bookId.toUInt32)) .hit
  | admitted : Answers index bookId (.miss index.cacheSize) (.miss none)
  | evicted (victim : UInt16) :
      Answers index bookId (.miss (index.bookToSlot victim.toUInt32))
        (.miss (some victim))

theorem Answers.hit_iff {index : LFUIndex} {bookId : UInt16} {lookup : Lookup}
    {outcome : Outcome UInt16}
    (hanswers : index.Answers bookId lookup outcome) :
    (∃ slot, lookup = .hit slot) ↔ outcome = .hit := by
  cases hanswers <;> simp

theorem Answers.victim_slot {index : LFUIndex} {bookId victim : UInt16}
    {lookup : Lookup}
    (hanswers : index.Answers bookId lookup (.miss (some victim))) :
    lookup = .miss (index.bookToSlot victim.toUInt32) := by
  cases hanswers
  rfl

/-- An access that is not refused is an access of the reference cache. -/
theorem Refines.access {index : LFUIndex} {cache : ReferenceCache}
    (hrefines : index.Refines cache) {bookId : UInt16}
    (hid : bookId.toUInt32 < maxSymbols) (symbol : Symbol) :
    (index.access bookId symbol).2.Refines (cache.access bookId).2 ∧
      index.Answers bookId (index.access bookId symbol).1
        (cache.access bookId).1 := by
  have hcached := hrefines.isCached_iff bookId
  rw [isCached_eq index hid] at hcached
  have hstep := cache.access_step bookId
  rcases hdone : cache.access bookId with ⟨outcome, cache'⟩
  rw [hdone] at hstep
  dsimp only at hstep ⊢
  generalize hentries : cache'.entries = entries' at hstep
  rw [LFUIndex.access, if_neg (UInt32.not_le.mpr hid)]
  have hsmall : Entry.node ⟨bookId, 1, cache.clock⟩ < maxSymbols := hid
  cases hstep with
  | @hit entry hentry hkey =>
      subst hkey
      rw [if_pos (hcached.mpr (List.mem_map_of_mem hentry))]
      have hcounted : ({ index with hits := index.hits + 1 } : LFUIndex).Refines
          cache :=
        hrefines.congr rfl rfl rfl rfl rfl
      exact ⟨hcounted.updateFrequency hentry hentries, Answers.hit⟩
  | admitted hnew hroom =>
      rw [if_neg (fun hhit => hnew (hcached.mp hhit))]
      have hcounted :
          ({ index with misses := index.misses + 1 } : LFUIndex).Refines
          cache :=
        hrefines.congr rfl rfl rfl rfl rfl
      have hunused : index.cacheSize < maxCacheSize := by
        rwa [UInt32.lt_iff_toNat_lt, hrefines.size]
      have hslot : index.cacheSize = .ofNat cache.entries.length := by
        rw [← hrefines.size, UInt32.ofNat_toNat]
      have hawaits := hcounted.claimUnused hroom hnew hsmall rfl rfl hentries
      rw [LFUIndex.claimSlot, if_pos hunused]
      refine ⟨?_, Answers.admitted⟩
      have hadmitted := hawaits.occupy symbol
      rwa [← hslot] at hadmitted
  | @evicted victim hnew hfull hvictim hleast =>
      rw [if_neg (fun hhit => hnew (hcached.mp hhit))]
      have hcounted :
          ({ index with misses := index.misses + 1 } : LFUIndex).Refines
          cache :=
        hrefines.congr rfl rfl rfl rfl rfl
      have hused : ¬ index.cacheSize < maxCacheSize := by
        rw [UInt32.lt_iff_toNat_lt, hrefines.size]
        exact not_lt.mpr hfull
      obtain ⟨hslot, place, hplace, hawaits⟩ :=
        hcounted.evictLfu hvictim hleast hnew hsmall rfl rfl hentries
      have hplaceSlot := (hrefines.slots place victim hplace).1
      rw [LFUIndex.claimSlot, if_neg hused]
      dsimp only
      rw [hslot]
      refine ⟨?_, Answers.evicted victim.key⟩
      have hadmitted := hawaits.occupy symbol
      rwa [← hplaceSlot] at hadmitted
  | declined hcapacity => exact absurd hcapacity (by decide)

end LFUIndex

end MarketDataPipeline
