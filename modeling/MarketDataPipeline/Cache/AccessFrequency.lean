import MarketDataPipeline.Cache.ReplacementPolicy
import MarketDataPipeline.Core.LFURuns

/-!
# Frequencies and hits

What `get_frequency` says of a symbol, and what a frequency is worth: a symbol
that was used often is displaced only after the others were used as often.
-/

namespace MarketDataPipeline

open LFUPolicy

/-- What `get_frequency` reads of a node. -/
def LFUNode.usage (node : LFUNode) : Bool × UInt32 :=
  (node.valid, node.frequency)

namespace LFULists

theorem addToBucket_usage (lists : LFULists) (bookId : UInt16)
    (freq i : UInt32) :
    ((lists.addToBucket bookId freq).nodes i).usage = (lists.nodes i).usage :=
  (congrArg LFUNode.usage (lists.addToBucket_detached bookId freq i) :)

theorem removeFromBucket_usage (lists : LFULists) (bookId : UInt16)
    (freq i : UInt32) :
    ((lists.removeFromBucket bookId freq).nodes i).usage =
      (lists.nodes i).usage :=
  (congrArg LFUNode.usage (lists.removeFromBucket_detached bookId freq i) :)

end LFULists

namespace LFUIndex

variable {index : LFUIndex} {cache : ReferenceCache}

/-! ## The frequencies after an access -/

def bumped (freq : UInt32) : UInt32 :=
  if freq < maxFrequency - 1 then freq + 1 else freq

theorem bumped_toNat {freq : UInt32} {count : ℕ}
    (hfreq : freq.toNat = min count 1023) :
    (bumped freq).toNat = min (count + 1) 1023 := by
  have hlimit : (maxFrequency - 1).toNat = 1023 := by decide
  rw [bumped]
  split
  case isTrue hlt =>
    rw [UInt32.lt_iff_toNat_lt, hlimit] at hlt
    rw [UInt32.toNat_add, UInt32.toNat_one]
    omega
  case isFalse hge =>
    rw [UInt32.lt_iff_toNat_lt, hlimit] at hge
    omega

theorem updateFrequency_usage (index : LFUIndex) (bookId : UInt16)
    (i : UInt32) :
    ((index.updateFrequency bookId).lists.nodes i).usage =
      if i = bookId.toUInt32 then
        ((index.lists.nodes i).valid, bumped (index.lists.nodes i).frequency)
      else (index.lists.nodes i).usage := by
  rw [updateFrequency]
  dsimp only
  rw [LFULists.addToBucket_usage, LFULists.modifyNode_nodes]
  have hremoved := index.lists.removeFromBucket_usage bookId
    (index.lists.nodes bookId.toUInt32).frequency i
  by_cases hi : i = bookId.toUInt32
  · rw [if_pos hi, if_pos hi, hi]
    rw [hi] at hremoved
    exact Prod.ext (congrArg Prod.fst hremoved :) rfl
  · rw [if_neg hi, if_neg hi]
    exact hremoved

theorem claimSlot_usage (index : LFUIndex) (i : UInt32) :
    (index.claimSlot.2.lists.nodes i).usage = (index.lists.nodes i).usage := by
  rw [claimSlot]
  split
  · rfl
  · rw [evictLfu]
    dsimp only
    split
    · rfl
    · refine Eq.trans ?_ (index.lists.removeFromBucket_usage
        (index.lists.freqBuckets index.minFrequency).tail.toUInt16
          index.minFrequency i)
      rw [LFULists.modifyNode_nodes]
      split <;> rfl

theorem access_usage (index : LFUIndex) {bookId : UInt16}
    (hid : bookId.toUInt32 < maxSymbols) (symbol : Symbol) (i : UInt32) :
    ((index.access bookId symbol).2.lists.nodes i).usage =
      if i = bookId.toUInt32 then
        if index.isCached bookId = true then
          ((index.lists.nodes i).valid, bumped (index.lists.nodes i).frequency)
        else (true, 1)
      else (index.lists.nodes i).usage := by
  rw [access, if_neg (UInt32.not_le.mpr hid), isCached_eq index hid]
  by_cases hcached : (index.lists.nodes bookId.toUInt32).inCache = true
  · rw [if_pos hcached, if_pos hcached]
    exact updateFrequency_usage { index with hits := index.hits + 1 } bookId i
  · rw [if_neg hcached, if_neg hcached]
    dsimp only [occupy]
    rw [LFULists.addToBucket_usage, LFULists.modifyNode_nodes]
    split
    case isTrue => rfl
    case isFalse =>
      exact claimSlot_usage { index with misses := index.misses + 1 } i

/-! ## What `get_frequency` counts -/

/-- The accesses of each symbol since it last entered the cache, after an access
of `bookId`. -/
def countTenure (index : LFUIndex) (bookId : UInt16) (tenure : UInt16 → ℕ) :
    UInt16 → ℕ :=
  if bookId.toUInt32 ≥ maxSymbols then tenure
  else Function.update tenure bookId
    (if index.isCached bookId then tenure bookId + 1 else 1)

def tenureMachine : Machine (LFUIndex × (UInt16 → ℕ)) (UInt16 × Symbol) where
  allowed _ _ := True
  step state call :=
    ((state.1.access call.1 call.2).2, state.1.countTenure call.1 state.2)

/-- The nodes hold the tenures, as far as a frequency goes. -/
structure Counts (index : LFUIndex) (tenure : UInt16 → ℕ) : Prop where
  unused : ∀ i, (index.lists.nodes i).valid = false →
    (index.lists.nodes i).frequency = 0
  frequency : ∀ bookId : UInt16, bookId.toUInt32 < maxSymbols →
    (index.lists.nodes bookId.toUInt32).frequency.toNat =
      min (tenure bookId) 1023
  refused : ∀ bookId : UInt16, maxSymbols ≤ bookId.toUInt32 → tenure bookId = 0

theorem init_counts (memory : UInt32 → LFUNode) :
    (init memory).Counts fun _ => 0 :=
  ⟨fun _ _ => rfl, fun _ _ => rfl, fun _ _ => rfl⟩

theorem Counts.getFrequency_eq {tenure : UInt16 → ℕ}
    (hcounts : index.Counts tenure) (bookId : UInt16) :
    (index.getFrequency bookId).toNat = min (tenure bookId) 1023 := by
  rw [getFrequency]
  by_cases hid : bookId.toUInt32 ≥ maxSymbols
  · rw [if_pos (Or.inl hid), hcounts.refused bookId hid]
    rfl
  · have hfrequency := hcounts.frequency bookId (UInt32.not_le.mp hid)
    split
    case isTrue hunused =>
      rw [hcounts.unused _ (hunused.resolve_left hid)] at hfrequency
      exact hfrequency
    case isFalse => exact hfrequency

/-- A cached node is in use. -/
theorem Refines.frequency_ne_zero (hrefines : index.Refines cache)
    {bookId : UInt16} (hcached : index.isCached bookId = true) :
    (index.lists.nodes bookId.toUInt32).frequency ≠ 0 := by
  obtain ⟨entry, hentry, rfl⟩ :=
    List.mem_map.mp (hrefines.cached bookId hcached)
  have hfrequency := (hrefines.node entry hentry).2
  have hcounted := (hrefines.counted entry hentry).1
  intro hzero
  rw [Entry.node, hzero] at hfrequency
  rw [← hfrequency] at hcounted
  exact absurd hcounted (by decide)

theorem Counts.access {tenure : UInt16 → ℕ} (hcounts : index.Counts tenure)
    (hrefines : index.Refines cache) (bookId : UInt16) (symbol : Symbol) :
    (index.access bookId symbol).2.Counts
      (index.countTenure bookId tenure) := by
  by_cases hid : bookId.toUInt32 < maxSymbols
  case neg =>
    have hge := UInt32.not_lt.mp hid
    rw [index.access_of_ge hge, countTenure, if_pos hge]
    exact hcounts
  have husage := index.access_usage hid symbol
  rw [countTenure, if_neg (UInt32.not_le.mpr hid)]
  refine ⟨fun i hunused => ?_, fun other hother => ?_, fun other hother => ?_⟩
  · have hnode := husage i
    have hvalid := congrArg Prod.fst hnode
    have hfrequency := congrArg Prod.snd hnode
    change ((index.access bookId symbol).2.lists.nodes i).valid = _ at hvalid
    change ((index.access bookId symbol).2.lists.nodes i).frequency =
      _ at hfrequency
    rw [hunused] at hvalid
    rw [hfrequency]
    split_ifs at hvalid ⊢ with hi hcached
    · -- A node whose symbol is cached has a frequency, so it is in use.
      subst hi
      exact absurd (hcounts.unused _ hvalid.symm)
        (hrefines.frequency_ne_zero hcached)
    · exact hcounts.unused i hvalid.symm
  · have hfrequency := congrArg Prod.snd (husage other.toUInt32)
    change ((index.access bookId symbol).2.lists.nodes
      other.toUInt32).frequency = _ at hfrequency
    rw [hfrequency]
    simp only [UInt16.toUInt32_inj]
    by_cases hsame : other = bookId
    · subst hsame
      rw [if_pos rfl, Function.update_self]
      split
      case isTrue => exact bumped_toNat (hcounts.frequency other hid)
      case isFalse => rfl
    · rw [if_neg hsame, Function.update_of_ne hsame]
      exact hcounts.frequency other hother
  · have hne : other ≠ bookId := by
      rintro rfl
      exact UInt32.not_le.mpr hid hother
    rw [Function.update_of_ne hne]
    exact hcounts.refused other hother

theorem tenureMachine_run_fst (memory : UInt32 → LFUNode)
    (calls : List (UInt16 × Symbol)) :
    (tenureMachine.run (init memory, fun _ => 0) calls).1 =
      machine.run (init memory) calls := by
  induction calls using List.reverseRecOn with
  | nil => rfl
  | append_singleton calls call ih =>
      rw [Machine.run_append, Machine.run_append, ← ih]
      rfl

theorem run_counts (memory : UInt32 → LFUNode)
    (calls : List (UInt16 × Symbol)) :
    (tenureMachine.run (init memory, fun _ => 0) calls).1.Counts
      (tenureMachine.run (init memory, fun _ => 0) calls).2 := by
  induction calls using List.reverseRecOn with
  | nil => exact init_counts memory
  | append_singleton calls call ih =>
      have hrefines := run_refines memory calls
      rw [← tenureMachine_run_fst] at hrefines
      rw [Machine.run_append]
      exact ih.access hrefines call.1 call.2

/-- Over every sequence of accesses, `get_frequency` is the number of accesses
of a symbol since it last entered the cache, whether it is still there or not;
it stops at 1023. -/
theorem frequency_is_tenure (memory : UInt32 → LFUNode)
    (calls : List (UInt16 × Symbol)) (bookId : UInt16) :
    let state := tenureMachine.run (init memory, fun _ => 0) calls
    (state.1.getFrequency bookId).toNat = min (state.2 bookId) 1023 := by
  intro state
  exact (run_counts memory calls).getFrequency_eq bookId

/-! ## What hits are worth -/

theorem evictLfu_hits (index : LFUIndex) :
    index.evictLfu.2.hits = index.hits := by
  rw [evictLfu]
  dsimp only
  split <;> rfl

theorem access_hits (index : LFUIndex) {bookId : UInt16}
    (hid : bookId.toUInt32 < maxSymbols)
    (symbol : Symbol) : (index.access bookId symbol).2.hits =
      if index.isCached bookId = true then index.hits + 1 else index.hits := by
  rw [access, if_neg (UInt32.not_le.mpr hid), isCached_eq index hid]
  split
  case isTrue => rfl
  case isFalse =>
    change (claimSlot _).2.hits = _
    rw [claimSlot]
    split
    · rfl
    · exact evictLfu_hits _

theorem acceptedIds_concat (calls : List (UInt16 × Symbol))
    (call : UInt16 × Symbol) :
    acceptedIds (calls ++ [call]) =
      acceptedIds calls ++
        if call.1.toUInt32 < maxSymbols then [call.1] else [] := by
  rw [acceptedIds, List.map_append, List.filter_append, ← acceptedIds,
    List.map_singleton]
  by_cases hid : call.1.toUInt32 < maxSymbols
  · rw [if_pos hid, List.filter_cons_of_pos (by simpa using hid),
      List.filter_nil]
  · rw [if_neg hid, List.filter_cons_of_neg (by simpa using hid),
      List.filter_nil]

/-- `hits` counts the hits of the reference cache. -/
theorem run_hits (memory : UInt32 → LFUNode) (calls : List (UInt16 × Symbol)) :
    (machine.run (init memory) calls).hits =
      .ofNat ((Cache.empty : ReferenceCache).hits (acceptedIds calls)) := by
  induction calls using List.reverseRecOn with
  | nil => rfl
  | append_singleton calls call ih =>
      have hrefines := run_refines memory calls
      rw [Machine.run_append, acceptedIds_concat]
      change ((machine.run (init memory) calls).access call.1 call.2).2.hits = _
      split
      case isTrue hid =>
        rw [access_hits _ hid, Cache.hits_concat, ih]
        have hhit : (machine.run (init memory) calls).isCached call.1 = true ↔
            (((Cache.empty : ReferenceCache).run (acceptedIds calls)).access
              call.1).1 = .hit :=
          (hrefines.isCached_iff call.1).trans (Cache.access_hit_iff _ _).symm
        simp only [hhit]
        split
        · exact (UInt64.ofNat_add _ _).symm
        · rfl
      case isFalse hid =>
        rw [access_of_ge _ (UInt32.not_lt.mp hid), List.append_nil, ih]

theorem hits_le_length (cache : ReferenceCache) (ids : List UInt16) :
    cache.hits ids ≤ ids.length := by
  induction ids generalizing cache with
  | nil => exact Nat.le_refl 0
  | cons id ids ih =>
      have hrest := ih (cache.access id).2
      rw [Cache.hits, List.length_cons]
      split <;> omega

/-- A frequency protects: when an access displaces a symbol of frequency `f`,
the cache has had at least `5 * (f - 1)` hits before.  So whatever comes, a
symbol that was used often stays until the cache has been hit as often for the
others. -/
theorem displaced_after_hits (memory : UInt32 → LFUNode)
    (calls : List (UInt16 × Symbol)) (hlength : calls.length < 2 ^ 64)
    (bookId : UInt16) (symbol : Symbol) (victim : UInt16) :
    let index := machine.run (init memory) calls
    index.isCached victim = true →
      (index.access bookId symbol).2.isCached victim = false →
      maxCacheSize.toNat * ((index.getFrequency victim).toNat - 1) ≤
        index.hits.toNat := by
  intro index hcached hgone
  have hrefines : index.Refines (ReferenceCache.after (acceptedIds calls)) :=
    run_refines memory calls
  have hid : bookId.toUInt32 < maxSymbols := by
    by_contra hge
    rw [index.access_of_ge (UInt32.not_lt.mp hge), hcached] at hgone
    exact absurd hgone (by decide)
  obtain ⟨hrefines', -⟩ := hrefines.access hid symbol
  obtain ⟨entry, hentry, rfl⟩ :=
    List.mem_map.mp (hrefines.cached victim hcached)
  have hstep :=
    Cache.access_step (ReferenceCache.after (acceptedIds calls)) bookId
  have hdisplaced :=
      (hstep.displaced_iff entry.key).mp ⟨List.mem_map_of_mem hentry,
        fun hin => by
    rw [(hrefines'.isCached_iff entry.key).mpr hin] at hgone
    exact absurd hgone (by decide)⟩
  have hcredit :=
    hstep.victim_credit (Cache.wellFormed _).nodup hentry hdisplaced
  have hcount : (index.getFrequency entry.key).toNat ≤ entry.count := by
    rw [← (hrefines.node entry hentry).2, getFrequency]
    split
    · exact Nat.zero_le _
    · exact Nat.le_refl _
  have hids : (acceptedIds calls).length ≤ calls.length :=
    (List.length_filter_le _ _).trans (Nat.le_of_eq (List.length_map ..))
  have hhits := hits_le_length Cache.empty (acceptedIds calls)
  calc maxCacheSize.toNat * ((index.getFrequency entry.key).toNat - 1)
      ≤ maxCacheSize.toNat * (entry.count - 1) :=
        Nat.mul_le_mul_left _ (Nat.sub_le_sub_right hcount 1)
    _ ≤ credit (ReferenceCache.after (acceptedIds calls)).entries := hcredit
    _ ≤ (Cache.empty : ReferenceCache).hits (acceptedIds calls) :=
        credit_run_le _
    _ = index.hits.toNat := by
        rw [run_hits memory calls, UInt64.toNat_ofNat',
          Nat.mod_eq_of_lt (by omega)]

/-- Five symbols, each used twice, before a sixth displaces the first. -/
theorem displaced_after_hits_sixth :
    let calls : List (UInt16 × Symbol) :=
      [0, 0, 1, 1, 2, 2, 3, 3, 4, 4].map fun id => (id, default)
    let index := machine.run (init fun _ => default) calls
    index.getFrequency 0 = 2 ∧
      maxCacheSize.toNat * ((index.getFrequency 0).toNat - 1) ≤
        index.hits.toNat :=
  ⟨by decide +kernel, displaced_after_hits (fun _ => default)
    ([0, 0, 1, 1, 2, 2, 3, 3, 4, 4].map fun id => (id, default))
    (by decide) 5 default 0
    (by decide +kernel) (by decide +kernel)⟩

end LFUIndex

end MarketDataPipeline
