import MarketDataPipeline.Cache.LFUAccess

/-!
# The cache follows the LFU policy

Over any sequence of accesses the index holds the reference cache that saw the
same accesses, less those of ids the nodes have no room for: `access` refuses
them, so they are neither hits nor misses and displace nothing.
-/

namespace MarketDataPipeline

open LFUPolicy

def ReferenceCache.after (ids : List UInt16) : ReferenceCache :=
  ids.foldl (fun cache id => (cache.access id).2) Cache.empty

def acceptedIds (calls : List (UInt16 × Symbol)) : List UInt16 :=
  (calls.map Prod.fst).filter fun id => id.toUInt32 < maxSymbols

namespace LFUIndex

/-- The index holds the reference cache after every sequence of accesses. -/
theorem run_refines (memory : UInt32 → LFUNode)
    (calls : List (UInt16 × Symbol)) :
    (machine.run (init memory) calls).Refines
      (ReferenceCache.after (acceptedIds calls)) := by
  have hsteps :
      ∀ (calls : List (UInt16 × Symbol)) (index : LFUIndex) (cache :
      ReferenceCache),
      index.Refines cache → (machine.run index calls).Refines
        ((acceptedIds calls).foldl
          (fun cache id => (cache.access id).2) cache) := by
    intro calls
    induction calls with
    | nil => exact fun index cache hrefines => hrefines
    | cons call calls ih =>
        intro index cache hrefines
        rw [Machine.run_cons, acceptedIds, List.map_cons]
        by_cases hid : call.1.toUInt32 < maxSymbols
        · rw [List.filter_cons_of_pos (by simpa using hid), List.foldl_cons]
          exact ih _ _ (hrefines.access hid call.2).1
        · rw [List.filter_cons_of_neg (by simpa using hid)]
          have hsame : machine.step index call = index := by
            change (index.access call.1 call.2).2 = index
            rw [index.access_of_ge (UInt32.not_lt.mp hid)]
          rw [hsame]
          exact ih index cache hrefines
  exact hsteps calls (init memory) Cache.empty (init_refines memory)

/-- The policy of `access`, after any sequence of accesses and for the next one.
The cached ids are those of the reference cache.  An id the nodes have no room
for is refused and changes nothing.  Any other access hits exactly when the
reference cache hits, evicts exactly the victim that the reference cache
displaces, and returns the book at the place of the id in the reference cache,
which for a newcomer to a full cache is the slot of its victim. -/
theorem access_follows_policy (memory : UInt32 → LFUNode)
    (calls : List (UInt16 × Symbol)) (bookId : UInt16) (symbol : Symbol) :
    let index := machine.run (init memory) calls
    let cache := ReferenceCache.after (acceptedIds calls)
    let done := index.access bookId symbol
    (∀ id, index.isCached id = true ↔ id ∈ cache.keys) ∧
      if bookId.toUInt32 < maxSymbols then
        ((∃ slot, done.1 = .hit slot) ↔ (cache.access bookId).1 = .hit) ∧
          (∀ victim,
            (index.isCached victim = true ∧ done.2.isCached victim = false) ↔
            (cache.access bookId).1 = .miss (some victim)) ∧
          (∀ victim, (cache.access bookId).1 = .miss (some victim) →
            done.1 = .miss (index.bookToSlot victim.toUInt32)) ∧
          ∃ place, (cache.access bookId).2.keys[place]? = some bookId ∧
            done.1.slot = some (.ofNat place)
      else done = (.refused, index) := by
  intro index cache done
  have hrefines : index.Refines cache := run_refines memory calls
  refine ⟨hrefines.isCached_iff, ?_⟩
  by_cases hid : bookId.toUInt32 < maxSymbols
  case neg =>
    rw [if_neg hid]
    exact index.access_of_ge (UInt32.not_lt.mp hid) symbol
  rw [if_pos hid]
  obtain ⟨hrefines', hanswers⟩ := hrefines.access hid symbol
  have hvictims : ∀ victim,
      (index.isCached victim = true ∧ done.2.isCached victim = false) ↔
      victim ∈ cache.keys ∧ victim ∉ (cache.access bookId).2.keys := by
    intro victim
    rw [hrefines.isCached_iff, ← hrefines'.isCached_iff, Bool.not_eq_true]
  have hslot : done.1.slot = some (done.2.bookToSlot bookId.toUInt32) :=
    index.access_slot hid symbol
  have hstep := cache.access_step bookId
  refine ⟨hanswers.hit_iff,
    fun victim => (hvictims victim).trans (hstep.displaced_iff victim),
    fun victim hevicts =>
    ?_, ?_⟩
  · rw [hevicts] at hanswers
    exact hanswers.victim_slot
  · obtain ⟨entry, hentry, hkey⟩ := List.mem_map.mp (hstep.key_mem (by decide))
    obtain ⟨place, hplace⟩ := List.getElem?_of_mem hentry
    have hnode : bookId.toUInt32 = entry.node :=
      congrArg UInt16.toUInt32 hkey.symm
    refine ⟨place, ?_, ?_⟩
    · rw [Cache.keys, List.getElem?_map, hplace, Option.map_some, hkey]
    · rw [hslot, hnode, (hrefines'.slots place entry hplace).1]

/-- Without the refusal the two caches differ: the reference cache
admits 300. -/
theorem refused_id_is_not_cached :
    ¬ ∀ id,
      (machine.run (init fun _ => default) [(300, default)]).isCached id =
        true ↔ id ∈ (ReferenceCache.after [300]).keys := by
  intro hagree
  have hcached : (300 : UInt16) ∈ (ReferenceCache.after [300]).keys := by decide
  exact absurd ((hagree 300).mpr hcached) (by decide)

end LFUIndex

end MarketDataPipeline
