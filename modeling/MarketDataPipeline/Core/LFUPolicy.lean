import Mathlib

/-!
# The LFU replacement policy

A reference cache in the abstract: it keeps for each cached key how often and
when last it was accessed.  A miss when full displaces the key with the
smallest count, among those the one accessed least recently, and the newcomer
takes its place.  Counts stop at `cap`.
-/

namespace MarketDataPipeline.LFUPolicy

variable {α : Type*} {capacity cap : ℕ}

structure Entry (α : Type*) where
  key : α
  count : ℕ
  last : ℕ

/-- The order in which keys are displaced: the count first, then the time of
the last access. -/
def Entry.rank (entry : Entry α) : ℕ ×ₗ ℕ := toLex (entry.count, entry.last)

inductive Outcome (α : Type*)
  | hit
  | miss (victim : Option α)
  deriving DecidableEq

/-- The keys are distinct, fit the capacity and were accessed in the past. -/
structure WellFormed (capacity : ℕ) (entries : List (Entry α)) (clock : ℕ) :
    Prop where
  nodup : (entries.map Entry.key).Nodup
  length_le : entries.length ≤ capacity
  past : ∀ entry ∈ entries, entry.last < clock

/-- A reference cache: its entries by place, and the time. -/
structure Cache (α : Type*) (capacity cap : ℕ) where
  entries : List (Entry α)
  clock : ℕ
  wellFormed : WellFormed capacity entries clock

namespace Cache

def empty : Cache α capacity cap := ⟨[], 0, by simp, by simp, by simp⟩

def keys (cache : Cache α capacity cap) : List α := cache.entries.map Entry.key

/-- A key has one entry. -/
theorem entry_unique (cache : Cache α capacity cap) {entry other : Entry α}
    (hentry : entry ∈ cache.entries) (hother : other ∈ cache.entries)
    (hkey : entry.key = other.key) : entry = other :=
  List.inj_on_of_nodup_map cache.wellFormed.nodup hentry hother hkey

end Cache

variable [DecidableEq α]

/-- `entry` takes the place of the entry of `key`. -/
def replace (key : α) (entry : Entry α) (entries : List (Entry α)) :
    List (Entry α) :=
  entries.map fun other => if other.key = key then entry else other

/-- One access at time `clock`. -/
def accessEntries (capacity cap : ℕ) (entries : List (Entry α))
    (clock : ℕ) (key : α) :
    Outcome α × List (Entry α) :=
  match entries.find? fun entry => entry.key = key with
  | some entry =>
      (.hit, replace key ⟨key, min (entry.count + 1) cap, clock⟩ entries)
  | none =>
      if entries.length < capacity then
        (.miss none, entries ++ [⟨key, 1, clock⟩])
      else
        match entries.argmin Entry.rank with
        | some victim =>
            (.miss (some victim.key),
              replace victim.key ⟨key, 1, clock⟩ entries)
        | none => (.miss none, entries)

/-! ## Replacing an entry -/

theorem replace_getElem? (key : α) (entry : Entry α) (entries : List (Entry α))
    (place : ℕ) :
    (replace key entry entries)[place]? =
      entries[place]?.map fun other =>
        if other.key = key then entry else other := by
  rw [replace, List.getElem?_map]

@[simp]
theorem replace_length (key : α) (entry : Entry α) (entries : List (Entry α)) :
    (replace key entry entries).length = entries.length := List.length_map ..

theorem mem_replace {key : α} {entry : Entry α} {entries : List (Entry α)}
    (hkey : key ∈ entries.map Entry.key) (other : Entry α) :
    other ∈ replace key entry entries ↔
      other = entry ∨ other ∈ entries ∧ other.key ≠ key := by
  rw [replace, List.mem_map]
  constructor
  · rintro ⟨old, hold, rfl⟩
    split
    case isTrue => exact Or.inl rfl
    case isFalse hne => exact Or.inr ⟨hold, hne⟩
  · rintro (rfl | ⟨hother, hne⟩)
    · obtain ⟨old, hold, rfl⟩ := List.mem_map.mp hkey
      exact ⟨old, hold, if_pos rfl⟩
    · exact ⟨other, hother, if_neg hne⟩

/-- Keys stay distinct when the entry put in has the key it replaces or a new
one. -/
theorem replace_nodup {key : α} {entry : Entry α} {entries : List (Entry α)}
    (hnodup : (entries.map Entry.key).Nodup)
    (hnew : entry.key = key ∨ entry.key ∉ entries.map Entry.key) :
    ((replace key entry entries).map Entry.key).Nodup := by
  have hkeys : (replace key entry entries).map Entry.key =
      (entries.map Entry.key).map fun other =>
        if other = key then entry.key else other := by
    rw [replace, List.map_map, List.map_map]
    refine List.map_congr_left fun other _ => ?_
    simp only [Function.comp_apply]
    split <;> rfl
  rw [hkeys]
  refine hnodup.map_on fun left hleft right hright heq => ?_
  rcases hnew with rfl | hnew
  · split at heq <;> split at heq <;> simp_all
  · split at heq <;> split at heq
    · simp_all
    · exact absurd (heq ▸ hright) hnew
    · exact absurd (heq ▸ hleft) hnew
    · exact heq

/-! ## What an access can do -/

/-- What an access does to the entries. -/
inductive Step (capacity cap : ℕ) (entries : List (Entry α))
    (clock : ℕ) (key : α) :
    Outcome α → List (Entry α) → Prop
  | hit {entry : Entry α} (hmem : entry ∈ entries) (hkey : entry.key = key) :
      Step capacity cap entries clock key .hit
        (replace key ⟨key, min (entry.count + 1) cap, clock⟩ entries)
  | admitted (hnew : key ∉ entries.map Entry.key)
      (hroom : entries.length < capacity) :
      Step capacity cap entries clock key (.miss none)
        (entries ++ [⟨key, 1, clock⟩])
  | evicted {victim : Entry α} (hnew : key ∉ entries.map Entry.key)
      (hfull : capacity ≤ entries.length) (hmem : victim ∈ entries)
      (hleast : ∀ entry ∈ entries, victim.rank ≤ entry.rank) :
      Step capacity cap entries clock key (.miss (some victim.key))
        (replace victim.key ⟨key, 1, clock⟩ entries)
  | declined (hcapacity : capacity = 0) : Step capacity cap entries clock key
      (.miss none) entries

theorem accessEntries_step (capacity cap : ℕ) (entries : List (Entry α))
    (clock : ℕ) (key : α) :
    Step capacity cap entries clock key
      (accessEntries capacity cap entries clock key).1
      (accessEntries capacity cap entries clock key).2 := by
  rw [accessEntries]
  cases hfind : entries.find? fun entry => entry.key = key with
  | some entry =>
      have hkey : entry.key = key := by simpa using List.find?_some hfind
      exact Step.hit (List.mem_of_find?_eq_some hfind) hkey
  | none =>
      have hnew : key ∉ entries.map Entry.key := by
        intro hmem
        obtain ⟨entry, hentry, rfl⟩ := List.mem_map.mp hmem
        simpa using List.find?_eq_none.mp hfind entry hentry
      by_cases hroom : entries.length < capacity
      · simp only [if_pos hroom]
        exact Step.admitted hnew hroom
      · simp only [if_neg hroom]
        cases hvictim : entries.argmin Entry.rank with
        | none =>
            rw [List.argmin_eq_none] at hvictim
            subst hvictim
            exact Step.declined (Nat.eq_zero_of_not_pos hroom)
        | some victim =>
            have hmem : victim ∈ entries := List.argmin_mem hvictim
            have hleast : ∀ entry ∈ entries, victim.rank ≤ entry.rank :=
              fun entry hentry => List.le_of_mem_argmin hentry hvictim
            exact Step.evicted hnew (not_lt.mp hroom) hmem hleast

theorem WellFormed.replace {entries : List (Entry α)} {clock : ℕ}
    (hwell : WellFormed capacity entries clock) {key : α}
    (hkey : key ∈ entries.map Entry.key) {entry : Entry α}
    (hnew : entry.key = key ∨
      entry.key ∉ entries.map Entry.key)
    (hlast : entry.last = clock) :
    WellFormed capacity (replace key entry entries) (clock + 1) where
  nodup := replace_nodup hwell.nodup hnew
  length_le := by
    rw [replace_length]
    exact hwell.length_le
  past other hother := by
    rcases (mem_replace hkey other).mp hother with rfl | ⟨hmem, -⟩
    · omega
    · exact Nat.lt_succ_of_lt (hwell.past other hmem)

theorem Step.wellFormed {entries entries' : List (Entry α)}
    {clock : ℕ} {key : α} {outcome : Outcome α}
    (hstep : Step capacity cap entries clock key outcome entries')
    (hwell : WellFormed capacity entries clock) :
    WellFormed capacity entries' (clock + 1) := by
  cases hstep with
  | hit hmem hkey =>
      have hkey' : key ∈ entries.map Entry.key :=
        hkey ▸ List.mem_map_of_mem hmem
      exact hwell.replace hkey' (Or.inl rfl) rfl
  | admitted hnew hroom =>
      refine ⟨?_, ?_, fun entry hentry => ?_⟩
      · rw [List.map_append, List.nodup_append]
        refine ⟨hwell.nodup, by simp, fun other hother key' hkey' => ?_⟩
        obtain rfl : key' = key := by simpa using hkey'
        exact fun heq => hnew (heq ▸ hother)
      · rw [List.length_append, List.length_singleton]
        exact hroom
      · rcases List.mem_append.mp hentry with hold | hlast
        · exact Nat.lt_succ_of_lt (hwell.past entry hold)
        · rw [List.mem_singleton.mp hlast]
          exact Nat.lt_succ_self clock
  | evicted hnew _ hmem _ =>
      exact hwell.replace (List.mem_map_of_mem hmem) (Or.inr hnew) rfl
  | declined =>
      refine ⟨hwell.nodup, hwell.length_le, fun entry hentry => ?_⟩
      exact Nat.lt_succ_of_lt (hwell.past entry hentry)

theorem mem_keys_replace {key : α} {entry : Entry α} {entries : List (Entry α)}
    (hkey : key ∈ entries.map Entry.key) (other : α) :
    other ∈ (replace key entry entries).map Entry.key ↔
      other = entry.key ∨ other ∈ entries.map Entry.key ∧ other ≠ key := by
  simp only [List.mem_map, mem_replace hkey]
  constructor
  · rintro ⟨found, rfl | ⟨hfound, hne⟩, rfl⟩
    · exact Or.inl rfl
    · exact Or.inr ⟨⟨found, hfound, rfl⟩, hne⟩
  · rintro (rfl | ⟨⟨found, hfound, rfl⟩, hne⟩)
    · exact ⟨entry, Or.inl rfl, rfl⟩
    · exact ⟨found, Or.inr ⟨hfound, hne⟩, rfl⟩

/-- The outcome names the key that leaves the cache. -/
theorem Step.displaced_iff {entries entries' : List (Entry α)}
    {clock : ℕ} {key : α} {outcome : Outcome α}
    (hstep : Step capacity cap entries clock key outcome entries')
    (victim : α) :
    (victim ∈ entries.map Entry.key ∧ victim ∉ entries'.map Entry.key) ↔
      outcome = .miss (some victim) := by
  cases hstep with
  | hit hmem hkey =>
      rw [mem_keys_replace (hkey ▸ List.mem_map_of_mem hmem)]
      simp only [reduceCtorEq, iff_false]
      tauto
  | admitted =>
      rw [List.map_append, List.mem_append]
      simp only [reduceCtorEq, Outcome.miss.injEq, iff_false]
      tauto
  | @evicted found hnew _ hmem _ =>
      rw [mem_keys_replace (List.mem_map_of_mem hmem), Outcome.miss.injEq,
        Option.some.injEq]
      constructor
      · rintro ⟨hvictim, hgone⟩
        by_contra hne
        exact hgone (Or.inr ⟨hvictim, Ne.symm hne⟩)
      · rintro rfl
        refine ⟨List.mem_map_of_mem hmem, ?_⟩
        rintro (heq | ⟨_, hne⟩)
        · have hfound : found.key ∈ entries.map Entry.key :=
            List.mem_map_of_mem hmem
          rw [heq] at hfound
          exact hnew hfound
        · exact hne rfl
  | declined => simp

/-- A key that was accessed is in the cache. -/
theorem Step.key_mem {entries entries' : List (Entry α)} {clock : ℕ} {key : α}
    {outcome : Outcome α}
    (hstep : Step capacity cap entries clock key outcome entries')
    (hcapacity : 0 < capacity) : key ∈ entries'.map Entry.key := by
  cases hstep with
  | hit hmem hkey =>
      exact (mem_keys_replace (hkey ▸ List.mem_map_of_mem hmem) key).mpr
        (Or.inl rfl)
  | admitted => simp
  | evicted _ _ hmem _ =>
      exact (mem_keys_replace (List.mem_map_of_mem hmem) key).mpr (Or.inl rfl)
  | declined hzero => omega

/-- An access moves no key but its own. -/
theorem Step.place_of_ne {entries entries' : List (Entry α)}
    {clock place : ℕ} {key : α} {outcome : Outcome α} {entry : Entry α}
    (hstep : Step capacity cap entries clock key outcome entries')
    (hplace : entries'[place]? = some entry) (hne : entry.key ≠ key) :
    entries[place]? = some entry := by
  have hreplaced : ∀ {old : α} {new : Entry α}, new.key = key →
      (replace old new entries)[place]? = some entry →
        entries[place]? = some entry := by
    intro old new hkey hreplace
    rw [replace_getElem?, Option.map_eq_some_iff] at hreplace
    obtain ⟨other, hother, heq⟩ := hreplace
    split at heq
    case isTrue => exact absurd (heq ▸ hkey) hne
    case isFalse => rw [hother, heq]
  cases hstep with
  | hit => exact hreplaced rfl hplace
  | admitted hnew hroom =>
      have hlt : place < entries.length := by
        by_contra hge
        rw [List.getElem?_append_right (not_lt.mp hge)] at hplace
        exact hne
          (congrArg Entry.key
          (List.mem_singleton.mp (List.mem_of_getElem? hplace)))
      rwa [List.getElem?_append_left hlt] at hplace
  | evicted => exact hreplaced rfl hplace
  | declined => exact hplace

namespace Cache

def access (cache : Cache α capacity cap) (key : α) :
    Outcome α × Cache α capacity cap :=
  let done := accessEntries capacity cap cache.entries cache.clock key
  (done.1, ⟨done.2, cache.clock + 1,
    (accessEntries_step capacity cap cache.entries cache.clock key).wellFormed
      cache.wellFormed⟩)

theorem access_step (cache : Cache α capacity cap) (key : α) :
    Step capacity cap cache.entries cache.clock key (cache.access key).1
      (cache.access key).2.entries :=
  accessEntries_step capacity cap cache.entries cache.clock key

end Cache

end MarketDataPipeline.LFUPolicy
