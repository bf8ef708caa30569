import MarketDataPipeline.Core.LFUPolicy

/-!
# Runs of an LFU cache

What whole runs of accesses do from the empty cache on: how many hits it takes
before a key that was used often can be displaced, when a run finds nothing at
all, and that a run on few keys displaces none.
-/

namespace MarketDataPipeline.LFUPolicy

variable {α : Type*} [DecidableEq α] {capacity cap : ℕ}

namespace Cache

def run (cache : Cache α capacity cap) (keys : List α) : Cache α capacity cap :=
  keys.foldl (fun cache key => (cache.access key).2) cache

/-- How many accesses of a run find their key in the cache. -/
def hits (cache : Cache α capacity cap) : List α → ℕ
  | [] => 0
  | key :: keys =>
      (if (cache.access key).1 = .hit then 1 else 0) +
        (cache.access key).2.hits keys

theorem run_concat (cache : Cache α capacity cap) (keys : List α) (key : α) :
    cache.run (keys ++ [key]) = ((cache.run keys).access key).2 := by
  rw [run, List.foldl_append]
  rfl

theorem hits_concat (cache : Cache α capacity cap) (keys : List α) (key : α) :
    cache.hits (keys ++ [key]) =
      cache.hits keys +
        if ((cache.run keys).access key).1 = .hit then 1 else 0 := by
  induction keys generalizing cache with
  | nil => exact Nat.add_comm _ _
  | cons first rest ih =>
      rw [List.cons_append, hits, ih, hits, Nat.add_assoc]
      rfl

end Cache

/-! ## Hits protect a key -/

/-- What the counts of the entries are above 1, in total. -/
def credit (entries : List (Entry α)) : ℕ :=
  (entries.map fun entry => entry.count - 1).sum

omit [DecidableEq α] in
theorem credit_append (entries : List (Entry α)) (key : α) (clock : ℕ) :
    credit (entries ++ [⟨key, 1, clock⟩]) = credit entries := by
  rw [credit, List.map_append, List.sum_append]
  rfl

theorem replace_of_notMem {key : α} {entries : List (Entry α)} (entry : Entry α)
    (hkey : key ∉ entries.map Entry.key) :
    replace key entry entries = entries := by
  have hne : ∀ other ∈ entries, other.key ≠ key :=
    fun other hother heq => hkey (heq ▸ List.mem_map_of_mem hother)
  calc replace key entry entries
      = entries.map fun other => other :=
        List.map_congr_left fun other hother => if_neg (hne other hother)
    _ = entries := List.map_id' entries

/-- An entry replaced changes the credit by what it had. -/
theorem credit_replace {entries : List (Entry α)} {old : Entry α}
    (new : Entry α) (hnodup : (entries.map Entry.key).Nodup)
    (hold : old ∈ entries) :
    credit (replace old.key new entries) + (old.count - 1) =
      credit entries + (new.count - 1) := by
  induction entries with
  | nil => simp at hold
  | cons first rest ih =>
      rw [List.map_cons, List.nodup_cons] at hnodup
      obtain ⟨hfirst, hrest⟩ := hnodup
      have hcons : ∀ (entry : Entry α) (entries : List (Entry α)),
          credit (entry :: entries) = entry.count - 1 + credit entries :=
        fun entry entries => by rw [credit, List.map_cons,
          List.sum_cons, credit]
      rcases List.mem_cons.mp hold with rfl | hin
      · have hreplaced : replace old.key new (old :: rest) = new :: rest := by
          rw [replace, List.map_cons, if_pos rfl]
          exact congrArg _ (replace_of_notMem new hfirst)
        rw [hreplaced, hcons, hcons]
        omega
      · have hne : first.key ≠ old.key :=
          fun heq => hfirst (heq ▸ List.mem_map_of_mem hin)
        have hreplaced : replace old.key new (first :: rest) =
            first :: replace old.key new rest := by
          rw [replace, List.map_cons, if_neg hne, replace]
        have hcredit := ih hrest hin
        rw [hreplaced, hcons, hcons]
        omega

/-- An access adds to the credit only where it hits. -/
theorem Step.credit_le {entries entries' : List (Entry α)} {clock : ℕ} {key : α}
    {outcome : Outcome α}
    (hstep : Step capacity cap entries clock key outcome entries')
    (hnodup : (entries.map Entry.key).Nodup) :
    credit entries' ≤ credit entries + if outcome = .hit then 1 else 0 := by
  cases hstep with
  | @hit entry hmem hkey =>
      have hcredit :=
        credit_replace ⟨key, min (entry.count + 1) cap, clock⟩ hnodup hmem
      rw [hkey] at hcredit
      rw [if_pos rfl]
      dsimp only at hcredit
      omega
  | admitted => rw [credit_append, if_neg (by simp), Nat.add_zero]
  | evicted _ _ hmem _ =>
      have hcredit := credit_replace ⟨key, 1, clock⟩ hnodup hmem
      rw [if_neg (by simp)]
      dsimp only at hcredit
      omega
  | declined => rw [if_neg (by simp), Nat.add_zero]

theorem credit_run_le (keys : List α) :
    credit ((Cache.empty : Cache α capacity cap).run keys).entries ≤
      (Cache.empty : Cache α capacity cap).hits keys := by
  induction keys using List.reverseRecOn with
  | nil => exact Nat.le_refl 0
  | append_singleton keys key ih =>
      rw [Cache.run_concat, Cache.hits_concat]
      have hstep :=
        (Cache.run Cache.empty keys : Cache α capacity cap).access_step key
      have hcredit := hstep.credit_le (Cache.wellFormed _).nodup
      omega

/-- Whoever is displaced has no more than its share of the credit. -/
theorem Step.victim_credit {entries entries' : List (Entry α)}
    {clock : ℕ} {key : α} {outcome : Outcome α}
    (hstep : Step capacity cap entries clock key outcome entries')
    (hnodup : (entries.map Entry.key).Nodup) {entry : Entry α}
    (hentry : entry ∈ entries) (hdisplaced : outcome = .miss (some entry.key)) :
    capacity * (entry.count - 1) ≤ credit entries := by
  cases hstep with
  | hit | admitted | declined => simp at hdisplaced
  | @evicted victim _ hfull hmem hleast =>
      have hvictim : victim = entry :=
        List.inj_on_of_nodup_map hnodup hmem hentry (by simpa using hdisplaced)
      subst hvictim
      have hcounts : ∀ count ∈ entries.map fun entry => entry.count - 1,
          victim.count - 1 ≤ count := by
        intro count hcount
        obtain ⟨other, hother, rfl⟩ := List.mem_map.mp hcount
        have hrank := (Prod.Lex.toLex_le_toLex.mp (hleast other hother))
        have hle : victim.count ≤ other.count := by
          rcases hrank with hlt | ⟨heq, -⟩
          · exact Nat.le_of_lt hlt
          · exact Nat.le_of_eq heq
        omega
      calc capacity * (victim.count - 1)
          ≤ entries.length * (victim.count - 1) := Nat.mul_le_mul_right _ hfull
        _ = (entries.map fun entry => entry.count - 1).length •
            (victim.count - 1) := by
          rw [List.length_map, smul_eq_mul]
        _ ≤ credit entries := List.card_nsmul_le_sum _ _ hcounts

/-! ## Runs that find nothing -/

/-- Accesses of one key are more than `capacity` apart. -/
def SpreadOut (capacity : ℕ) (keys : List α) : Prop :=
  ∀ i j key, i < j → j ≤ i + capacity → keys[i]? = some key →
    keys[j]? ≠ some key

instance (capacity : ℕ) (keys : List α) : Decidable (SpreadOut capacity keys) :=
  decidable_of_iff
    (∀ j < keys.length, ∀ i < j, j ≤ i + capacity → keys[i]? ≠ keys[j]?) <| by
      constructor
      · intro hapart i j key hij hnear hi hj
        have hlt := (List.getElem?_eq_some_iff.mp hj).1
        exact hapart j hlt i hij hnear (hi.trans hj.symm)
      · intro hspread j hj i hij hnear heq
        have hkey := List.getElem?_eq_getElem hj
        exact hspread i j keys[j] hij hnear (heq.trans hkey) hkey

omit [DecidableEq α] in
theorem spreadOut_concat {keys : List α} {key : α} :
    SpreadOut capacity (keys ++ [key]) ↔
      SpreadOut capacity keys ∧ ∀ i < keys.length, keys.length ≤ i + capacity →
        keys[i]? ≠ some key := by
  constructor
  · intro hspread
    refine ⟨fun i j other hij hnear hi hj => ?_, fun i hi hnear heq => ?_⟩
    · have hinside : ∀ {k}, keys[k]? = some other →
        (keys ++ [key])[k]? = some other :=
        fun hk =>
          (List.getElem?_append_left
            (List.getElem?_eq_some_iff.mp hk).1).trans hk
      exact hspread i j other hij hnear (hinside hi) (hinside hj)
    · exact hspread i keys.length key hi hnear
        ((List.getElem?_append_left hi).trans heq) (by simp)
  · rintro ⟨hspread, hlast⟩ i j other hij hnear hi hj
    have hlength := (List.getElem?_eq_some_iff.mp hj).1
    rw [List.length_append, List.length_singleton] at hlength
    have hbefore : i < keys.length := by omega
    rw [List.getElem?_append_left hbefore] at hi
    by_cases hend : j < keys.length
    · rw [List.getElem?_append_left hend] at hj
      exact hspread i j other hij hnear hi hj
    · obtain rfl : j = keys.length := by omega
      rw [List.getElem?_concat_length, Option.some.injEq] at hj
      exact hlast i hbefore hnear (hj ▸ hi)

omit [DecidableEq α] in
/-- Keys may be renamed one to one. -/
theorem spreadOut_map {β : Type*} {name : α → β} {keys : List α}
    (hinj : ∀ key ∈ keys, ∀ other ∈ keys, name key = name other → key = other) :
    SpreadOut capacity (keys.map name) ↔ SpreadOut capacity keys := by
  constructor
  · intro hspread i j key hij hnear hi hj
    have hnamed : ∀ {k : ℕ}, keys[k]? = some key →
        (keys.map name)[k]? = some (name key) := by
      intro k hk
      rw [List.getElem?_map, hk, Option.map_some]
    exact hspread i j (name key) hij hnear (hnamed hi) (hnamed hj)
  · intro hspread i j named hij hnear hi hj
    rw [List.getElem?_map, Option.map_eq_some_iff] at hi hj
    obtain ⟨key, hkey, rfl⟩ := hi
    obtain ⟨other, hother, heq⟩ := hj
    have hsame := hinj other (List.mem_of_getElem? hother) key
      (List.mem_of_getElem? hkey) heq
    exact hspread i j key hij hnear hkey (hsame ▸ hother)

/-- The cache holds the last `capacity` keys of a run, each accessed once. -/
structure Recent (cache : Cache α capacity cap) (keys : List α) : Prop where
  mem_iff : ∀ entry, entry ∈ cache.entries ↔
    ∃ i < keys.length, keys.length ≤ i + capacity ∧ keys[i]? = some entry.key ∧
      entry.count = 1 ∧ entry.last = i
  length_eq : cache.entries.length = min keys.length capacity
  clock_eq : cache.clock = keys.length

namespace Recent

variable {cache : Cache α capacity cap} {keys : List α} {key : α}

omit [DecidableEq α] in
theorem empty : Recent (Cache.empty : Cache α capacity cap) [] where
  mem_iff entry := by
    simp only [List.length_nil, Nat.not_lt_zero, false_and,
      exists_false, iff_false]
    exact List.not_mem_nil
  length_eq := (Nat.zero_min capacity).symm
  clock_eq := rfl

omit [DecidableEq α] in
/-- Such a cache has a key exactly if the key is among the last of the run. -/
theorem mem_keys_iff (hrecent : Recent cache keys) :
    key ∈ cache.keys ↔
      ∃ i < keys.length, keys.length ≤ i + capacity ∧ keys[i]? = some key := by
  rw [Cache.keys, List.mem_map]
  constructor
  · rintro ⟨entry, hentry, rfl⟩
    obtain ⟨i, hi, hnear, hat, -, -⟩ := (hrecent.mem_iff entry).mp hentry
    exact ⟨i, hi, hnear, hat⟩
  · rintro ⟨i, hi, hnear, hat⟩
    exact ⟨⟨key, 1, i⟩, (hrecent.mem_iff _).mpr
      ⟨i, hi, hnear, hat, rfl, rfl⟩, rfl⟩

/-- A newcomer takes the place of the oldest. -/
theorem access (hrecent : Recent cache keys) (hcapacity : 0 < capacity)
    (hnew : key ∉ cache.keys) :
    Recent (cache.access key).2 (keys ++ [key]) where
  mem_iff entry := by
    have hconcat :
        (∃ i < (keys ++ [key]).length, (keys ++ [key]).length ≤ i + capacity ∧
        (keys ++ [key])[i]? = some entry.key ∧ entry.count = 1 ∧
          entry.last = i) ↔
        entry = ⟨key, 1, keys.length⟩ ∨
          ∃ i < keys.length, keys.length < i + capacity ∧
            keys[i]? = some entry.key ∧
            entry.count = 1 ∧ entry.last = i := by
      rw [List.length_append, List.length_singleton]
      constructor
      · rintro ⟨i, hi, hnear, hat, hcount, hlast⟩
        by_cases hend : i < keys.length
        · rw [List.getElem?_append_left hend] at hat
          exact Or.inr ⟨i, hend, hnear, hat, hcount, hlast⟩
        · obtain rfl : i = keys.length := by omega
          rw [List.getElem?_concat_length, Option.some.injEq] at hat
          refine Or.inl ?_
          rw [hat, ← hcount, ← hlast]
      · rintro (rfl | ⟨i, hi, hnear, hat, hcount, hlast⟩)
        · exact ⟨keys.length,
            Nat.lt_succ_self
            _, by omega, List.getElem?_concat_length .., rfl, rfl⟩
        · exact ⟨i, by omega, hnear, (List.getElem?_append_left hi).trans hat,
            hcount, hlast⟩
    rw [hconcat]
    have hstep := cache.access_step key
    rw [hrecent.clock_eq] at hstep
    generalize (cache.access key).1 = outcome at hstep
    generalize (cache.access key).2.entries = entries' at hstep ⊢
    cases hstep with
    | hit hmem hkey => exact absurd (hkey ▸ List.mem_map_of_mem hmem) hnew
    | admitted _ hroom =>
        have hshort : keys.length < capacity := by
          have hlength := hrecent.length_eq
          omega
        rw [List.mem_append, List.mem_singleton, hrecent.mem_iff, or_comm]
        refine or_congr_right (exists_congr fun i =>
          and_congr_right fun hi => ?_)
        exact and_congr_left fun _ => ⟨fun _ => by omega, fun _ => by omega⟩
    | @evicted victim _ hfull hmem hleast =>
        have hlong : capacity ≤ keys.length := by
          have hlength := hrecent.length_eq
          omega
        -- The oldest of the last `capacity` accesses has the least rank.
        have holdest : victim.last + capacity = keys.length := by
          obtain ⟨i, hi, hnear, -, hcount, hlast⟩ :=
            (hrecent.mem_iff victim).mp hmem
          have hstart : keys.length - capacity < keys.length := by omega
          have hfirst :=
            hleast _ ((hrecent.mem_iff ⟨keys[keys.length - capacity], 1,
            keys.length - capacity⟩).mpr
              ⟨keys.length - capacity, hstart, by omega,
              List.getElem?_eq_getElem hstart, rfl, rfl⟩)
          rcases Prod.Lex.toLex_le_toLex.mp hfirst with hlt | ⟨-, hle⟩
          · simp only [hcount, lt_irrefl] at hlt
          · dsimp only at hle
            omega
        rw [mem_replace (List.mem_map_of_mem hmem)]
        refine or_congr_right ?_
        constructor
        · rintro ⟨hentry, hne⟩
          obtain ⟨i, hi, hnear, hat, hcount, hlast⟩ :=
            (hrecent.mem_iff entry).mp hentry
          refine ⟨i, hi, ?_, hat, hcount, hlast⟩
          by_contra hfar
          have hsame : keys[i]? = some victim.key := by
            obtain ⟨j, -, -, hj, -, hlastj⟩ := (hrecent.mem_iff victim).mp hmem
            obtain rfl : i = j := by omega
            exact hj
          rw [hat, Option.some.injEq] at hsame
          exact hne hsame
        · rintro ⟨i, hi, hnear, hat, hcount, hlast⟩
          have hentry : entry ∈ cache.entries :=
            (hrecent.mem_iff entry).mpr ⟨i, hi, by omega, hat, hcount, hlast⟩
          refine ⟨hentry, fun heq => ?_⟩
          have hvictim := cache.entry_unique hentry hmem heq
          rw [hvictim] at hlast
          omega
    | declined hzero => omega
  length_eq := by
    have hstep := cache.access_step key
    have hlength := hrecent.length_eq
    rw [List.length_append, List.length_singleton]
    generalize (cache.access key).1 = outcome at hstep
    generalize (cache.access key).2.entries = entries' at hstep ⊢
    cases hstep with
    | hit hmem hkey => exact absurd (hkey ▸ List.mem_map_of_mem hmem) hnew
    | admitted =>
        rw [List.length_append, List.length_singleton]
        omega
    | evicted =>
        rw [replace_length]
        omega
    | declined => omega
  clock_eq := by
    rw [List.length_append, List.length_singleton, ← hrecent.clock_eq]
    rfl

end Recent

/-- An access hits exactly if the key is in the cache. -/
theorem Cache.access_hit_iff (cache : Cache α capacity cap) (key : α) :
    (cache.access key).1 = .hit ↔ key ∈ cache.keys := by
  have hstep := cache.access_step key
  generalize (cache.access key).1 = outcome at hstep
  generalize (cache.access key).2.entries = entries' at hstep
  cases hstep with
  | hit hmem hkey => exact iff_of_true rfl (hkey ▸ List.mem_map_of_mem hmem)
  | admitted hnew | evicted hnew => exact iff_of_false (by simp) hnew
  | declined hzero =>
      have hempty : cache.entries = [] :=
        List.eq_nil_of_length_eq_zero
          (Nat.le_zero.mp (hzero ▸ cache.wellFormed.length_le))
      refine iff_of_false (by simp) ?_
      rw [Cache.keys, hempty]
      exact List.not_mem_nil

/-- A run hits nothing exactly if the accesses of one key are more than
`capacity` apart; the cache then holds the last keys of the run. -/
theorem hits_eq_zero_iff (hcapacity : 0 < capacity) (keys : List α) :
    ((Cache.empty : Cache α capacity cap).hits keys = 0 ↔
      SpreadOut capacity keys) ∧
      (SpreadOut capacity keys →
        Recent ((Cache.empty : Cache α capacity cap).run keys) keys) := by
  induction keys using List.reverseRecOn with
  | nil =>
      exact ⟨iff_of_true rfl
        fun i j key _ _ hi => by simp at hi, fun _ => Recent.empty⟩
  | append_singleton keys key ih =>
      obtain ⟨hiff, hrecent⟩ := ih
      have hnew : SpreadOut capacity keys →
          ((∀ i < keys.length, keys.length ≤ i + capacity →
            keys[i]? ≠ some key) ↔
            key ∉ ((Cache.empty : Cache α capacity cap).run keys).keys) := by
        intro hspread
        rw [(hrecent hspread).mem_keys_iff]
        push Not
        rfl
      constructor
      · rw [Cache.hits_concat, Nat.add_eq_zero_iff, hiff, spreadOut_concat]
        refine and_congr_right fun hspread => ?_
        rw [hnew hspread, ← Cache.access_hit_iff]
        split
        case isTrue hhit => exact iff_of_false one_ne_zero (not_not_intro hhit)
        case isFalse hmiss => exact iff_of_true rfl hmiss
      · intro hspread
        rw [spreadOut_concat] at hspread
        rw [Cache.run_concat]
        exact (hrecent hspread.1).access hcapacity
          ((hnew hspread.1).mp hspread.2)

/-! ## Runs on few keys -/

/-- A run on no more keys than the cache has places keeps all of them. -/
theorem mem_keys_run_of_few {keys : List α}
    (hfew : keys.toFinset.card ≤ capacity) (key : α) :
    key ∈ ((Cache.empty : Cache α capacity cap).run keys).keys ↔
      key ∈ keys := by
  induction keys using List.reverseRecOn generalizing key with
  | nil => exact iff_of_false List.not_mem_nil List.not_mem_nil
  | append_singleton keys last ih =>
      have hsubset : keys.toFinset ⊆ (keys ++ [last]).toFinset := by
        intro other hother
        rw [List.mem_toFinset] at hother ⊢
        exact List.mem_append_left _ hother
      have hkept := ih ((Finset.card_le_card hsubset).trans hfew)
      have hstep :=
        (Cache.run Cache.empty keys : Cache α capacity cap).access_step last
      rw [Cache.run_concat, List.mem_append, List.mem_singleton, ← hkept key]
      rw [Cache.keys]
      generalize ((Cache.run Cache.empty keys : Cache α capacity cap).access
        last).1 = outcome
        at hstep
      generalize ((Cache.run Cache.empty keys : Cache α capacity cap).access
        last).2.entries =
        entries' at hstep ⊢
      cases hstep with
      | hit hmem hkey =>
          have hlast := List.mem_map_of_mem (f := Entry.key) hmem
          rw [hkey] at hlast
          rw [mem_keys_replace hlast]
          constructor
          · rintro (heq | ⟨hin, -⟩)
            · exact Or.inr heq
            · exact Or.inl hin
          · intro hin
            by_cases heq : key = last
            · exact Or.inl heq
            · exact Or.inr ⟨hin.resolve_right heq, heq⟩
      | admitted =>
          rw [List.map_append, List.mem_append]
          exact or_congr_right List.mem_singleton
      | evicted hnew hfull =>
          -- All places taken and one key more are more keys than there are.
          have hnodup :=
            (Cache.run Cache.empty keys : Cache α capacity cap).wellFormed.nodup
          have hmore : (keys ++ [last]).toFinset.card =
              keys.toFinset.card + 1 := by
            rw [List.toFinset_append, Finset.union_comm, List.toFinset_cons,
              List.toFinset_nil, Finset.insert_union, Finset.empty_union]
            refine Finset.card_insert_of_notMem ?_
            rw [List.mem_toFinset, ← hkept last]
            exact hnew
          have hcard :
              (Cache.run Cache.empty keys : Cache α capacity
              cap).entries.length ≤
              keys.toFinset.card := by
            rw [← List.length_map Entry.key,
              ← List.toFinset_card_of_nodup hnodup]
            refine Finset.card_le_card fun other hother => ?_
            rw [List.mem_toFinset] at hother ⊢
            exact (hkept other).mp hother
          omega
      | declined hzero =>
          have hlast : last ∈ (keys ++ [last]).toFinset := by simp
          have hpos := Finset.card_pos.mpr ⟨last, hlast⟩
          omega

end MarketDataPipeline.LFUPolicy
