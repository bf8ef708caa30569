import MarketDataPipeline.Pipeline.TrieNodes

/-!
# A registration that fails

`insert` allocates nodes along the path before it knows whether it can finish.
A failed call leaves the trie as it was exactly when it had no node to add.
Otherwise it has used up the node array or left a path without an id; later
results differ unless the ids had run out anyway.
-/

namespace MarketDataPipeline.PrefixTrie

/-! ## What callers see -/

/-- The calls whose results a caller sees. -/
inductive Request
  | insert (symbol : Symbol)
  | getOrCreate (symbol : Symbol)
  | lookup (symbol : Symbol)

/-- What a request returns, an id and the flag that `get_or_create` sets, and
the trie after it. -/
def serve (trie : PrefixTrie) : Request → (UInt16 × Option Bool) × PrefixTrie
  | .insert symbol => (((trie.insert symbol).1, none), (trie.insert symbol).2)
  | .getOrCreate symbol =>
      (((trie.getOrCreate symbol).bookId,
        some (trie.getOrCreate symbol).created),
        (trie.getOrCreate symbol).trie)
  | .lookup symbol => ((trie.lookup symbol, none), trie)

def responses (trie : PrefixTrie) : List Request → List (UInt16 × Option Bool)
  | [] => []
  | request :: rest =>
      (trie.serve request).1 :: (trie.serve request).2.responses rest

variable {trie : PrefixTrie} {registry : Registry (List UInt8)} {call : Call}

/-! ## When no node is added -/

/-- The node array is full, or the path of the symbol is there. -/
def AddsNoNode (trie : PrefixTrie) (symbol : Symbol) : Prop :=
  trie.nodeCount = maxNodes ∨ trie.missing 0 symbol.toList = 0

theorem extend_of_full (hfull : maxNodes ≤ trie.nodeCount) (nodeIdx : UInt32)
    (bytes : List UInt8) : (trie.extend nodeIdx bytes).2 = trie := by
  induction bytes generalizing nodeIdx with
  | nil => rfl
  | cons byte rest ih =>
      rw [PrefixTrie.extend]
      dsimp only
      split
      · rfl
      · exact ih _

theorem extend_of_missing_zero {nodeIdx : UInt32} {bytes : List UInt8}
    (hzero : trie.missing nodeIdx bytes = 0) :
    (trie.extend nodeIdx bytes).2 = trie := by
  induction bytes generalizing nodeIdx with
  | nil => rfl
  | cons byte rest ih =>
      rw [missing] at hzero
      rw [PrefixTrie.extend]
      dsimp only at hzero ⊢
      split at hzero
      case isTrue => exact absurd hzero (Nat.succ_ne_zero _)
      case isFalse hchild =>
        rw [if_neg hchild]
        exact ih hzero

/-- A failed `insert` leaves what its loop left. -/
theorem insert_of_invalid {symbol : Symbol} (hfail : (trie.insert symbol).1 =
    invalidBookId) :
    (trie.insert symbol).2 = (trie.extend 0 symbol.toList).2 := by
  rw [PrefixTrie.insert] at hfail ⊢
  split at hfail
  case h_1 => rfl
  case h_2 =>
    dsimp only at hfail ⊢
    split at hfail
    case isTrue hinvalid =>
      rw [if_pos hinvalid]
      split at hfail
      case isTrue hids => rw [if_pos hids]
      case isFalse hids =>
        dsimp only at hfail
        rw [hfail] at hids
        exact absurd (by decide) hids
    case isFalse hvalid => rw [if_neg hvalid]

/-- A failed call found its symbol unknown and left what the loop of `insert`
left. -/
theorem Holds.perform_failed (hholds : trie.Holds registry)
    (hfail : (trie.perform call).1 = invalidBookId) :
    word call.symbol ∉ registry.keys ∧
      (trie.perform call).2 = (trie.extend 0 call.symbol.toList).2 := by
  obtain ⟨registry', hregistered, -⟩ := hholds.perform call
  have hnew := (hregistered.of_invalid hholds.capacity hfail).1
  have hsame := perform_of_unknown (hholds.lookup_of_notMem hnew)
  rw [hsame] at hfail ⊢
  exact ⟨hnew, insert_of_invalid hfail⟩

/-- A failed call leaves the trie as it was exactly when it adds no node. -/
theorem Holds.failed_eq_iff (hholds : trie.Holds registry)
    (hfail : (trie.perform call).1 = invalidBookId) :
    (trie.perform call).2 = trie ↔ trie.AddsNoNode call.symbol := by
  have hroot : trie.reach [] = some 0 := rfl
  have hextend := hholds.shaped.extend_nodes hroot call.symbol.toList
  rw [(hholds.perform_failed hfail).2, AddsNoNode]
  constructor
  · intro hsame
    rw [hsame] at hextend
    split at hextend
    · exact Or.inr (by omega)
    · exact Or.inl hextend.2
  · rintro (hfull | hzero)
    · exact extend_of_full (UInt32.le_of_eq hfull.symm) 0 _
    · exact extend_of_missing_zero hzero

/-! ## When the ids have run out -/

/-- What a trie without further ids answers. -/
def exhaustedAnswer (registry : Registry (List UInt8)) :
    Request → UInt16 × Option Bool
  | .insert symbol => (idIn registry (word symbol), none)
  | .getOrCreate symbol =>
      (idIn registry (word symbol),
        some (idIn registry (word symbol) = invalidBookId))
  | .lookup symbol => (idIn registry (word symbol), none)

theorem getOrCreate_created (trie : PrefixTrie) (symbol : Symbol) :
    (trie.getOrCreate symbol).created =
      decide (trie.lookup symbol = invalidBookId) := by
  rw [getOrCreate]
  dsimp only
  split
  case isTrue hnew => simp [hnew]
  case isFalse hknown => simp [hknown]

theorem Holds.serve_exhausted (hholds : trie.Holds registry)
    (hids : registry.keys.length = maxBooks.toNat) (request : Request) :
    (trie.serve request).1 = exhaustedAnswer registry request ∧
      (trie.serve request).2.Holds registry := by
  have hregistered : ∀ {word id registry'},
      Registered registry word id registry' →
      id = idIn registry word ∧ registry' = registry := by
    intro word id registry' hregistered
    cases hregistered with
    | known => exact ⟨rfl, rfl⟩
    | issued _ hroom => exact absurd hids hroom.ne
    | refused hnew => exact ⟨(idIn_of_notMem hnew).symm, rfl⟩
  cases request with
  | insert symbol =>
      obtain ⟨registry', hdone, hholds'⟩ := hholds.insert symbol
      obtain ⟨hid, rfl⟩ := hregistered hdone
      exact ⟨Prod.ext hid rfl, hholds'⟩
  | getOrCreate symbol =>
      obtain ⟨registry', hdone, hholds'⟩ := hholds.getOrCreate symbol
      obtain ⟨hid, rfl⟩ := hregistered hdone
      refine ⟨Prod.ext hid ?_, hholds'⟩
      change some (trie.getOrCreate symbol).created = _
      rw [getOrCreate_created, hholds.lookup_eq]
      rfl
  | lookup symbol => exact ⟨Prod.ext (hholds.lookup_eq symbol) rfl, hholds⟩

theorem Holds.responses_exhausted (hholds : trie.Holds registry)
    (hids : registry.keys.length = maxBooks.toNat) (later : List Request) :
    trie.responses later = later.map (exhaustedAnswer registry) := by
  induction later generalizing trie with
  | nil => rfl
  | cons request rest ih =>
      obtain ⟨hanswer, hholds'⟩ := hholds.serve_exhausted hids request
      rw [responses, List.map_cons, hanswer, ih hholds']

/-! ## When both could still grow -/

/-- A failed call that added nodes while ids were left has used up the nodes:
the symbols that still lack one are refused from then on. -/
theorem Built.blocked (hbuilt : trie.Built registry)
    (hfail : (trie.perform call).1 = invalidBookId)
    (hids : registry.keys.length < maxBooks.toNat)
    (hadds : ¬ trie.AddsNoNode call.symbol) {symbol : Symbol}
    (hnew : word symbol ∉ registry.keys)
    (hother : word symbol ≠ word call.symbol) :
    ((trie.perform call).2.insert symbol).1 = invalidBookId := by
  have hroom : trie.nodeCount < maxNodes :=
    UInt32.lt_of_le_of_ne hbuilt.holds.shaped.nodeCount_le fun hfull =>
      hadds (.inl hfull)
  obtain ⟨registry', hregistered, hbuilt'⟩ := hbuilt.perform call
  obtain ⟨hcall, rfl⟩ := hregistered.of_invalid hbuilt.holds.capacity hfail
  obtain ⟨-, hfull⟩ := hbuilt.holds.perform_refused hcall hfail hids
  by_contra hvalid
  have hnodes :=
    ((hbuilt'.holds.insert_valid_iff (hbuilt'.holds.lookup_of_notMem hnew)).mp
    hvalid).1
  rw [HasNodesFor, hfull] at hnodes
  -- The failed call added nodes on its own path only, so the other symbol lacks
  -- one still.
  obtain ⟨node, hnode⟩ :=
    ((trie.perform call).2.missing_eq_zero_iff 0 symbol.toList).mp (by omega)
  have hspelled : (trie.perform call).2.Spelled
      (Insert.insert (word call.symbol) registry'.keys.toFinset) :=
    ((hbuilt.spelled hroom hids).mono (Finset.subset_insert _ _)).perform
      hbuilt.holds.shaped call
      (Finset.mem_insert_self _ _)
  rcases hspelled.on_path (show (trie.perform call).2.reach (word symbol) =
    some node from hnode)
    with hempty | hprefix
  · have hlength := word_length symbol
    rw [hempty] at hlength
    simp at hlength
  · obtain ⟨key, hkey, hle⟩ := mem_prefixes.mp hprefix
    rcases Finset.mem_insert.mp hkey with hown | hold
    · rw [hown] at hle
      exact hother
        (hle.eq_of_length ((word_length _).trans (word_length _).symm))
    · rw [List.mem_toFinset] at hold
      obtain ⟨known, rfl⟩ := hbuilt.symbols key hold
      exact hnew
        (hle.eq_of_length ((word_length _).trans (word_length _).symm) ▸ hold)

/-- Then some symbol is refused that would have been registered. -/
theorem Built.exists_blocked (hbuilt : trie.Built registry)
    (hfail : (trie.perform call).1 = invalidBookId)
    (hids : registry.keys.length < maxBooks.toNat)
    (hadds : ¬ trie.AddsNoNode call.symbol) :
    ∃ symbol, (trie.insert symbol).1 ≠ invalidBookId ∧
      ((trie.perform call).2.insert symbol).1 = invalidBookId := by
  have hmax : maxNodes.toNat = 2048 := rfl
  have hroom : trie.nodeCount < maxNodes :=
    UInt32.lt_of_le_of_ne hbuilt.holds.shaped.nodeCount_le fun hfull =>
      hadds (.inl hfull)
  have hroomNat := UInt32.lt_iff_toNat_lt.mp hroom
  have hcall := (hbuilt.holds.perform_failed hfail).1
  obtain ⟨hfew, -⟩ := hbuilt.holds.perform_refused hcall hfail hids
  have hmissing := trie.missing_le 0 call.symbol.toList
  have hlength : call.symbol.toList.length = 8 := call.symbol.length_toList
  rw [HasNodesFor] at hfew
  obtain ⟨symbol, hnew, hone⟩ := hbuilt.exists_open hroom hids (by omega)
  have hother : word symbol ≠ word call.symbol := by
    intro hsame
    have hequal : trie.missing 0 symbol.toList =
        trie.missing 0 call.symbol.toList :=
      trie.missing_congr hsame
    omega
  have hcount : trie.getBookCount < maxBooks :=
    UInt16.lt_iff_toNat_lt.mpr (hbuilt.holds.next.trans_lt hids)
  have hnodes : trie.HasNodesFor symbol := by
    rw [HasNodesFor, hone]
    omega
  exact ⟨symbol,
    (hbuilt.holds.insert_valid_iff (hbuilt.holds.lookup_of_notMem hnew)).mpr
    ⟨hnodes, hcount⟩, hbuilt.blocked hfail hids hadds hnew hother⟩

/-- Later results tell that a call failed exactly when it added nodes while ids
were left. -/
theorem Built.responses_eq_iff (hbuilt : trie.Built registry)
    (hfail : (trie.perform call).1 = invalidBookId) :
    (∀ later, (trie.perform call).2.responses later = trie.responses later) ↔
      trie.AddsNoNode call.symbol ∨ maxBooks ≤ trie.getBookCount := by
  have hcount : maxBooks ≤ trie.getBookCount ↔
      ¬ registry.keys.length < maxBooks.toNat := by
    rw [UInt16.le_iff_toNat_le, not_lt, ← hbuilt.holds.next, getBookCount]
  constructor
  · intro hsame
    by_contra hneither
    rw [not_or, hcount, not_not] at hneither
    obtain ⟨symbol, hvalid, hrefused⟩ :=
      hbuilt.exists_blocked hfail hneither.2 hneither.1
    have hfirst : (((trie.perform call).2.insert symbol).1, none) =
        ((trie.insert symbol).1, (none : Option Bool)) :=
      (List.cons.inj (hsame [.insert symbol])).1
    rw [hrefused] at hfirst
    exact hvalid (Prod.mk.inj hfirst).1.symm
  · rintro (hnone | hexhausted) later
    · rw [(hbuilt.holds.failed_eq_iff hfail).mpr hnone]
    · have hids : registry.keys.length = maxBooks.toNat :=
        Nat.le_antisymm hbuilt.holds.capacity (not_lt.mp (hcount.mp hexhausted))
      obtain ⟨registry', hregistered, hholds'⟩ := hbuilt.holds.perform call
      obtain ⟨-, rfl⟩ := hregistered.of_invalid hbuilt.holds.capacity hfail
      rw [hholds'.responses_exhausted hids,
        hbuilt.holds.responses_exhausted hids]

/-- A failed registration leaves the trie as it was, and with it all later
results, exactly when it had no node to add; the later results alone are the
same also when the ids had run out. -/
theorem failed_registration_inert_iff (calls : List Call) (call : Call)
    (hfail : ((machine.run init calls).perform call).1 = invalidBookId) :
    let trie := machine.run init calls
    let after := (trie.perform call).2
    (after = trie ∧ (∀ later, after.responses later = trie.responses later) ↔
      trie.AddsNoNode call.symbol) ∧
    ((∀ later, after.responses later = trie.responses later) ↔
      trie.AddsNoNode call.symbol ∨ maxBooks ≤ trie.getBookCount) := by
  intro trie after
  obtain ⟨registry, hbuilt⟩ := run_built calls
  have hsame : after = trie ↔ trie.AddsNoNode call.symbol :=
    hbuilt.holds.failed_eq_iff hfail
  refine ⟨⟨fun hboth => hsame.mp hboth.1, fun hnone => ?_⟩,
    hbuilt.responses_eq_iff hfail⟩
  have hafter := hsame.mpr hnone
  exact ⟨hafter, fun later => by rw [hafter]⟩

/-! ## A run close to the end of the nodes -/

theorem clampByte_ofNat {k : ℕ} (hk : k < 128) :
    clampByte (.ofNat k) = .ofNat k := by
  have halphabet : alphabetSize.toNat = 128 := rfl
  rw [clampByte, if_neg]
  rw [ge_iff_le, UInt8.le_iff_toNat_le, halphabet, UInt8.toNat_ofNat',
    Nat.mod_eq_of_lt] <;> omega

/-- The `n`th of symbols that differ in their first two bytes. -/
def wideSymbol (n : ℕ) : Symbol :=
  #v[.ofNat (n / 128), .ofNat (n % 128), 0, 0, 0, 0, 0, 0]

theorem wideSymbol_word {n : ℕ} (hn : n < 16384) :
    word (wideSymbol n) =
      [.ofNat (n / 128), .ofNat (n % 128), 0, 0, 0, 0, 0, 0] := by
  change [clampByte _, clampByte _, _, _, _, _, _, _] = _
  rw [clampByte_ofNat (by omega), clampByte_ofNat (by omega)]
  rfl

theorem ofNat_inj {k l : ℕ} (hk : k < 128) (hl : l < 128)
    (heq : UInt8.ofNat k = UInt8.ofNat l) :
    k = l := by
  have hsame := congrArg UInt8.toNat heq
  rwa [UInt8.toNat_ofNat', UInt8.toNat_ofNat', Nat.mod_eq_of_lt (by omega),
    Nat.mod_eq_of_lt (by omega)] at hsame

theorem wideSymbol_word_inj {n k : ℕ} (hn : n < 16384) (hk : k < 16384)
    (heq : word (wideSymbol n) = word (wideSymbol k)) : n = k := by
  rw [wideSymbol_word hn, wideSymbol_word hk] at heq
  have hhigh := ofNat_inj (by omega) (by omega) (List.cons.inj heq).1
  have hlow :=
    ofNat_inj (by omega) (by omega) (List.cons.inj (List.cons.inj heq).2).1
  omega

/-- Where the wide symbols before the `n`th are registered, it lacks all nodes
but those of its first byte. -/
theorem Built.missing_wideSymbol (hbuilt : trie.Built registry) {n : ℕ}
    (hn : n < 1000)
    (hkeys : registry.keys = (List.range n).map fun k => word (wideSymbol k))
    (hroom : trie.nodeCount < maxNodes) :
    word (wideSymbol n) ∉ registry.keys ∧
      trie.missing 0 (wideSymbol n).toList = if n % 128 = 0 then 8 else 7 := by
  have hbooks : maxBooks.toNat = 1000 := rfl
  have hids : registry.keys.length < maxBooks.toNat := by
    rw [hkeys, List.length_map, List.length_range]
    omega
  have hspelled := hbuilt.spelled hroom hids
  have hmem : ∀ {front}, front ∈ prefixes registry.keys.toFinset →
      ∃ k < n, front <+: word (wideSymbol k) := by
    intro front hfront
    obtain ⟨key, hkey, hprefix⟩ := mem_prefixes.mp hfront
    rw [List.mem_toFinset, hkeys, List.mem_map] at hkey
    obtain ⟨k, hk, rfl⟩ := hkey
    exact ⟨k, List.mem_range.mp hk, hprefix⟩
  refine ⟨fun hkey => ?_, ?_⟩
  · rw [hkeys, List.mem_map] at hkey
    obtain ⟨k, hk, heq⟩ := hkey
    have hlt := List.mem_range.mp hk
    have hsame := wideSymbol_word_inj (by omega) (by omega) heq
    omega
  have hroot : trie.reach [] = some 0 := rfl
  split
  case isTrue hfirst =>
    refine @missing_of_split trie 0 0 [] [_, 0, 0, 0, 0, 0, 0] _ rfl ?_
    rw [clampByte_ofNat (by omega)]
    by_contra hchild
    rcases hspelled.on_path (reach_child hroot hchild) with hempty | hprefix
    · simp at hempty
    · obtain ⟨k, hk, hle⟩ := hmem hprefix
      rw [wideSymbol_word (by omega)] at hle
      have hhigh :=
        ofNat_inj (by omega) (by omega) (List.cons_prefix_cons.mp hle).1
      omega
  case isFalse hlater =>
    -- The symbol before shares the first byte.
    have hbefore : word (wideSymbol (n - 1)) ∈ registry.keys := by
      rw [hkeys]
      exact List.mem_map_of_mem (List.mem_range.mpr (by omega))
    obtain ⟨node, hnode⟩ := hbuilt.holds.reached _ hbefore
    have hshared : (n - 1) / 128 = n / 128 := by omega
    rw [wideSymbol_word (by omega), hshared, reach, ← List.singleton_append,
      descend_append]
      at hnode
    cases hfirst : descend trie.childOf 0 [UInt8.ofNat (n / 128)] with
    | none => simp [hfirst] at hnode
    | some last =>
        refine @missing_of_split trie 0 last [.ofNat (n / 128)]
          [0, 0, 0, 0, 0, 0] _ ?_ ?_
        · rw [List.map_singleton, clampByte_ofNat (by omega)]
          exact hfirst
        · rw [clampByte_ofNat (by omega)]
          by_contra hchild
          rcases hspelled.on_path
            (reach_child hfirst hchild) with hempty | hprefix
          · simp at hempty
          · obtain ⟨k, hk, hle⟩ := hmem hprefix
            rw [wideSymbol_word (by omega), List.singleton_append] at hle
            obtain ⟨hhigh, hrest⟩ := List.cons_prefix_cons.mp hle
            have hhighNat := ofNat_inj (by omega) (by omega) hhigh
            have hlow :=
              ofNat_inj (by omega) (by omega) (List.cons_prefix_cons.mp hrest).1
            omega

/-- The calls that register the first `n` wide symbols. -/
def wideCalls (n : ℕ) : List Call := (List.range n).map fun k =>
    .getOrCreate (wideSymbol k)

theorem wideCalls_built {n : ℕ} (hn : n ≤ 291) : ∃ registry,
    (machine.run init (wideCalls n)).Built registry ∧
      registry.keys = (List.range n).map (fun k => word (wideSymbol k)) ∧
      (machine.run init (wideCalls n)).nodeCount.toNat =
        1 + 7 * n + (n + 127) / 128 := by
  have hmax : maxNodes.toNat = 2048 := rfl
  have hbooks : maxBooks.toNat = 1000 := rfl
  induction n with
  | zero => exact ⟨Registry.empty, init_built, rfl, rfl⟩
  | succ n ih =>
      obtain ⟨registry, hbuilt, hkeys, hcount⟩ := ih (by omega)
      rw [wideCalls, List.range_succ, List.map_append,
        Machine.run_append, ← wideCalls]
      generalize machine.run init (wideCalls n) = trie at hbuilt hcount ⊢
      have hroom : trie.nodeCount < maxNodes := by
        rw [UInt32.lt_iff_toNat_lt]
        omega
      obtain ⟨hnew, hmissing⟩ :=
        hbuilt.missing_wideSymbol (by omega) hkeys hroom
      have hids : registry.keys.length < maxBooks.toNat := by
        rw [hkeys, List.length_map, List.length_range]
        omega
      have hnodes : trie.HasNodesFor (wideSymbol n) := by
        rw [HasNodesFor, hmissing]
        split <;> omega
      obtain ⟨hbuilt', hcount'⟩ := hbuilt.register hnew hnodes hids
      refine ⟨_, hbuilt', ?_, ?_⟩
      · rw [Registry.add_keys, hkeys, List.map_append, List.map_singleton]
      · have hafter : (n + 1 + 127) / 128 = n / 128 + 1 := by omega
        have hbefore : (n + 127) / 128 =
            if n % 128 = 0 then n / 128 else n / 128 + 1 := by
          split <;> omega
        refine hcount'.trans ?_
        rw [hmissing, hcount, hafter, hbefore]
        split <;> omega

/-- A symbol with a first byte of its own. -/
def lateSymbol : Symbol := #v[100, 0, 0, 0, 0, 0, 0, 0]

/-- With seven nodes left, the symbol that lacks eight is refused and uses them
up, while the next wide symbol would have found its seven. -/
theorem Built.late_blocks_wide (hbuilt : trie.Built registry) {n : ℕ}
    (hn : n = 291)
    (hkeys : registry.keys = (List.range n).map fun k => word (wideSymbol k))
    (hcount : trie.nodeCount.toNat = 2041) :
    (trie.insert lateSymbol).1 = invalidBookId ∧
      (trie.insert (wideSymbol n)).1 ≠ invalidBookId ∧
      ((trie.insert lateSymbol).2.insert (wideSymbol n)).1 = invalidBookId := by
  have hmax : maxNodes.toNat = 2048 := rfl
  have hbooks : maxBooks.toNat = 1000 := rfl
  have hroom : trie.nodeCount < maxNodes := by
    rw [UInt32.lt_iff_toNat_lt]
    omega
  have hids : registry.keys.length < maxBooks.toNat := by
    rw [hkeys, List.length_map, List.length_range]
    omega
  have hnext : trie.getBookCount < maxBooks :=
    UInt16.lt_iff_toNat_lt.mpr (hbuilt.holds.next.trans_lt hids)
  obtain ⟨hwide, hseven⟩ := hbuilt.missing_wideSymbol (by omega) hkeys hroom
  have hroot : trie.reach [] = some 0 := rfl
  have hchild : (trie.nodes 0).children (clampByte 100) = 0 := by
    by_contra hchild
    rcases (hbuilt.spelled hroom hids).on_path
      (reach_child hroot hchild) with hempty | hprefix
    · simp at hempty
    · obtain ⟨key, hkey, hle⟩ := mem_prefixes.mp hprefix
      rw [List.mem_toFinset, hkeys, List.mem_map] at hkey
      obtain ⟨k, hk, rfl⟩ := hkey
      have hlt := List.mem_range.mp hk
      rw [wideSymbol_word (by omega)] at hle
      have hhigh := ofNat_inj (k := 100) (l := k / 128) (by omega) (by omega)
        (List.cons_prefix_cons.mp hle).1
      omega
  have height : trie.missing 0 lateSymbol.toList = 8 :=
    @missing_of_split trie 0 0 [] [0, 0, 0, 0, 0, 0, 0] _ rfl hchild
  have hlate : trie.lookup lateSymbol = invalidBookId := by
    refine hbuilt.holds.lookup_of_notMem fun hkey => ?_
    obtain ⟨node, hnode⟩ := hbuilt.holds.reached _ hkey
    have hzero := (trie.missing_eq_zero_iff 0 lateSymbol.toList).mpr
      ⟨node, hnode⟩
    omega
  have hfail : (trie.insert lateSymbol).1 = invalidBookId := by
    by_contra hvalid
    have hnodes := ((hbuilt.holds.insert_valid_iff hlate).mp hvalid).1
    rw [HasNodesFor] at hnodes
    omega
  refine ⟨hfail, ?_, ?_⟩
  · refine (hbuilt.holds.insert_valid_iff
      (hbuilt.holds.lookup_of_notMem hwide)).mpr ⟨?_, hnext⟩
    rw [HasNodesFor, hseven]
    split <;> omega
  · have hperform : (trie.perform (.insert lateSymbol)).1 = invalidBookId :=
      hfail
    refine hbuilt.blocked hperform hids ?_ hwide fun hsame => ?_
    · rintro (hfull | hzero)
      · exact absurd hroom (hfull ▸ UInt32.lt_irrefl _)
      · change trie.missing 0 lateSymbol.toList = 0 at hzero
        omega
    · have hequal : trie.missing 0 (wideSymbol n).toList =
        trie.missing 0 lateSymbol.toList :=
        trie.missing_congr hsame
      rw [hseven, height, hn] at hequal
      exact absurd hequal (by decide)

/-- A refused symbol takes the last nodes from one that would have fitted. -/
theorem failed_registration_blocks_symbol :
    let trie := machine.run init (wideCalls 291)
    (trie.insert lateSymbol).1 = invalidBookId ∧
      (trie.insert (wideSymbol 291)).1 ≠ invalidBookId ∧
      ((trie.insert lateSymbol).2.insert (wideSymbol 291)).1 =
        invalidBookId := by
  obtain ⟨n, hn⟩ : ∃ n, n = 291 := ⟨291, rfl⟩
  obtain ⟨registry, hbuilt, hkeys, hcount⟩ := wideCalls_built (Nat.le_of_eq hn)
  have hblocks := hbuilt.late_blocks_wide hn hkeys (by omega)
  subst hn
  exact hblocks

/-- Once the nodes are used up, a further failure changes nothing. -/
theorem failed_registration_inert_iff_full :
    let trie := machine.run init (wideCalls 291 ++ [.insert lateSymbol])
    (trie.perform (.insert (wideSymbol 291))).2 = trie := by
  obtain ⟨n, hn⟩ : ∃ n, n = 291 := ⟨291, rfl⟩
  obtain ⟨registry, hbuilt, hkeys, hcount⟩ := wideCalls_built (Nat.le_of_eq hn)
  have hblocks := hbuilt.late_blocks_wide hn hkeys (by omega)
  have hinert :=
    failed_registration_inert_iff (wideCalls n ++ [.insert lateSymbol])
    (.insert (wideSymbol n)) (by rw [Machine.run_append]; exact hblocks.2.2)
  have hids : registry.keys.length < maxBooks.toNat := by
    rw [hkeys, List.length_map, List.length_range, hn]
    decide
  have hfail :
      ((machine.run init (wideCalls n)).perform (.insert lateSymbol)).1 =
      invalidBookId :=
    hblocks.1
  have hlate := (hbuilt.holds.perform_failed hfail).1
  have hfull := (hbuilt.holds.perform_refused hlate hblocks.1 hids).2
  have hsame :=
    (hinert.1.mpr (Or.inl (by rw [Machine.run_append]; exact hfull))).1
  subst hn
  exact hsame

end MarketDataPipeline.PrefixTrie
