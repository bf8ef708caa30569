import MarketDataPipeline.Core.PrefixCount
import MarketDataPipeline.Pipeline.SymbolCapacity

/-!
# What the nodes of a trie are for

Until the nodes or the ids run out, every node lies on the path of a registered
symbol: nothing is wasted.  Counting the prefixes of the registered words then
bounds the nodes, and so it tells whether some symbol could still be registered.
-/

namespace MarketDataPipeline.PrefixTrie

variable {trie : PrefixTrie} {registry : Registry (List UInt8)}
  {words : Finset (List UInt8)}

/-- The nodes in use are those on the paths of `words`. -/
structure Spelled (trie : PrefixTrie) (words : Finset (List UInt8)) : Prop where
  on_path : ∀ ⦃front node⦄, trie.reach front = some node →
    front = [] ∨ front ∈ prefixes words
  covered : ∀ node < trie.nodeCount, ∃ front, trie.reach front = some node

theorem init_spelled : init.Spelled ∅ := by
  refine ⟨fun front node hfront => Or.inl ?_, fun node hnode => ⟨[], ?_⟩⟩
  · rw [init_reach] at hfront
    by_contra hne
    simp [hne] at hfront
  · have hone : init.nodeCount.toNat = 1 := rfl
    have hzero : node = 0 := by
      rw [UInt32.lt_iff_toNat_lt, hone] at hnode
      exact UInt32.toNat_inj.mp (by simpa using hnode)
    rw [hzero]
    rfl

theorem Spelled.mono (hspelled : trie.Spelled words)
    {words' : Finset (List UInt8)}
    (hsubset : words ⊆ words') : trie.Spelled words' := by
  refine ⟨fun front node hfront =>
    (hspelled.on_path hfront).imp_right fun hmem => ?_,
    hspelled.covered⟩
  obtain ⟨word, hword, hprefix⟩ := mem_prefixes.mp hmem
  exact mem_prefixes.mpr ⟨word, hsubset hword, hprefix⟩

/-- Only the edges and the number of nodes matter. -/
theorem Spelled.congr (hspelled : trie.Spelled words) {trie' : PrefixTrie}
    (hreach : trie'.reach = trie.reach)
    (hcount : trie'.nodeCount = trie.nodeCount) :
    trie'.Spelled words := by
  refine ⟨?_, ?_⟩
  · rw [hreach]
    exact hspelled.on_path
  · rw [hreach, hcount]
    exact hspelled.covered

/-- A child on the path of a word keeps all nodes on paths. -/
theorem Spelled.addChild (hspelled : trie.Spelled words) (hshaped : trie.Shaped)
    {prior : List UInt8} {nodeIdx : UInt32} {c : UInt8}
    (hprior : trie.reach prior = some nodeIdx)
    (hzero : (trie.nodes nodeIdx).children c = 0)
    (hroom : trie.nodeCount < maxNodes)
    (hword : prior ++ [c] ∈ prefixes words) :
    (trie.addChild nodeIdx c).Spelled words := by
  have hreach := hshaped.reach_addChild hprior hzero
  refine ⟨fun front node hfront => ?_, fun node hnode => ?_⟩
  · rw [hreach] at hfront
    split at hfront
    case isTrue hnew => exact Or.inr (hnew ▸ hword)
    case isFalse => exact hspelled.on_path hfront
  · rw [UInt32.lt_iff_toNat_lt, addChild_nodeCount_toNat hroom] at hnode
    by_cases hold : node < trie.nodeCount
    · obtain ⟨front, hfront⟩ := hspelled.covered node hold
      exact ⟨front, (hshaped.grows_addChild hprior hzero hroom).kept hfront⟩
    · rw [UInt32.lt_iff_toNat_lt] at hold
      have hlast : node = trie.nodeCount := UInt32.toNat_inj.mp (by omega)
      exact ⟨prior ++ [c], by rw [hreach, if_pos rfl, hlast]⟩

/-- The loop of `insert` adds nodes on the path of its symbol only. -/
theorem Spelled.extend (hspelled : trie.Spelled words) (hshaped : trie.Shaped)
    {prior : List UInt8} {nodeIdx : UInt32}
    (hprior : trie.reach prior = some nodeIdx) (bytes : List UInt8)
    (hword : prior ++ bytes.map clampByte ∈ words) :
    (trie.extend nodeIdx bytes).2.Spelled words := by
  induction bytes generalizing trie prior nodeIdx with
  | nil => exact hspelled
  | cons byte rest ih =>
      rw [List.map_cons, List.append_cons] at hword
      rw [PrefixTrie.extend]
      dsimp only
      split
      case isTrue hzero =>
        split
        case isTrue => exact hspelled
        case isFalse hfull =>
          have hroom := UInt32.not_le.mp hfull
          have hfront : prior ++ [clampByte byte] ∈ prefixes words :=
            mem_prefixes.mpr ⟨_, hword, List.prefix_append _ _⟩
          exact ih (hspelled.addChild hshaped hprior hzero hroom hfront)
            (hshaped.addChild hprior hzero hroom)
            (hshaped.reach_added hprior hzero) hword
      case isFalse hne =>
        exact ih hspelled hshaped (reach_child hprior hne) hword

/-- `insert` writes an id beside the edges of the path that it added. -/
theorem insert_reach (trie : PrefixTrie) (symbol : Symbol) :
    (trie.insert symbol).2.reach = (trie.extend 0 symbol.toList).2.reach := by
  rw [PrefixTrie.insert]
  split
  · rfl
  · dsimp only
    split
    · split
      · rfl
      · exact (assign_reach _ _ _ _).2
    · rfl

theorem Spelled.insert (hspelled : trie.Spelled words) (hshaped : trie.Shaped)
    (symbol : Symbol)
    (hword : word symbol ∈ words) : (trie.insert symbol).2.Spelled words := by
  have hroot : trie.reach [] = some 0 := rfl
  exact (hspelled.extend hshaped hroot symbol.toList hword).congr
    (insert_reach trie symbol)
    (insert_nodeCount trie symbol)

theorem Spelled.perform (hspelled : trie.Spelled words) (hshaped : trie.Shaped)
    (call : Call) (hword : word call.symbol ∈ words) :
    (trie.perform call).2.Spelled words := by
  cases call with
  | insert symbol => exact hspelled.insert hshaped symbol hword
  | getOrCreate symbol =>
      change (trie.getOrCreate symbol).trie.Spelled words
      rw [getOrCreate]
      dsimp only
      split
      · exact hspelled.insert hshaped symbol hword
      · exact hspelled

/-! ## Missing nodes -/

/-- Where the path of `front` ends at a node without the next child, the rest
is missing. -/
theorem missing_of_split {nodeIdx last : UInt32} {front back : List UInt8}
    {byte : UInt8}
    (hfront : descend trie.childOf nodeIdx (front.map clampByte) = some last)
    (hzero : (trie.nodes last).children (clampByte byte) = 0) :
    trie.missing nodeIdx (front ++ byte :: back) = back.length + 1 := by
  induction front generalizing nodeIdx with
  | nil =>
      obtain rfl := Option.some.inj hfront
      exact if_pos hzero
  | cons first rest ih =>
      rw [List.map_cons, descend] at hfront
      by_cases hchild : (trie.nodes nodeIdx).children (clampByte first) = 0
      · rw [childOf_of_zero hchild] at hfront
        simp at hfront
      · rw [childOf_of_ne hchild, Option.bind_some] at hfront
        rw [List.cons_append, missing, if_neg hchild]
        exact ih hfront

/-- No node is missing exactly when the whole path is there. -/
theorem missing_eq_zero_iff (trie : PrefixTrie) (nodeIdx : UInt32)
    (bytes : List UInt8) :
    trie.missing nodeIdx bytes = 0 ↔
      ∃ last, descend trie.childOf nodeIdx (bytes.map clampByte) =
        some last := by
  induction bytes generalizing nodeIdx with
  | nil => exact iff_of_true rfl ⟨nodeIdx, rfl⟩
  | cons byte rest ih =>
      rw [missing, List.map_cons, descend]
      by_cases hchild : (trie.nodes nodeIdx).children (clampByte byte) = 0
      · rw [if_pos hchild, childOf_of_zero hchild]
        simp
      · rw [if_neg hchild, childOf_of_ne hchild, Option.bind_some]
        exact ih _

/-- What is missing depends on the word only. -/
theorem missing_congr (trie : PrefixTrie) {nodeIdx : UInt32}
    {bytes other : List UInt8}
    (hsame : bytes.map clampByte = other.map clampByte) :
    trie.missing nodeIdx bytes = trie.missing nodeIdx other := by
  induction bytes generalizing other nodeIdx with
  | nil =>
      obtain rfl := List.map_eq_nil_iff.mp hsame.symm
      rfl
  | cons byte rest ih =>
      obtain ⟨first, later, rfl, hbyte, hrest⟩ :=
        List.map_eq_cons_iff.mp hsame.symm
      have hlength : rest.length = later.length := by
        simpa using congrArg List.length hrest.symm
      rw [missing, missing, hbyte, hlength, ih hrest.symm]

/-! ## Runs without waste -/

/-- A trie built by calls: it holds a registry of symbols, and all its nodes lie
on their paths unless it has run out of nodes or of ids. -/
structure Built (trie : PrefixTrie) (registry : Registry (List UInt8)) :
    Prop where
  holds : trie.Holds registry
  symbols : ∀ key ∈ registry.keys, ∃ symbol, word symbol = key
  spelled : trie.nodeCount < maxNodes → registry.keys.length < maxBooks.toNat →
    trie.Spelled registry.keys.toFinset

theorem init_built : init.Built Registry.empty :=
  ⟨init_holds,
    fun key hkey => by simp [Registry.empty] at hkey, fun _ _ => init_spelled⟩

/-- A call answers as `insert` does where `lookup` finds nothing. -/
theorem perform_of_unknown {call : Call} (hnew : trie.lookup call.symbol =
    invalidBookId) :
    trie.perform call = trie.insert call.symbol := by
  cases call with
  | insert symbol => rfl
  | getOrCreate symbol =>
      change trie.lookup symbol = invalidBookId at hnew
      change ((trie.getOrCreate symbol).bookId,
        (trie.getOrCreate symbol).trie) =
        trie.insert symbol
      rw [getOrCreate_of_unknown hnew]

theorem Holds.lookup_of_notMem (hholds : trie.Holds registry) {symbol : Symbol}
    (hnew : word symbol ∉ registry.keys) : trie.lookup symbol = invalidBookId :=
  (hholds.lookup_eq symbol).trans (idIn_of_notMem hnew)

/-- An invalid answer registers nothing. -/
theorem Registered.of_invalid {word : List UInt8} {id : UInt16}
    {registry' : Registry (List UInt8)}
    (hregistered : Registered registry word id registry')
    (hcapacity : registry.keys.length ≤ maxBooks.toNat)
    (hinvalid : id = invalidBookId) :
    word ∉ registry.keys ∧ registry' = registry := by
  cases hregistered with
  | known hkey =>
      exact absurd hinvalid ((idIn_ne_invalid_iff hcapacity).mpr hkey)
  | issued hnew hroom =>
      have hmax : maxBooks.toNat = 1000 := rfl
      have hlarge : invalidBookId.toNat = 65535 := rfl
      have hsmall := congrArg UInt16.toNat hinvalid
      rw [UInt16.toNat_ofNat', Nat.mod_eq_of_lt (by omega)] at hsmall
      omega
  | refused hnew => exact ⟨hnew, rfl⟩

/-- A refused symbol used up the nodes, or there are no ids left. -/
theorem Holds.perform_refused (hholds : trie.Holds registry) {call : Call}
    (hnew : word call.symbol ∉ registry.keys)
    (hrefused : (trie.perform call).1 = invalidBookId)
    (hids : registry.keys.length < maxBooks.toNat) :
    ¬ trie.HasNodesFor call.symbol ∧
      (trie.perform call).2.nodeCount = maxNodes := by
  have hnone := hholds.lookup_of_notMem hnew
  have hcount : trie.getBookCount < maxBooks := by
    rw [UInt16.lt_iff_toNat_lt]
    exact hholds.next.trans_lt hids
  rw [perform_of_unknown hnone] at hrefused ⊢
  have hnodes : ¬ trie.HasNodesFor call.symbol := fun hnodes =>
    (hholds.insert_valid_iff hnone).mpr ⟨hnodes, hcount⟩ hrefused
  have hroot : trie.reach [] = some 0 := rfl
  have hextend := hholds.shaped.extend_nodes hroot call.symbol.toList
  rw [HasNodesFor] at hnodes
  rw [if_neg hnodes] at hextend
  exact ⟨hnodes, (insert_nodeCount trie call.symbol).trans hextend.2⟩

theorem perform_nodeCount_le (hshaped : trie.Shaped) (call : Call) :
    trie.nodeCount ≤ (trie.perform call).2.nodeCount := by
  have hroot : trie.reach [] = some 0 := rfl
  have hinsert : ∀ symbol, trie.nodeCount ≤
      (trie.insert symbol).2.nodeCount := by
    intro symbol
    rw [insert_nodeCount]
    exact (hshaped.extend hroot symbol.toList).2.1.nodeCount
  cases call with
  | insert symbol => exact hinsert symbol
  | getOrCreate symbol =>
      change trie.nodeCount ≤ (trie.getOrCreate symbol).trie.nodeCount
      rw [getOrCreate]
      dsimp only
      split
      · exact hinsert symbol
      · exact UInt32.le_refl _

theorem Built.perform (hbuilt : trie.Built registry) (call : Call) :
    ∃ registry', Registered registry (word call.symbol)
      (trie.perform call).1 registry' ∧
      (trie.perform call).2.Built registry' := by
  obtain ⟨registry', hregistered, hholds'⟩ := hbuilt.holds.perform call
  have hshaped := hbuilt.holds.shaped
  have hcount := perform_nodeCount_le hshaped call
  refine ⟨registry', hregistered, ?_⟩
  generalize hid : (trie.perform call).1 = id at hregistered
  cases hregistered with
  | known hkey =>
      refine ⟨hholds', hbuilt.symbols, fun hroom hids => ?_⟩
      have hspelled := hbuilt.spelled (UInt32.lt_of_le_of_lt hcount hroom) hids
      exact hspelled.perform hshaped call (List.mem_toFinset.mpr hkey)
  | issued hnew hids =>
      have hkeys := registry.add_keys (word call.symbol) hnew
      refine ⟨hholds', fun key hkey => ?_, fun hroom _ => ?_⟩
      · rw [hkeys] at hkey
        rcases List.mem_append.mp hkey with hold | hlast
        · exact hbuilt.symbols key hold
        · exact ⟨call.symbol, (List.mem_singleton.mp hlast).symm⟩
      · have hspelled :=
          hbuilt.spelled (UInt32.lt_of_le_of_lt hcount hroom) hids
        refine (hspelled.mono fun key hkey => ?_).perform hshaped call ?_
        · rw [hkeys, List.mem_toFinset]
          exact List.mem_append_left _ (List.mem_toFinset.mp hkey)
        · rw [hkeys, List.mem_toFinset]
          exact List.mem_append_right _ (List.mem_singleton_self _)
  | refused hnew =>
      refine ⟨hholds', hbuilt.symbols, fun hroom hids => ?_⟩
      have hfull := (hbuilt.holds.perform_refused hnew hid hids).2
      exact absurd hroom (hfull ▸ UInt32.lt_irrefl _)

/-- Every trie that calls lead to is built. -/
theorem run_built (calls : List Call) :
    ∃ registry, (machine.run init calls).Built registry :=
  @Machine.invariant _ _ machine (fun trie => ∃ registry, trie.Built registry)
    (fun _ call ⟨_, hbuilt⟩ _ => (hbuilt.perform call).imp fun _ hafter =>
      hafter.2) _
    ⟨_, init_built⟩ _ (Machine.legal_of_forall (fun _ _ => trivial) _ calls)

/-- A new symbol for which all suffices keeps the trie built. -/
theorem Built.register (hbuilt : trie.Built registry) {symbol : Symbol}
    (hnew : word symbol ∉ registry.keys) (hnodes : trie.HasNodesFor symbol)
    (hids : registry.keys.length < maxBooks.toNat) :
    (trie.getOrCreate symbol).trie.Built (registry.add (word symbol) hnew) ∧
      (trie.getOrCreate symbol).trie.nodeCount.toNat =
        trie.nodeCount.toNat + trie.missing 0 symbol.toList := by
  obtain ⟨-, hholds', hcount⟩ := hbuilt.holds.register hnew hnodes hids
  obtain ⟨registry', hregistered, hbuilt'⟩ :=
    hbuilt.perform (.getOrCreate symbol)
  refine ⟨?_, hcount⟩
  change Registered registry (word symbol) _ registry' at hregistered
  generalize (trie.perform (.getOrCreate symbol)).1 = id at hregistered
  have hlength := hholds'.next.symm.trans hbuilt'.holds.next
  rw [Registry.add_length] at hlength
  cases hregistered with
  | known hkey => exact absurd hkey hnew
  | issued => exact hbuilt'
  | refused => omega

/-! ## A symbol that could still be registered -/

/-- Different nodes lie on different paths. -/
theorem Spelled.nodeCount_le_card (hspelled : trie.Spelled words) :
    trie.nodeCount.toNat ≤ (Insert.insert [] (prefixes words)).card := by
  have hpath : ∀ node : ℕ, node < trie.nodeCount.toNat →
      ∃ front, trie.reach front = some (.ofNat node) := by
    intro node hnode
    refine hspelled.covered _ (UInt32.lt_iff_toNat_lt.mpr ?_)
    rwa [UInt32.toNat_ofNat',
      Nat.mod_eq_of_lt (hnode.trans trie.nodeCount.toNat_lt)]
  choose! path hreach using hpath
  have hmaps : ∀ node ∈ Finset.range trie.nodeCount.toNat,
      path node ∈ Insert.insert [] (prefixes words) := by
    intro node hnode
    rw [Finset.mem_insert]
    exact hspelled.on_path (hreach node (Finset.mem_range.mp hnode))
  have hinj : Set.InjOn path (Finset.range trie.nodeCount.toNat) := by
    intro node hnode other hother heq
    have hleft := Finset.mem_range.mp (Finset.mem_coe.mp hnode)
    have hright := Finset.mem_range.mp (Finset.mem_coe.mp hother)
    have hsame := hreach node hleft
    rw [heq, hreach other hright, Option.some.injEq, ← UInt32.toNat_inj,
      UInt32.toNat_ofNat', UInt32.toNat_ofNat',
      Nat.mod_eq_of_lt (hright.trans trie.nodeCount.toNat_lt),
      Nat.mod_eq_of_lt (hleft.trans trie.nodeCount.toNat_lt)] at hsame
    exact hsame.symm
  calc
    trie.nodeCount.toNat = (Finset.range trie.nodeCount.toNat).card :=
      (Finset.card_range _).symm
    _ ≤ (Insert.insert [] (prefixes words)).card :=
        Finset.card_le_card_of_injOn path hmaps hinj

/-- There are at most as many nodes as prefixes, the root apart. -/
theorem Spelled.nodeCount_le (hspelled : trie.Spelled words) :
    trie.nodeCount.toNat ≤ (prefixes words).card + 1 :=
  hspelled.nodeCount_le_card.trans (Finset.card_insert_le _ _)

/-- The bytes that `clampByte` keeps. -/
def letters : Finset UInt8 :=
  (Finset.range alphabetSize.toNat).image UInt8.ofNat

theorem card_letters : letters.card = 128 := by decide +kernel

theorem clampByte_of_mem {c : UInt8} (hc : c ∈ letters) : clampByte c = c := by
  obtain ⟨n, hn, rfl⟩ := Finset.mem_image.mp hc
  have halphabet : alphabetSize.toNat = 128 := rfl
  rw [Finset.mem_range, halphabet] at hn
  rw [clampByte, if_neg]
  rw [ge_iff_le, UInt8.le_iff_toNat_le, halphabet, UInt8.toNat_ofNat',
    Nat.mod_eq_of_lt] <;> omega

theorem word_length (symbol : Symbol) : (word symbol).length = 8 := by
  rw [word, List.length_map, symbol.length_toList]

/-- The symbol with another last byte. -/
def withLast (symbol : Symbol) (c : UInt8) : Symbol := symbol.set 7 c

theorem withLast_toList (symbol : Symbol) (c : UInt8) :
    (withLast symbol c).toList = symbol.toList.take 7 ++ [c] := by
  have hlength : symbol.toList.length = 8 := symbol.length_toList
  rw [withLast, Vector.toList_set, List.set_eq_take_append_cons_drop, hlength,
    if_pos (by omega), List.drop_eq_nil_of_le (by omega)]

theorem withLast_word (symbol : Symbol) {c : UInt8} (hc : c ∈ letters) :
    word (withLast symbol c) = (word symbol).take 7 ++ [c] := by
  rw [word, withLast_toList, List.map_append, List.map_take, List.map_singleton,
    clampByte_of_mem hc, ← word]

/-- Almost all nodes can be in use only for many symbols that leave some last
byte open: with a node and an id left, some symbol lacks no more than a node. -/
theorem Built.exists_open (hbuilt : trie.Built registry)
    (hroom : trie.nodeCount < maxNodes)
    (hids : registry.keys.length < maxBooks.toNat)
    (hmany : 2041 ≤ trie.nodeCount.toNat) :
    ∃ symbol, word symbol ∉ registry.keys ∧
      trie.missing 0 symbol.toList = 1 := by
  have hspelled := hbuilt.spelled hroom hids
  have hbooks : maxBooks.toNat = 1000 := rfl
  have hlength : ∀ key ∈ registry.keys.toFinset, key.length = 7 + 1 := by
    intro key hkey
    obtain ⟨symbol, rfl⟩ := hbuilt.symbols key (List.mem_toFinset.mp hkey)
    exact word_length symbol
  have hcard : registry.keys.toFinset.card = registry.keys.length :=
    List.toFinset_card_of_nodup registry.nodup
  have hprefixes := hspelled.nodeCount_le
  obtain ⟨key, hkey, c, hc, hopen⟩ := exists_missing_sibling hlength
    (card_letters ▸ Nat.zero_lt_succ _ : 0 < letters.card)
    (by rw [card_letters, hcard]; omega)
  rw [List.mem_toFinset] at hkey hopen
  obtain ⟨symbol, rfl⟩ := hbuilt.symbols key hkey
  have hword := withLast_word symbol hc
  refine ⟨withLast symbol c, hword ▸ hopen, ?_⟩
  obtain ⟨node, hnode⟩ := hbuilt.holds.reached _ hkey
  rw [reach, ← List.take_append_drop 7 (word symbol), descend_append] at hnode
  cases hfront : descend trie.childOf 0 ((word symbol).take 7) with
  | none => simp [hfront] at hnode
  | some last =>
      have hzero : (trie.nodes last).children (clampByte c) = 0 := by
        by_contra hchild
        rw [clampByte_of_mem hc] at hchild
        rcases hspelled.on_path
          (reach_child hfront hchild) with hempty | hprefix
        · simp at hempty
        · obtain ⟨other, hother, hle⟩ := mem_prefixes.mp hprefix
          have hsame := hle.eq_of_length (by
            rw [hlength other hother, ← hword, word_length])
          exact hopen (hsame ▸ List.mem_toFinset.mp hother)
      rw [withLast_toList]
      refine missing_of_split ?_ hzero
      rw [List.map_take]
      exact hfront

end MarketDataPipeline.PrefixTrie
