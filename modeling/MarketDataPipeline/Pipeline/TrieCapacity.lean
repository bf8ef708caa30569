import MarketDataPipeline.Pipeline.Accounting
import MarketDataPipeline.Pipeline.CreatedFlag
import MarketDataPipeline.Pipeline.FailedRegistration

/-!
# How many symbols there is room for

The trie has room for 2048 nodes and 1000 ids, the cache for 256 ids.  Symbols
share the nodes of their common prefixes, the root and the 128 first letters at
the least, so that any 274 symbols find room in the trie, and some 275 do not.
The cache is the tighter bound: the loop serves every message exactly when there
are at most 256 symbols.
-/

namespace MarketDataPipeline

variable {size : UInt32}

namespace PrefixTrie

variable {trie : PrefixTrie} {registry : Registry (List UInt8)}
  {words : Finset (List UInt8)}

/-! ## Nodes and symbols -/

theorem clampByte_mem_letters (byte : UInt8) : clampByte byte ∈ letters := by
  have halphabet : alphabetSize.toNat = 128 := rfl
  rw [letters, Finset.mem_image]
  refine ⟨(clampByte byte).toNat, ?_, UInt8.ofNat_toNat⟩
  rw [Finset.mem_range, clampByte]
  split
  case isTrue => exact Nat.zero_lt_succ _
  case isFalse hsmall => exact UInt8.lt_iff_toNat_lt.mp (UInt8.not_le.mp hsmall)

def wordsOf (symbols : List Symbol) : Finset (List UInt8) :=
  (symbols.map word).toFinset

theorem mem_wordsOf {symbols : List Symbol} {key : List UInt8} :
    key ∈ wordsOf symbols ↔ ∃ symbol ∈ symbols, word symbol = key := by
      simp [wordsOf]

theorem wordsOf_length {symbols : List Symbol} :
    ∀ key ∈ wordsOf symbols, key.length = 7 + 1 := by
  intro key hkey
  obtain ⟨symbol, -, rfl⟩ := mem_wordsOf.mp hkey
  exact word_length symbol

theorem wordsOf_mono {symbols later : List Symbol} (hsubset : symbols ⊆ later) :
    wordsOf symbols ⊆ wordsOf later := by
  intro key hkey
  obtain ⟨symbol, hsymbol, rfl⟩ := mem_wordsOf.mp hkey
  exact mem_wordsOf.mpr ⟨symbol, hsubset hsymbol, rfl⟩

/-- 274 symbols have at most 2047 prefixes. -/
theorem card_prefixes_wordsOf_le {symbols : List Symbol}
    (hfew : (wordsOf symbols).card ≤ 274) :
    (prefixes (wordsOf symbols)).card ≤ 2047 := by
  have hletters : ∀ key ∈ wordsOf symbols, ∀ letter ∈ key, letter ∈
      letters := by
    intro key hkey letter hletter
    obtain ⟨symbol, -, rfl⟩ := mem_wordsOf.mp hkey
    obtain ⟨byte, -, rfl⟩ := List.mem_map.mp hletter
    exact clampByte_mem_letters byte
  have hcard := card_prefixes_le_letters wordsOf_length hletters
  rw [card_letters] at hcard
  omega

/-- A trie holds the prefixes of its symbols in nodes of their own. -/
theorem Holds.card_prefixes_le (hholds : trie.Holds registry) :
    (prefixes registry.keys.toFinset).card ≤ trie.nodeCount.toNat := by
  have hreach : ∀ front ∈ prefixes registry.keys.toFinset,
      ∃ node, trie.reach front = some node := by
    intro front hfront
    obtain ⟨key, hkey, rest, rfl⟩ := mem_prefixes.mp hfront
    obtain ⟨node, hnode⟩ := hholds.reached _ (List.mem_toFinset.mp hkey)
    rw [reach, descend_append, Option.bind_eq_some_iff] at hnode
    obtain ⟨middle, hmiddle, -⟩ := hnode
    exact ⟨middle, hmiddle⟩
  choose! node hnode using hreach
  rw [← Finset.card_range trie.nodeCount.toNat]
  refine Finset.card_le_card_of_injOn (fun front => (node front).toNat) ?_ ?_
  · intro front hfront
    have hused := hholds.shaped.used (hnode front hfront)
    exact Finset.mem_coe.mpr
      (Finset.mem_range.mpr (UInt32.lt_iff_toNat_lt.mp hused))
  · intro front hfront other hother heq
    have hsame : node front = node other := UInt32.toNat_inj.mp heq
    refine hholds.shaped.tree (hnode front hfront) ?_
    rw [hsame]
    exact hnode other hother

/-! ## Runs with few symbols -/

/-- A trie that holds some of `words` and has nodes for them only. -/
structure Roomy (trie : PrefixTrie) (words : Finset (List UInt8)) : Prop where
  spelled : trie.Spelled words
  holds : ∃ registry, trie.Holds registry ∧ ∀ key ∈ registry.keys, key ∈ words

theorem init_roomy (words : Finset (List UInt8)) : init.Roomy words :=
  ⟨init_spelled.mono (Finset.empty_subset words), _, init_holds,
      fun _ hkey => by
    simp [Registry.empty] at hkey⟩

theorem Registered.mem_or {key other : List UInt8} {id : UInt16}
    {registry' : Registry (List UInt8)}
    (hregistered : Registered registry key id registry')
    (hother : other ∈ registry'.keys) :
    other = key ∨ other ∈ registry.keys := by
  cases hregistered with
  | known | refused => exact Or.inr hother
  | issued hnew =>
      rw [Registry.add_keys, List.mem_append, List.mem_singleton] at hother
      exact hother.symm

theorem Roomy.perform (hroomy : trie.Roomy words) {call : Call}
    (hword : word call.symbol ∈ words) : (trie.perform call).2.Roomy words := by
  obtain ⟨registry, hholds, hkeys⟩ := hroomy.holds
  obtain ⟨registry', hregistered, hholds'⟩ := hholds.perform call
  refine ⟨hroomy.spelled.perform hholds.shaped call hword,
    registry', hholds', ?_⟩
  intro key hkey
  rcases hregistered.mem_or hkey with rfl | hold
  · exact hword
  · exact hkeys key hold

/-- Where all nodes cannot be needed, no call is refused. -/
theorem Roomy.valid {symbols : List Symbol}
    (hroomy : trie.Roomy (wordsOf symbols))
    (hfew : (wordsOf symbols).card ≤ 274) {call : Call}
    (hcall : call.symbol ∈ symbols) :
    (trie.perform call).1 ≠ invalidBookId := by
  intro hinvalid
  have hword : word call.symbol ∈ wordsOf symbols :=
    mem_wordsOf.mpr ⟨_, hcall, rfl⟩
  obtain ⟨registry, hholds, hkeys⟩ := hroomy.holds
  obtain ⟨registry', hregistered, -⟩ := hholds.perform call
  obtain ⟨hnew, -⟩ := hregistered.of_invalid hholds.capacity hinvalid
  have hbooks : maxBooks.toNat = 1000 := rfl
  have hnodes : maxNodes.toNat = 2048 := rfl
  have hids : registry.keys.length < maxBooks.toNat := by
    have hsubset : registry.keys.toFinset ⊆ wordsOf symbols := fun key hkey =>
      hkeys key (List.mem_toFinset.mp hkey)
    have hcard := (Finset.card_le_card hsubset).trans hfew
    rw [List.toFinset_card_of_nodup registry.nodup] at hcard
    omega
  have hfull := (hholds.perform_refused hnew hinvalid hids).2
  have hcount :=
    (hroomy.spelled.perform hholds.shaped call hword).nodeCount_le_card
  have hroot : [] ∈ prefixes (wordsOf symbols) :=
    mem_prefixes.mpr ⟨_, hword, List.nil_prefix⟩
  rw [Finset.insert_eq_of_mem hroot, hfull, hnodes] at hcount
  have hprefixes := card_prefixes_wordsOf_le hfew
  omega

/-- Calls on at most 274 symbols keep a trie roomy. -/
theorem run_roomy {symbols : List Symbol} {calls : List Call}
    (hcalls : ∀ call ∈ calls, call.symbol ∈ symbols) :
    (machine.run init calls).Roomy (wordsOf symbols) :=
  Machine.invariant_each (fun trie : PrefixTrie => trie.Roomy (wordsOf symbols))
    (fun _ call => call.symbol ∈ symbols)
    (fun _ _ hroomy _ hcall => hroomy.perform (mem_wordsOf.mpr ⟨_, hcall, rfl⟩))
    (init_roomy _) (Machine.legal_of_forall (fun _ _ => trivial) _ calls)
    (Machine.each_iff_forall_mem.mpr hcalls)

/-- Where no call was refused, the trie holds exactly the symbols of
the calls. -/
theorem run_holds_all {calls : List Call}
    (hvalid : ∀ done call, done ++ [call] <+: calls →
      ((machine.run init done).perform call).1 ≠ invalidBookId) :
    ∃ registry, (machine.run init calls).Holds registry ∧
      ∀ key, key ∈ registry.keys ↔ ∃ call ∈ calls, word call.symbol = key := by
  induction calls using List.reverseRecOn with
  | nil => exact ⟨_, init_holds, fun key => by simp [Registry.empty]⟩
  | append_singleton calls call ih =>
      obtain ⟨registry, hholds, hkeys⟩ := ih fun done other hpre =>
        hvalid done other (hpre.trans (List.prefix_append _ _))
      obtain ⟨registry', hregistered, hholds'⟩ := hholds.perform call
      have hcall := hvalid calls call List.prefix_rfl
      rw [Machine.run_append]
      refine ⟨registry', hholds', fun key => ⟨fun hkey => ?_, ?_⟩⟩
      · rcases hregistered.mem_or hkey with rfl | hold
        · exact ⟨call, by simp, rfl⟩
        · obtain ⟨other, hother, hword⟩ := (hkeys key).mp hold
          exact ⟨other, by simp [hother], hword⟩
      · rintro ⟨other, hother, rfl⟩
        rcases List.mem_append.mp hother with hold | hlast
        · exact (hregistered.kept ((hkeys _).mpr ⟨other, hold, rfl⟩)).1
        · rw [List.mem_singleton.mp hlast]
          exact (hregistered.id_eq hcall).1

/-! ## 275 symbols without room -/

/-- Symbols that have no more than a first letter in common. -/
def spreadSymbol (n : ℕ) : Symbol :=
  #v[.ofNat (n % 128), .ofNat (n / 128), 0, 0, 0, 0, 0, 0]

def spreadSymbols : List Symbol := (List.range 275).map spreadSymbol

theorem spreadSymbol_word {n : ℕ} (hn : n < 275) :
    word (spreadSymbol n) =
      [.ofNat (n % 128), .ofNat (n / 128), 0, 0, 0, 0, 0, 0] := by
  have hclamp : ∀ k < 128, clampByte (.ofNat k) = .ofNat k := by decide
  change [clampByte (.ofNat (n % 128)), clampByte (.ofNat (n / 128)), 0, 0,
    0, 0, 0, 0] = _
  rw [hclamp _ (Nat.mod_lt n (by decide)), hclamp _ (by omega)]

theorem spreadSymbol_take_inj {n m : ℕ} (hn : n < 275) (hm : m < 275)
    (heq : (word (spreadSymbol n)).take 2 = (word (spreadSymbol m)).take 2) :
    n = m := by
  rw [spreadSymbol_word hn, spreadSymbol_word hm] at heq
  simp only [List.take_succ_cons, List.take_zero, List.cons.injEq,
    and_true] at heq
  have hlow := congrArg UInt8.toNat heq.1
  have hhigh := congrArg UInt8.toNat heq.2
  rw [UInt8.toNat_ofNat', UInt8.toNat_ofNat'] at hlow hhigh
  omega

theorem card_wordsOf_spread : (wordsOf spreadSymbols).card = 275 := by
  have hnodup : (spreadSymbols.map word).Nodup := by
    rw [spreadSymbols, List.map_map]
    refine List.Nodup.map_on (fun n hn m hm heq => ?_) List.nodup_range
    exact spreadSymbol_take_inj (List.mem_range.mp hn) (List.mem_range.mp hm)
      (congrArg (List.take 2) heq)
  rw [wordsOf, List.toFinset_card_of_nodup hnodup]
  simp [spreadSymbols]

theorem card_prefixes_spread :
    2049 ≤ (prefixes (wordsOf spreadSymbols)).card := by
  have hinj : Set.InjOn (List.take 2)
      (wordsOf spreadSymbols : Set (List UInt8)) := by
    intro key hkey other hother heq
    obtain ⟨_, hsymbol, rfl⟩ := mem_wordsOf.mp (Finset.mem_coe.mp hkey)
    obtain ⟨_, hsymbol', rfl⟩ := mem_wordsOf.mp (Finset.mem_coe.mp hother)
    obtain ⟨n, hn, rfl⟩ := List.mem_map.mp hsymbol
    obtain ⟨m, hm, rfl⟩ := List.mem_map.mp hsymbol'
    rw [spreadSymbol_take_inj (List.mem_range.mp hn) (List.mem_range.mp hm) heq]
  have hfirst : 128 ≤ ((wordsOf spreadSymbols).image (List.take 1)).card := by
    have hmaps : ∀ n ∈ Finset.range 128,
        (word (spreadSymbol n)).take 1 ∈
          (wordsOf spreadSymbols).image (List.take 1) := by
      intro n hn
      have hlt := Finset.mem_range.mp hn
      refine Finset.mem_image_of_mem _ (mem_wordsOf.mpr ⟨_, ?_, rfl⟩)
      exact List.mem_map_of_mem (List.mem_range.mpr (by omega))
    have hdistinct : Set.InjOn (fun n => (word (spreadSymbol n)).take 1)
        (Finset.range 128 : Finset ℕ) := by
      intro n hn m hm heq
      have hn' := Finset.mem_range.mp (Finset.mem_coe.mp hn)
      have hm' := Finset.mem_range.mp (Finset.mem_coe.mp hm)
      dsimp only at heq
      rw [spreadSymbol_word (by omega), spreadSymbol_word (by omega)] at heq
      simp only [List.take_succ_cons, List.take_zero, List.cons.injEq,
        and_true] at heq
      have hlow := congrArg UInt8.toNat heq
      rw [UInt8.toNat_ofNat', UInt8.toNat_ofNat'] at hlow
      omega
    have hcard := Finset.card_le_card_of_injOn _ hmaps hdistinct
    rwa [Finset.card_range] at hcard
  have hne : (wordsOf spreadSymbols).Nonempty := by
    rw [← Finset.card_pos, card_wordsOf_spread]
    decide
  rw [card_prefixes_of_injOn wordsOf_length hne hinj, card_wordsOf_spread]
  omega

/-- Every sequence of calls on at most 274 symbols gets a valid id for each, and
274 is the most of which this can be said. -/
theorem room_for_274_symbols :
    (∀ calls : List Call, (wordsOf (calls.map Call.symbol)).card ≤ 274 →
      ∀ done call, done ++ [call] <+: calls →
        ((machine.run init done).perform call).1 ≠ invalidBookId) ∧
    ∃ calls : List Call, (wordsOf (calls.map Call.symbol)).card = 275 ∧
      ∃ done call, done ++ [call] <+: calls ∧
        ((machine.run init done).perform call).1 = invalidBookId := by
  refine ⟨fun calls hfew done call hpre => ?_, ?_⟩
  · have hmem : ∀ other ∈ done ++ [call], other.symbol ∈
      calls.map Call.symbol :=
      fun other hother => List.mem_map_of_mem (hpre.subset hother)
    have hroomy := run_roomy fun other hother =>
      hmem other (List.mem_append_left _ hother)
    exact hroomy.valid hfew (hmem call (by simp))
  · have hsymbols : (spreadSymbols.map Call.insert).map Call.symbol =
      spreadSymbols := by
      rw [List.map_map]
      exact List.map_id' _
    refine ⟨spreadSymbols.map .insert, by rw [hsymbols,
      card_wordsOf_spread], ?_⟩
    by_contra hnone
    push Not at hnone
    obtain ⟨registry, hholds, hkeys⟩ := run_holds_all hnone
    have hall : registry.keys.toFinset = wordsOf spreadSymbols := by
      ext key
      rw [List.mem_toFinset, hkeys, mem_wordsOf]
      simp [Call.symbol]
    have hcard := hholds.card_prefixes_le
    have hnodes := UInt32.le_iff_toNat_le.mp hholds.shaped.nodeCount_le
    have hmax : maxNodes.toNat = 2048 := rfl
    have hmany := card_prefixes_spread
    rw [hall] at hcard
    omega

end PrefixTrie

namespace Pipeline

open PrefixTrie

/-! ## Symbols and messages -/

def symbolsOf (messages : List ItchMessage) : Finset (List UInt8) :=
  wordsOf (messages.map ItchMessage.symbol)

/-- A message is a call of `get_or_create`. -/
def callOf (message : ItchMessage) : Call := .getOrCreate message.symbol

theorem run_trie_calls (state : Pipeline size) (messages : List ItchMessage) :
    ((machine size).run state messages).trie =
      PrefixTrie.machine.run state.trie (messages.map callOf) := by
  induction messages generalizing state with
  | nil => rfl
  | cons message rest ih =>
      rw [Machine.run_cons, List.map_cons, Machine.run_cons]
      refine (ih _).trans ?_
      exact congrArg (fun trie => PrefixTrie.machine.run trie (rest.map callOf))
        (processMessage_trie state message)

theorem bookIdOf_eq (state : Pipeline size) (message : ItchMessage) :
    state.bookIdOf message = (state.trie.perform (callOf message)).1 := rfl

def AllServed (start : Pipeline size) (messages : List ItchMessage) : Prop :=
  ∀ done message, done ++ [message] <+: messages →
    ((machine size).run start done).Served message

theorem AllServed.of_prefix {start : Pipeline size}
    {messages done : List ItchMessage} (hserved : AllServed start messages)
    (hpre : done <+: messages) :
    AllServed start done :=
  fun earlier message hearlier => hserved earlier message (hearlier.trans hpre)

/-- Served messages are packets, and none is a failure. -/
theorem AllServed.counts {start : Pipeline size} {messages : List ItchMessage}
    (hserved : AllServed start messages) :
    ((machine size).run start messages).totalPackets =
        start.totalPackets + .ofNat messages.length ∧
      ((machine size).run start messages).parseFailures =
        start.parseFailures := by
  induction messages using List.reverseRecOn with
  | nil => exact ⟨(UInt64.add_zero _).symm, rfl⟩
  | append_singleton messages message ih =>
      obtain ⟨hpackets, hfailures⟩ :=
        ih (hserved.of_prefix (List.prefix_append _ _))
      have hlast := hserved messages message List.prefix_rfl
      rw [Machine.run_append]
      refine ⟨hlast.totalPackets.trans ?_, hlast.parseFailures.trans hfailures⟩
      rw [hpackets, List.length_append, List.length_singleton, UInt64.ofNat_add,
        UInt64.add_assoc]
      rfl

theorem AllServed.totals {start : Pipeline size} {messages : List ItchMessage}
    (hserved : AllServed start messages) :
    ((machine size).run start messages).totalAdds =
        start.totalAdds + .ofNat (messages.countP fun message =>
          message.type = addType) ∧
      ((machine size).run start messages).totalTrades =
        start.totalTrades + .ofNat (messages.countP fun message =>
          message.type = tradeType) := by
  induction messages using List.reverseRecOn with
  | nil => exact ⟨(UInt64.add_zero _).symm, (UInt64.add_zero _).symm⟩
  | append_singleton messages message ih =>
      obtain ⟨hadds, htrades⟩ := ih (hserved.of_prefix (List.prefix_append _ _))
      obtain ⟨slot, hslot⟩ := (hserved messages message List.prefix_rfl).book
      obtain ⟨hadd, htrade⟩ := processMessage_totals hslot
      rw [Machine.run_append]
      change (processMessage _ _).totalAdds = _ ∧
        (processMessage _ _).totalTrades = _
      rw [hadd, htrade, hadds, htrades, List.countP_append, List.countP_append,
        UInt64.ofNat_add, UInt64.ofNat_add, UInt64.add_assoc, UInt64.add_assoc,
        List.countP_singleton, List.countP_singleton]
      simp only [decide_eq_true_eq, and_self]

section Capacity

variable (memory : UInt32 → LFUNode) (orders : UInt32 → Order)
  {messages : List ItchMessage}

/-- While all messages are served, at most `MAX_SYMBOLS` symbols are registered,
and those are the symbols of the messages. -/
theorem AllServed.holds
    (hserved : AllServed (init memory orders : Pipeline size) messages) :
    ∃ registry, ((machine size).run (init memory orders) messages).trie.Holds
      registry ∧
      registry.keys.length ≤ 256 ∧ ∀ key, key ∈ registry.keys ↔
        key ∈ symbolsOf messages := by
  induction messages using List.reverseRecOn with
  | nil =>
      refine ⟨_, init_holds, Nat.zero_le _, fun key => ?_⟩
      simp [Registry.empty, symbolsOf, wordsOf]
  | append_singleton messages message ih =>
      obtain ⟨registry, hholds, hlength, hkeys⟩ :=
        ih (hserved.of_prefix (List.prefix_append _ _))
      have hlast :=
        (served_iff _ _).mp (hserved messages message List.prefix_rfl)
      have hsymbols : maxSymbols.toNat = 256 := rfl
      have hmore : ∀ key, key ∈ symbolsOf (messages ++ [message]) ↔
          key ∈ symbolsOf messages ∨ key = word message.symbol := by
        intro key
        rw [symbolsOf, symbolsOf, wordsOf, wordsOf, List.map_append,
          List.map_append, List.toFinset_append, Finset.mem_union]
        simp
      rw [UInt32.lt_iff_toNat_lt, UInt16.toNat_toUInt32, hsymbols] at hlast
      rw [Machine.run_append]
      set state := (machine size).run (init memory orders) messages
      obtain ⟨registry', hregistered, hholds'⟩ :=
        hholds.getOrCreate message.symbol
      change Registered registry _ (state.bookIdOf message)
        registry' at hregistered
      have htrie : ((machine size).run state [message]).trie =
          (state.trie.getOrCreate message.symbol).trie :=
            processMessage_trie state message
      rw [htrie]
      refine ⟨registry', hholds', ?_⟩
      generalize state.bookIdOf message = id at hregistered hlast
      cases hregistered with
      | known hkey =>
          refine ⟨hlength, fun key => ?_⟩
          rw [hmore, ← hkeys]
          exact ⟨Or.inl, fun hor => hor.elim id fun heq => heq ▸ hkey⟩
      | issued hnew hroom =>
          have hbooks : maxBooks.toNat = 1000 := rfl
          rw [UInt16.toNat_ofNat', Nat.mod_eq_of_lt (by omega)] at hlast
          rw [Registry.add_length, Registry.add_keys]
          refine ⟨hlast, fun key => ?_⟩
          rw [hmore, ← hkeys, List.mem_append, List.mem_singleton]
      | refused =>
          have hinvalid : invalidBookId.toNat = 65535 := rfl
          omega

/-- Messages of at most `MAX_SYMBOLS` symbols are all served, whatever the
symbols are. -/
theorem allServed_of_few (hfew : (symbolsOf messages).card ≤ 256) :
    AllServed (init memory orders : Pipeline size) messages := by
  intro done message hpre
  have hmem : ∀ other ∈ done ++ [message], other.symbol ∈
      messages.map ItchMessage.symbol :=
    fun other hother => List.mem_map_of_mem (hpre.subset hother)
  have hcalls : ∀ call ∈ done.map callOf, call.symbol ∈
      messages.map ItchMessage.symbol := by
    intro call hcall
    obtain ⟨other, hother, rfl⟩ := List.mem_map.mp hcall
    exact hmem other (List.mem_append_left _ hother)
  have hmessage := hmem message (by simp)
  have hroomy := run_roomy hcalls
  have hvalid := hroomy.valid (hfew.trans (by decide))
    (show (callOf message).symbol ∈
      messages.map ItchMessage.symbol from hmessage)
  have hnext := hroomy.perform
    (mem_wordsOf.mpr ⟨_, hmessage, rfl⟩ : word (callOf message).symbol ∈ _)
  obtain ⟨registry, hholds, hkeys⟩ := hroomy.holds
  obtain ⟨registry', hregistered, hholds'⟩ := hholds.perform (callOf message)
  have hsymbols : maxSymbols.toNat = 256 := rfl
  have hsubset : registry'.keys.toFinset ⊆ symbolsOf messages := by
    intro key hkey
    rcases hregistered.mem_or (List.mem_toFinset.mp hkey) with rfl | hold
    · exact mem_wordsOf.mpr ⟨_, hmessage, rfl⟩
    · exact hkeys key hold
  have hcard := (Finset.card_le_card hsubset).trans hfew
  rw [List.toFinset_card_of_nodup registry'.nodup] at hcard
  obtain ⟨hkey, hid⟩ := hregistered.id_eq hvalid
  have hlt := idIn_lt hholds'.capacity hkey
  rw [served_iff, bookIdOf_eq, run_trie_calls, UInt32.lt_iff_toNat_lt,
    UInt16.toNat_toUInt32, hsymbols]
  change ((PrefixTrie.machine.run PrefixTrie.init (done.map callOf)).perform
    (callOf message)).1.toNat < 256
  rw [← hid]
  exact hlt.trans_le hcard

/-- Symbols that are all served are all registered. -/
theorem AllServed.canRegister
    (hserved : AllServed (init memory orders : Pipeline size) messages) :
    (machine size).Each (fun state message =>
      state.trie.CanRegister message.symbol)
      (init memory orders) messages := by
  refine Machine.each_iff_prefix.mpr fun done message hpre hnone => ?_
  obtain ⟨registry, hholds, -, -⟩ :=
    (hserved.of_prefix ((List.prefix_append _ _).trans hpre)).holds
  have hlast := (served_iff _ _).mp (hserved done message hpre)
  refine (hholds.insert_valid_iff hnone).mp fun hinvalid => ?_
  rw [bookIdOf, getOrCreate_of_unknown hnone] at hlast
  dsimp only at hlast
  rw [hinvalid] at hlast
  exact absurd hlast (by decide)

/-- The symbols of a registry with these keys. -/
theorem card_symbolsOf {registry : Registry (List UInt8)}
    (hkeys : ∀ key, key ∈ registry.keys ↔ key ∈ symbolsOf messages) :
    (symbolsOf messages).card = registry.keys.length := by
  have hsame : symbolsOf messages = registry.keys.toFinset := by
    ext key
    rw [List.mem_toFinset, hkeys]
  rw [hsame, List.toFinset_card_of_nodup registry.nodup]

theorem AllServed.uniqueSymbols_eq
    (hserved : AllServed (init memory orders : Pipeline size) messages) :
    ((machine size).run (init memory orders) messages).uniqueSymbols.toNat =
      (symbolsOf messages).card := by
  obtain ⟨registry, hholds, -, hkeys⟩ := hserved.holds
  have hcounts :=
    (counts_symbols_iff memory orders messages).mpr hserved.canRegister messages
    List.prefix_rfl
  rw [card_symbolsOf hkeys]
  exact hcounts.trans hholds.next

/-- The loop serves every message of a run exactly when the run is about at most
256 symbols; and then every message is counted as a packet, none as a failure,
and `unique_symbols` is the number of symbols. -/
theorem every_message_served_iff (messages : List ItchMessage) :
    (AllServed (init memory orders : Pipeline size) messages ↔
      (symbolsOf messages).card ≤ 256) ∧
    ((symbolsOf messages).card ≤ 256 →
      let state := (machine size).run (init memory orders) messages
      state.totalPackets = .ofNat messages.length ∧ state.parseFailures = 0 ∧
        state.uniqueSymbols.toNat = (symbolsOf messages).card) := by
  refine ⟨⟨fun hserved => ?_, allServed_of_few memory orders⟩, fun hfew => ?_⟩
  · obtain ⟨registry, -, hlength, hkeys⟩ := hserved.holds
    rw [card_symbolsOf hkeys]
    exact hlength
  · have hserved := @allServed_of_few size memory orders messages hfew
    obtain ⟨hpackets, hfailures⟩ := hserved.counts
    exact ⟨hpackets.trans (UInt64.zero_add _), hfailures,
      hserved.uniqueSymbols_eq⟩

end Capacity

end Pipeline

end MarketDataPipeline
