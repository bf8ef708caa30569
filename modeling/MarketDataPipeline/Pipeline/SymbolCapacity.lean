import MarketDataPipeline.Pipeline.MessageStep
import MarketDataPipeline.Pipeline.TrieCalls

/-!
# More symbols than the cache has nodes for

The trie issues up to 1000 ids and the cache refuses those from `MAX_SYMBOLS`
on.  Every registered symbol is served until a symbol is registered when
`MAX_SYMBOLS` are already.
-/

namespace MarketDataPipeline

variable {size : UInt32}

/-! ## When a symbol is registered -/

namespace PrefixTrie

/-- How many nodes the loop of `insert` would have to add. -/
def missing (trie : PrefixTrie) (nodeIdx : UInt32) : List UInt8 → ℕ
  | [] => 0
  | byte :: rest =>
      let child := (trie.nodes nodeIdx).children (clampByte byte)
      if child = 0 then rest.length + 1 else trie.missing child rest

def HasNodesFor (trie : PrefixTrie) (symbol : Symbol) : Prop :=
  trie.nodeCount.toNat + trie.missing 0 symbol.toList ≤ maxNodes.toNat

theorem missing_le (trie : PrefixTrie) (nodeIdx : UInt32) (bytes : List UInt8) :
    trie.missing nodeIdx bytes ≤ bytes.length := by
  induction bytes generalizing nodeIdx with
  | nil => exact Nat.le_refl 0
  | cons byte rest ih =>
      rw [missing]
      split
      · exact Nat.le_refl _
      · exact Nat.le_succ_of_le (ih _)

/-- A node without children lacks the whole word. -/
theorem missing_of_childless {trie : PrefixTrie} {nodeIdx : UInt32}
    (hchildless : ∀ c, (trie.nodes nodeIdx).children c = 0)
    (bytes : List UInt8) :
    trie.missing nodeIdx bytes = bytes.length := by
  cases bytes with
  | nil => rfl
  | cons byte rest => exact if_pos (hchildless _)

/-- The loop of `insert` succeeds exactly when the nodes suffice, and then it
uses as many as were missing; else it uses up all nodes. -/
theorem Shaped.extend_nodes {trie : PrefixTrie} (hshaped : trie.Shaped)
    {prior : List UInt8} {nodeIdx : UInt32}
    (hprior : trie.reach prior = some nodeIdx) (bytes : List UInt8) :
    if trie.nodeCount.toNat + trie.missing nodeIdx bytes ≤ maxNodes.toNat then
      (∃ node, (trie.extend nodeIdx bytes).1 = some node) ∧
        (trie.extend nodeIdx bytes).2.nodeCount.toNat =
          trie.nodeCount.toNat + trie.missing nodeIdx bytes
    else (trie.extend nodeIdx bytes).1 = none ∧
      (trie.extend nodeIdx bytes).2.nodeCount = maxNodes := by
  have hmax : maxNodes.toNat = 2048 := rfl
  induction bytes generalizing trie prior nodeIdx with
  | nil =>
      rw [missing, Nat.add_zero,
        if_pos (UInt32.le_iff_toNat_le.mp hshaped.nodeCount_le)]
      exact ⟨⟨nodeIdx, rfl⟩, rfl⟩
  | cons byte rest ih =>
      rw [missing, PrefixTrie.extend]
      dsimp only
      by_cases hzero : (trie.nodes nodeIdx).children (clampByte byte) = 0
      case neg =>
        rw [if_neg hzero, if_neg hzero]
        exact ih hshaped (reach_child hprior hzero)
      rw [if_pos hzero, if_pos hzero]
      by_cases hfull : trie.nodeCount ≥ maxNodes
      · rw [if_pos hfull, if_neg]
        · exact ⟨rfl, UInt32.le_antisymm hshaped.nodeCount_le hfull⟩
        · rw [ge_iff_le, UInt32.le_iff_toNat_le] at hfull
          omega
      have hroom := UInt32.not_le.mp hfull
      have hadded := hshaped.addChild hprior hzero hroom
      have hcount := addChild_nodeCount_toNat hroom nodeIdx (clampByte byte)
      have hchildless : ∀ c, ((trie.addChild nodeIdx (clampByte byte)).nodes
          (((trie.addChild nodeIdx (clampByte byte)).nodes nodeIdx).children
            (clampByte byte))).children c = 0 := by
        intro c
        have hne : trie.nodeCount ≠ nodeIdx := by
          intro heq
          exact UInt32.lt_irrefl _ (heq ▸ hshaped.used hprior)
        rw [addChild_child, PrefixTrie.addChild]
        dsimp only
        rw [Function.update_of_ne hne, hshaped.unused _ (UInt32.le_refl _)]
      have hrest := ih hadded (hshaped.reach_added hprior hzero)
      rw [missing_of_childless hchildless, hcount, Nat.add_assoc,
        Nat.add_comm 1] at hrest
      rwa [if_neg hfull]

variable {trie : PrefixTrie} {registry : Registry (List UInt8)}

/-- A new symbol gets an id exactly when the nodes and the ids suffice. -/
theorem Holds.insert_valid_iff (hholds : trie.Holds registry) {symbol : Symbol}
    (hnew : trie.lookup symbol = invalidBookId) :
    (trie.insert symbol).1 ≠ invalidBookId ↔
      trie.HasNodesFor symbol ∧ trie.getBookCount < maxBooks := by
  have hroot : trie.reach [] = some 0 := rfl
  obtain ⟨hshaped, hgrows, hfound, -⟩ :=
    hholds.shaped.extend hroot symbol.toList
  change ∀ node, _ →
    (trie.extend 0 symbol.toList).2.reach (word symbol) = some node at hfound
  have hgrown := hholds.grow hshaped hgrows
  have hnodes := hholds.shaped.extend_nodes hroot symbol.toList
  have hmax : maxBooks.toNat = 1000 := rfl
  have hinvalid : invalidBookId.toNat = 65535 := rfl
  rw [hholds.lookup_eq] at hnew
  rw [PrefixTrie.insert, HasNodesFor, getBookCount, ← hgrows.nextBookId]
  generalize trie.extend 0 symbol.toList = reached at *
  obtain ⟨_ | node, extended⟩ := reached
  · refine iff_of_false (fun hvalid => hvalid rfl) ?_
    rintro ⟨hsuffice, -⟩
    rw [if_pos hsuffice] at hnodes
    simp at hnodes
  dsimp only at hnodes hfound hgrown ⊢
  have hsuffice : trie.nodeCount.toNat + trie.missing 0 symbol.toList ≤
      maxNodes.toNat := by
    by_contra hfew
    rw [if_neg hfew] at hnodes
    simp at hnodes
  rw [if_pos ((hgrown.bookId (hfound node rfl)).trans hnew)]
  split
  case isTrue hfull =>
    refine iff_of_false (fun hvalid => hvalid rfl) ?_
    exact fun hboth => UInt16.not_lt.mpr hfull hboth.2
  case isFalse hids =>
    refine iff_of_true ?_ ⟨hsuffice, UInt16.not_le.mp hids⟩
    have hlt := UInt16.lt_iff_toNat_lt.mp (UInt16.not_le.mp hids)
    rw [Ne, ← UInt16.toNat_inj]
    dsimp only
    omega

/-- `get_or_create` inserts a symbol that `lookup` does not find. -/
theorem getOrCreate_of_unknown {symbol : Symbol}
    (hnew : trie.lookup symbol = invalidBookId) :
    trie.getOrCreate symbol =
      ⟨(trie.insert symbol).1, true, (trie.insert symbol).2⟩ := by
  rw [getOrCreate]
  exact if_pos hnew

theorem insert_nodeCount (trie : PrefixTrie) (symbol : Symbol) :
    (trie.insert symbol).2.nodeCount =
      (trie.extend 0 symbol.toList).2.nodeCount := by
  rw [PrefixTrie.insert]
  split
  · rfl
  · dsimp only
    split
    · split <;> rfl
    · rfl

/-- A new symbol for which all suffices gets the next id. -/
theorem Holds.register (hholds : trie.Holds registry) {symbol : Symbol}
    (hnew : word symbol ∉ registry.keys) (hnodes : trie.HasNodesFor symbol)
    (hids : registry.keys.length < maxBooks.toNat) :
    (trie.getOrCreate symbol).bookId = .ofNat registry.keys.length ∧
      (trie.getOrCreate symbol).trie.Holds (registry.add (word symbol) hnew) ∧
      (trie.getOrCreate symbol).trie.nodeCount.toNat =
        trie.nodeCount.toNat + trie.missing 0 symbol.toList := by
  have hnone : trie.lookup symbol = invalidBookId :=
    (hholds.lookup_eq symbol).trans (idIn_of_notMem hnew)
  have hcount : trie.getBookCount < maxBooks := by
    rw [UInt16.lt_iff_toNat_lt]
    exact hholds.next.trans_lt hids
  have hvalid := (hholds.insert_valid_iff hnone).mpr ⟨hnodes, hcount⟩
  have hroot : trie.reach [] = some 0 := rfl
  have hextend := hholds.shaped.extend_nodes hroot symbol.toList
  rw [HasNodesFor] at hnodes
  rw [if_pos hnodes, ← insert_nodeCount] at hextend
  obtain ⟨registry', hregistered, hholds'⟩ := hholds.insert symbol
  rw [getOrCreate_of_unknown hnone]
  dsimp only
  refine ⟨?_, ?_, hextend.2⟩
  all_goals generalize (trie.insert symbol).1 = id at hregistered hvalid
  all_goals cases hregistered with
    | known hkey => exact absurd hkey hnew
    | issued => first | rfl | exact hholds'
    | refused => exact absurd rfl hvalid

/-- Where some symbol with the same first byte is registered, at most seven
nodes are missing. -/
theorem Holds.missing_le_seven (hholds : trie.Holds registry)
    {symbol : Symbol} {c : UInt8} {front back : List UInt8}
    (hword : word symbol = c :: back) (hkey : c :: front ∈ registry.keys) :
    trie.missing 0 symbol.toList ≤ 7 := by
  obtain ⟨node, hnode⟩ := hholds.reached _ hkey
  have hchild : (trie.nodes 0).children c ≠ 0 := by
    intro hzero
    rw [reach, descend, childOf_of_zero hzero] at hnode
    simp at hnode
  have hlength : symbol.toList.length = 8 := symbol.length_toList
  rw [word] at hword
  obtain ⟨byte, rest, hsymbol, hbyte, -⟩ := List.map_eq_cons_iff.mp hword
  rw [hsymbol, List.length_cons] at hlength
  rw [hsymbol, missing, hbyte, if_neg hchild]
  exact (trie.missing_le _ rest).trans (by omega)

end PrefixTrie

/-! ## When a message is served -/

namespace Pipeline

structure Served (state : Pipeline size) (message : ItchMessage) : Prop where
  book : ∃ slot, (state.accessed message).1 = some slot
  totalPackets : (state.processMessage message).totalPackets =
    state.totalPackets + 1
  parseFailures : (state.processMessage message).parseFailures =
    state.parseFailures

/-- A symbol that is new, and for which there are nodes, finds fewer than
`MAX_SYMBOLS` others. -/
def SymbolFits (state : Pipeline size) (message : ItchMessage) : Prop :=
  state.trie.lookup message.symbol = invalidBookId →
    state.trie.HasNodesFor message.symbol →
    state.trie.getBookCount.toUInt32 < maxSymbols

theorem served_iff (state : Pipeline size) (message : ItchMessage) :
    state.Served message ↔ (state.bookIdOf message).toUInt32 < maxSymbols := by
  rw [← accessed_isSome_iff]
  refine ⟨fun hserved => hserved.book, fun hbook => ?_⟩
  obtain ⟨slot, hslot⟩ := hbook
  have hfound := hslot
  rw [accessed, bookIdOf] at hfound
  refine ⟨⟨slot, hslot⟩, ?_, ?_⟩
  · rw [processMessage, hfound]
  · rw [processMessage, hfound]

/-- While at most `MAX_SYMBOLS` symbols are registered, a message with a valid
id is served exactly when its symbol fits, and then no more are registered. -/
theorem served_iff_symbolFits {state : Pipeline size}
    {registry : Registry (List UInt8)} (hholds : state.trie.Holds registry)
    (hfew : registry.keys.length ≤ maxSymbols.toNat) (message : ItchMessage) :
    ((state.bookIdOf message ≠ invalidBookId → state.Served message) ↔
      state.SymbolFits message) ∧
      (state.SymbolFits message → ∃ registry',
        (state.processMessage message).trie.Holds registry' ∧
        registry'.keys.length ≤ maxSymbols.toNat) := by
  have hsymbols : maxSymbols.toNat = 256 := rfl
  have hbooks : maxBooks.toNat = 1000 := rfl
  have hcount : state.trie.getBookCount.toNat = registry.keys.length :=
    hholds.next
  have hlookup := hholds.lookup_eq message.symbol
  obtain ⟨registry', hregistered, hholds'⟩ := hholds.getOrCreate message.symbol
  rw [← processMessage_trie] at hholds'
  change PrefixTrie.Registered registry _ (state.bookIdOf message)
    registry' at hregistered
  have hunknown : PrefixTrie.word message.symbol ∉ registry.keys →
      state.trie.lookup message.symbol = invalidBookId ∧
        state.bookIdOf message = (state.trie.insert message.symbol).1 := by
    intro hnew
    rw [PrefixTrie.idIn_of_notMem hnew] at hlookup
    exact ⟨hlookup, by rw [bookIdOf, PrefixTrie.getOrCreate_of_unknown hlookup]⟩
  rw [served_iff, UInt32.lt_iff_toNat_lt, UInt16.toNat_toUInt32, hsymbols]
  generalize state.bookIdOf message = id at hregistered hunknown
  cases hregistered with
  | known hkey =>
      have hvalid := (PrefixTrie.idIn_ne_invalid_iff hholds.capacity).mpr hkey
      have hlt := PrefixTrie.idIn_lt hholds.capacity hkey
      refine ⟨iff_of_true (fun _ => by omega) fun hnew => ?_, fun _ =>
        ⟨registry, hholds', hfew⟩⟩
      exact absurd (hlookup.symm.trans hnew) hvalid
  | issued hnew hroom =>
      obtain ⟨hnone, hinsert⟩ := hunknown hnew
      have hid : (UInt16.ofNat registry.keys.length).toNat =
          registry.keys.length := by
        rw [UInt16.toNat_ofNat', Nat.mod_eq_of_lt (by omega)]
      have hvalid : UInt16.ofNat registry.keys.length ≠ invalidBookId := by
        have hinvalid : invalidBookId.toNat = 65535 := rfl
        rw [Ne, ← UInt16.toNat_inj, hid]
        omega
      have hnodes := ((hholds.insert_valid_iff hnone).mp (hinsert ▸ hvalid)).1
      have hfits : state.SymbolFits message ↔ registry.keys.length < 256 := by
        rw [SymbolFits, UInt32.lt_iff_toNat_lt, UInt16.toNat_toUInt32,
          hcount, hsymbols]
        exact ⟨fun hall => hall hnone hnodes, fun hlt _ _ => hlt⟩
      rw [hfits, hid]
      refine ⟨⟨fun hserved => hserved hvalid, fun hlt _ => hlt⟩, fun hlt =>
        ⟨_, hholds', ?_⟩⟩
      rw [Registry.add_length]
      omega
  | refused hnew =>
      obtain ⟨hnone, hinsert⟩ := hunknown hnew
      refine ⟨iff_of_true (fun hvalid => absurd rfl hvalid) fun _ hnodes => ?_,
        fun _ => ⟨registry, hholds', hfew⟩⟩
      have hids : state.trie.getBookCount < maxBooks := by
        rw [UInt16.lt_iff_toNat_lt, hcount]
        omega
      exact absurd hinsert.symm
        ((hholds.insert_valid_iff hnone).mpr ⟨hnodes, hids⟩)

/-- In every run, the messages with a valid id are all served exactly when every
new symbol fits: when none is registered after `MAX_SYMBOLS` others. -/
theorem registered_symbols_served_iff (memory : UInt32 → LFUNode)
    (orders : UInt32 → Order) (messages : List ItchMessage) :
    (∀ done message, done ++ [message] <+: messages →
      ((machine size).run (init memory orders) done).bookIdOf message ≠
        invalidBookId →
      ((machine size).run (init memory orders) done).Served message) ↔
    (machine size).Each SymbolFits (init memory orders) messages := by
  have hstart : ∃ registry, PrefixTrie.init.Holds registry ∧
      registry.keys.length ≤ maxSymbols.toNat :=
        ⟨_, PrefixTrie.init_holds, Nat.zero_le _⟩
  have hcongr : (machine size).Each
      (fun state message => state.bookIdOf message ≠ invalidBookId →
        state.Served message)
      (init memory orders) messages ↔
        (machine size).Each SymbolFits (init memory orders)
        messages := by
    refine Machine.each_congr (fun state : Pipeline size => ∃ registry,
      state.trie.Holds registry ∧
        registry.keys.length ≤ maxSymbols.toNat) ?_ ?_ hstart messages
    · rintro state message ⟨registry, hholds, hfew⟩
      exact (served_iff_symbolFits hholds hfew message).1
    · rintro state message ⟨registry, hholds, hfew⟩ hserved
      have hstep := served_iff_symbolFits hholds hfew message
      exact hstep.2 (hstep.1.mp hserved)
  exact Machine.each_iff_prefix.symm.trans hcongr

/-- The `n`th of symbols that share their first byte. -/
def numberedSymbol (n : ℕ) : Symbol :=
  #v[65, 0, 0, 0, 0, 0, .ofNat (n / 128), .ofNat (n % 128)]

def numberedAdd (n : ℕ) : ItchMessage := ⟨addType, numberedSymbol n, 0, 100, 1⟩

theorem numberedSymbol_word (n : ℕ) :
    ∃ back, PrefixTrie.word (numberedSymbol n) = 65 :: back :=
  ⟨_, rfl⟩

theorem numberedSymbol_word_inj {n m : ℕ} (hn : n < 16384) (hm : m < 16384)
    (heq : PrefixTrie.word (numberedSymbol n) =
      PrefixTrie.word (numberedSymbol m)) : n = m := by
  have hclamp : ∀ k, k < 128 → (PrefixTrie.clampByte (.ofNat k)).toNat = k := by
    intro k hk
    have hsmall : ¬ UInt8.ofNat k ≥ alphabetSize := by
      have halphabet : alphabetSize.toNat = 128 := rfl
      rw [ge_iff_le, UInt8.le_iff_toNat_le, halphabet, UInt8.toNat_ofNat',
        Nat.mod_eq_of_lt] <;>
        omega
    rw [PrefixTrie.clampByte, if_neg hsmall, UInt8.toNat_ofNat',
      Nat.mod_eq_of_lt (by omega)]
  simp only [PrefixTrie.word, numberedSymbol, Vector.toList_mk, List.map_cons,
    List.map_nil, List.cons.injEq, true_and, and_true] at heq
  have hhigh := congrArg UInt8.toNat heq.1
  have hlow := congrArg UInt8.toNat heq.2
  rw [hclamp _ (by omega), hclamp _ (by omega)] at hhigh hlow
  omega

/-- Where the numbered symbols before the `n`th are registered, it is
the next. -/
theorem numberedSymbol_next {trie : PrefixTrie}
    {registry : Registry (List UInt8)} {n : ℕ} (hholds : trie.Holds registry)
    (hkeys : registry.keys = (List.range n).map fun k =>
      PrefixTrie.word (numberedSymbol k))
    (hcount : trie.nodeCount.toNat ≤ 1 + 7 * n + min n 1) (hn : n ≤ 256) :
    ∃ hnew : PrefixTrie.word (numberedSymbol n) ∉ registry.keys,
      (trie.getOrCreate (numberedSymbol n)).bookId = .ofNat n ∧
      (trie.getOrCreate (numberedSymbol n)).trie.Holds (registry.add _ hnew) ∧
      (trie.getOrCreate (numberedSymbol n)).trie.nodeCount.toNat ≤
        1 + 7 * (n + 1) + min (n + 1) 1 := by
  have hnew : PrefixTrie.word (numberedSymbol n) ∉ registry.keys := by
    rw [hkeys, List.mem_map]
    rintro ⟨k, hk, heq⟩
    rw [List.mem_range] at hk
    have hsame := numberedSymbol_word_inj (by omega) (by omega) heq
    omega
  have hlength : registry.keys.length = n := by
    rw [hkeys, List.length_map, List.length_range]
  have hmissing : trie.missing 0 (numberedSymbol n).toList ≤ 8 - min n 1 := by
    rcases Nat.eq_zero_or_pos n with rfl | hpos
    · exact trie.missing_le 0 _
    · have hkey : PrefixTrie.word (numberedSymbol 0) ∈ registry.keys := by
        rw [hkeys]
        exact List.mem_map_of_mem (List.mem_range.mpr hpos)
      obtain ⟨back, hword⟩ := numberedSymbol_word n
      obtain ⟨front, hfront⟩ := numberedSymbol_word 0
      rw [hfront] at hkey
      have hseven := hholds.missing_le_seven hword hkey
      omega
  have hnodes : trie.HasNodesFor (numberedSymbol n) := by
    have hmax : maxNodes.toNat = 2048 := rfl
    rw [PrefixTrie.HasNodesFor, hmax]
    omega
  have hids : registry.keys.length < maxBooks.toNat := by
    have hmax : maxBooks.toNat = 1000 := rfl
    omega
  obtain ⟨hid, hholds', hcount'⟩ := hholds.register hnew hnodes hids
  rw [hlength] at hid
  exact ⟨hnew, hid, hholds', by omega⟩

/-- The numbered symbols are registered one by one. -/
theorem numbered_registered (memory : UInt32 → LFUNode)
    (orders : UInt32 → Order) {n : ℕ} (hn : n ≤ 256) : ∃ registry,
      ((machine size).run (init memory orders)
        ((List.range n).map numberedAdd)).trie.Holds
        registry ∧
      registry.keys = (List.range n).map
        (fun k => PrefixTrie.word (numberedSymbol k)) ∧
      ((machine size).run (init memory orders)
        ((List.range n).map numberedAdd)).trie.nodeCount.toNat ≤
          1 + 7 * n + min n 1 := by
  induction n with
  | zero => exact ⟨Registry.empty, PrefixTrie.init_holds, rfl, Nat.le_refl 1⟩
  | succ n ih =>
      obtain ⟨registry, hholds, hkeys, hcount⟩ := ih (by omega)
      rw [List.range_succ, List.map_append, Machine.run_append]
      generalize (machine size).run (init memory orders)
        ((List.range n).map numberedAdd) = state
        at hholds hcount ⊢
      have hstep : (machine size).run state ([n].map numberedAdd) =
          state.processMessage (numberedAdd n) := rfl
      rw [hstep, processMessage_trie]
      obtain ⟨hnew, -, hholds', hcount'⟩ :=
        numberedSymbol_next hholds hkeys hcount (by omega)
      refine ⟨_, hholds', ?_, hcount'⟩
      rw [Registry.add_keys, hkeys, List.map_append, List.map_singleton]

theorem numberedSymbol_refused {state : Pipeline size}
    {registry : Registry (List UInt8)} {n : ℕ}
    (hholds : state.trie.Holds registry)
    (hkeys : registry.keys = (List.range n).map fun k =>
      PrefixTrie.word (numberedSymbol k))
    (hcount : state.trie.nodeCount.toNat ≤ 1 + 7 * n + min n 1) (hn : n = 256) :
    ¬ (state.bookIdOf (numberedAdd n) ≠ invalidBookId →
      state.Served (numberedAdd n)) := by
  obtain ⟨-, hid, -⟩ := numberedSymbol_next hholds hkeys hcount (by omega)
  have hbookId : state.bookIdOf (numberedAdd n) = .ofNat n := hid
  rw [served_iff, hbookId, hn]
  decide

/-- The symbol registered after `MAX_SYMBOLS` others has a valid id and
no book. -/
theorem symbol_256_not_served :
    let state :=
      (machine maxOrders).run (init (fun _ => default) fun _ => default)
      ((List.range 256).map numberedAdd)
    ¬ (state.bookIdOf (numberedAdd 256) ≠ invalidBookId →
      state.Served (numberedAdd 256)) := by
  intro state
  obtain ⟨n, hn⟩ : ∃ n, n = 256 := ⟨256, rfl⟩
  obtain ⟨registry, hholds, hkeys, hcount⟩ :=
    @numbered_registered maxOrders (fun _ => default) (fun _ => default) n
      (Nat.le_of_eq hn)
  have hrefused := numberedSymbol_refused hholds hkeys hcount hn
  subst hn
  exact hrefused

end Pipeline

end MarketDataPipeline
