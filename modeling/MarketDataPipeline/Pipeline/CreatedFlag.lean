import MarketDataPipeline.Pipeline.FailedRegistration

/-!
# The `created` flag

`get_or_create` sets its flag when `lookup` finds nothing, before `insert` has
succeeded.  The flag is right as long as every symbol that is not found can be
registered, and so is the count of symbols that the loop keeps from it.
-/

namespace MarketDataPipeline

variable {size : UInt32}

namespace PrefixTrie

variable {trie : PrefixTrie} {registry : Registry (List UInt8)}

/-- The call returns the next book id and counts it as issued. -/
def IssuesId (trie : PrefixTrie) (symbol : Symbol) : Prop :=
  (trie.getOrCreate symbol).bookId = trie.getBookCount ∧
    (trie.getOrCreate symbol).trie.getBookCount = trie.getBookCount + 1

def FlagTruthful (trie : PrefixTrie) (symbol : Symbol) : Prop :=
  (trie.getOrCreate symbol).created = true ↔ trie.IssuesId symbol

/-- A symbol that is not found finds the nodes and the id that it needs. -/
def CanRegister (trie : PrefixTrie) (symbol : Symbol) : Prop :=
  trie.lookup symbol = invalidBookId →
    trie.HasNodesFor symbol ∧ trie.getBookCount < maxBooks

def registrations : Machine PrefixTrie Symbol where
  allowed _ _ := True
  step trie symbol := (trie.getOrCreate symbol).trie

/-- A call raises the flag and the count of ids together, unless it is
refused. -/
theorem Holds.getOrCreate_counts (hholds : trie.Holds registry)
    (symbol : Symbol) :
    (trie.CanRegister symbol ∧
      (trie.getOrCreate symbol).trie.getBookCount.toNat =
        trie.getBookCount.toNat + (trie.getOrCreate symbol).created.toNat ∧
      ((trie.getOrCreate symbol).created = true →
        (trie.getOrCreate symbol).bookId = trie.getBookCount)) ∨
    (¬ trie.CanRegister symbol ∧ (trie.getOrCreate symbol).created = true ∧
      (trie.getOrCreate symbol).bookId = invalidBookId ∧
      (trie.getOrCreate symbol).trie.getBookCount = trie.getBookCount) := by
  obtain ⟨registry', hregistered, hholds'⟩ := hholds.getOrCreate symbol
  have hcreated := getOrCreate_created trie symbol
  have hcount : trie.getBookCount.toNat = registry.keys.length := hholds.next
  have hcount' : (trie.getOrCreate symbol).trie.getBookCount.toNat =
      registry'.keys.length :=
    hholds'.next
  have hcan : trie.lookup symbol = invalidBookId →
      (trie.CanRegister symbol ↔ (trie.getOrCreate symbol).bookId ≠
        invalidBookId) := by
    intro hnew
    rw [getOrCreate_of_unknown hnew, hholds.insert_valid_iff hnew]
    exact ⟨fun hboth => hboth hnew, fun hboth _ => hboth⟩
  generalize (trie.getOrCreate symbol).bookId = id at hregistered hcan ⊢
  cases hregistered with
  | known hkey =>
      have hfound : trie.lookup symbol ≠ invalidBookId := by
        rw [hholds.lookup_eq]
        exact (idIn_ne_invalid_iff hholds.capacity).mpr hkey
      refine Or.inl ⟨fun hnew => absurd hnew hfound, ?_, fun hflag => ?_⟩
      · rw [hcreated, hcount', hcount, decide_eq_false hfound]
        rfl
      · rw [hcreated, decide_eq_false hfound] at hflag
        exact Bool.noConfusion hflag
  | issued hnew hroom =>
      have hnone := hholds.lookup_of_notMem hnew
      have hmax : maxBooks.toNat = 1000 := rfl
      refine Or.inl ⟨(hcan hnone).mpr fun hinvalid => ?_, ?_, fun _ => ?_⟩
      · have hlarge : invalidBookId.toNat = 65535 := rfl
        have hsmall := congrArg UInt16.toNat hinvalid
        rw [UInt16.toNat_ofNat', Nat.mod_eq_of_lt (by omega)] at hsmall
        omega
      · rw [hcreated, hcount', hcount, decide_eq_true hnone,
          Registry.add_length]
        rfl
      · rw [← hcount, UInt16.ofNat_toNat]
  | refused hnew =>
      have hnone := hholds.lookup_of_notMem hnew
      refine Or.inr ⟨fun hregister =>
        (hcan hnone).mp hregister rfl, ?_, rfl, ?_⟩
      · rw [hcreated, decide_eq_true hnone]
      · exact UInt16.toNat_inj.mp (hcount'.trans hcount.symm)

/-- The flag of a call is right exactly when the symbol is known or can be
registered. -/
theorem Holds.flagTruthful_iff (hholds : trie.Holds registry)
    (symbol : Symbol) :
    trie.FlagTruthful symbol ↔ trie.CanRegister symbol := by
  have hbooks : maxBooks.toNat = 1000 := rfl
  have hcapacity := hholds.capacity
  have hnext : trie.getBookCount.toNat = registry.keys.length := hholds.next
  have hsucc : (trie.getBookCount + 1).toNat = trie.getBookCount.toNat + 1 := by
    rw [UInt16.toNat_add, UInt16.toNat_one, Nat.mod_eq_of_lt (by omega)]
  rw [FlagTruthful, IssuesId,
    ← UInt16.toNat_inj (a := (trie.getOrCreate symbol).trie.getBookCount),
    hsucc]
  rcases hholds.getOrCreate_counts symbol with
    ⟨hcan, hcount, hid⟩ | ⟨hrefused, hflag, -, hcount⟩
  · refine iff_of_true ⟨fun hflag => ⟨hid hflag, ?_⟩, fun hissues => ?_⟩ hcan
    · rw [hcount, hflag]
      rfl
    · rw [hcount] at hissues
      exact Bool.toNat_eq_one.mp (by omega)
  · refine iff_of_false (fun htruthful => ?_) hrefused
    have hgrown := (htruthful.mp hflag).2
    rw [hcount] at hgrown
    omega

/-- All flags of a run are right exactly when every symbol that is not found can
be registered. -/
theorem flags_truthful_iff (symbols : List Symbol) :
    (∀ done symbol, done ++ [symbol] <+: symbols →
      (registrations.run init done).FlagTruthful symbol) ↔
    registrations.Each CanRegister init symbols := by
  rw [← Machine.each_iff_prefix]
  refine Machine.each_congr (fun trie => ∃ registry, trie.Holds registry) ?_ ?_
    ⟨_, init_holds⟩ symbols
  · rintro trie symbol ⟨registry, hholds⟩
    exact hholds.flagTruthful_iff symbol
  · rintro trie symbol ⟨registry, hholds⟩ -
    obtain ⟨registry', -, hholds'⟩ := hholds.getOrCreate symbol
    exact ⟨registry', hholds'⟩

end PrefixTrie

namespace Pipeline

/-- The count that the loop keeps agrees with the trie's. -/
def CountsSymbols (state : Pipeline size) : Prop :=
  state.uniqueSymbols.toNat = state.trie.getBookCount.toNat

theorem processMessage_uniqueSymbols (state : Pipeline size)
    (message : ItchMessage) :
    (state.processMessage message).uniqueSymbols =
      if (state.trie.getOrCreate message.symbol).created then
        state.uniqueSymbols + 1
      else state.uniqueSymbols := by
  rw [processMessage]
  split <;> rfl

/-- A message keeps the counts equal exactly when its symbol is known or can be
registered. -/
theorem countsSymbols_step {state : Pipeline size}
    {registry : Registry (List UInt8)} (hholds : state.trie.Holds registry)
    (hcounts : state.CountsSymbols) (message : ItchMessage) :
    (state.processMessage message).CountsSymbols ↔
      state.trie.CanRegister message.symbol := by
  have hbound := state.trie.getBookCount.toNat_lt
  have hsucc : (state.uniqueSymbols + 1).toNat =
      state.uniqueSymbols.toNat + 1 := by
    rw [CountsSymbols] at hcounts
    rw [UInt64.toNat_add, UInt64.toNat_one, Nat.mod_eq_of_lt (by omega)]
  rw [CountsSymbols] at hcounts ⊢
  rw [processMessage_uniqueSymbols, processMessage_trie]
  rcases hholds.getOrCreate_counts message.symbol with
    ⟨hcan, hcount, -⟩ | ⟨hrefused, hflag, -, hcount⟩
  · refine iff_of_true ?_ hcan
    rw [hcount]
    cases (state.trie.getOrCreate message.symbol).created with
    | true =>
        rw [if_pos rfl, hsucc, hcounts]
        rfl
    | false => exact hcounts
  · refine iff_of_false ?_ hrefused
    rw [hcount, if_pos hflag, hsucc]
    omega

/-- The counts agree throughout a run exactly when every symbol that is not
found can be registered. -/
theorem counts_symbols_iff (memory : UInt32 → LFUNode) (orders : UInt32 → Order)
    (messages : List ItchMessage) :
    (∀ done, done <+: messages →
      ((machine size).run (init memory orders) done).CountsSymbols) ↔
    (machine size).Each (fun state message =>
      state.trie.CanRegister message.symbol)
      (init memory orders) messages := by
  have hstart : (init memory orders : Pipeline size).CountsSymbols := rfl
  refine @Machine.always_iff_each _ _ (machine size)
    (fun state => ∃ registry, state.trie.Holds registry) CountsSymbols _ ?_ ?_ _
    ⟨_, PrefixTrie.init_holds⟩ hstart
      _ (Machine.legal_of_forall (fun _ _ => trivial) _ messages)
  · rintro state message ⟨registry, hholds⟩ -
    obtain ⟨registry', -, hholds'⟩ := hholds.getOrCreate message.symbol
    exact ⟨registry', (processMessage_trie state message).symm ▸ hholds'⟩
  · rintro state message ⟨registry, hholds⟩ - hcounts
    exact countsSymbols_step hholds hcounts message

/-- Registration is reported truthfully, call by call and in the count of
symbols, exactly while every symbol that is not found can be registered. -/
theorem created_flag_truthful_iff (symbols : List Symbol)
    (memory : UInt32 → LFUNode) (orders : UInt32 → Order)
    (messages : List ItchMessage) :
    ((∀ done symbol, done ++ [symbol] <+: symbols →
        (PrefixTrie.registrations.run .init done).FlagTruthful symbol) ↔
      PrefixTrie.registrations.Each PrefixTrie.CanRegister .init symbols) ∧
    ((∀ done, done <+: messages →
        ((machine size).run (init memory orders) done).CountsSymbols) ↔
      (machine size).Each (fun state message =>
        state.trie.CanRegister message.symbol)
        (init memory orders) messages) :=
  ⟨PrefixTrie.flags_truthful_iff symbols,
    counts_symbols_iff memory orders messages⟩

/-- The trie of a run depends on the symbols of its messages only. -/
theorem run_trie (state : Pipeline size) (messages : List ItchMessage) :
    ((machine size).run state messages).trie =
      PrefixTrie.registrations.run state.trie
        (messages.map ItchMessage.symbol) := by
  induction messages generalizing state with
  | nil => rfl
  | cons message rest ih =>
      rw [Machine.run_cons, ih, List.map_cons, Machine.run_cons]
      exact congrArg (PrefixTrie.registrations.run · _)
        (processMessage_trie state message)

def addOf (symbol : Symbol) : ItchMessage := ⟨addType, symbol, 0, 100, 1⟩

theorem late_not_registrable {n : ℕ} (hn : n = 291) :
    ¬ (PrefixTrie.registrations.run .init
      ((List.range n).map PrefixTrie.wideSymbol)).CanRegister
        PrefixTrie.lateSymbol := by
  obtain ⟨registry, hbuilt, hkeys, hcount⟩ :=
    PrefixTrie.wideCalls_built (Nat.le_of_eq hn)
  have hrun : PrefixTrie.machine.run .init (PrefixTrie.wideCalls n) =
      PrefixTrie.registrations.run .init
        ((List.range n).map PrefixTrie.wideSymbol) := by
    rw [PrefixTrie.wideCalls, Machine.run, Machine.run, List.foldl_map,
      List.foldl_map]
    rfl
  rw [hrun] at hbuilt hcount
  obtain ⟨hfail, -⟩ := hbuilt.late_blocks_wide hn hkeys (by omega)
  have hperform : ((PrefixTrie.registrations.run .init ((List.range n).map
      PrefixTrie.wideSymbol)).perform (.insert PrefixTrie.lateSymbol)).1 =
        invalidBookId := hfail
  have hnew := (hbuilt.holds.perform_failed hperform).1
  have hnone := hbuilt.holds.lookup_of_notMem hnew
  exact fun hcan => (hbuilt.holds.insert_valid_iff hnone).mpr (hcan hnone) hfail

/-- After 291 symbols the next one is refused, and both the flag and the count
say that it was registered. -/
theorem refused_symbol_reported_created :
    (¬ (PrefixTrie.registrations.run .init
      ((List.range 291).map PrefixTrie.wideSymbol)).FlagTruthful
        PrefixTrie.lateSymbol) ∧
    ¬ ∀ done, done <+: (List.range 291).map (addOf ∘ PrefixTrie.wideSymbol) ++
        [addOf PrefixTrie.lateSymbol] →
      ((machine maxOrders).run (init (fun _ => default) fun _ => default)
        done).CountsSymbols := by
  obtain ⟨n, hn⟩ : ∃ n, n = 291 := ⟨291, rfl⟩
  have hlate := late_not_registrable hn
  subst hn
  generalize (291 : ℕ) = n at hlate ⊢
  constructor
  · obtain ⟨registry, hholds⟩ : ∃ registry, (PrefixTrie.registrations.run .init
        ((List.range n).map PrefixTrie.wideSymbol)).Holds registry :=
      Machine.invariant (fun trie : PrefixTrie => ∃ registry,
        trie.Holds registry)
        (fun _ symbol ⟨_, hholds⟩ _ =>
          (hholds.getOrCreate symbol).imp fun _ hafter => hafter.2)
        ⟨_, PrefixTrie.init_holds⟩
          (Machine.legal_of_forall (fun _ _ => trivial) _ _)
    exact fun htruthful => hlate ((hholds.flagTruthful_iff _).mp htruthful)
  · rw [counts_symbols_iff, Machine.each_iff_prefix]
    intro heach
    have hcan := heach _ _ List.prefix_rfl
    rw [run_trie, List.map_map] at hcan
    exact hlate hcan

end Pipeline

end MarketDataPipeline
