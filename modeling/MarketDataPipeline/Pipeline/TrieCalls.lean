import MarketDataPipeline.Pipeline.TrieMap

/-!
# What callers of the trie see

Any sequence of `insert` and `get_or_create` registers symbols one by one.  The
ids they return tell which symbols are registered and in which order.
-/

namespace MarketDataPipeline.PrefixTrie

/-- Symbols that the trie does not tell apart. -/
def Equivalent (symbol other : Symbol) : Prop :=
  symbol.map clampByte = other.map clampByte

theorem equivalent_iff {symbol other : Symbol} :
    Equivalent symbol other ↔ word symbol = word other := by
  rw [Equivalent, word, word, ← Vector.toList_map, ← Vector.toList_map,
    Vector.toList_inj]

/-- The calls that may register a symbol. -/
inductive Call
  | insert (symbol : Symbol)
  | getOrCreate (symbol : Symbol)

def Call.symbol : Call → Symbol
  | insert symbol => symbol
  | getOrCreate symbol => symbol

/-- The id a call returns, and the trie after it. -/
def perform (trie : PrefixTrie) : Call → UInt16 × PrefixTrie
  | .insert symbol => trie.insert symbol
  | .getOrCreate symbol =>
      ((trie.getOrCreate symbol).bookId, (trie.getOrCreate symbol).trie)

def machine : Machine PrefixTrie Call where
  allowed _ _ := True
  step trie call := (trie.perform call).2

/-- The symbols of calls with the ids that they return. -/
def answers (trie : PrefixTrie) : List Call → List (Symbol × UInt16)
  | [] => []
  | call :: rest =>
      (call.symbol, (trie.perform call).1) :: (trie.perform call).2.answers rest

def issued (trie : PrefixTrie) (calls : List Call) : List (Symbol × UInt16) :=
  (trie.answers calls).filter fun answer => answer.2 ≠ invalidBookId

theorem answers_append (trie : PrefixTrie) (calls later : List Call) :
    trie.answers (calls ++ later) =
      trie.answers calls ++ (machine.run trie calls).answers later := by
  induction calls generalizing trie with
  | nil => rfl
  | cons call rest ih =>
      rw [List.cons_append, answers, answers, List.cons_append, ih]
      rfl

theorem issued_append (trie : PrefixTrie) (calls later : List Call) :
    trie.issued (calls ++ later) =
      trie.issued calls ++ (machine.run trie calls).issued later := by
  rw [issued, answers_append, List.filter_append]
  rfl

/-! ## The history of a registry -/

/-- The ids issued so far are those of the words in the registry. -/
structure Recorded (trie : PrefixTrie) (issued : List (Symbol × UInt16))
    (registry : Registry (List UInt8)) : Prop where
  holds : trie.Holds registry
  answered : ∀ answer ∈ issued,
    word answer.1 ∈ registry.keys ∧ answer.2 = idIn registry (word answer.1)
  registered : ∀ key ∈ registry.keys, ∃ answer ∈ issued, word answer.1 = key
  order : (issued.map Prod.snd).eraseDups =
    (List.range registry.keys.length).map UInt16.ofNat

theorem Holds.perform {trie : PrefixTrie} {registry : Registry (List UInt8)}
    (hholds : trie.Holds registry) (call : Call) :
    ∃ registry', Registered registry (word call.symbol)
      (trie.perform call).1 registry' ∧
      (trie.perform call).2.Holds registry' := by
  cases call with
  | insert symbol => exact hholds.insert symbol
  | getOrCreate symbol => exact hholds.getOrCreate symbol

theorem eraseDups_concat {α : Type*} [DecidableEq α]
    (front : List α) (last : α) :
    (front ++ [last]).eraseDups =
      if last ∈ front then front.eraseDups else front.eraseDups ++ [last] := by
  rw [List.eraseDups_append]
  by_cases hlast : last ∈
    front <;> simp [List.removeAll, List.eraseDups_cons, hlast]

section Recorded

variable {trie trie' : PrefixTrie} {issued : List (Symbol × UInt16)}
  {registry : Registry (List UInt8)} {symbol : Symbol}

theorem Recorded.mem_issued_iff (hrecorded : trie.Recorded issued registry)
    (id : UInt16) :
    id ∈ issued.map Prod.snd ↔
      ∃ key ∈ registry.keys, id = idIn registry key := by
  rw [List.mem_map]
  constructor
  · rintro ⟨answer, hanswer, rfl⟩
    exact ⟨_, hrecorded.answered answer hanswer⟩
  · rintro ⟨key, hkey, rfl⟩
    obtain ⟨answer, hanswer, rfl⟩ := hrecorded.registered key hkey
    exact ⟨answer, hanswer, (hrecorded.answered answer hanswer).2⟩

/-- A registered symbol is answered with its id. -/
theorem Recorded.known (hrecorded : trie.Recorded issued registry)
    (hholds' : trie'.Holds registry) (hkey : word symbol ∈ registry.keys) :
    trie'.Recorded (issued ++ [(symbol, idIn registry (word symbol))])
      registry := by
  refine ⟨hholds', fun answer hanswer => ?_, fun key hkey' => ?_, ?_⟩
  · rcases List.mem_append.mp hanswer with hold | hlast
    · exact hrecorded.answered answer hold
    · rw [List.mem_singleton.mp hlast]
      exact ⟨hkey, rfl⟩
  · obtain ⟨answer, hanswer, hword⟩ := hrecorded.registered key hkey'
    exact ⟨answer, List.mem_append_left _ hanswer, hword⟩
  · rw [List.map_append, List.map_singleton, eraseDups_concat,
      if_pos ((hrecorded.mem_issued_iff _).mpr ⟨_, hkey, rfl⟩)]
    exact hrecorded.order

/-- A new symbol is answered with the next id. -/
theorem Recorded.first (hrecorded : trie.Recorded issued registry)
    (hnew : word symbol ∉ registry.keys)
    (hholds' : trie'.Holds (registry.add (word symbol) hnew)) :
    trie'.Recorded (issued ++ [(symbol, .ofNat registry.keys.length)])
      (registry.add (word symbol) hnew) := by
  have hkeys := registry.add_keys (word symbol) hnew
  refine ⟨hholds', fun answer hanswer => ?_, fun key hkey => ?_, ?_⟩
  · rw [hkeys, idIn_add]
    rcases List.mem_append.mp hanswer with hold | hlast
    · obtain ⟨hkey, hid⟩ := hrecorded.answered answer hold
      have hne : word answer.1 ≠ word symbol := fun heq => hnew (heq ▸ hkey)
      rw [if_neg hne]
      exact ⟨List.mem_append_left _ hkey, hid⟩
    · rw [List.mem_singleton.mp hlast, if_pos rfl]
      exact ⟨List.mem_append_right _ (List.mem_singleton_self _), rfl⟩
  · rw [hkeys] at hkey
    rcases List.mem_append.mp hkey with hold | hlast
    · obtain ⟨answer, hanswer, hword⟩ := hrecorded.registered key hold
      exact ⟨answer, List.mem_append_left _ hanswer, hword⟩
    · exact ⟨_, List.mem_append_right _ (List.mem_singleton_self _),
        (List.mem_singleton.mp hlast).symm⟩
  · have hcapacity := hholds'.capacity
    have hmax : maxBooks.toNat = 1000 := rfl
    rw [hkeys, List.length_append, List.length_singleton] at hcapacity
    have hunused : UInt16.ofNat registry.keys.length ∉ issued.map Prod.snd := by
      rw [hrecorded.mem_issued_iff]
      rintro ⟨key, hkey, heq⟩
      have hlt := idIn_lt hrecorded.holds.capacity hkey
      rw [← heq, UInt16.toNat_ofNat', Nat.mod_eq_of_lt (by omega)] at hlt
      exact Nat.lt_irrefl _ hlt
    rw [List.map_append, List.map_singleton, eraseDups_concat, if_neg hunused,
      hrecorded.order, hkeys, List.length_append, List.length_singleton,
      List.range_succ, List.map_append,
      List.map_singleton]

theorem Recorded.perform (hrecorded : trie.Recorded issued registry)
    (call : Call) :
    ∃ registry', (trie.perform call).2.Recorded (issued ++ trie.issued [call])
      registry' := by
  have hcapacity := hrecorded.holds.capacity
  have hmax : maxBooks.toNat = 1000 := rfl
  obtain ⟨registry', hregistered, hholds'⟩ := hrecorded.holds.perform call
  have hlast : trie.issued [call] =
      if (trie.perform call).1 = invalidBookId then []
      else [(call.symbol, (trie.perform call).1)] := by
    rw [PrefixTrie.issued, answers, answers, List.filter_cons]
    by_cases hinvalid : (trie.perform call).1 =
      invalidBookId <;> simp [hinvalid]
  rw [hlast]
  generalize (trie.perform call).1 = id at hregistered ⊢
  refine ⟨registry', ?_⟩
  cases hregistered with
  | known hkey =>
      rw [if_neg ((idIn_ne_invalid_iff hcapacity).mpr hkey)]
      exact hrecorded.known hholds' hkey
  | issued hnew hroom =>
      have hvalid : UInt16.ofNat registry.keys.length ≠ invalidBookId := by
        rw [Ne, ← UInt16.toNat_inj, UInt16.toNat_ofNat',
          Nat.mod_eq_of_lt (by omega)]
        have hinvalid : invalidBookId.toNat = 65535 := rfl
        omega
      rw [if_neg hvalid]
      exact hrecorded.first hnew hholds'
  | refused =>
      rw [if_pos rfl, List.append_nil]
      exact ⟨hholds', hrecorded.answered, hrecorded.registered, hrecorded.order⟩

end Recorded

/-- After any calls the trie holds a registry of what they were answered. -/
theorem run_recorded (calls : List Call) :
    ∃ registry, (machine.run init calls).Recorded (init.issued calls)
      registry := by
  induction calls using List.reverseRecOn with
  | nil =>
      refine ⟨Registry.empty, init_holds, fun answer hanswer =>
        ?_, fun key hkey => ?_, rfl⟩
      · simp [issued, answers] at hanswer
      · simp [Registry.empty] at hkey
  | append_singleton calls call ih =>
      obtain ⟨registry, hrecorded⟩ := ih
      rw [Machine.run_append, issued_append]
      exact hrecorded.perform call

/-! ## Indices into the nodes -/

/-- The indices that the loop of `lookup` uses, with the node it ends at. -/
def followed (trie : PrefixTrie) (nodeIdx : UInt32) : List UInt8 → List UInt32
  | [] => [nodeIdx]
  | byte :: rest =>
      let child := (trie.nodes nodeIdx).children (clampByte byte)
      nodeIdx :: if child = 0 then [] else trie.followed child rest

/-- The indices that the loop of `insert` reads and writes, with the node it
ends at. -/
def extended (trie : PrefixTrie) (nodeIdx : UInt32) : List UInt8 → List UInt32
  | [] => [nodeIdx]
  | byte :: rest =>
      let c := clampByte byte
      nodeIdx ::
        if (trie.nodes nodeIdx).children c = 0 then
          if trie.nodeCount ≥ maxNodes then []
          else
            let extended := trie.addChild nodeIdx c
            extended.extended ((extended.nodes nodeIdx).children c) rest
        else trie.extended ((trie.nodes nodeIdx).children c) rest

def lookupIndices (trie : PrefixTrie) (symbol : Symbol) : List UInt32 :=
  trie.followed 0 symbol.toList

def insertIndices (trie : PrefixTrie) (symbol : Symbol) : List UInt32 :=
  trie.extended 0 symbol.toList

def callIndices (trie : PrefixTrie) : Call → List UInt32
  | .insert symbol => trie.insertIndices symbol
  | .getOrCreate symbol =>
      trie.lookupIndices symbol ++
        if trie.lookup symbol = invalidBookId then trie.insertIndices symbol
        else []

theorem Shaped.followed_lt {trie : PrefixTrie} (hshaped : trie.Shaped)
    {prior : List UInt8} {nodeIdx : UInt32}
    (hprior : trie.reach prior = some nodeIdx) (bytes : List UInt8) :
    ∀ idx ∈ trie.followed nodeIdx bytes, idx < maxNodes := by
  have hlt := UInt32.lt_of_lt_of_le (hshaped.used hprior) hshaped.nodeCount_le
  induction bytes generalizing prior nodeIdx with
  | nil =>
      intro idx hidx
      rw [List.mem_singleton.mp hidx]
      exact hlt
  | cons byte rest ih =>
      intro idx hidx
      rw [followed] at hidx
      rcases List.mem_cons.mp hidx with rfl | hrest
      · exact hlt
      split at hrest
      case isTrue => simp at hrest
      case isFalse hne =>
        have hnext := reach_child hprior hne
        exact ih hnext
          (UInt32.lt_of_lt_of_le (hshaped.used hnext) hshaped.nodeCount_le) idx
          hrest

theorem Shaped.extended_lt {trie : PrefixTrie} (hshaped : trie.Shaped)
    {prior : List UInt8} {nodeIdx : UInt32}
    (hprior : trie.reach prior = some nodeIdx) (bytes : List UInt8) :
    ∀ idx ∈ trie.extended nodeIdx bytes, idx < maxNodes := by
  have hlt := UInt32.lt_of_lt_of_le (hshaped.used hprior) hshaped.nodeCount_le
  induction bytes generalizing trie prior nodeIdx with
  | nil =>
      intro idx hidx
      rw [List.mem_singleton.mp hidx]
      exact hlt
  | cons byte rest ih =>
      intro idx hidx
      rw [extended] at hidx
      rcases List.mem_cons.mp hidx with rfl | hrest
      · exact hlt
      split at hrest
      case isTrue hzero =>
        split at hrest
        case isTrue => simp at hrest
        case isFalse hroom =>
          have hadded := hshaped.addChild hprior hzero (UInt32.not_le.mp hroom)
          have hnext := hshaped.reach_added hprior hzero
          exact ih hadded hnext
            (UInt32.lt_of_lt_of_le (hadded.used hnext) hadded.nodeCount_le)
            idx hrest
      case isFalse hne =>
        have hnext := reach_child hprior hne
        exact ih hshaped hnext
          (UInt32.lt_of_lt_of_le (hshaped.used hnext) hshaped.nodeCount_le) idx
          hrest

theorem Shaped.lookupIndices_lt {trie : PrefixTrie} (hshaped : trie.Shaped)
    (symbol : Symbol) :
    ∀ idx ∈ trie.lookupIndices symbol, idx < maxNodes := by
  have hroot : trie.reach [] = some 0 := rfl
  exact hshaped.followed_lt hroot symbol.toList

theorem Shaped.callIndices_lt {trie : PrefixTrie} (hshaped : trie.Shaped)
    (call : Call) :
    ∀ idx ∈ trie.callIndices call, idx < maxNodes := by
  have hroot : trie.reach [] = some 0 := rfl
  have hinsert : ∀ symbol, ∀ idx ∈ trie.insertIndices symbol, idx < maxNodes :=
      fun symbol =>
    hshaped.extended_lt hroot symbol.toList
  intro idx hidx
  cases call with
  | insert symbol => exact hinsert symbol idx hidx
  | getOrCreate symbol =>
      rcases List.mem_append.mp hidx with hlookup | hrest
      · exact hshaped.lookupIndices_lt symbol idx hlookup
      split at hrest
      · exact hinsert symbol idx hrest
      · simp at hrest

/-! ## The map -/

/-- The trie after any sequence of calls, of which any may fail.  A symbol is
found exactly when a call on an equivalent symbol returned a valid id, and it is
found under that id.  Symbols found under one id are equivalent.  The ids were
issued in the order 0, 1, 2, ... up to `get_book_count`, and neither lookups nor
further calls leave the node array. -/
theorem finite_map (calls : List Call) :
    let trie := machine.run init calls
    let issued := init.issued calls
    (∀ symbol, trie.lookup symbol ≠ invalidBookId ↔
      ∃ answer ∈ issued, Equivalent answer.1 symbol) ∧
    (∀ symbol, ∀ answer ∈ issued, Equivalent answer.1 symbol →
      trie.lookup symbol = answer.2) ∧
    (∀ symbol other, trie.lookup symbol ≠ invalidBookId →
      trie.lookup symbol = trie.lookup other → Equivalent symbol other) ∧
    (issued.map Prod.snd).eraseDups =
      (List.range trie.getBookCount.toNat).map UInt16.ofNat ∧
    (∀ symbol, ∀ idx ∈ trie.lookupIndices symbol, idx < maxNodes) ∧
    ∀ call, ∀ idx ∈ trie.callIndices call, idx < maxNodes := by
  intro trie issued
  obtain ⟨registry, hrecorded⟩ := run_recorded calls
  have hholds : trie.Holds registry := hrecorded.holds
  have hvalid : ∀ symbol, trie.lookup symbol ≠ invalidBookId ↔
      word symbol ∈ registry.keys := by
    intro symbol
    rw [hholds.lookup_eq]
    exact idIn_ne_invalid_iff hholds.capacity
  refine ⟨fun symbol => ?_, fun symbol answer hanswer hequivalent => ?_,
    fun symbol other hfound hsame => ?_, ?_, hholds.shaped.lookupIndices_lt,
    hholds.shaped.callIndices_lt⟩
  · rw [hvalid]
    constructor
    · intro hkey
      obtain ⟨answer, hanswer, hword⟩ := hrecorded.registered _ hkey
      exact ⟨answer, hanswer, equivalent_iff.mpr hword⟩
    · rintro ⟨answer, hanswer, hequivalent⟩
      rw [← equivalent_iff.mp hequivalent]
      exact (hrecorded.answered answer hanswer).1
  · rw [hholds.lookup_eq, ← equivalent_iff.mp hequivalent]
    exact (hrecorded.answered answer hanswer).2.symm
  · have hother : trie.lookup other ≠ invalidBookId := hsame ▸ hfound
    rw [hholds.lookup_eq, hholds.lookup_eq] at hsame
    exact equivalent_iff.mpr
      (idIn_inj hholds.capacity ((hvalid symbol).mp hfound)
        ((hvalid other).mp hother) hsame)
  · rw [getBookCount, hholds.next]
    exact hrecorded.order

end MarketDataPipeline.PrefixTrie
