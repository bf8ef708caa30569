import MarketDataPipeline.Core.Machine
import MarketDataPipeline.Core.Registry
import MarketDataPipeline.Pipeline.TrieShape

/-!
# The trie as a finite map

A `PrefixTrie` holds a registry of words: `lookup` returns the number of a
registered word, and `insert` registers a word unless the nodes or the ids run
out.  What callers see over any sequence of calls follows from the registry.
-/

namespace MarketDataPipeline.PrefixTrie

def getBookCount (trie : PrefixTrie) : UInt16 := trie.nextBookId

/-- The number of a word as a book id. -/
def idIn (registry : Registry (List UInt8)) (word : List UInt8) : UInt16 :=
  match registry.number word with
  | some n => .ofNat n
  | none => invalidBookId

/-- The trie holds a registry of words. -/
structure Holds (trie : PrefixTrie) (registry : Registry (List UInt8)) :
    Prop where
  shaped : trie.Shaped
  capacity : registry.keys.length ≤ maxBooks.toNat
  next : trie.nextBookId.toNat = registry.keys.length
  bookId : ∀ ⦃word node⦄, trie.reach word = some node →
    (trie.nodes node).bookId = idIn registry word
  reached : ∀ key ∈ registry.keys, ∃ node, trie.reach key = some node

/-! ## Ids -/

section Ids

variable {registry : Registry (List UInt8)} {word other : List UInt8}

theorem idIn_of_notMem (hnew : word ∉ registry.keys) :
    idIn registry word = invalidBookId := by
  rw [idIn, Registry.number_eq_none_iff.mpr hnew]

theorem idIn_toNat (hcapacity : registry.keys.length ≤ maxBooks.toNat) {n : ℕ}
    (hnumber : registry.number word = some n) :
    (idIn registry word).toNat = n := by
  have hmax : maxBooks.toNat = 1000 := rfl
  have hlt := Registry.number_lt hnumber
  rw [idIn, hnumber]
  dsimp only
  rw [UInt16.toNat_ofNat', Nat.mod_eq_of_lt (by omega)]

theorem idIn_lt (hcapacity : registry.keys.length ≤ maxBooks.toNat)
    (hword : word ∈ registry.keys) :
    (idIn registry word).toNat < registry.keys.length := by
  obtain ⟨n, hnumber⟩ := Registry.exists_number hword
  rw [idIn_toNat hcapacity hnumber]
  exact Registry.number_lt hnumber

theorem idIn_ne_invalid_iff (hcapacity : registry.keys.length ≤
    maxBooks.toNat) :
    idIn registry word ≠ invalidBookId ↔ word ∈ registry.keys := by
  refine ⟨fun hvalid => ?_, fun hword heq => ?_⟩
  · by_contra hnew
    exact hvalid (idIn_of_notMem hnew)
  · have hmax : maxBooks.toNat = 1000 := rfl
    have hinvalid : invalidBookId.toNat = 65535 := rfl
    have hlt := idIn_lt hcapacity hword
    rw [heq] at hlt
    omega

/-- Different words have different ids. -/
theorem idIn_inj (hcapacity : registry.keys.length ≤ maxBooks.toNat)
    (hword : word ∈ registry.keys) (hother : other ∈ registry.keys)
    (heq : idIn registry word = idIn registry other) : word = other := by
  obtain ⟨n, hnumber⟩ := Registry.exists_number hword
  obtain ⟨n', hnumber'⟩ := Registry.exists_number hother
  have hsame := congrArg UInt16.toNat heq
  rw [idIn_toNat hcapacity hnumber, idIn_toNat hcapacity hnumber'] at hsame
  exact Registry.number_inj hnumber (hsame ▸ hnumber')

theorem idIn_add (hnew : word ∉ registry.keys) (other : List UInt8) :
    idIn (registry.add word hnew) other =
      if other = word then .ofNat registry.keys.length
      else idIn registry other := by
  rw [idIn, Registry.number_add]
  by_cases hother : other = word
  · rw [if_pos hother, if_pos hother]
  · rw [if_neg hother, if_neg hother, idIn]

end Ids

/-! ## Calls on a registry -/

/-- What registering a word may return, and the registry after it. -/
inductive Registered (registry : Registry (List UInt8)) (word : List UInt8) :
    UInt16 → Registry (List UInt8) → Prop
  | known (hkey : word ∈ registry.keys) :
      Registered registry word (idIn registry word) registry
  | issued (hnew : word ∉ registry.keys)
      (hroom : registry.keys.length < maxBooks.toNat) :
      Registered registry word (.ofNat registry.keys.length)
        (registry.add word hnew)
  | refused (hnew : word ∉ registry.keys) :
      Registered registry word invalidBookId registry

variable {trie : PrefixTrie} {registry : Registry (List UInt8)}

/-- A registered word stays registered under its id. -/
theorem Registered.kept {word key : List UInt8} {id : UInt16}
    {registry registry' : Registry (List UInt8)}
    (hregistered : Registered registry word id registry')
    (hkey : key ∈ registry.keys) :
    key ∈ registry'.keys ∧ idIn registry' key = idIn registry key := by
  cases hregistered with
  | known | refused => exact ⟨hkey, rfl⟩
  | issued hnew =>
      have hne : key ≠ word := fun heq => hnew (heq ▸ hkey)
      rw [Registry.add_keys, idIn_add hnew, if_neg hne]
      exact ⟨List.mem_append_left _ hkey, rfl⟩

/-- A word that got a valid id is registered under it. -/
theorem Registered.id_eq {word : List UInt8} {id : UInt16}
    {registry registry' : Registry (List UInt8)}
    (hregistered : Registered registry word id registry')
    (hvalid : id ≠ invalidBookId) :
    word ∈ registry'.keys ∧ idIn registry' word = id := by
  cases hregistered with
  | known hkey => exact ⟨hkey, rfl⟩
  | issued hnew =>
      rw [Registry.add_keys, idIn_add hnew, if_pos rfl]
      exact ⟨by simp, rfl⟩
  | refused => exact absurd rfl hvalid

theorem init_holds : init.Holds Registry.empty := by
  refine ⟨init_shaped, Nat.zero_le _, rfl, fun word node _ =>
    ?_, fun key hkey => ?_⟩
  · rw [idIn_of_notMem (by simp [Registry.empty])]
    rfl
  · simp [Registry.empty] at hkey

theorem Holds.lookup_eq (hholds : trie.Holds registry) (symbol : Symbol) :
    trie.lookup symbol = idIn registry (word symbol) := by
  rw [lookup, follow_symbol]
  cases hreach : trie.reach (word symbol) with
  | some node => exact hholds.bookId hreach
  | none =>
      refine (idIn_of_notMem fun hkey => ?_).symm
      obtain ⟨node, hnode⟩ := hholds.reached _ hkey
      rw [hreach] at hnode
      simp at hnode

/-- Nodes that are only added register nothing. -/
theorem Holds.grow (hholds : trie.Holds registry) {trie' : PrefixTrie}
    (hshaped : trie'.Shaped)
    (hgrows : Grows trie trie') : trie'.Holds registry := by
  refine ⟨hshaped, hholds.capacity, ?_, fun word node hword =>
    ?_, fun key hkey => ?_⟩
  · rw [hgrows.nextBookId]
    exact hholds.next
  · rw [hgrows.bookId]
    rcases hgrows.added hword with hold | hnew
    · exact hholds.bookId hold
    · rw [hholds.shaped.unused node hnew, idIn_of_notMem]
      intro hkey
      obtain ⟨old, hold⟩ := hholds.reached word hkey
      have hsame : old = node :=
        Option.some.inj ((hgrows.kept hold).symm.trans hword)
      exact UInt32.not_lt.mpr hnew (hsame ▸ hholds.shaped.used hold)
  · obtain ⟨node, hnode⟩ := hholds.reached key hkey
    exact ⟨node, hgrows.kept hnode⟩

/-- Writing ids changes no edge. -/
theorem assign_reach (trie : PrefixTrie) (node : UInt32)
    (bookId nextBookId : UInt16) :
    ({ trie with
      nodes := Function.update trie.nodes node
        { trie.nodes node with bookId := bookId }
      nextBookId } : PrefixTrie).childOf = trie.childOf ∧
    ({ trie with
      nodes := Function.update trie.nodes node
        { trie.nodes node with bookId := bookId }
      nextBookId } : PrefixTrie).reach = trie.reach := by
  have hchildOf : ({ trie with
      nodes := Function.update trie.nodes node
        { trie.nodes node with bookId := bookId }
      nextBookId } : PrefixTrie).childOf = trie.childOf := by
    have hchildren : ∀ i, (Function.update trie.nodes node
        { trie.nodes node with bookId := bookId } i).children =
          (trie.nodes i).children := by
      intro i
      by_cases hi : i = node
      · rw [hi, Function.update_self]
      · rw [Function.update_of_ne hi]
    funext i c
    simp only [childOf, hchildren]
  refine ⟨hchildOf, ?_⟩
  funext word
  rw [reach, reach, hchildOf]

theorem Shaped.assign (hshaped : trie.Shaped) {word : List UInt8}
    {node : UInt32} (hnode : trie.reach word = some node)
    (bookId nextBookId : UInt16) :
    Shaped { trie with
      nodes := Function.update trie.nodes node
        { trie.nodes node with bookId := bookId }
      nextBookId } := by
  obtain ⟨hchildOf, hreach⟩ := trie.assign_reach node bookId nextBookId
  refine ⟨?_, ?_, fun i hi => ?_, hshaped.nonempty, hshaped.nodeCount_le⟩
  · rw [hchildOf]
    exact hshaped.tree
  · rw [hreach]
    exact hshaped.used
  · have hne : i ≠ node := by
      rintro rfl
      exact UInt32.not_lt.mpr hi (hshaped.used hnode)
    rw [← hshaped.unused i hi]
    exact Function.update_of_ne hne ..

/-- Writing the next id to the node of a new word registers the word. -/
theorem Holds.assign (hholds : trie.Holds registry) {word : List UInt8}
    {node : UInt32} (hnode : trie.reach word = some node)
    (hnew : word ∉ registry.keys)
    (hroom : registry.keys.length < maxBooks.toNat) :
    Holds { trie with
        nodes := Function.update trie.nodes node
          { trie.nodes node with bookId := trie.nextBookId }
        nextBookId := trie.nextBookId + 1 } (registry.add word hnew) := by
  have hmax : maxBooks.toNat = 1000 := rfl
  have hlength := registry.add_length word hnew
  have hreach :=
    (trie.assign_reach node trie.nextBookId (trie.nextBookId + 1)).2
  refine ⟨hholds.shaped.assign hnode trie.nextBookId (trie.nextBookId + 1),
    ?_, ?_, fun word' i hword' => ?_, fun key hkey => ?_⟩
  · rw [hlength]
    exact hroom
  · dsimp only
    rw [hlength, UInt16.toNat_add, UInt16.toNat_one, hholds.next,
      Nat.mod_eq_of_lt]
    omega
  · rw [hreach] at hword'
    dsimp only
    rw [idIn_add]
    by_cases hsame : word' = word
    · subst hsame
      obtain rfl := Option.some.inj (hword'.symm.trans hnode)
      rw [Function.update_self, if_pos rfl, ← hholds.next, UInt16.ofNat_toNat]
    · have hi : i ≠ node := by
        rintro rfl
        exact hsame (hholds.shaped.tree hword' hnode)
      rw [Function.update_of_ne hi, if_neg hsame]
      exact hholds.bookId hword'
  · rw [hreach]
    rcases List.mem_append.mp hkey with hold | hlast
    · exact hholds.reached key hold
    · rw [List.mem_singleton.mp hlast]
      exact ⟨node, hnode⟩

/-- `insert` registers the word of the symbol, unless the nodes or the ids run
out. -/
theorem Holds.insert (hholds : trie.Holds registry) (symbol : Symbol) :
    ∃ registry', Registered registry (word symbol)
      (trie.insert symbol).1 registry' ∧
      (trie.insert symbol).2.Holds registry' := by
  have hroot : trie.reach [] = some 0 := rfl
  obtain ⟨hshaped, hgrows, hfound, hknown⟩ :=
    hholds.shaped.extend hroot symbol.toList
  change ∀ node, _ →
    (trie.extend 0 symbol.toList).2.reach (word symbol) = some node at hfound
  change ∀ node, trie.reach (word symbol) = some node → _ at hknown
  have hgrown := hholds.grow hshaped hgrows
  rw [PrefixTrie.insert]
  generalize hextend : trie.extend 0 symbol.toList = reached at *
  obtain ⟨_ | node, extended⟩ := reached
  · refine ⟨registry, Registered.refused fun hkey => ?_, hgrown⟩
    obtain ⟨node, hnode⟩ := hholds.reached _ hkey
    simp at hknown
    exact hknown node hnode
  dsimp only at hfound hgrown ⊢
  have hnode := hfound node rfl
  have hbookId := hgrown.bookId hnode
  split
  case isFalse hvalid =>
    rw [hbookId] at hvalid ⊢
    exact ⟨registry, Registered.known
      ((idIn_ne_invalid_iff hholds.capacity).mp hvalid), hgrown⟩
  case isTrue hinvalid =>
    have hnew : word symbol ∉ registry.keys := by
      intro hkey
      exact (idIn_ne_invalid_iff hholds.capacity).mpr hkey
        (hbookId.symm.trans hinvalid)
    split
    case isTrue => exact ⟨registry, Registered.refused hnew, hgrown⟩
    case isFalse hids =>
      have hroom : registry.keys.length < maxBooks.toNat := by
        rw [← hgrown.next]
        exact UInt16.lt_iff_toNat_lt.mp (UInt16.not_le.mp hids)
      refine ⟨registry.add (word symbol) hnew, ?_,
        hgrown.assign hnode hnew hroom⟩
      have hnext : extended.nextBookId = .ofNat registry.keys.length := by
        rw [← hgrown.next, UInt16.ofNat_toNat]
      dsimp only
      rw [hnext]
      exact Registered.issued hnew hroom

theorem Holds.getOrCreate (hholds : trie.Holds registry) (symbol : Symbol) :
    ∃ registry', Registered registry (word symbol)
      (trie.getOrCreate symbol).bookId registry' ∧
      (trie.getOrCreate symbol).trie.Holds registry' := by
  have hlookup := hholds.lookup_eq symbol
  rw [PrefixTrie.getOrCreate]
  dsimp only
  split
  case isTrue => exact hholds.insert symbol
  case isFalse hvalid =>
    rw [hlookup] at hvalid ⊢
    exact ⟨registry, Registered.known
      ((idIn_ne_invalid_iff hholds.capacity).mp hvalid), hholds⟩

end MarketDataPipeline.PrefixTrie
