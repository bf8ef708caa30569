import MarketDataPipeline.Cache.PoolPartition
import MarketDataPipeline.Exchange.LimitBook
import MarketDataPipeline.Pipeline.TrieMap

/-!
# The exchange

What the hot loop is for, in plain terms: symbols are numbered as they come, the
books of a few symbols are kept by the LFU policy, and a message goes to the
book of its symbol, a fresh one if the symbol has none.  There is room for a
fixed number of orders in all.

`DescribesCache` says that the books of an `LFUCache` are those of such an
exchange; an access and a delivery keep it so.
-/

namespace MarketDataPipeline

open AbstractBook LFUPolicy

variable {size : UInt32}

/-- The symbols met so far, the policy's cache of their numbers, and
the books. -/
structure Exchange where
  symbols : Registry (List UInt8)
  cache : ReferenceCache
  book : UInt16 → LimitBook

namespace Exchange

def empty : Exchange := ⟨.empty, .empty, fun _ => .empty⟩

/-- The number of orders in the books of the cached symbols. -/
def resting (cache : ReferenceCache) (book : UInt16 → LimitBook) : ℕ :=
  (cache.keys.map fun id => (book id).count).sum

/-- The books once that of `id` is needed: a fresh one unless it is kept. -/
def opened (cache : ReferenceCache) (book : UInt16 → LimitBook) (id : UInt16) :
    UInt16 → LimitBook :=
  if id ∈ cache.keys then book else Function.update book id .empty

/-- A message, with room for `capacity` orders. -/
noncomputable def step (capacity : ℕ) (x : Exchange) (message : ItchMessage) :
    Exchange :=
  let symbol := PrefixTrie.word message.symbol
  let symbols := x.symbols.ensure symbol
  let id := PrefixTrie.idIn symbols symbol
  let cache := (x.cache.access id).2
  let book := opened x.cache x.book id
  { symbols
    cache
    book := Function.update book id
      ((book id).process (resting cache book < capacity) message) }

noncomputable def machine (capacity : ℕ) : Machine Exchange ItchMessage where
  allowed _ _ := True
  step := step capacity

def Fits (x : Exchange) : Prop := ∀ id, (x.book id).Fits

/-- The quantity of all orders in messages. -/
def placed (messages : List ItchMessage) : ℕ :=
  (messages.map fun message => if message.type =
    addType then message.qty.toNat else 0).sum

/-- No level holds more than was ever placed. -/
theorem volume_le_placed (capacity : ℕ) (messages : List ItchMessage)
    (id : UInt16) (side : Side) (price : ℕ) :
    PriceTime.volume (((machine capacity).run empty messages).book id
      side price) ≤
      placed messages := by
  induction messages using List.reverseRecOn generalizing id with
  | nil => exact Nat.zero_le _
  | append_singleton messages message ih =>
      have hplaced : placed (messages ++ [message]) = placed messages +
          if message.type = addType then message.qty.toNat else 0 := by
        rw [placed, List.map_append, List.sum_append, placed,
          List.map_singleton, List.sum_singleton]
      rw [Machine.run_append, hplaced]
      generalize (machine capacity).run empty messages = x at ih
      change PriceTime.volume ((x.step capacity message).book id side price) ≤ _
      have hopened : ∀ id' id,
          PriceTime.volume (opened x.cache x.book id' id side price) ≤
          placed messages := by
        intro id' id
        rw [opened]
        split
        · exact ih id
        · by_cases hsame : id = id'
          · rw [hsame, Function.update_self]
            exact Nat.zero_le _
          · rw [Function.update_of_ne hsame]
            exact ih id
      rw [step]
      dsimp only
      generalize PrefixTrie.idIn _ _ = id'
      by_cases hsame : id = id'
      · rw [hsame, Function.update_self]
        exact (LimitBook.volume_process_le ..).trans
          (Nat.add_le_add_right (hopened id' id') _)
      · rw [Function.update_of_ne hsame]
        exact (hopened id' id).trans (Nat.le_add_right _ _)

/-- Levels fit all along where less than 2^32 is placed in all. -/
theorem fits_of_placed_lt (capacity : ℕ) {messages done : List ItchMessage}
    (hplaced : placed messages < 2 ^ 32) (hdone : done <+: messages) :
    ((machine capacity).run empty done).Fits := by
  intro id side price
  obtain ⟨later, rfl⟩ := hdone
  have hsum : placed (done ++ later) = placed done + placed later := by
    rw [placed, List.map_append, List.sum_append, placed, placed]
  have hle := volume_le_placed capacity done id side price
  omega

end Exchange

/-! ## Describing the cache -/

/-- The books of the cache are described by `book`, and slots without a symbol
are empty. -/
structure DescribesCache (reference : ReferenceCache)
    (book : UInt16 → LimitBook) (cache : LFUCache size)
    (a : UInt32 → AbstractBook) : Prop where
  sound : cache.Sound reference a
  shown : ∀ id, cache.index.isCached id = true →
    (book id).Describes
      (cache.books.book (cache.index.bookToSlot id.toUInt32)).tally
      (a (cache.index.bookToSlot id.toUInt32))
  idle : ∀ slot, (∀ id, cache.index.isCached id = true →
    cache.index.bookToSlot id.toUInt32 ≠ slot) → a slot = AbstractBook.empty

/-- A sum over a list, read off by place. -/
theorem sum_map_eq_sum_range {α : Type*} {items : List α} {value : α → ℕ}
    {n : ℕ} {f : ℕ → ℕ} (hlength : items.length ≤ n)
    (hitem : ∀ place item, items[place]? = some item →
      f place = value item) (hrest : ∀ place < n, items.length ≤ place →
        f place = 0) :
    (items.map value).sum = ∑ place ∈ Finset.range n, f place := by
  induction items generalizing n f with
  | nil =>
      refine (Finset.sum_eq_zero fun place hplace => ?_).symm
      exact hrest place (Finset.mem_range.mp hplace) (Nat.zero_le place)
  | cons item items ih =>
      obtain ⟨n, rfl⟩ : ∃ m, n = m + 1 := Nat.exists_eq_succ_of_ne_zero (by
        rintro rfl
        simp at hlength)
      have hlength' : items.length ≤ n := Nat.le_of_succ_le_succ hlength
      have hitem' : ∀ place other, items[place]? = some other →
          f (place + 1) = value other :=
        fun place other hother =>
          hitem (place + 1) other (by simpa using hother)
      have hrest' : ∀ place < n, items.length ≤ place → f (place + 1) = 0 :=
        fun place hlt hplace => hrest (place + 1) (Nat.succ_lt_succ hlt)
          (Nat.succ_le_succ hplace)
      rw [List.map_cons, List.sum_cons, ih hlength' hitem' hrest',
        Finset.sum_range_succ', hitem 0 item rfl, Nat.add_comm]

/-- An access gives the slot of a symbol that leaves to the one that came. -/
theorem LFUIndex.Refines.access_displaced {index : LFUIndex}
    {reference : ReferenceCache} (hrefines : index.Refines reference)
    {bookId other : UInt16} (hid : bookId.toUInt32 < maxSymbols)
    (symbol : Symbol) (hcached : index.isCached other = true)
    (hgone : (index.access bookId symbol).2.isCached other ≠ true) :
    (index.access bookId symbol).2.bookToSlot bookId.toUInt32 =
      index.bookToSlot other.toUInt32 := by
  obtain ⟨hrefines', hanswers⟩ := hrefines.access hid symbol
  have hdisplaced := ((reference.access_step bookId).displaced_iff other).mp
    ⟨(hrefines.isCached_iff other).mp hcached, fun hmem =>
      hgone ((hrefines'.isCached_iff other).mpr hmem)⟩
  rw [hdisplaced] at hanswers
  have hslot := index.access_slot hid symbol
  rw [hanswers.victim_slot, Lookup.slot, Option.some.injEq] at hslot
  exact hslot.symm

namespace DescribesCache

variable {reference : ReferenceCache} {book : UInt16 → LimitBook}
  {cache : LFUCache size} {a : UInt32 → AbstractBook}

theorem init (hsize : 0 < size.toNat) (memory : UInt32 → LFUNode)
    (orders : UInt32 → Order) (book : UInt16 → LimitBook) :
    DescribesCache Cache.empty book
      (LFUCache.init memory orders : LFUCache size)
      fun _ => AbstractBook.empty where
  sound := LFUCache.init_sound hsize memory orders
  shown id hcached := by
    simp [LFUCache.init, LFUIndex.init, LFUIndex.isCached] at hcached
  idle _ _ := rfl

/-- The orders in the pool are those in the books. -/
theorem activeCount_eq (hdescribes : DescribesCache reference book cache a) :
    cache.books.pool.activeCount.toNat = Exchange.resting reference book := by
  have hindex := hdescribes.sound.index
  have hlength := reference.wellFormed.length_le
  have hsize : maxCacheSize.toNat = 5 := rfl
  have hkeys : Exchange.resting reference book =
      (reference.entries.map fun entry => (book entry.key).count).sum := by
    rw [Exchange.resting, Cache.keys, List.map_map, Function.comp_def]
  rw [hdescribes.sound.activeCount_eq, hdescribes.sound.queued_eq,
    length_flatMap_range, hkeys]
  refine (sum_map_eq_sum_range hlength (fun place entry hentry => ?_)
    fun place hlt hplace => ?_).symm
  · have hmem : entry.key ∈ reference.keys :=
      List.mem_map_of_mem (List.mem_of_getElem? hentry)
    have hcached := (hindex.isCached_iff entry.key).mpr hmem
    have hslot : cache.index.bookToSlot entry.key.toUInt32 = .ofNat place :=
      (hindex.slots place entry hentry).1
    have hcount := (hdescribes.shown entry.key hcached).length_slots
    rwa [hslot] at hcount
  · have hidle : a (.ofNat place) = AbstractBook.empty := by
      refine hdescribes.idle _ fun id hcached hslot => ?_
      obtain ⟨entry, hentry, rfl⟩ :=
        List.mem_map.mp ((hindex.isCached_iff id).mp hcached)
      obtain ⟨other, hother⟩ := List.mem_iff_getElem?.mp hentry
      have hused : cache.index.bookToSlot entry.key.toUInt32 = .ofNat other :=
        (hindex.slots other entry hother).1
      have hbound := (List.getElem?_eq_some_iff.mp hother).1
      rw [hused, ← UInt32.toNat_inj, UInt32.toNat_ofNat', UInt32.toNat_ofNat',
        Nat.mod_eq_of_lt (by omega), Nat.mod_eq_of_lt (by omega)] at hslot
      omega
    rw [hidle]
    simp [slots, sideSlots, AbstractBook.empty]

theorem room_iff (hdescribes : DescribesCache reference book cache a) :
    Exchange.resting reference book < size.toNat ↔
      cache.books.pool.freeHead ≠ nullIdx := by
  obtain ⟨free, hfree⟩ := hdescribes.sound.books.holds.freeList
  have hcount := hfree.count
  rw [← hdescribes.activeCount_eq, Ne, hfree.head_iff,
    ← List.length_eq_zero_iff]
  omega

/-- An access opens the book of the symbol, as the policy says. -/
theorem access (hdescribes : DescribesCache reference book cache a)
    {id : UInt16} (hid : id.toUInt32 < maxSymbols) (symbol : Symbol) :
    ∃ slot a', (cache.access id symbol).1 = some slot ∧
      (cache.access id symbol).2.index.bookToSlot id.toUInt32 = slot ∧
      DescribesCache (reference.access id).2 (Exchange.opened reference book id)
        (cache.access id symbol).2 a' := by
  have hindex := hdescribes.sound.index
  obtain ⟨hrefines, hanswers⟩ := hindex.access hid symbol
  obtain ⟨slot, reference', a', hsome, hlt, hslot, hreached, hsound'⟩ :=
    hdescribes.sound.access_accepted hid symbol
  rw [← LFUCache.access_index] at hrefines
  have hsound : (cache.access id symbol).2.Sound (reference.access id).2 a' :=
    ⟨hrefines, hsound'.books, hsound'.unused⟩
  have hown : (cache.access id symbol).2.index.isCached id = true := by
    rw [LFUCache.access_index]
    exact hindex.access_isCached hid symbol
  have hkept : ∀ other, other ≠ id →
      (cache.access id symbol).2.index.isCached other = true →
      cache.index.isCached other = true ∧
        (cache.access id symbol).2.index.bookToSlot other.toUInt32 =
          cache.index.bookToSlot other.toUInt32 := by
    intro other hne hother
    rw [LFUCache.access_index] at hother ⊢
    exact hindex.access_kept hid symbol hne hother
  refine ⟨slot, a', hsome, hslot, hsound, fun other hother =>
    ?_, fun other hother => ?_⟩
  · by_cases hsame : other = id
    · subst hsame
      rw [hslot]
      generalize (cache.access other symbol).2.books = books at hreached
      cases hreached with
      | kept hcached hslotOld =>
          rw [Exchange.opened, if_pos ((hindex.isCached_iff other).mp hcached),
            ← hslotOld]
          exact hdescribes.shown other hcached
      | fresh hcached =>
          have hnew : other ∉ reference.keys := by
            rw [← hindex.isCached_iff, hcached]
            simp
          rw [Exchange.opened, if_neg hnew, Function.update_self,
            Function.update_self, Books.reset_book_self]
          exact LimitBook.empty_describes
    · obtain ⟨hold, hslotOld⟩ := hkept other hsame hother
      have hne : cache.index.bookToSlot other.toUInt32 ≠ slot := by
        rw [← hslotOld, ← hslot]
        exact hrefines.bookToSlot_ne hown hother hsame
      obtain ⟨hbook, ha⟩ := hreached.books_of_ne hne
      have hopened : Exchange.opened reference book id other = book other := by
        rw [Exchange.opened]
        split
        · rfl
        · exact Function.update_of_ne hsame ..
      rw [hslotOld, hbook, ha, hopened]
      exact hdescribes.shown other hold
  · have hne : other ≠ slot := fun heq => hother id hown (hslot.trans heq.symm)
    rw [(hreached.books_of_ne hne).2]
    refine hdescribes.idle other fun key hcached hkey => ?_
    by_cases hstays : (cache.access id symbol).2.index.isCached key = true
    · by_cases hsame : key = id
      · subst hsame
        generalize (cache.access key symbol).2.books = books at hreached
        cases hreached with
        | kept _ hslotOld => exact hne (hkey.symm.trans hslotOld)
        | fresh hnew => simp [hcached] at hnew
      · exact hother key hstays ((hkept key hsame hstays).2.trans hkey)
    · rw [LFUCache.access_index] at hstays hslot
      exact hne
        (hkey.symm.trans
        ((hindex.access_displaced hid symbol hcached hstays).symm.trans
        hslot))

/-- A message delivered to the book of a cached symbol is processed by it. -/
theorem deliver (hdescribes : DescribesCache reference book cache a)
    {id : UInt16} (hcached : cache.index.isCached id = true)
    {message : ItchMessage} (hqty : message.type = addType → 0 < message.qty)
    (hfits : ((book id).process (Exchange.resting reference book < size.toNat)
      message).Fits) :
    ∃ a', DescribesCache reference
      (Function.update book id
        ((book id).process (Exchange.resting reference book <
          size.toNat) message))
      { cache with
        books := cache.books.deliver (cache.index.bookToSlot id.toUInt32)
          message } a' := by
  have hindex := hdescribes.sound.index
  have hpaired := hindex.slotsPaired
  let slot := cache.index.bookToSlot id.toUInt32
  have hslot : slot < maxCacheSize := by
    have hid := LFUIndex.lt_maxSymbols_of_isCached hcached
    rw [LFUIndex.isCached_eq _ hid] at hcached
    exact UInt32.lt_of_lt_of_le (hpaired.slot _ ⟨hid, hcached⟩).1 hpaired.size
  obtain ⟨book', hdelivered, hsound'⟩ :=
    hdescribes.sound.books.deliver slot message
  have hown :=
    (hdescribes.shown id hcached).deliver hdescribes.sound.books hdelivered
    hdescribes.room_iff hqty hfits
  refine ⟨Function.update a slot book',
    ⟨hindex, hsound', fun other hother => ?_⟩,
    fun other hother => ?_, fun other hother => ?_⟩
  · have hne : other ≠ slot := by
      rintro rfl
      exact UInt32.not_lt.mpr hother hslot
    rw [Function.update_of_ne hne]
    exact hdescribes.sound.unused other hother
  · by_cases hsame : other = id
    · subst hsame
      rw [Function.update_self, Function.update_self]
      exact hown
    · have hne : cache.index.bookToSlot other.toUInt32 ≠ slot :=
        hindex.bookToSlot_ne hcached hother hsame
      dsimp only
      rw [Function.update_of_ne hsame, Function.update_of_ne hne,
        Books.deliver_book_of_ne _ hne]
      exact hdescribes.shown other hother
  · have hne : other ≠ slot := fun heq => hother id hcached heq.symm
    rw [Function.update_of_ne hne]
    exact hdescribes.idle other hother

end DescribesCache

end MarketDataPipeline
