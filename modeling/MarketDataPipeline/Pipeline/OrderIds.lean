import MarketDataPipeline.Book.TradeExecution
import MarketDataPipeline.Pipeline.BookRuns
import MarketDataPipeline.Pipeline.TrieCalls

/-!
# Order ids

The id of an order is the lower half of its timestamp over its price.  Orders of
one price whose timestamps differ in the upper half only get the same id, so the
ids in a book are unique where no order is placed beside one of its price with
the same lower half.
-/

namespace MarketDataPipeline

open AbstractBook

variable {size : UInt32}

/-! ## What an id is made of -/

/-- The part of the timestamp of a message that is left in an id. -/
def stampOf (message : ItchMessage) : ℕ := message.tsNs.toNat % 2 ^ 32

theorem orderIdOf_toNat (message : ItchMessage) :
    (orderIdOf message).toNat =
      2 ^ 32 * stampOf message + message.price.toNat := by
  have hshift : (message.tsNs <<< 32).toNat = stampOf message <<< 32 := by
    rw [UInt64.toNat_shiftLeft, Nat.shiftLeft_eq, Nat.shiftLeft_eq, stampOf]
    have hmod : (32 : UInt64).toNat % 64 = 32 := rfl
    rw [hmod]
    omega
  rw [orderIdOf, UInt64.toNat_or, hshift, UInt32.toNat_toUInt64,
    ← Nat.shiftLeft_add_eq_or_of_lt message.price.toNat_lt, Nat.shiftLeft_eq,
    Nat.mul_comm]

def Resting.stamp (r : Resting) : ℕ := r.orderId.toNat / 2 ^ 32

/-- Ids agree exactly when their two parts do. -/
theorem orderIdOf_eq_iff (message : ItchMessage) (id : UInt64) :
    id = orderIdOf message ↔ id.toNat / 2 ^ 32 = stampOf message ∧
      id.toNat % 2 ^ 32 = message.price.toNat := by
  have hprice := message.price.toNat_lt
  rw [← UInt64.toNat_inj, orderIdOf_toNat]
  omega

/-! ## Ids in a book -/

namespace AbstractBook

def UniqueIds (book : AbstractBook) : Prop :=
  ∀ side price, ∀ r ∈ book side price, ∀ side' price', ∀ r' ∈ book side' price',
    r.orderId = r'.orderId → r.idx = r'.idx

/-- The orders of a level carry its price in their ids. -/
def IdsHavePrice (book : AbstractBook) : Prop :=
  ∀ side price, ∀ r ∈ book side price, r.orderId.toNat % 2 ^ 32 = price.toNat

theorem empty_uniqueIds : UniqueIds empty :=
  fun _ _ _ hr => absurd hr List.not_mem_nil

theorem empty_idsHavePrice : IdsHavePrice empty :=
  fun _ _ _ hr => absurd hr List.not_mem_nil

/-- All orders of a level were there before, perhaps with a larger quantity. -/
def From (later earlier : List Resting) : Prop :=
  ∀ r ∈ later, ∃ r' ∈ earlier, r'.idx = r.idx ∧ r'.orderId = r.orderId

theorem From.refl (queue : List Resting) : From queue queue :=
  fun r hr => ⟨r, hr, rfl, rfl⟩

theorem consume_from (qty : UInt32) (queue : List Resting) :
    From (consume qty queue) queue := by
  obtain ⟨gone, hleaves, -⟩ := consume_leavesSuffix qty queue []
  intro r hr
  rcases hleaves with hqueue | ⟨first, rest, left, hqueue, hleft, -, -⟩
  · exact ⟨r, hqueue ▸ List.mem_append_right _ hr, rfl, rfl⟩
  · rw [hleft] at hr
    rcases List.mem_cons.mp hr with rfl | hrest
    · exact ⟨first, by simp [hqueue], rfl, rfl⟩
    · exact ⟨r, by simp [hqueue, hrest], rfl, rfl⟩

theorem mem_setAt_append {book : AbstractBook} {side s : Side}
    {price p : UInt32} {new r : Resting} :
    r ∈ setAt book side price (book side price ++ [new]) s p ↔
      r ∈ book s p ∨ (s = side ∧ p = price) ∧ r = new := by
  by_cases hlevel : s = side ∧ p = price
  · obtain ⟨rfl, rfl⟩ := hlevel
    simp
  · simp [setAt_of_ne, hlevel]

theorem UniqueIds.mono {book later : AbstractBook} (hunique : UniqueIds book)
    (hfrom : ∀ side price, From (later side price) (book side price)) :
    UniqueIds later := by
  intro side price r hr side' price' r' hr' hid
  obtain ⟨before, hbefore, hidx, hold⟩ := hfrom side price r hr
  obtain ⟨before', hbefore', hidx', hold'⟩ := hfrom side' price' r' hr'
  rw [← hidx, ← hidx']
  exact hunique side price before hbefore side' price' before' hbefore'
    (hold.trans (hid.trans hold'.symm))

end AbstractBook

/-- An Add message is placed where its price is valid and a slot is free. -/
def Places (pool : OrderPool size) (message : ItchMessage) : Prop :=
  message.type = addType ∧ message.price < maxPriceLevels ∧
    pool.freeHead ≠ nullIdx

/-- A placed order finds no order of its price with the lower half of its
timestamp. -/
def AvoidsResting (book : MBOBookWithBIT) (pool : OrderPool size)
    (message : ItchMessage) : Prop :=
  Places pool message →
    ∀ side, ∀ r ∈ book.queues.contents pool side message.price,
    r.stamp ≠ stampOf message

namespace Books

variable {ι : Type*} [DecidableEq ι] {books : Books ι DepthTally size}
  {a : ι → AbstractBook} {slot : ι} {message : ItchMessage}
  {book' : AbstractBook}

/-- What a delivered message does to the orders of a book. -/
inductive Reordered (pool : OrderPool size) (book : AbstractBook)
    (message : ItchMessage) :
    AbstractBook → Prop
  | left {later : AbstractBook} (hplaces : ¬ Places pool message)
      (hfrom : ∀ side price, From (later side price) (book side price)) :
      Reordered pool book message later
  | joined {idx qty : UInt32} (side : Side) (hplaces : Places pool message)
      (hnew : ¬ book.Rests idx) :
      Reordered pool book message (setAt book side message.price
        (book side message.price ++ [⟨idx, orderIdOf message, qty⟩]))

theorem Delivered.reordered (hsound : books.Sound a)
    (hdelivered : books.Delivered a slot message
      (books.deliver slot message) book') :
    Reordered books.pool (a slot) message book' := by
  have hrep := hsound.holds.represents slot
  generalize books.deliver slot message = after at hdelivered
  cases hdelivered with
  | ignored hroute =>
      refine .left (fun hplaces => ?_) fun _ _ => From.refl _
      rw [route, if_pos hplaces.1] at hroute
      simp at hroute
  | @step op free free' _ hroute hfree hstep =>
      generalize ((books.apply slot op).2.book slot).tally = tally' at hstep
      generalize (books.apply slot op).1 = ret at hstep
      rcases route_eq_some hroute with ⟨htype, rfl⟩ | ⟨htype, rfl⟩
      · cases hstep with
        | invalid hprice =>
            exact .left (fun hplaces => UInt32.not_lt.mpr hprice hplaces.2.1)
              fun _ _ => From.refl _
        | full _ hnone =>
            exact .left (fun hplaces => hplaces.2.2 (hfree.head_iff.mpr hnone))
              fun _ _ => From.refl _
        | placed hprice _ hhead =>
            have hsome : books.pool.freeHead ≠ nullIdx := by
              rw [Ne, hfree.head_iff, hhead]
              exact List.cons_ne_nil _ _
            have hinactive := ((hfree.mem_iff ret).mp (by simp [hhead])).2
            exact .joined _ ⟨htype, hprice, hsome⟩ (hrep.not_rests hinactive)
      · have hnot : ¬ Places books.pool message := fun hplaces =>
          addType_ne_tradeType (hplaces.1.symm.trans htype)
        cases hstep with
        | untraded => exact .left hnot fun _ _ => From.refl _
        | traded =>
            refine .left hnot fun s p => ?_
            by_cases hlevel : s = routedSide (books.book slot) message.price ∧
              p = message.price
            · obtain ⟨rfl, rfl⟩ := hlevel
              rw [setAt_self]
              exact consume_from _ _
            · rw [setAt_of_ne _ _ hlevel]
              exact From.refl _

/-- Every message keeps the price in the ids of a level. -/
theorem Reordered.idsHavePrice {pool : OrderPool size} {book : AbstractBook}
    (hreordered : Reordered pool book message book')
    (hprices : IdsHavePrice book) :
    IdsHavePrice book' := by
  intro side price r hr
  cases hreordered with
  | left _ hfrom =>
      obtain ⟨before, hbefore, -, hid⟩ := hfrom side price r hr
      rw [← hid]
      exact hprices side price before hbefore
  | joined =>
      rcases mem_setAt_append.mp hr with hold | ⟨⟨-, rfl⟩, rfl⟩
      · exact hprices side price r hold
      · exact ((orderIdOf_eq_iff message _).mp rfl).2

/-- A delivered message keeps the ids of its book unique exactly when it meets
the condition. -/
theorem uniqueIds_deliver_iff (hsound : books.Sound a)
    (hdelivered : books.Delivered a slot message
      (books.deliver slot message) book')
    (hprices : IdsHavePrice (a slot)) (hunique : UniqueIds (a slot)) :
    UniqueIds book' ↔ AvoidsResting (books.book slot) books.pool message := by
  rw [AvoidsResting, (hsound.holds.represents slot).contents_eq_book]
  have hreordered := hdelivered.reordered hsound
  cases hreordered with
  | left hnot hfrom =>
      exact iff_of_true (hunique.mono hfrom) fun hplaces => absurd hplaces hnot
  | @joined idx qty side hplaces hnew =>
      have hclash : ∀ s p, ∀ r ∈ a slot s p, (r.orderId = orderIdOf message ↔
          p = message.price ∧ r.stamp = stampOf message) := by
        intro s p r hr
        rw [orderIdOf_eq_iff, hprices s p r hr, UInt32.toNat_inj, and_comm]
        rfl
      constructor
      · intro hafter _ s r hr hstamp
        have hidx := hafter s message.price r (mem_setAt_append.mpr (Or.inl hr))
          side message.price
          ⟨idx, orderIdOf message, qty⟩
            (mem_setAt_append.mpr (Or.inr ⟨⟨rfl, rfl⟩, rfl⟩))
          ((hclash s message.price r hr).mpr ⟨rfl, hstamp⟩)
        exact hnew ⟨s, message.price, r, hr, hidx⟩
      · intro havoids
        have hfresh : ∀ s p, ∀ r ∈ a slot s p, r.orderId ≠
            orderIdOf message := by
          intro s p r hr heq
          obtain ⟨rfl, hstamp⟩ := (hclash s p r hr).mp heq
          exact havoids hplaces s r hr hstamp
        intro s p r hr s' p' r' hr' hid
        rcases mem_setAt_append.mp hr with hold | ⟨-, rfl⟩
        · rcases mem_setAt_append.mp hr' with hold' | ⟨-, rfl⟩
          · exact hunique s p r hold s' p' r' hold' hid
          · exact absurd hid (hfresh s p r hold)
        · rcases mem_setAt_append.mp hr' with hold' | ⟨-, rfl⟩
          · exact absurd hid.symm (hfresh s' p' r' hold')
          · rfl

end Books

namespace Pipeline

/-! ## Where resting orders come from -/

/-- An order was placed at `price` for one of the messages, the symbol of which
has the id. -/
def ComesFrom (done : List ItchMessage) (registry : Registry (List UInt8))
    (bookId : UInt16) (price : UInt32) (r : Resting) : Prop :=
  ∃ earlier ∈ done, earlier.type = addType ∧ earlier.price = price ∧
    r.orderId = orderIdOf earlier ∧
      PrefixTrie.word earlier.symbol ∈ registry.keys ∧
      PrefixTrie.idIn registry (PrefixTrie.word earlier.symbol) = bookId

/-- All orders in the books of cached symbols come from messages of
the symbol. -/
def Originates (state : Pipeline size) (done : List ItchMessage) : Prop :=
  ∃ a registry, state.Sound a ∧ state.trie.Holds registry ∧
    ∀ bookId, state.cache.index.isCached bookId = true → ∀ side price,
      ∀ r ∈ a (state.cache.index.bookToSlot bookId.toUInt32) side price,
        ComesFrom done registry bookId price r

theorem bookIdOf_ne_invalid {state : Pipeline size} {message : ItchMessage}
    {slot : UInt32} (hfound : (state.accessed message).1 = some slot) :
    state.bookIdOf message ≠ invalidBookId := by
  intro hinvalid
  have hid := (state.accessed_isSome_iff message).mp ⟨slot, hfound⟩
  rw [hinvalid] at hid
  exact absurd hid (by decide)

theorem Originates.processMessage {state : Pipeline size}
    {done : List ItchMessage} (horiginates : state.Originates done)
    (message : ItchMessage) :
    (state.processMessage message).Originates (done ++ [message]) := by
  obtain ⟨a, registry, ⟨reference, hcache⟩, hholds, hall⟩ := horiginates
  obtain ⟨registry', hregistered, hholds'⟩ := hholds.getOrCreate message.symbol
  rw [← processMessage_trie] at hholds'
  change PrefixTrie.Registered registry _ (state.bookIdOf message)
    registry' at hregistered
  obtain ⟨after, hprocessed, reference', hcache'⟩ :=
    Sound.processMessage ⟨reference, hcache⟩ message
  have hgrow : ∀ bookId price r r', r'.orderId = r.orderId →
      ComesFrom done registry bookId price r' →
        ComesFrom (done ++ [message]) registry' bookId price r := by
    rintro bookId price r r' hid ⟨earlier, hmem, hadd, hprice,
      horder, hkey, hidIn⟩
    obtain ⟨hkey', hkept⟩ := hregistered.kept hkey
    exact ⟨earlier, List.mem_append_left _ hmem, hadd, hprice,
      hid.symm.trans horder, hkey',
      hkept.trans hidIn⟩
  refine ⟨after, registry', ⟨reference', hcache'⟩, hholds', ?_⟩
  refine hprocessed.forall_cached
    (fun bookId _ book => ∀ side price, ∀ r ∈ book side price,
      ComesFrom done registry bookId price r)
    (fun bookId _ book => ∀ side price, ∀ r ∈ book side price,
      ComesFrom (done ++ [message]) registry' bookId price r) hcache hcache'
        ?_ ?_ ?_ hall
  · intro bookId _ book _ _ hold side price r hr
    exact hgrow bookId price r r rfl (hold side price r hr)
  · intro _ side price r hr
    exact absurd hr List.not_mem_nil
  · intro slot opened a' book' hfound _ hopenedSound hdelivered hold
      side price r hr
    have hreordered := hdelivered.reordered hopenedSound
    cases hreordered with
    | left _ hfrom =>
        obtain ⟨before, hbefore, -, hid⟩ := hfrom side price r hr
        exact hgrow _ price r before hid (hold side price before hbefore)
    | joined _ hplaces =>
        rcases mem_setAt_append.mp hr with hbefore | ⟨⟨-, rfl⟩, rfl⟩
        · exact hgrow _ price r r rfl (hold side price r hbefore)
        · exact ⟨message, by simp, hplaces.1, rfl, rfl,
            hregistered.id_eq (bookIdOf_ne_invalid hfound)⟩

theorem run_originates (hsize : 0 < size.toNat) (memory : UInt32 → LFUNode)
    (orders : UInt32 → Order) (messages : List ItchMessage) :
    ((machine size).run (init memory orders) messages).Originates messages := by
  induction messages using List.reverseRecOn with
  | nil =>
      refine ⟨_, Registry.empty, init_sound hsize memory orders,
        PrefixTrie.init_holds, ?_⟩
      intro bookId hcached
      simp [init, LFUCache.init, LFUIndex.init, LFUIndex.isCached] at hcached
  | append_singleton done message ih =>
      rw [Machine.run_append]
      exact ih.processMessage message

/-! ## Runs -/

/-- Add messages of one symbol differ in the price or in the lower half of the
timestamp. -/
def Distinguished (first later : ItchMessage) : Prop :=
  first.type = addType → later.type = addType →
    PrefixTrie.Equivalent first.symbol later.symbol →
      (stampOf first, first.price) ≠ (stampOf later, later.price)

/-- A message that differs from all before it finds no order with its id. -/
theorem Originates.meets {state : Pipeline size} {done : List ItchMessage}
    (horiginates : state.Originates done) {message : ItchMessage}
    (hdistinguished : ∀ earlier ∈ done, Distinguished earlier message) :
    Meets AvoidsResting state message := by
  obtain ⟨a, registry, ⟨reference, hcache⟩, hholds, hall⟩ := horiginates
  obtain ⟨registry', hregistered, hholds'⟩ := hholds.getOrCreate message.symbol
  change PrefixTrie.Registered registry _ (state.bookIdOf message)
    registry' at hregistered
  intro slot hfound hplaces side r hr hstamp
  have hid := (state.accessed_isSome_iff message).mp ⟨slot, hfound⟩
  obtain ⟨target, reference', a', hsome, -, -, hreached, hsound'⟩ :=
    hcache.access_accepted hid message.symbol
  obtain rfl : target = slot := Option.some.inj (hsome.symm.trans hfound)
  have hopenedSound := hsound'.books
  rw [accessed] at hr
  rw [(hopenedSound.holds.represents target).contents_eq] at hr
  generalize (state.cache.access (state.bookIdOf message)
    message.symbol).2.books = opened
    at hreached
  cases hreached with
  | fresh =>
      rw [Function.update_self] at hr
      exact absurd hr List.not_mem_nil
  | kept hold hslot =>
      obtain ⟨earlier, hmem, hadd, hprice, horder, hkey, hidIn⟩ :=
        hall _ hold side message.price r (hslot ▸ hr)
      obtain ⟨hkey', hkept⟩ := hregistered.kept hkey
      obtain ⟨hword, hidWord⟩ := hregistered.id_eq (bookIdOf_ne_invalid hfound)
      have hsame : PrefixTrie.Equivalent earlier.symbol message.symbol :=
        PrefixTrie.equivalent_iff.mpr
          (PrefixTrie.idIn_inj hholds'.capacity hkey' hword
          (hkept.trans (hidIn.trans hidWord.symm)))
      have hearlier := ((orderIdOf_eq_iff earlier r.orderId).mp horder).1
      exact hdistinguished earlier hmem hadd hplaces.1 hsame
        (Prod.ext (hearlier.symm.trans hstamp) hprice)

/-- In every run of the loop, the ids in the books of the cached symbols are
unique in all states reached if and only if every order is placed beside orders
of its price with other lower halves of the timestamp.  That is so where the Add
messages of each symbol differ in the price or in that half. -/
theorem order_ids_unique_iff (memory : UInt32 → LFUNode)
    (orders : UInt32 → Order) (messages : List ItchMessage) :
    ((∀ done, done <+: messages →
      let state := (machine maxOrders).run (init memory orders) done
      ∀ bookId, state.cache.index.isCached bookId = true →
        (state.restingOf bookId).UniqueIds) ↔
      (machine maxOrders).Each (Meets AvoidsResting)
        (init memory orders) messages) ∧
    (messages.Pairwise Distinguished →
      (machine maxOrders).Each (Meets AvoidsResting) (init memory orders)
        messages) := by
  constructor
  · exact @cached_books_always_iff maxOrders (fun _ book => book.IdsHavePrice)
      (fun _ book => book.UniqueIds) AvoidsResting empty_uniqueIds
      (fun _ _ _ _ _ hsound hdelivered hprices hunique =>
        Books.uniqueIds_deliver_iff hsound hdelivered hprices hunique)
      empty_idsHavePrice
      (fun _ _ _ _ _ hsound hdelivered hprices =>
        (hdelivered.reordered hsound).idsHavePrice hprices)
      maxOrders_pos memory orders messages
  · intro hpairwise
    refine Machine.each_iff_prefix.mpr fun done message hprefix => ?_
    have hdone := hpairwise.sublist hprefix.sublist
    refine (run_originates maxOrders_pos memory orders done).meets
      fun earlier hearlier => ?_
    exact (List.pairwise_append.mp hdone).2.2 earlier hearlier message (by simp)

/-- Two orders of one price, 2^32 nanoseconds apart, rest with one id. -/
theorem late_order_shares_id :
    ¬ ∀ (memory : UInt32 → LFUNode) (orders : UInt32 →
      Order) (messages : List ItchMessage),
      (messages.Pairwise fun first later => first.type = addType →
        later.type = addType →
        first.symbol = later.symbol →
          (first.tsNs, first.price) ≠ (later.tsNs, later.price)) →
      let state := (machine maxOrders).run (init memory orders) messages
      ∀ bookId, state.cache.index.isCached bookId = true →
        (state.restingOf bookId).UniqueIds := by
  intro hclaim
  let adds : List ItchMessage :=
    [⟨addType, btcUsdt, 1, 100, 5⟩, ⟨addType, btcUsdt, 0x100000001, 100, 7⟩]
  obtain ⟨hserves, hbooks⟩ :=
    stateAfter_serves adds (by simp [adds]) (by simp [adds])
  have hunique := hclaim _ _ adds (by simp [adds]) 0 hserves.cached
  change ((stateAfter adds).restingOf 0).UniqueIds at hunique
  rw [hserves.restingOf_eq, hbooks] at hunique
  have hfirst : ⟨0, 0x100000064, 5⟩ ∈
      ((booksAfter adds).book 0).queues.contents
        (booksAfter adds).pool .bid 100 := by
    decide +kernel
  have hsecond : ⟨1, 0x100000064, 7⟩ ∈
      ((booksAfter adds).book 0).queues.contents
        (booksAfter adds).pool .ask 100 := by
    decide +kernel
  exact absurd (hunique _ _ _ hfirst _ _ _ hsecond rfl) (by decide)

end Pipeline

end MarketDataPipeline
