import MarketDataPipeline.Book.ServedQueues
import MarketDataPipeline.Pipeline.BookRuns

/-!
# What comes to a level and what leaves it

Beside a run stands a record of what the loop placed at each level of a book
since the book was opened, and of what its trades executed there.  The record
determines the queue: it is what remains of the orders placed, in the order they
were placed, once the quantity executed was served from the front.
-/

namespace MarketDataPipeline

open AbstractBook PriceTime

variable {size : UInt32}

structure Flow where
  placed : Side → UInt32 → List (Ticket UInt64)
  executed : Side → UInt32 → ℕ

namespace Flow

def none : Flow := ⟨fun _ _ => [], fun _ _ => 0⟩

/-- A call on the book and what it returned. -/
def record (flow : Flow) (ret : UInt32) : BookOp → Flow
  | .enqueue side price orderId qty =>
      if ret = nullIdx then flow
      else
        { flow with
          placed := setAt flow.placed side price
            (flow.placed side price ++ [⟨orderId, qty.toNat⟩]) }
  | .trade side price _ =>
      { flow with
        executed :=
          setAt flow.executed side price
            (flow.executed side price + ret.toNat) }
  | .dequeue _ => flow
  | .clear => flow

/-- The queues are what the flow leaves of the orders placed, but for orders
without a quantity. -/
structure Leaves (flow : Flow) (book : AbstractBook) : Prop where
  queue : ∀ side price, live ((book side price).map Resting.order) =
    serve (flow.executed side price) (live (flow.placed side price))
  covered : ∀ side price, flow.executed side price ≤
    PriceTime.volume (flow.placed side price)

theorem none_leaves : Flow.none.Leaves AbstractBook.empty where
  queue _ _ := rfl
  covered _ _ := Nat.le_refl 0

namespace Leaves

variable {flow : Flow} {book book' : AbstractBook}

/-- What rests at a level and what was executed there are what was placed. -/
theorem volume_add (hleaves : flow.Leaves book) (side : Side) (price : UInt32) :
    book.volume side price + flow.executed side price =
      PriceTime.volume (flow.placed side price) := by
  have hvolume := congrArg PriceTime.volume (hleaves.queue side price)
  rw [volume_live, volume_serve, volume_live, Resting.order,
    volume_tickets] at hvolume
  have hcovered := hleaves.covered side price
  change quantity (book side price) + _ = _
  omega

/-- A call that adds an order or trades. -/
theorem step {T : Type*} [LevelTally T] {tally tally' : T}
    {free free' : List UInt32} {op : BookOp} {ret : UInt32}
    (hleaves : flow.Leaves book)
    (hstep : Step free book tally op ret free' book' tally')
    (hdequeue : ∀ idx, op ≠ .dequeue idx)
    (hclear : op ≠ .clear) : (flow.record ret op).Leaves book' := by
  cases hstep with
  | invalid | full =>
      rw [record, if_pos rfl]
      exact hleaves
  | @placed side price orderId qty _ _ _ hidx _ =>
      rw [record, if_neg hidx]
      refine ⟨fun s p => ?_, fun s p => ?_⟩
      · by_cases hlevel : s = side ∧ p = price
        · obtain ⟨rfl, rfl⟩ := hlevel
          have hcovered := hleaves.covered s p
          dsimp only
          rw [setAt_self, setAt_self, List.map_append, live_append, live_append,
            serve_append (by rwa [volume_live]), hleaves.queue]
          rfl
        · dsimp only
          rw [setAt_of_ne _ _ hlevel, setAt_of_ne _ _ hlevel]
          exact hleaves.queue s p
      · dsimp only
        by_cases hlevel : s = side ∧ p = price
        · obtain ⟨rfl, rfl⟩ := hlevel
          rw [setAt_self, PriceTime.volume_append]
          exact (hleaves.covered s p).trans (Nat.le_add_right _ _)
        · rw [setAt_of_ne _ _ hlevel]
          exact hleaves.covered s p
  | @untraded side price qty =>
      have hsame : flow.record 0 (.trade side price qty) = flow := by
        have hzero : setAt flow.executed side price
            (flow.executed side price + (0 : UInt32).toNat) =
            flow.executed := by
          funext s p
          by_cases hlevel : s = side ∧ p = price
          · obtain ⟨rfl, rfl⟩ := hlevel
            exact setAt_self ..
          · exact setAt_of_ne _ _ hlevel
        rw [record, hzero]
      rw [hsame]
      exact hleaves
  | @traded side price qty _ _ hfilled =>
      have hvolume := hleaves.volume_add side price
      change quantity (book side price) + _ = _ at hvolume
      rw [fill] at hfilled
      refine ⟨fun s p => ?_, fun s p => ?_⟩
      · by_cases hlevel : s = side ∧ p = price
        · obtain ⟨rfl, rfl⟩ := hlevel
          calc live ((setAt book s p (consume qty (book s p)) s p).map
              Resting.order)
              = serve qty.toNat (live ((book s p).map Resting.order)) := by
                rw [setAt_self, Resting.order, consume_tickets, live_serve]
            _ = serve ret.toNat (live ((book s p).map Resting.order)) := by
                rw [hfilled, ← serve_live_min, Resting.order, volume_tickets]
            _ = serve
                (setAt flow.executed s p (flow.executed s p + ret.toNat) s p)
                  (live (flow.placed s p)) := by
                rw [hleaves.queue, serve_serve, setAt_self]
        · dsimp only [record]
          rw [setAt_of_ne _ _ hlevel, setAt_of_ne _ _ hlevel]
          exact hleaves.queue s p
      · dsimp only [record]
        by_cases hlevel : s = side ∧ p = price
        · obtain ⟨rfl, rfl⟩ := hlevel
          rw [setAt_self]
          omega
        · rw [setAt_of_ne _ _ hlevel]
          exact hleaves.covered s p
  | dequeued => exact absurd rfl (hdequeue _)
  | cleared => exact absurd rfl hclear

end Leaves

end Flow

namespace Pipeline

/-- What a Trade message executes, as the book returns it. -/
def executed (state : Pipeline size) (message : ItchMessage) : ℕ :=
  match (state.accessed message).1 with
  | none => 0
  | some slot =>
      match route ((state.accessed message).2.books.book slot) message with
      | some (.trade side price qty) =>
          ((state.accessed message).2.books.apply slot
            (.trade side price qty)).1.toNat
      | _ => 0

/-- The flow of the book a message goes to. -/
def flowOn (books : Books UInt32 DepthTally size) (slot : UInt32)
    (message : ItchMessage) (flow : Flow) : Flow :=
  match route (books.book slot) message with
  | some op => flow.record (books.apply slot op).1 op
  | none => flow

/-- The flows of all symbols after a message.  A miss starts that of its symbol
again. -/
def flowAfter (state : Pipeline size) (message : ItchMessage)
    (flows : UInt16 → Flow) :
    UInt16 → Flow :=
  match (state.accessed message).1 with
  | none => flows
  | some slot =>
      let bookId := state.bookIdOf message
      let earlier :=
        if state.cache.index.isCached bookId then flows bookId else .none
      Function.update flows bookId
        (flowOn (state.accessed message).2.books slot message earlier)

def flowMachine (size : UInt32) :
    Machine (Pipeline size × (UInt16 → Flow)) ItchMessage :=
  (machine size).observed flowAfter

theorem flowAfter_of_ne (state : Pipeline size) (message : ItchMessage)
    (flows : UInt16 → Flow) {bookId : UInt16}
    (hne : bookId ≠ state.bookIdOf message) :
    state.flowAfter message flows bookId = flows bookId := by
  rw [flowAfter]
  cases (state.accessed message).1 with
  | none => rfl
  | some slot => exact Function.update_of_ne hne _ _

theorem flowOn_leaves {books : Books UInt32 DepthTally size}
    {a : UInt32 → AbstractBook} {slot : UInt32} {message : ItchMessage}
    {book' : AbstractBook} (hdelivered : books.Delivered a slot message
      (books.deliver slot message) book')
    {flow : Flow} (hleaves : flow.Leaves (a slot)) :
    (flowOn books slot message flow).Leaves book' := by
  generalize books.deliver slot message = books' at hdelivered
  cases hdelivered with
  | ignored hroute =>
      rw [flowOn, hroute]
      exact hleaves
  | step hroute _ hstep =>
      rw [flowOn, hroute]
      refine hleaves.step hstep (fun idx heq => ?_) fun heq => ?_
      · obtain ⟨-, hop⟩ | ⟨-, hop⟩ := route_eq_some hroute <;> simp [heq] at hop
      · obtain ⟨-, hop⟩ | ⟨-, hop⟩ := route_eq_some hroute <;> simp [heq] at hop

/-- The flows leave the books of the cached symbols. -/
def Flows (state : Pipeline size × (UInt16 → Flow)) : Prop :=
  ∃ a, state.1.Sound a ∧ ∀ bookId, state.1.cache.index.isCached bookId = true →
    (state.2 bookId).Leaves (a (state.1.cache.index.bookToSlot bookId.toUInt32))

theorem Flows.step {state : Pipeline size × (UInt16 → Flow)}
    (hflows : Flows state) (message : ItchMessage) :
    Flows ((flowMachine size).step state message) := by
  obtain ⟨pipeline, flows⟩ := state
  obtain ⟨a, ⟨reference, hcache⟩, hleaves⟩ := hflows
  obtain ⟨after, hprocessed, hsound'⟩ :=
    Sound.processMessage ⟨reference, hcache⟩ message
  obtain ⟨reference', hcache'⟩ := hsound'
  refine ⟨after, ⟨reference', hcache'⟩, ?_⟩
  change ∀ bookId, (pipeline.processMessage message).cache.index.isCached
    bookId = true →
    (pipeline.flowAfter message flows bookId).Leaves
      (after ((pipeline.processMessage message).cache.index.bookToSlot
        bookId.toUInt32))
  refine hprocessed.forall_cached
    (fun bookId _ book =>
      (if pipeline.cache.index.isCached bookId then flows bookId
       else Flow.none).Leaves book)
    (fun bookId _ book => (pipeline.flowAfter message flows bookId).Leaves book)
    hcache hcache' ?_ (fun hnew => ?_) ?_ fun bookId hcached => ?_
  · intro bookId tally book hne hcached hearlier
    rw [if_pos hcached] at hearlier
    rwa [flowAfter_of_ne _ _ _ hne]
  · rw [hnew, if_neg Bool.false_ne_true]
    exact Flow.none_leaves
  · intro slot opened a' book' hfound hopened _ hdelivered hearlier
    rw [flowAfter, hfound, hopened]
    dsimp only
    rw [Function.update_self]
    exact flowOn_leaves hdelivered hearlier
  · rw [if_pos hcached]
    exact hleaves bookId hcached

theorem init_flows (hsize : 0 < size.toNat) (memory : UInt32 → LFUNode)
    (orders : UInt32 → Order) :
    Flows ((init memory orders : Pipeline size), fun _ => Flow.none) := by
  refine ⟨_, init_sound hsize memory orders, fun bookId hcached => ?_⟩
  simp [init, LFUCache.init, LFUIndex.init, LFUIndex.isCached] at hcached

/-- At every level of every cached book, after every sequence of messages, the
queue holds what remains of the orders placed there since the book was opened,
in the order they were placed, once the quantity that trades executed there was
served from the front.  So nothing placed is lost or executed twice, and only
the first order that waits may have been executed in part.  (Orders without a
quantity may be left behind or not.) -/
theorem levels_are_served (memory : UInt32 → LFUNode) (orders : UInt32 → Order)
    (messages : List ItchMessage) (bookId : UInt16) :
    let state := (flowMachine maxOrders).run (init memory orders, fun _ =>
      Flow.none) messages
    let flow := state.2 bookId
    state.1.cache.index.isCached bookId = true → ∀ side price,
      let queue := (state.1.restingOf bookId side price).map Resting.order
      live queue = serve (flow.executed side price)
        (live (flow.placed side price)) ∧
        PriceTime.volume queue + flow.executed side price =
          PriceTime.volume (flow.placed side price) ∧
        (live queue).tail <:+ live (flow.placed side price) := by
  intro state flow hcached side price queue
  have hlegal : (flowMachine maxOrders).Legal (init memory orders, fun _ =>
      Flow.none) messages :=
    Machine.legal_of_forall (fun _ _ => trivial) _ messages
  obtain ⟨a, hsound, hflows⟩ : Flows state :=
    Machine.invariant Flows (fun _ message hstate _ => hstate.step message)
      (init_flows maxOrders_pos memory orders) hlegal
  have hleaves := hflows bookId hcached
  rw [← hsound.restingOf_eq bookId] at hleaves
  have hqueue := hleaves.queue side price
  refine ⟨hqueue, ?_, ?_⟩
  · have hvolume := hleaves.volume_add side price
    rwa [AbstractBook.volume, ← volume_tickets fun _ orderId =>
      orderId] at hvolume
  · rw [hqueue]
    exact (tail_serve_suffix _ _).trans (List.tail_suffix _)

/-- An order of 5 of which 2 were traded, behind a higher bid. -/
theorem levels_are_served_partly :
    let messages : List ItchMessage := [⟨addType, btcUsdt, 1, 100, 1⟩,
      ⟨addType, btcUsdt, 2, 40, 5⟩, ⟨tradeType, btcUsdt, 3, 40, 2⟩]
    let state := (flowMachine maxOrders).run
      (init (fun _ => default) fun _ => default, fun _ => Flow.none) messages
    let flow := state.2 0
    let queue := (state.1.restingOf 0 .bid 40).map Resting.order
    live queue = serve (flow.executed .bid 40) (live (flow.placed .bid 40)) ∧
      PriceTime.volume queue + flow.executed .bid 40 =
        PriceTime.volume (flow.placed .bid 40) ∧
      (live queue).tail <:+ live (flow.placed .bid 40) :=
  levels_are_served (fun _ => default) (fun _ => default)
    [⟨addType, btcUsdt, 1, 100, 1⟩, ⟨addType, btcUsdt, 2, 40, 5⟩,
      ⟨tradeType, btcUsdt, 3, 40, 2⟩]
    0 (by decide) .bid 40

end Pipeline

end MarketDataPipeline
