import Mathlib

/-!
# Price-time priority

The orders that wait at one price form a queue, which is served from its front.
The orders of one side are such queues by price; the side's best price is the
highest or the lowest at which orders wait.
-/

namespace MarketDataPipeline.PriceTime

variable {Id : Type*}

/-- An order that waits: its id and what is left of it. -/
structure Ticket (Id : Type*) where
  id : Id
  qty : ℕ
  deriving DecidableEq

/-- What the orders of a queue have left. -/
def volume (queue : List (Ticket Id)) : ℕ := (queue.map Ticket.qty).sum

/-- What remains of a queue after `qty` was served. -/
def serve : ℕ → List (Ticket Id) → List (Ticket Id)
  | _, [] => []
  | qty, first :: rest =>
      if qty = 0 then first :: rest
      else if first.qty ≤ qty then serve (qty - first.qty) rest
      else { first with qty := first.qty - qty } :: rest

@[simp]
theorem volume_nil : volume ([] : List (Ticket Id)) = 0 := rfl

@[simp]
theorem volume_cons (first : Ticket Id) (rest : List (Ticket Id)) :
    volume (first :: rest) = first.qty + volume rest := by
  rw [volume, List.map_cons, List.sum_cons, volume]

@[simp]
theorem volume_append (front back : List (Ticket Id)) :
    volume (front ++ back) = volume front + volume back := by
  rw [volume, List.map_append, List.sum_append, volume, volume]

@[simp]
theorem serve_zero (queue : List (Ticket Id)) : serve 0 queue = queue := by
  cases queue with
  | nil => rfl
  | cons first rest => exact if_pos rfl

/-- Serving takes what is asked for, as far as there is any. -/
theorem volume_serve (qty : ℕ) (queue : List (Ticket Id)) :
    volume (serve qty queue) = volume queue - qty := by
  induction queue generalizing qty with
  | nil => simp [serve]
  | cons first rest ih =>
      rw [serve, volume_cons]
      split
      case isTrue hzero => rw [hzero, Nat.sub_zero, volume_cons]
      case isFalse =>
        split
        case isTrue hle =>
          rw [ih]
          omega
        case isFalse hlt =>
          rw [volume_cons]
          dsimp only
          omega

/-- Serving twice is serving the sum. -/
theorem serve_serve (qty later : ℕ) (queue : List (Ticket Id)) :
    serve later (serve qty queue) = serve (qty + later) queue := by
  induction queue generalizing qty with
  | nil => rfl
  | cons first rest ih =>
      by_cases hqty : qty = 0
      · rw [hqty, serve_zero, Nat.zero_add]
      have hsum : ¬ qty + later = 0 := by omega
      rw [serve, if_neg hqty, serve, if_neg hsum]
      by_cases hfirst : first.qty ≤ qty
      · have hleft : qty + later - first.qty =
          qty - first.qty + later := by omega
        rw [if_pos hfirst, if_pos (hfirst.trans (Nat.le_add_right qty later)),
          ih, hleft]
      rw [if_neg hfirst]
      by_cases hlater : later = 0
      · rw [hlater, serve_zero, Nat.add_zero, if_neg hfirst]
      rw [serve, if_neg hlater]
      dsimp only
      by_cases hboth : first.qty ≤ qty + later
      · have hleft : later - (first.qty - qty) =
          qty + later - first.qty := by omega
        rw [if_pos hboth, if_pos (by omega), hleft]
      · have hleft : first.qty - qty - later =
          first.qty - (qty + later) := by omega
        rw [if_neg hboth, if_neg (by omega), hleft]

/-- Only the front of a served queue may differ from the order it was. -/
theorem tail_serve_suffix (qty : ℕ) (queue : List (Ticket Id)) :
    (serve qty queue).tail <:+ queue.tail := by
  induction queue generalizing qty with
  | nil => exact List.suffix_rfl
  | cons first rest ih =>
      rw [serve]
      split
      · exact List.suffix_rfl
      split
      · exact (ih _).trans (List.tail_suffix rest)
      · exact List.suffix_rfl

/-- Orders that come later wait until those before them are served. -/
theorem serve_append {qty : ℕ} {queue : List (Ticket Id)}
    (hqty : qty ≤ volume queue) (later : List (Ticket Id)) :
    serve qty (queue ++ later) = serve qty queue ++ later := by
  induction queue generalizing qty with
  | nil =>
      rw [Nat.le_zero.mp hqty, List.nil_append, serve_zero, serve_zero,
        List.nil_append]
  | cons first rest ih =>
      rw [volume_cons] at hqty
      rw [List.cons_append, serve, serve]
      split
      · rfl
      split
      · exact ih (by omega)
      · rfl

/-! ## Orders with something left -/

def live (queue : List (Ticket Id)) : List (Ticket Id) :=
  queue.filter fun ticket => 0 < ticket.qty

theorem live_append (front back : List (Ticket Id)) :
    live (front ++ back) = live front ++ live back := List.filter_append ..

theorem live_cons_of_pos {first : Ticket Id} (hfirst : 0 < first.qty)
    (rest : List (Ticket Id)) :
    live (first :: rest) = first :: live rest :=
      List.filter_cons_of_pos (by simpa using hfirst)

theorem live_cons_of_zero {first : Ticket Id} (hfirst : first.qty = 0)
    (rest : List (Ticket Id)) :
    live (first :: rest) = live rest :=
      List.filter_cons_of_neg (by simp [hfirst])

@[simp]
theorem volume_live (queue : List (Ticket Id)) :
    volume (live queue) = volume queue := by
  induction queue with
  | nil => rfl
  | cons first rest ih =>
      by_cases hfirst : first.qty = 0
      · rw [live_cons_of_zero hfirst, ih, volume_cons, hfirst, Nat.zero_add]
      · rw [live_cons_of_pos (Nat.pos_of_ne_zero hfirst), volume_cons,
          ih, volume_cons]

/-- Orders with nothing left make no difference to what serving leaves. -/
theorem live_serve (qty : ℕ) (queue : List (Ticket Id)) :
    live (serve qty queue) = serve qty (live queue) := by
  induction queue generalizing qty with
  | nil => rfl
  | cons first rest ih =>
      by_cases hqty : qty = 0
      · rw [hqty, serve_zero, serve_zero]
      rw [serve, if_neg hqty]
      by_cases hfirst : first.qty = 0
      · rw [if_pos (by omega), ih, hfirst, Nat.sub_zero,
          live_cons_of_zero hfirst]
      have hpos := Nat.pos_of_ne_zero hfirst
      rw [live_cons_of_pos hpos, serve, if_neg hqty]
      split
      · exact ih _
      case isFalse hlt =>
        exact live_cons_of_pos (Nat.sub_pos_of_lt (not_le.mp hlt)) rest

/-- Of a queue in which all orders have something left, only what is there is
served. -/
theorem serve_live_min (qty : ℕ) (queue : List (Ticket Id)) :
    serve (min qty (volume queue)) (live queue) = serve qty (live queue) := by
  rcases Nat.le_total qty (volume queue) with hle | hge
  · rw [Nat.min_eq_left hle]
  have hnothing : ∀ served, volume queue ≤ served →
      serve served (live queue) = [] := by
    intro served hserved
    have hleft : volume (serve served (live queue)) = 0 := by
      rw [volume_serve, volume_live]
      omega
    have hself : serve served (live queue) =
        live (serve served (live queue)) := by
      rw [live_serve, live, live, List.filter_filter]
      simp only [Bool.and_self]
    rw [hself]
    refine List.filter_eq_nil_iff.mpr fun ticket hticket => ?_
    have hqty : ticket.qty ≤ volume (serve served (live queue)) :=
      List.single_le_sum (fun _ _ => Nat.zero_le _)
        _ (List.mem_map_of_mem hticket)
    simp only [decide_eq_true_eq]
    omega
  rw [Nat.min_eq_right hge, hnothing _ le_rfl, hnothing _ hge]

/-! ## Queues without empty orders -/

def Positive (queue : List (Ticket Id)) : Prop :=
  ∀ ticket ∈ queue, 0 < ticket.qty

theorem positive_nil : Positive ([] : List (Ticket Id)) := by simp [Positive]

theorem Positive.append {front back : List (Ticket Id)}
    (hfront : Positive front)
    (hback : Positive back) : Positive (front ++ back) := by
  intro ticket hticket
  exact (List.mem_append.mp hticket).elim (hfront ticket) (hback ticket)

theorem Positive.serve {queue : List (Ticket Id)}
    (hpositive : Positive queue) (qty : ℕ) :
    Positive (serve qty queue) := by
  induction queue generalizing qty with
  | nil => exact hpositive
  | cons first rest ih =>
      have hrest : Positive rest :=
        fun ticket hticket => hpositive ticket (by simp [hticket])
      rw [PriceTime.serve]
      split
      · exact hpositive
      split
      · exact ih hrest _
      case isFalse hlt =>
        intro ticket hticket
        rcases List.mem_cons.mp hticket with rfl | hmem
        · exact Nat.sub_pos_of_lt (not_le.mp hlt)
        · exact hrest ticket hmem

theorem Positive.volume_pos_iff {queue : List (Ticket Id)}
    (hpositive : Positive queue) :
    0 < volume queue ↔ queue ≠ [] := by
  cases queue with
  | nil => simp
  | cons first rest =>
      have hfirst := hpositive first (by simp)
      simp only [volume_cons, ne_eq, reduceCtorEq, not_false_iff, iff_true]
      omega

/-! ## Best prices -/

def occupied (side : ℕ → List (Ticket Id)) : Set ℕ := {price | side price ≠ []}

/-- The best price of buyers, 0 where there are none. -/
noncomputable def highest (side : ℕ → List (Ticket Id)) : ℕ :=
  sSup (occupied side)

/-- The best price of sellers, 0 where there are none. -/
noncomputable def lowest (side : ℕ → List (Ticket Id)) : ℕ :=
  sInf (occupied side)

theorem highest_of_isGreatest {side : ℕ → List (Ticket Id)} {price : ℕ}
    (hprice : IsGreatest (occupied side) price) : highest side = price :=
  hprice.csSup_eq

theorem lowest_of_isLeast {side : ℕ → List (Ticket Id)} {price : ℕ}
    (hprice : IsLeast (occupied side) price) : lowest side = price :=
  hprice.csInf_eq

theorem highest_of_empty {side : ℕ → List (Ticket Id)}
    (hempty : occupied side = ∅) :
    highest side = 0 := by
  rw [highest, hempty, csSup_empty]
  rfl

end MarketDataPipeline.PriceTime
