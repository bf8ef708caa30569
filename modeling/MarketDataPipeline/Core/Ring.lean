import Mathlib

/-!
# Bounded rings

A ring between one producer and one consumer: entries leave in the order in
which they came, and there are never more of them than the ring has slots.  The
producer reserves slots before it submits; the consumer looks at the oldest
entries before it releases them.
-/

namespace MarketDataPipeline

structure Ring (α : Type*) (capacity : ℕ) where
  entries : List α
  bounded : entries.length ≤ capacity

namespace Ring

variable {α β : Type*} {capacity : ℕ}

def empty : Ring α capacity := ⟨[], Nat.zero_le _⟩

/-- As many slots as asked for where they are free, and none otherwise. -/
def reserve (ring : Ring α capacity) (count : ℕ) : ℕ :=
  if ring.entries.length + count ≤ capacity then count else 0

/-- Appends what fits; a producer submits no more than it has reserved. -/
def submit (ring : Ring α capacity) (new : List α) : Ring α capacity :=
  if hroom : ring.entries.length + new.length ≤ capacity then
    ⟨ring.entries ++ new, by rwa [List.length_append]⟩
  else ring

def release (ring : Ring α capacity) (count : ℕ) : Ring α capacity :=
  ⟨ring.entries.drop count, by
    rw [List.length_drop]
    exact (Nat.sub_le _ _).trans ring.bounded⟩

theorem reserve_eq {ring : Ring α capacity} {count : ℕ}
    (hroom : ring.entries.length + count ≤ capacity) :
    ring.reserve count = count :=
  if_pos hroom

theorem submit_entries {ring : Ring α capacity} {new : List α}
    (hroom : ring.entries.length + new.length ≤ capacity) :
    (ring.submit new).entries = ring.entries ++ new := by
  rw [submit, dif_pos hroom]

@[simp]
theorem release_entries (ring : Ring α capacity) (count : ℕ) :
    (ring.release count).entries = ring.entries.drop count := rfl

/-! ## What a ring holds -/

/-- The entries under a name for each, without their order. -/
def tokens (name : α → β) (ring : Ring α capacity) : Multiset β :=
  ring.entries.map name

@[simp]
theorem tokens_empty (name : α → β) :
    (empty : Ring α capacity).tokens name = 0 := rfl

theorem card_tokens (name : α → β) (ring : Ring α capacity) :
    (ring.tokens name).card = ring.entries.length := by
  rw [tokens, Multiset.coe_card, List.length_map]

theorem tokens_submit (name : α → β) {ring : Ring α capacity} {new : List α}
    (hroom : ring.entries.length + new.length ≤ capacity) :
    (ring.submit new).tokens name =
      ring.tokens name + (new.map name : List β) := by
  rw [tokens, submit_entries hroom, List.map_append, ← Multiset.coe_add]
  rfl

/-- What is released was among the tokens of the ring. -/
theorem tokens_release (name : α → β) (ring : Ring α capacity) (count : ℕ) :
    ((ring.entries.take count).map name : List β) +
    (ring.release count).tokens name =
      ring.tokens name := by
  rw [tokens, release_entries, Multiset.coe_add, ← List.map_append,
    List.take_append_drop]
  rfl

end Ring

end MarketDataPipeline
