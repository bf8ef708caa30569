import Mathlib

/-!
# Loops with one loop variable

The loop `while (guard i) { ...; i = next(i); }` reads its variable in the body
and moves it on at the end.  `Walk guard next start visited` says that the loop
started at `start` ends, and that its body has then run for exactly the values
in `visited`, in this order.
-/

namespace MarketDataPipeline

variable {α : Type*}

/-- A loop run to its end, with the values its variable took in the body. -/
inductive Walk (guard : α → Prop) (next : α → α) : α → List α → Prop
  | stop {i : α} (hguard : ¬ guard i) : Walk guard next i []
  | visit {i : α} {rest : List α} (hguard : guard i)
      (hrest : Walk guard next (next i) rest) :
      Walk guard next i (i :: rest)

namespace Walk

variable {guard : α → Prop} {next : α → α} {start : α} {visited : List α}

/-- What each round preserves holds of every value the body sees. -/
theorem forall_visited (hwalk : Walk guard next start visited) (inv : α → Prop)
    (hnext : ∀ i, inv i → guard i → inv (next i)) (hstart : inv start) :
    ∀ i ∈ visited, inv i ∧ guard i := by
  induction hwalk with
  | stop => simp
  | @visit first rest hguard _ ih =>
      intro i hi
      rcases List.mem_cons.mp hi with hfirst | hrest
      · rw [hfirst]
        exact ⟨hstart, hguard⟩
      · exact ih (hnext first hstart hguard) i hrest

/-- A loop ends within `rank start` rounds when each round lowers the rank. -/
theorem exists_of_rank (rank : α → ℕ) (inv : α → Prop)
    (hnext : ∀ i, inv i → guard i → inv (next i) ∧ rank (next i) < rank i)
    (hstart : inv start) :
    ∃ visited, Walk guard next start visited ∧ visited.length ≤ rank start := by
  induction hrank :
    rank start using Nat.strong_induction_on generalizing start with
  | _ bound ih =>
      by_cases hguard : guard start
      · obtain ⟨hinv, hlt⟩ := hnext start hstart hguard
        obtain ⟨rest, hwalk, hlength⟩ :=
          ih (rank (next start)) (hrank ▸ hlt) hinv rfl
        refine ⟨start :: rest, .visit hguard hwalk, ?_⟩
        rw [List.length_cons]
        omega
      · exact ⟨[], .stop hguard, Nat.zero_le _⟩

end Walk

end MarketDataPipeline
