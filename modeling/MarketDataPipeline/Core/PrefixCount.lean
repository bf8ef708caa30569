import Mathlib

/-!
# Counting the prefixes of a set of words

Words of one length share prefixes.  If every word may be changed in its last
letter within the set, then the words come in full blocks, and few blocks have
few prefixes.  So words with many prefixes leave a block that is not full.
-/

namespace MarketDataPipeline

variable {α : Type*} [DecidableEq α]

/-- The words of a set with all their prefixes. -/
def prefixes (words : Finset (List α)) : Finset (List α) :=
  words.biUnion fun word => word.inits.toFinset

theorem mem_prefixes {words : Finset (List α)} {front : List α} :
    front ∈ prefixes words ↔ ∃ word ∈ words, front <+: word := by
  simp [prefixes]

variable {words : Finset (List α)} {n : ℕ}
  (hlength : ∀ word ∈ words, word.length = n + 1)

/-- Cutting a word down further loses what the longer cut kept. -/
theorem image_take_eq (words : Finset (List α)) {d : ℕ} (hd : d ≤ n) :
    words.image (List.take d) =
      (words.image (List.take n)).image (List.take d) := by
  rw [Finset.image_image]
  refine Finset.image_congr fun word _ => ?_
  rw [Function.comp_apply, List.take_take, min_eq_left hd]

include hlength

/-- A prefix is a whole word, or a word cut down to some length. -/
theorem prefixes_subset : prefixes words ⊆
    (Finset.range (n + 1)).biUnion
      (fun d => words.image (List.take d)) ∪ words := by
  intro front hfront
  obtain ⟨word, hword, hprefix⟩ := mem_prefixes.mp hfront
  have hle := hprefix.length_le
  rw [hlength word hword] at hle
  rw [Finset.mem_union, Finset.mem_biUnion]
  by_cases hwhole : front.length = n + 1
  · have hsame := hprefix.eq_of_length (hwhole.trans (hlength word hword).symm)
    exact Or.inr (hsame ▸ hword)
  · refine Or.inl ⟨front.length, Finset.mem_range.mpr (by omega), ?_⟩
    exact Finset.mem_image.mpr
      ⟨word, hword, (List.prefix_iff_eq_take.mp hprefix).symm⟩

theorem card_prefixes_le :
    (prefixes words).card ≤
      (n + 1) * (words.image (List.take n)).card + words.card := by
  have hcut : ∀ d ∈ Finset.range (n + 1),
      (words.image (List.take d)).card ≤ (words.image (List.take n)).card := by
    intro d hd
    rw [image_take_eq words (Nat.lt_succ_iff.mp (Finset.mem_range.mp hd))]
    exact Finset.card_image_le
  calc
    (prefixes words).card ≤
        ((Finset.range (n + 1)).biUnion (fun d => words.image (List.take d)) ∪
          words).card :=
      Finset.card_le_card (prefixes_subset hlength)
    _ ≤ ((Finset.range (n + 1)).biUnion fun d =>
        words.image (List.take d)).card + words.card :=
      Finset.card_union_le _ _
    _ ≤ ∑ d ∈ Finset.range (n + 1), (words.image (List.take d)).card +
        words.card :=
      Nat.add_le_add_right Finset.card_biUnion_le _
    _ ≤ ∑ _d ∈ Finset.range (n + 1), (words.image (List.take n)).card +
        words.card :=
      Nat.add_le_add_right (Finset.sum_le_sum hcut) _
    _ = (n + 1) * (words.image (List.take n)).card + words.card := by simp

omit hlength in
/-- In full blocks, each cut word stands for as many words as there are
letters. -/
theorem card_blocks_le {alphabet : Finset α}
    (hfull : ∀ word ∈ words, ∀ letter ∈ alphabet,
      word.take n ++ [letter] ∈ words) :
    (words.image (List.take n)).card * alphabet.card ≤ words.card := by
  rw [← Finset.card_product]
  refine Finset.card_le_card_of_injOn (fun block => block.1 ++ [block.2]) ?_ ?_
  · rintro ⟨cut, letter⟩ hblock
    obtain ⟨hcut, hletter⟩ := Finset.mem_product.mp hblock
    obtain ⟨word, hword, rfl⟩ := Finset.mem_image.mp hcut
    exact hfull word hword letter hletter
  · rintro ⟨cut, letter⟩ - ⟨cut', letter'⟩ - heq
    obtain ⟨hcut, hletter⟩ := List.append_inj' heq rfl
    rw [Prod.mk.injEq]
    exact ⟨hcut, (List.cons.inj hletter).1⟩

/-- Words with more prefixes than full blocks have leave a word out that
differs from one of them in its last letter only. -/
theorem exists_missing_sibling {alphabet : Finset α}
    (halphabet : 0 < alphabet.card)
    (hmany : (n + 1) * (words.card / alphabet.card) + words.card <
      (prefixes words).card) :
    ∃ word ∈ words, ∃ letter ∈ alphabet, word.take n ++ [letter] ∉ words := by
  by_contra hnone
  push Not at hnone
  have hblocks := (Nat.le_div_iff_mul_le halphabet).mpr (card_blocks_le hnone)
  have hcard := card_prefixes_le hlength
  have := Nat.mul_le_mul_left (n + 1) hblocks
  omega

/-! ## Level by level -/

/-- The prefixes of one length are the words cut down to it. -/
theorem card_prefixes_eq : (prefixes words).card =
    ∑ d ∈ Finset.range (n + 2), (words.image (List.take d)).card := by
  have hlevels : prefixes words =
      (Finset.range (n + 2)).biUnion fun d => words.image (List.take d) := by
    ext front
    rw [mem_prefixes, Finset.mem_biUnion]
    constructor
    · rintro ⟨word, hword, hprefix⟩
      have hle := hprefix.length_le
      rw [hlength word hword] at hle
      refine ⟨front.length, Finset.mem_range.mpr (by omega), ?_⟩
      exact Finset.mem_image.mpr
        ⟨word, hword, (List.prefix_iff_eq_take.mp hprefix).symm⟩
    · rintro ⟨d, -, hfront⟩
      obtain ⟨word, hword, rfl⟩ := Finset.mem_image.mp hfront
      exact ⟨word, hword, List.take_prefix d word⟩
  have hsize : ∀ d ∈ Finset.range (n + 2), ∀ front ∈ words.image (List.take d),
      front.length = d := by
    intro d hd front hfront
    obtain ⟨word, hword, rfl⟩ := Finset.mem_image.mp hfront
    have hd' := Finset.mem_range.mp hd
    rw [List.length_take, hlength word hword, min_eq_left (by omega)]
  rw [hlevels, Finset.card_biUnion]
  intro d hd d' hd' hne
  refine Finset.disjoint_left.mpr fun front hfront hfront' => ?_
  exact hne ((hsize d hd front hfront).symm.trans (hsize d' hd' front hfront'))

/-- The root, a letter each, and a node for each word at the deeper levels. -/
theorem card_prefixes_le_letters {alphabet : Finset α}
    (hletters : ∀ word ∈ words, ∀ letter ∈ word, letter ∈ alphabet) :
    (prefixes words).card ≤ 1 + alphabet.card + n * words.card := by
  have hroot : (words.image (List.take 0)).card ≤ 1 := by
    refine Finset.card_le_one.mpr fun front hfront other hother => ?_
    obtain ⟨_, _, rfl⟩ := Finset.mem_image.mp hfront
    obtain ⟨_, _, rfl⟩ := Finset.mem_image.mp hother
    rw [List.take_zero, List.take_zero]
  have hfirst : (words.image (List.take 1)).card ≤ alphabet.card := by
    refine (Finset.card_le_card fun front hfront => ?_).trans
      (Finset.card_image_le (s := alphabet) (f := fun letter => [letter]))
    obtain ⟨word, hword, rfl⟩ := Finset.mem_image.mp hfront
    obtain ⟨letter, rest, rfl⟩ :=
      List.exists_cons_of_length_eq_add_one (hlength word hword)
    exact Finset.mem_image.mpr ⟨letter, hletters _ hword letter (by simp), rfl⟩
  have hdeep : ∑ d ∈ Finset.range n,
      (words.image (List.take (d + 1 + 1))).card ≤
      n * words.card := by
    calc
      ∑ d ∈ Finset.range n, (words.image (List.take (d + 1 + 1))).card ≤
          ∑ _d ∈ Finset.range n, words.card :=
        Finset.sum_le_sum fun d _ => Finset.card_image_le
      _ = n * words.card := by
          rw [Finset.sum_const, Finset.card_range, smul_eq_mul]
  rw [card_prefixes_eq hlength, Finset.sum_range_succ', Finset.sum_range_succ']
  calc
    _ ≤ n * words.card + alphabet.card + 1 :=
        Nat.add_le_add (Nat.add_le_add hdeep hfirst) hroot
    _ = 1 + alphabet.card + n * words.card := by ring

/-- Words that differ in their first two letters share nothing below them. -/
theorem card_prefixes_of_injOn (hne : words.Nonempty)
    (hinj : Set.InjOn (List.take 2) (words : Set (List α))) :
    (prefixes words).card =
      1 + (words.image (List.take 1)).card + n * words.card := by
  have hroot : (words.image (List.take 0)).card = 1 := by
    have hconst : words.image (List.take 0) = {[]} := by
      ext front
      simp only [Finset.mem_image, List.take_zero, Finset.mem_singleton]
      obtain ⟨word, hword⟩ := hne
      exact ⟨fun ⟨_, _, heq⟩ => heq.symm, fun heq => ⟨word, hword, heq.symm⟩⟩
    rw [hconst, Finset.card_singleton]
  have hdeep : ∀ d ∈ Finset.range n,
      (words.image (List.take (d + 1 + 1))).card = words.card := by
    intro d _
    refine Finset.card_image_of_injOn fun word hword other hother heq =>
      hinj hword hother ?_
    have hcut := congrArg (List.take 2) heq
    simpa [List.take_take] using hcut
  rw [card_prefixes_eq hlength, Finset.sum_range_succ',
    Finset.sum_range_succ', hroot, Finset.sum_congr rfl hdeep, Finset.sum_const,
    Finset.card_range, smul_eq_mul]
  ring

end MarketDataPipeline
