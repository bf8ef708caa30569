import Mathlib

/-!
# Registries

A registry numbers its keys 0, 1, 2, ... in the order in which they came.  A key
keeps its number when further keys come.
-/

namespace MarketDataPipeline

/-- Keys in the order in which they came. -/
structure Registry (Key : Type*) where
  keys : List Key
  nodup : keys.Nodup

namespace Registry

variable {Key : Type*}

def empty : Registry Key := ⟨[], List.nodup_nil⟩

def add (registry : Registry Key) (key : Key) (hnew : key ∉ registry.keys) :
    Registry Key where
  keys := registry.keys ++ [key]
  nodup := by
    refine List.nodup_append.mpr ⟨registry.nodup, List.nodup_singleton key, ?_⟩
    rintro old hold _ hkey rfl
    rw [List.mem_singleton] at hkey
    exact hnew (hkey ▸ hold)

theorem add_keys (registry : Registry Key) (key : Key)
    (hnew : key ∉ registry.keys) :
    (registry.add key hnew).keys = registry.keys ++ [key] := rfl

theorem add_length (registry : Registry Key) (key : Key)
    (hnew : key ∉ registry.keys) :
    (registry.add key hnew).keys.length = registry.keys.length + 1 := by
  rw [add_keys, List.length_append, List.length_singleton]

variable [DecidableEq Key] {registry : Registry Key} {key other : Key} {n : ℕ}

def number (registry : Registry Key) (key : Key) : Option ℕ :=
  if key ∈ registry.keys then some (registry.keys.idxOf key) else none

theorem number_eq_none_iff :
    registry.number key = none ↔ key ∉ registry.keys := by
  simp [number]

theorem number_of_mem (hkey : key ∈ registry.keys) :
    registry.number key = some (registry.keys.idxOf key) := if_pos hkey

theorem mem_of_number (hnumber : registry.number key = some n) :
    key ∈ registry.keys := by
  by_contra hnew
  rw [number_eq_none_iff.mpr hnew] at hnumber
  simp at hnumber

theorem number_lt (hnumber : registry.number key = some n) :
    n < registry.keys.length := by
  have hkey := mem_of_number hnumber
  rw [number_of_mem hkey, Option.some.injEq] at hnumber
  rw [← hnumber]
  exact List.idxOf_lt_length_iff.mpr hkey

theorem exists_number (hkey : key ∈ registry.keys) :
    ∃ n, registry.number key = some n :=
  ⟨_, number_of_mem hkey⟩

/-- Different keys have different numbers. -/
theorem number_inj (hkey : registry.number key = some n)
    (hother : registry.number other = some n) :
    key = other := by
  have hmem := mem_of_number hkey
  rw [number_of_mem hmem, Option.some.injEq] at hkey
  rw [number_of_mem (mem_of_number hother), Option.some.injEq] at hother
  exact (List.idxOf_inj hmem).mp (hkey.trans hother.symm)

/-- Adding a key numbers it and keeps the numbers of the others. -/
theorem number_add (hnew : key ∉ registry.keys) (other : Key) :
    (registry.add key hnew).number other =
      if other = key then some registry.keys.length
      else registry.number other := by
  by_cases hother : other = key
  · subst hother
    rw [if_pos rfl, number_of_mem (by simp [add]), add,
      List.idxOf_append_of_notMem hnew]
    simp
  · rw [if_neg hother, number, number]
    by_cases hold : other ∈ registry.keys
    · rw [if_pos hold, if_pos (by simp [add, hold]), add,
        List.idxOf_append_of_mem hold]
    · rw [if_neg hold, if_neg (by simp [add, hold, hother])]

/-- The registry with a key, added if it is new. -/
def ensure (registry : Registry Key) (key : Key) : Registry Key :=
  if hkey : key ∈ registry.keys then registry else registry.add key hkey

theorem ensure_of_mem (hkey : key ∈ registry.keys) :
    registry.ensure key = registry := dif_pos hkey

theorem ensure_of_notMem (hnew : key ∉ registry.keys) :
    registry.ensure key = registry.add key hnew := dif_neg hnew

end Registry

end MarketDataPipeline
