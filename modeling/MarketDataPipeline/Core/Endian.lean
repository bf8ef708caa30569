import Mathlib

/-!
# Numbers as bytes

The bytes of a number with the most significant first, and the value of bytes
read in either order.  Swapping the bytes of a number turns the one reading
into the other.
-/

namespace MarketDataPipeline.Endian

/-- The value of bytes, the most significant first. -/
def beValue (bytes : List UInt8) : ℕ :=
  bytes.foldl (fun value byte => value * 256 + byte.toNat) 0

def leValue (bytes : List UInt8) : ℕ := beValue bytes.reverse

/-- The last `width` bytes of a number, the most significant first. -/
def beBytes : ℕ → ℕ → List UInt8
  | 0, _ => []
  | width + 1, value => beBytes width (value / 256) ++ [.ofNat value]

/-- The number with the same bytes in the opposite order. -/
def swapBytes (width value : ℕ) : ℕ := leValue (beBytes width value)

@[simp]
theorem beBytes_length (width value : ℕ) :
    (beBytes width value).length = width := by
  induction width generalizing value with
  | zero => rfl
  | succ width ih => rw [beBytes, List.length_append, ih, List.length_singleton]

theorem beValue_concat (front : List UInt8) (last : UInt8) :
    beValue (front ++ [last]) = beValue front * 256 + last.toNat := by
  rw [beValue, List.foldl_append]
  rfl

theorem beValue_lt (bytes : List UInt8) :
    beValue bytes < 256 ^ bytes.length := by
  induction bytes using List.reverseRecOn with
  | nil => exact Nat.one_pos
  | append_singleton front last ih =>
      have hlast : last.toNat < 256 := last.toNat_lt
      rw [beValue_concat, List.length_append, List.length_singleton, pow_succ]
      omega

/-- The bytes of the value of bytes are those bytes. -/
theorem beBytes_beValue (bytes : List UInt8) :
    beBytes bytes.length (beValue bytes) = bytes := by
  induction bytes using List.reverseRecOn with
  | nil => rfl
  | append_singleton front last ih =>
      have hlast : last.toNat < 256 := last.toNat_lt
      have hdiv : (beValue front * 256 + last.toNat) / 256 = beValue front := by
        omega
      have hbyte : UInt8.ofNat (beValue front * 256 + last.toNat) = last := by
        rw [← UInt8.toNat_inj, UInt8.toNat_ofNat']
        omega
      rw [List.length_append, List.length_singleton, beBytes, beValue_concat,
        hdiv, ih, hbyte]

/-- The value of the bytes of a number that fits is the number. -/
theorem beValue_beBytes {width value : ℕ} (hfits : value < 256 ^ width) :
    beValue (beBytes width value) = value := by
  induction width generalizing value with
  | zero =>
      rw [pow_zero] at hfits
      exact (Nat.lt_one_iff.mp hfits).symm
  | succ width ih =>
      rw [pow_succ] at hfits
      have hbyte : (UInt8.ofNat value).toNat = value % 256 := UInt8.toNat_ofNat'
      rw [beBytes, beValue_concat, ih (by omega), hbyte]
      omega

theorem leValue_lt (bytes : List UInt8) :
    leValue bytes < 256 ^ bytes.length := by
  have hlt := beValue_lt bytes.reverse
  rwa [List.length_reverse] at hlt

/-- What was read with the least significant byte first, swapped, is what is
read with the most significant byte first. -/
theorem swapBytes_leValue (bytes : List UInt8) :
    swapBytes bytes.length (leValue bytes) = beValue bytes := by
  have hbytes := beBytes_beValue bytes.reverse
  rw [List.length_reverse] at hbytes
  rw [swapBytes, leValue, leValue, hbytes, List.reverse_reverse]

end MarketDataPipeline.Endian
