import MarketDataPipeline.Core.Endian

/-!
# Reading frames

A frame is its bytes.  A read that reaches beyond its end has no result, so code
that always has one reads only inside.  Fields of two bytes are loaded the way a
little-endian host loads them.
-/

namespace MarketDataPipeline

open Endian

abbrev Frame := List UInt8

namespace Frame

def read (frame : Frame) (offset count : ℕ) : Option (List UInt8) :=
  if offset + count ≤ frame.length then some ((frame.drop offset).take count)
  else none

def load8 (frame : Frame) (offset : ℕ) : Option UInt8 := frame[offset]?

def load16 (frame : Frame) (offset : ℕ) : Option UInt16 :=
  (frame.read offset 2).map fun bytes => .ofNat (leValue bytes)

theorem read_of_le {frame : Frame} {offset count : ℕ}
    (hinside : offset + count ≤ frame.length) :
    frame.read offset count = some ((frame.drop offset).take count) :=
      if_pos hinside

/-- A field with what is before and behind it. -/
theorem slice_append {front field : List UInt8} {offset count : ℕ}
    (hfront : front.length = offset) (hfield : field.length = count)
    (back : List UInt8) :
    ((front ++ field ++ back).drop offset).take count = field := by
  subst hfront hfield
  rw [List.append_assoc, List.drop_left, List.take_left]

theorem read_append {front field : List UInt8} {offset count : ℕ}
    (hfront : front.length = offset) (hfield : field.length = count)
    (back : List UInt8) :
    Frame.read (front ++ field ++ back) offset count = some field := by
  have hinside : offset + count ≤ (front ++ field ++ back).length := by
    rw [List.length_append, List.length_append, hfront, hfield]
    exact Nat.le_add_right _ _
  rw [read_of_le hinside, slice_append hfront hfield]

theorem load8_append {front : List UInt8} {offset : ℕ}
    (hfront : front.length = offset) (byte : UInt8) (back : List UInt8) :
    Frame.load8 (front ++ byte :: back) offset =
    some byte := by
  subst hfront
  rw [load8, List.getElem?_append_right (Nat.le_refl _), Nat.sub_self]
  rfl

theorem load16_append {front field : List UInt8} {offset : ℕ}
    (hfront : front.length = offset) (hfield : field.length = 2)
    (back : List UInt8) :
    Frame.load16 (front ++ field ++ back) offset =
      some (.ofNat (leValue field)) := by
  rw [load16, read_append hfront hfield]
  rfl

theorem load8_isSome {frame : Frame} {offset : ℕ}
    (hinside : offset < frame.length) :
    ∃ byte, frame.load8 offset = some byte :=
      ⟨_, List.getElem?_eq_getElem hinside⟩

theorem load16_isSome {frame : Frame} {offset : ℕ}
    (hinside : offset + 2 ≤ frame.length) :
    ∃ field, frame.load16 offset = some field := by
  rw [load16, read_of_le hinside]
  exact ⟨_, rfl⟩

end Frame

/-! ## Byte order -/

/-- `ntohs` and `htons`, and those of BPF. -/
def ntohs (field : UInt16) : UInt16 := .ofNat (swapBytes 2 field.toNat)

def htons (field : UInt16) : UInt16 := ntohs field

/-- `ntohl_inline`. -/
def ntohl (field : UInt32) : UInt32 := .ofNat (swapBytes 4 field.toNat)

def ntohll (field : UInt64) : UInt64 := .ofNat (swapBytes 8 field.toNat)

/-! ## Headers -/

def ethhdrSize : ℕ := 14

/-- `sizeof(struct iphdr)`: without options. -/
def iphdrSize : ℕ := 20

def udphdrSize : ℕ := 8

def itchMessageSize : ℕ := 25

def ethPIp : UInt16 := 0x0800

def ipprotoUdp : UInt8 := 17

def marketDataPort : UInt16 := 1234

/-- The first byte of an IP header holds the version and the header length in
words of four bytes. -/
def ipVersion (first : UInt8) : UInt8 := first >>> 4

def ipIhl (first : UInt8) : UInt8 := first &&& 0x0F

namespace Frame

def hProto (frame : Frame) : Option UInt16 := frame.load16 12

/-- The byte of `ip->version` and `ip->ihl`. -/
def versionIhl (frame : Frame) : Option UInt8 := frame.load8 ethhdrSize

def protocol (frame : Frame) : Option UInt8 := frame.load8 (ethhdrSize + 9)

/-- `udp->dest` of the UDP header at an offset. -/
def udpDest (frame : Frame) (udp : ℕ) : Option UInt16 := frame.load16 (udp + 2)

end Frame

end MarketDataPipeline
