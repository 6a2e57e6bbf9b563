import PrimitiveShader.Bits

/-!
# Sets of lanes

A wave has at most 64 lanes, so a set of them is a 64-bit word with one bit per lane. `contains` is
the view of a set: a lemma per operation says which lanes it contains, and sets that contain the same
lanes are equal.
-/

namespace PrimitiveShader

/-- A set of lanes of one wave. -/
structure LaneMask where
  bits : UInt64
deriving DecidableEq, Repr

namespace LaneMask

/-- No lane. -/
def empty : LaneMask := ⟨0⟩

/-- The first `n` lanes. -/
def first (n : Nat) : LaneMask := ⟨Bits.lowOnes n⟩

/-- Whether there is no lane. -/
def isEmpty (mask : LaneMask) : Bool := mask.bits == 0

/-- Whether a lane is in the set. -/
def contains (mask : LaneMask) (lane : Nat) : Bool := Bits.test mask.bits lane

/-- Adds a lane. -/
def insert (mask : LaneMask) (lane : Nat) : LaneMask := ⟨mask.bits ||| (1 <<< UInt64.ofNat lane)⟩

/-- The lanes of either set. -/
def union (mask other : LaneMask) : LaneMask := ⟨mask.bits ||| other.bits⟩

/-- The lanes of the first set only. -/
def diff (mask other : LaneMask) : LaneMask := ⟨mask.bits &&& ~~~other.bits⟩

/-- The lanes of the set, in ascending order. -/
def lanes (mask : LaneMask) : List Nat := (List.range 64).filter mask.contains

/-- The lowest lane. -/
def lowest? (mask : LaneMask) : Option Nat := mask.lanes.head?

theorem contains_empty (lane : Nat) : empty.contains lane = false := Bits.test_zero lane

theorem contains_first (n : Nat) {lane : Nat} (h : lane < 64) : (first n).contains lane = decide (lane < n) :=
  Bits.test_lowOnes n h

theorem contains_insert (mask : LaneMask) {l lane : Nat} (hl : l < 64) (h : lane < 64) :
    (mask.insert l).contains lane = (mask.contains lane || decide (l = lane)) := by
  simp [contains, insert, Bits.test_or _ _ h, Bits.test_one_shiftLeft hl h]

theorem contains_union (mask other : LaneMask) {lane : Nat} (h : lane < 64) :
    (mask.union other).contains lane = (mask.contains lane || other.contains lane) :=
  Bits.test_or _ _ h

theorem contains_diff (mask other : LaneMask) {lane : Nat} (h : lane < 64) :
    (mask.diff other).contains lane = (mask.contains lane && !other.contains lane) := by
  simp [contains, diff, Bits.test_and _ _ h, Bits.test_not _ h]

/-- Sets that contain the same lanes are equal. -/
theorem eq_of_contains {mask other : LaneMask}
    (h : ∀ lane < 64, mask.contains lane = other.contains lane) : mask = other := by
  cases mask
  cases other
  exact congrArg LaneMask.mk (Bits.eq_of_test h)

theorem mem_lanes {mask : LaneMask} {lane : Nat} : lane ∈ mask.lanes ↔ lane < 64 ∧ mask.contains lane := by
  simp [lanes]

/-- Each lane of a set is listed once, lower lanes first. -/
theorem lanes_pairwise_lt (mask : LaneMask) : mask.lanes.Pairwise (· < ·) :=
  List.pairwise_lt_range.filter _

theorem isEmpty_iff {mask : LaneMask} : mask.isEmpty ↔ mask = empty := by
  cases mask
  simp [isEmpty, empty]

end LaneMask

end PrimitiveShader
