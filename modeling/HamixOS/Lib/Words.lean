import HamixOS.Lib.Bytes

namespace HamixOS.Lib

/-!
# Words and ranges of a buffer

A `u32` in little-endian order, and a range that is read only when the buffer holds it.
-/

/-- `u32::to_le_bytes`. -/
def le32 (v : UInt32) : Bytes := toLE 4 v.toNat

/-- `u32::from_le_bytes`. -/
def of32 (b : Bytes) : UInt32 := UInt32.ofNat (ofLE b)

theorem of32_le32 (v : UInt32) : of32 (le32 v) = v := by
  unfold of32 le32
  rw [ofLE_toLE]
  have hv : v.toNat % 256 ^ 4 = v.toNat := Nat.mod_eq_of_lt v.toNat_lt
  rw [hv]
  exact UInt32.ofNat_toNat

@[simp] theorem length_le32 (v : UInt32) : (le32 v).length = 4 := length_toLE 4 _

/-- `get(start..stop)`. -/
def getRange (data : Bytes) (start stop : Nat) : Option Bytes :=
  if start ≤ stop ∧ stop ≤ data.length then some (slice data start (stop - start)) else none

theorem getRange_some {data bytes : Bytes} {start stop : Nat} (h : getRange data start stop = some bytes) :
    start ≤ stop ∧ stop ≤ data.length ∧ bytes = slice data start (stop - start) := by
  unfold getRange at h
  by_cases hin : start ≤ stop ∧ stop ≤ data.length
  · rw [if_pos hin] at h
    exact ⟨hin.1, hin.2, (Option.some.inj h).symm⟩
  · rw [if_neg hin] at h
    cases h

/-- The range at the front of what is left of a buffer. -/
theorem getRange_of_drop {data a rest : Bytes} {pos : Nat} (hpos : pos ≤ data.length) (h : data.drop pos = a ++ rest) :
    getRange data pos (pos + a.length) = some a := by
  have hlen : data.length - pos = a.length + rest.length := by
    rw [← List.length_drop, h, List.length_append]
  unfold getRange slice
  rw [if_pos (by omega), h, Nat.add_sub_cancel_left, List.take_left]

end HamixOS.Lib
