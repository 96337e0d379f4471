import HamixOS.Lib.Bytes
import Mathlib.Data.Finset.Card
import Mathlib.Data.Nat.Bitwise

namespace HamixOS.Lib

/-!
# Bitmaps

A bitmap is a buffer whose byte `i / 8` keeps bit `i` at place `i % 8`.  The operations are the
byte-level ones; the lemmas speak about single bits.

* `bitAt_setBit`, `bitAt_clearBit` — a store changes its own bit and no other;
* `clearCount_setBit`, `clearCount_clearBit` — how the number of clear bits follows;
* `findClear_some`, `findClear_none` — the search that skips full bytes misses no clear bit.
-/

/-- The byte of `b` at index `i`. -/
def byteAt (b : Bytes) (i : Nat) : UInt8 := b.getD i 0

/-- The mask of bit `i` inside its byte. -/
def bitMask (i : Nat) : UInt8 := 1 <<< UInt8.ofNat (i % 8)

/-- Bit `i` of the bitmap. -/
def bitAt (b : Bytes) (i : Nat) : Bool := byteAt b (i / 8) &&& bitMask i != 0

/-- The bitmap with bit `i` set. -/
def setBit (b : Bytes) (i : Nat) : Bytes := b.set (i / 8) (byteAt b (i / 8) ||| bitMask i)

/-- The bitmap with bit `i` cleared. -/
def clearBit (b : Bytes) (i : Nat) : Bytes := b.set (i / 8) (byteAt b (i / 8) &&& ~~~ bitMask i)

@[simp] theorem length_setBit (b : Bytes) (i : Nat) : (setBit b i).length = b.length := by
  simp [setBit]

@[simp] theorem length_clearBit (b : Bytes) (i : Nat) : (clearBit b i).length = b.length := by
  simp [clearBit]

variable {b : Bytes}

theorem byteAt_set {i : Nat} {x : UInt8} (h : i < b.length) (j : Nat) :
    byteAt (b.set i x) j = if j = i then x else byteAt b j := by
  simp only [byteAt, List.getD_eq_getElem?_getD, List.getElem?_set]
  by_cases hj : j = i
  · simp [hj, h]
  · simp [hj, Ne.symm hj]

theorem toNat_bitMask (i : Nat) : (bitMask i).toNat = 2 ^ (i % 8) := by
  have h8 : i % 8 < 8 := Nat.mod_lt _ (by omega)
  have hpow : 2 ^ (i % 8) < 256 := by
    calc 2 ^ (i % 8) < 2 ^ 8 := Nat.pow_lt_pow_right (by omega) h8
      _ = 256 := rfl
  simp only [bitMask, UInt8.toNat_shiftLeft, UInt8.toNat_ofNat']
  rw [show (2 : Nat) ^ 8 = 256 from rfl, Nat.mod_eq_of_lt (by omega : i % 8 < 256), Nat.mod_eq_of_lt h8]
  simp only [UInt8.toNat_one, Nat.one_shiftLeft]
  exact Nat.mod_eq_of_lt hpow

/-- The code's mask test reads the bit. -/
theorem bitAt_eq_testBit (b : Bytes) (i : Nat) :
    bitAt b i = (byteAt b (i / 8)).toNat.testBit (i % 8) := by
  have hand : (byteAt b (i / 8) &&& bitMask i).toNat
      = ((byteAt b (i / 8)).toNat.testBit (i % 8)).toNat * 2 ^ (i % 8) := by
    rw [UInt8.toNat_and, toNat_bitMask, Nat.and_two_pow]
  have hiff : byteAt b (i / 8) &&& bitMask i = 0 ↔
      (byteAt b (i / 8)).toNat.testBit (i % 8) = false := by
    rw [← UInt8.toNat_inj, hand, UInt8.toNat_zero]
    cases (byteAt b (i / 8)).toNat.testBit (i % 8) <;> simp
  rw [bitAt]
  cases hb : (byteAt b (i / 8)).toNat.testBit (i % 8) with
  | false =>
    rw [hiff.mpr hb]
    rfl
  | true =>
    have hne : byteAt b (i / 8) &&& bitMask i ≠ 0 := by
      intro h0
      rw [hiff.mp h0] at hb
      cases hb
    simpa using hne

theorem bitAt_setBit {i : Nat} (h : i / 8 < b.length) (j : Nat) :
    bitAt (setBit b i) j = (decide (j = i) || bitAt b j) := by
  rw [bitAt_eq_testBit, bitAt_eq_testBit, setBit, byteAt_set h]
  by_cases hbyte : j / 8 = i / 8
  · rw [if_pos hbyte, UInt8.toNat_or, toNat_bitMask, Nat.testBit_or, Nat.testBit_two_pow, hbyte]
    have hiff : (i % 8 = j % 8) ↔ (j = i) := by omega
    rw [decide_eq_decide.mpr hiff, Bool.or_comm]
  · have hne : ¬ j = i := by
      intro he
      exact hbyte (by rw [he])
    rw [if_neg hbyte, decide_eq_false hne, Bool.false_or]

theorem bitAt_clearBit {i : Nat} (h : i / 8 < b.length) (j : Nat) :
    bitAt (clearBit b i) j = (decide (j ≠ i) && bitAt b j) := by
  rw [bitAt_eq_testBit, bitAt_eq_testBit, clearBit, byteAt_set h]
  by_cases hbyte : j / 8 = i / 8
  · have h8 : j % 8 < 8 := Nat.mod_lt _ (by omega)
    have hiff : (¬ i % 8 = j % 8) ↔ (j ≠ i) := by omega
    have hnot : (~~~ bitMask i).toNat.testBit (j % 8) = decide (j ≠ i) := by
      have hcomp : (~~~ bitMask i).toNat = 255 - 2 ^ (i % 8) := by
        rw [UInt8.toNat_not, toNat_bitMask]
        rfl
      rw [hcomp, show 255 - 2 ^ (i % 8) = 2 ^ 8 - (2 ^ (i % 8) + 1) by omega,
        Nat.testBit_two_pow_sub_succ (Nat.pow_lt_pow_right (by omega) (Nat.mod_lt _ (by omega))),
        Nat.testBit_two_pow, decide_eq_true h8, Bool.true_and, ← decide_not,
        decide_eq_decide.mpr hiff]
    rw [if_pos hbyte, UInt8.toNat_and, Nat.testBit_and, hnot, hbyte, Bool.and_comm]
  · have hne : j ≠ i := by
      intro he
      exact hbyte (by rw [he])
    rw [if_neg hbyte, decide_eq_true hne, Bool.true_and]

/-- A byte with all bits set has none clear. -/
theorem bitAt_of_full {i : Nat} (h : byteAt b (i / 8) = 0xFF) : bitAt b i = true := by
  have h8 : i % 8 < 8 := Nat.mod_lt _ (by omega)
  rw [bitAt_eq_testBit, h]
  show Nat.testBit (2 ^ 8 - 1) (i % 8) = true
  rw [Nat.testBit_two_pow_sub_one]
  exact decide_eq_true h8

/-! ### Counting clear bits -/

/-- The number of clear bits among the first `n`. -/
def clearCount (b : Bytes) (n : Nat) : Nat :=
  ((Finset.range n).filter (fun i => bitAt b i = false)).card

theorem clearCount_setBit {i n : Nat} (hlen : i / 8 < b.length) (hi : i < n)
    (hclear : bitAt b i = false) : clearCount (setBit b i) n + 1 = clearCount b n := by
  have herase : (Finset.range n).filter (fun j => bitAt (setBit b i) j = false)
      = ((Finset.range n).filter (fun j => bitAt b j = false)).erase i := by
    ext j
    simp only [Finset.mem_filter, Finset.mem_erase, bitAt_setBit hlen, Bool.or_eq_false_iff,
      decide_eq_false_iff_not]
    tauto
  have hmem : i ∈ (Finset.range n).filter (fun j => bitAt b j = false) := by
    simp [hi, hclear]
  rw [clearCount, clearCount, herase]
  exact Finset.card_erase_add_one hmem

theorem clearCount_clearBit {i n : Nat} (hlen : i / 8 < b.length) (hi : i < n)
    (hset : bitAt b i = true) : clearCount (clearBit b i) n = clearCount b n + 1 := by
  have hinsert : (Finset.range n).filter (fun j => bitAt (clearBit b i) j = false)
      = insert i ((Finset.range n).filter (fun j => bitAt b j = false)) := by
    ext j
    simp only [Finset.mem_filter, Finset.mem_insert, bitAt_clearBit hlen, Bool.and_eq_false_iff,
      decide_eq_false_iff_not, Finset.mem_range, not_not]
    constructor
    · rintro ⟨hj, rfl | hb⟩
      · exact .inl rfl
      · exact .inr ⟨hj, hb⟩
    · rintro (rfl | ⟨hj, hb⟩)
      · exact ⟨hi, .inl rfl⟩
      · exact ⟨hj, .inr hb⟩
  have hnot : i ∉ (Finset.range n).filter (fun j => bitAt b j = false) := by
    simp [hset]
  rw [clearCount, clearCount, hinsert]
  exact Finset.card_insert_of_notMem hnot

/-- No clear bit among the first `n` exactly when the count is zero. -/
theorem clearCount_eq_zero {n : Nat} :
    clearCount b n = 0 ↔ ∀ i < n, bitAt b i = true := by
  rw [clearCount, Finset.card_eq_zero, Finset.filter_eq_empty_iff]
  constructor
  · intro h i hi
    simpa using h (Finset.mem_range.mpr hi)
  · intro h i hi
    simp [h i (Finset.mem_range.mp hi)]

/-! ### Searching for a clear bit -/

/-- The first bit in `bit, …, hi - 1` that is clear and acceptable to `ok`; a byte with all bits
set is skipped at once.  The fuel bounds the number of probes. -/
def findClear (ok : Nat → Bool) (b : Bytes) (hi : Nat) : Nat → Nat → Option Nat
  | 0, _ => none
  | fuel + 1, bit =>
    if bit < hi then
      if byteAt b (bit / 8) = 0xFF then findClear ok b hi fuel ((bit / 8 + 1) * 8)
      else if bitAt b bit = false ∧ ok bit then some bit
      else findClear ok b hi fuel (bit + 1)
    else none

variable {ok : Nat → Bool}

theorem findClear_some {hi fuel bit r : Nat}
    (h : findClear ok b hi fuel bit = some r) :
    bit ≤ r ∧ r < hi ∧ bitAt b r = false ∧ ok r = true := by
  induction fuel generalizing bit with
  | zero => simp [findClear] at h
  | succ fuel ih =>
    rw [findClear] at h
    by_cases hlt : bit < hi
    · rw [if_pos hlt] at h
      by_cases hfull : byteAt b (bit / 8) = 0xFF
      · rw [if_pos hfull] at h
        have hr := ih h
        exact ⟨by omega, hr.2⟩
      · rw [if_neg hfull] at h
        by_cases hok : bitAt b bit = false ∧ ok bit = true
        · rw [if_pos hok] at h
          cases h
          exact ⟨le_refl _, hlt, hok⟩
        · rw [if_neg hok] at h
          have hr := ih h
          exact ⟨by omega, hr.2⟩
    · rw [if_neg hlt] at h
      cases h

/-- Enough fuel misses no clear and acceptable bit. -/
theorem findClear_none {hi fuel bit : Nat}
    (hfuel : hi - bit ≤ fuel) (h : findClear ok b hi fuel bit = none) :
    ∀ r, bit ≤ r → r < hi → bitAt b r = false → ok r = false := by
  induction fuel generalizing bit with
  | zero =>
    intro r hlo hhi
    omega
  | succ fuel ih =>
    intro r hlo hhi hclear
    rw [findClear, if_pos (by omega)] at h
    by_cases hfull : byteAt b (bit / 8) = 0xFF
    · rw [if_pos hfull] at h
      -- the skipped bits share the full byte, so none of them is clear
      have hout : (bit / 8 + 1) * 8 ≤ r := by
        by_contra hin
        have hsame : r / 8 = bit / 8 := by omega
        have hset := bitAt_of_full (b := b) (i := r) (by rw [hsame]; exact hfull)
        rw [hset] at hclear
        cases hclear
      exact ih (by omega) h r hout hhi hclear
    · rw [if_neg hfull] at h
      by_cases hok : bitAt b bit = false ∧ ok bit = true
      · rw [if_pos hok] at h
        cases h
      · rw [if_neg hok] at h
        by_cases heq : r = bit
        · subst heq
          cases hv : ok r with
          | false => rfl
          | true => exact absurd ⟨hclear, hv⟩ hok
        · exact ih (by omega) h r (by omega) hhi hclear

/-! ### From a start to the end, then from the beginning -/

/-- What a search that goes on at the beginning finds. -/
theorem findClear_wrap_some {hi start r : Nat} (hle : start ≤ hi)
    (h : (findClear ok b hi hi start).or (findClear ok b start start 0) = some r) :
    r < hi ∧ bitAt b r = false ∧ ok r = true := by
  rcases Option.or_eq_some_iff.mp h with hf | ⟨-, hf⟩
  · obtain ⟨-, hlt, hclear, hok⟩ := findClear_some hf
    exact ⟨hlt, hclear, hok⟩
  · obtain ⟨-, hlt, hclear, hok⟩ := findClear_some hf
    exact ⟨lt_of_lt_of_le hlt hle, hclear, hok⟩

/-- It misses none. -/
theorem findClear_wrap_none {hi start r : Nat}
    (h : (findClear ok b hi hi start).or (findClear ok b start start 0) = none) (hr : r < hi)
    (hclear : bitAt b r = false) : ok r = false := by
  obtain ⟨hhigh, hlow⟩ := Option.or_eq_none_iff.mp h
  rcases lt_or_ge r start with hlt | hge
  · exact findClear_none (by omega) hlow _ (Nat.zero_le _) hlt hclear
  · exact findClear_none (by omega) hhigh _ hge hr hclear

end HamixOS.Lib
