import Mathlib.Algebra.Order.Ring.Int
import Mathlib.Data.List.Pairwise
import Mathlib.Data.Nat.Bitwise

namespace HamixOS.Lib

open List Nat Bool Int

/-!
# Scattered bit fields

A number whose bits are spread over a word in pieces, as an immediate is over an instruction.

* `scatter` / `gather` — the bits of the number in their places, and the number back from a word;
* `gather_write` — what is written into a word is read back, but for the low bits that have no place;
* `signed_low_iff` — when the bits of a number, read as a signed number, are that number.
-/

/-- The bits of a number from `src` on, `width` of them, at `dst` in a word. -/
structure Piece where
  src : Nat
  width : Nat
  dst : Nat

namespace Piece

def put (p : Piece) (v : Nat) : Nat := (v >>> p.src &&& 2 ^ p.width - 1) <<< p.dst

def get (p : Piece) (word : Nat) : Nat := (word >>> p.dst &&& 2 ^ p.width - 1) <<< p.src

/-- Whether bit `j` of the word belongs to the piece. -/
def target (p : Piece) (j : Nat) : Bool := p.dst ≤ j ∧ j < p.dst + p.width

/-- Whether bit `i` of the number does. -/
def source (p : Piece) (i : Nat) : Bool := p.src ≤ i ∧ i < p.src + p.width

theorem testBit_put (p : Piece) (v j : Nat) : (p.put v).testBit j = (p.target j && v.testBit (p.src + (j - p.dst))) := by
  unfold put target
  rw [testBit_shiftLeft, testBit_and, testBit_shiftRight, testBit_two_pow_sub_one]
  by_cases hj : p.dst ≤ j
  · by_cases hlt : j < p.dst + p.width
    · simp [hj, hlt, show j - p.dst < p.width by omega]
    · simp [hlt, show ¬ j - p.dst < p.width by omega]
  · simp [hj]

theorem testBit_get (p : Piece) (word i : Nat) :
    (p.get word).testBit i = (p.source i && word.testBit (p.dst + (i - p.src))) :=
  testBit_put ⟨p.dst, p.width, p.src⟩ word i

end Piece

/-- The bits of a number in their places. -/
def scatter (ps : List Piece) (v : Nat) : Nat := ps.foldr (fun p acc => p.put v ||| acc) 0

/-- The number whose bits are in a word. -/
def gather (ps : List Piece) (word : Nat) : Nat := ps.foldr (fun p acc => p.get word ||| acc) 0

theorem testBit_scatter (ps : List Piece) (v j : Nat) :
    (scatter ps v).testBit j = ps.any fun p => p.target j && v.testBit (p.src + (j - p.dst)) := by
  induction ps with
  | nil => exact zero_testBit j
  | cons p ps ih =>
    show (p.put v ||| scatter ps v).testBit j = _
    rw [testBit_or, p.testBit_put, ih, any_cons]

theorem testBit_gather (ps : List Piece) (word i : Nat) :
    (gather ps word).testBit i = ps.any fun p => p.source i && word.testBit (p.dst + (i - p.src)) := by
  induction ps with
  | nil => exact zero_testBit i
  | cons p ps ih =>
    show (p.get word ||| gather ps word).testBit i = _
    rw [testBit_or, p.testBit_get, ih, any_cons]

/-- The pieces hold the bits from `shift` to `bits` of a number, in the places of a word of `word` bits that `mask`
clears. -/
structure Spread (ps : List Piece) (mask word shift bits : Nat) : Prop where
  apart : ps.Pairwise fun p q => p.dst + p.width ≤ q.dst ∨ q.dst + q.width ≤ p.dst
  within : ∀ p ∈ ps, shift ≤ p.src ∧ p.src + p.width ≤ bits
  covers : ∀ i < bits, shift ≤ i → ps.any (·.source i) = true
  cleared : ∀ p ∈ ps, ∀ k < p.width, mask.testBit (p.dst + k) = false
  kept : ∀ j < word, ps.any (·.target j) = false → mask.testBit j = true
  inside : ∀ p ∈ ps, p.dst + p.width ≤ word

instance (ps : List Piece) (mask word shift bits : Nat) : Decidable (Spread ps mask word shift bits) :=
  decidable_of_iff
    ((ps.Pairwise fun p q => p.dst + p.width ≤ q.dst ∨ q.dst + q.width ≤ p.dst) ∧
      (∀ p ∈ ps, shift ≤ p.src ∧ p.src + p.width ≤ bits) ∧ (∀ i < bits, shift ≤ i → ps.any (·.source i) = true) ∧
      (∀ p ∈ ps, ∀ k < p.width, mask.testBit (p.dst + k) = false) ∧
      (∀ j < word, ps.any (·.target j) = false → mask.testBit j = true) ∧ ∀ p ∈ ps, p.dst + p.width ≤ word)
    ⟨fun ⟨h₁, h₂, h₃, h₄, h₅, h₆⟩ => ⟨h₁, h₂, h₃, h₄, h₅, h₆⟩, fun ⟨h₁, h₂, h₃, h₄, h₅, h₆⟩ => ⟨h₁, h₂, h₃, h₄, h₅, h₆⟩⟩

namespace Spread

variable {ps : List Piece} {mask word shift bits : Nat}

section

variable (h : Spread ps mask word shift bits)

include h

/-- A bit of a piece has that piece only. -/
theorem eq_of_target {p q : Piece} (hp : p ∈ ps) (hq : q ∈ ps) {j : Nat}
    (hpj : p.target j = true) (hqj : q.target j = true) : p = q := by
  have hpj := of_decide_eq_true hpj
  have hqj := of_decide_eq_true hqj
  by_contra hne
  have hsymm : Std.Symm fun p q : Piece => p.dst + p.width ≤ q.dst ∨ q.dst + q.width ≤ p.dst := ⟨fun _ _ => Or.symm⟩
  rcases h.apart.forall hp hq hne with hapart | hapart <;> omega

theorem testBit_write (insn v : Nat) {p : Piece} (hp : p ∈ ps) {j : Nat}
    (hj : p.target j = true) : (insn &&& mask ||| scatter ps v).testBit j = v.testBit (p.src + (j - p.dst)) := by
  have hmask : mask.testBit j = false := by
    have hj := of_decide_eq_true hj
    have := h.cleared p hp (j - p.dst) (by omega)
    rwa [show p.dst + (j - p.dst) = j by omega] at this
  rw [testBit_or, testBit_and, hmask, Bool.and_false, Bool.false_or, testBit_scatter]
  refine Bool.eq_iff_iff.mpr ⟨fun hany => ?_, fun hv => any_eq_true.mpr ⟨p, hp, ?_⟩⟩
  · obtain ⟨q, hq, hqj⟩ := any_eq_true.mp hany
    obtain ⟨htarget, hv⟩ := and_eq_true_iff.mp hqj
    rwa [h.eq_of_target hp hq hj htarget]
  · rw [hj, hv]
    rfl

/-- What is written is read back. -/
theorem gather_write (insn v : Nat) :
    gather ps (insn &&& mask ||| scatter ps v) = (v % 2 ^ bits) >>> shift <<< shift := by
  refine eq_of_testBit_eq fun i => ?_
  rw [testBit_gather, testBit_shiftLeft, testBit_shiftRight, testBit_mod_two_pow]
  have hpiece : ∀ p ∈ ps, p.source i = true → (insn &&& mask ||| scatter ps v).testBit (p.dst + (i - p.src)) = v.testBit i := by
    intro p hp hi
    have hi := of_decide_eq_true hi
    rw [h.testBit_write insn v hp (decide_eq_true (by omega))]
    congr 1
    omega
  by_cases hi : shift ≤ i ∧ i < bits
  · obtain ⟨p, hp, hsource⟩ := any_eq_true.mp (h.covers i hi.2 hi.1)
    rw [decide_eq_true hi.1, show shift + (i - shift) = i by omega, decide_eq_true hi.2, Bool.true_and, Bool.true_and]
    refine eq_iff_iff.mpr ⟨fun hany => ?_, fun hv => any_eq_true.mpr ⟨p, hp, ?_⟩⟩
    · obtain ⟨q, hq, hqi⟩ := any_eq_true.mp hany
      obtain ⟨hsource, hbit⟩ := and_eq_true_iff.mp hqi
      rwa [hpiece q hq hsource] at hbit
    · rw [hsource, hpiece p hp hsource, hv]
      rfl
  · have hnone : (ps.any fun p => p.source i && (insn &&& mask ||| scatter ps v).testBit (p.dst + (i - p.src))) = false := by
      refine any_eq_false.mpr fun p hp hboth => hi ?_
      have hsource := of_decide_eq_true (and_eq_true_iff.mp hboth).1
      have := h.within p hp
      omega
    rw [hnone]
    by_cases hlow : shift ≤ i
    · rw [show shift + (i - shift) = i by omega, decide_eq_false fun hlt => hi ⟨hlow, hlt⟩, Bool.false_and, Bool.and_false]
    · rw [decide_eq_false hlow, Bool.false_and]

/-- The other bits of the word stay. -/
theorem testBit_other (insn v : Nat) {j : Nat} (hj : j < word)
    (hnone : ps.any (·.target j) = false) : (insn &&& mask ||| scatter ps v).testBit j = insn.testBit j := by
  have hscatter : (scatter ps v).testBit j = false := by
    rw [testBit_scatter]
    refine any_eq_false.mpr fun p hp hboth => ?_
    exact any_eq_false.mp hnone p hp (and_eq_true_iff.mp hboth).1
  rw [testBit_or, testBit_and, hscatter, h.kept j hj hnone, Bool.and_true, Bool.or_false]

/-- Only the bits of the word count. -/
theorem gather_mod (n : Nat) : gather ps (n % 2 ^ word) = gather ps n := by
  refine eq_of_testBit_eq fun i => ?_
  rw [testBit_gather, testBit_gather]
  refine eq_iff_iff.mpr ?_
  rw [any_eq_true, any_eq_true]
  refine exists_congr fun p => and_congr_right fun hp => ?_
  rw [testBit_mod_two_pow]
  by_cases hi : p.source i = true
  · have hsource := of_decide_eq_true hi
    have := h.inside p hp
    rw [decide_eq_true (show p.dst + (i - p.src) < word by omega), Bool.true_and]
  · rw [eq_false_iff.mpr hi, Bool.false_and, Bool.false_and]

end

end Spread

/-! ### Signed numbers -/

/-- The low bits of an integer, in two's complement. -/
def low (bits : Nat) (v : Int) : Nat := (v % 2 ^ bits).toNat

/-- The integers of `bits` bits. -/
def Fits (bits : Nat) (v : Int) : Prop := -2 ^ (bits - 1) ≤ v ∧ v < 2 ^ (bits - 1)

instance (bits : Nat) (v : Int) : Decidable (Fits bits v) := inferInstanceAs (Decidable (_ ∧ _))

theorem cast_low (bits : Nat) (v : Int) : (low bits v : Int) = v % 2 ^ bits :=
  toNat_of_nonneg (emod_nonneg _ (Int.ne_of_gt (Int.pow_pos (by decide))))

theorem low_lt (bits : Nat) (v : Int) : low bits v < 2 ^ bits := by
  have hcast : (low bits v : Int) < 2 ^ bits := by
    rw [cast_low]
    exact emod_lt_of_pos v (Int.pow_pos (by decide))
  exact_mod_cast hcast

theorem low_mod {bits word : Nat} (hle : bits ≤ word) (v : Int) : low word v % 2 ^ bits = low bits v := by
  have hcast : ((low word v % 2 ^ bits : Nat) : Int) = low bits v := by
    rw [natCast_mod, cast_low, cast_low, natCast_pow]
    exact emod_emod_of_dvd v (pow_dvd_pow 2 hle)
  exact_mod_cast hcast

/-- Shifting an integer shifts its bits. -/
theorem low_div (bits shift : Nat) (v : Int) : low bits (v / 2 ^ shift) = low (bits + shift) v >>> shift := by
  have hpow : ∀ n, (0 : Int) < 2 ^ n := fun n => Int.pow_pos (by decide)
  have hsplit : v = v % 2 ^ (bits + shift) + 2 ^ shift * (2 ^ bits * (v / 2 ^ (bits + shift))) := by
    rw [← mul_assoc, ← pow_add, add_comm shift]
    exact (emod_add_mul_ediv v _).symm
  have hlow := emod_nonneg v (Int.ne_of_gt (hpow (bits + shift)))
  have hhigh := emod_lt_of_pos v (hpow (bits + shift))
  have hquot : v / 2 ^ shift = v % 2 ^ (bits + shift) / 2 ^ shift + 2 ^ bits * (v / 2 ^ (bits + shift)) := by
    conv_lhs => rw [hsplit]
    exact add_mul_ediv_left _ _ (Int.ne_of_gt (hpow shift))
  have hsmall : v % 2 ^ (bits + shift) / 2 ^ shift < 2 ^ bits :=
    Int.ediv_lt_of_lt_mul (hpow shift) (by rwa [← pow_add])
  have hcast : ((low bits (v / 2 ^ shift) : Nat) : Int) = (low (bits + shift) v >>> shift : Nat) := by
    rw [Nat.shiftRight_eq_div_pow, natCast_ediv, cast_low, cast_low, Int.natCast_pow, hquot, add_mul_emod_self_left]
    exact emod_eq_of_lt (ediv_nonneg hlow (hpow shift).le) hsmall
  exact_mod_cast hcast

/-- The bits kept, as an integer. -/
theorem cast_shift (bits shift : Nat) (hle : shift ≤ bits) (v : Int) :
    ((low bits v >>> shift <<< shift : Nat) : Int) = v % 2 ^ bits - v % 2 ^ shift := by
  have hsplit := div_add_mod (low bits v) (2 ^ shift)
  rw [low_mod hle] at hsplit
  have hcast : ((low bits v >>> shift <<< shift : Nat) : Int) + low shift v = low bits v := by
    rw [Nat.shiftRight_eq_div_pow, Nat.shiftLeft_eq, mul_comm]
    exact_mod_cast hsplit
  rw [cast_low, cast_low] at hcast
  omega

/-- The signed reading of the bits is the number exactly if the number fits and its low bits are zero. -/
theorem signed_low_iff {bits shift : Nat} (hpos : 0 < bits) (hle : shift ≤ bits) (v : Int) :
    bmod (low bits v >>> shift <<< shift : Nat) (2 ^ bits) = v ↔ Fits bits v ∧ 2 ^ shift ∣ v := by
  rw [cast_shift bits shift hle, bmod_eq_iff (Nat.two_pow_pos bits)]
  obtain ⟨b, rfl⟩ := exists_eq_succ_of_ne_zero (ne_of_gt hpos)
  have hshift : (2 : Int) ^ shift ≤ 2 ^ (b + 1) := pow_le_pow_right₀ (by decide) hle
  have hpow : ((2 ^ (b + 1) : Nat) : Int) = 2 ^ b * 2 := by
    rw [natCast_pow]
    exact pow_succ 2 b
  have hlow := emod_nonneg v (Int.ne_of_gt (Int.pow_pos (show (0 : Int) < 2 by decide)) : (2 : Int) ^ shift ≠ 0)
  have hdvd : ((2 ^ (b + 1) : Nat) : Int) ∣ v - (v % 2 ^ (b + 1) - v % 2 ^ shift) ↔ (2 : Int) ^ shift ∣ v := by
    have hwhole : ((2 ^ (b + 1) : Nat) : Int) ∣ v - v % 2 ^ (b + 1) := by
      rw [natCast_pow]
      exact dvd_self_sub_emod
    have hrest : v - (v % 2 ^ (b + 1) - v % 2 ^ shift) = (v - v % 2 ^ (b + 1)) + v % 2 ^ shift := by omega
    rw [hrest, Int.dvd_add_right hwhole]
    constructor
    · intro h
      refine dvd_of_emod_eq_zero (eq_zero_of_dvd_of_nonneg_of_lt hlow ?_ h)
      rw [hpow]
      omega
    · intro h
      rw [emod_eq_zero_of_dvd h]
      exact Int.dvd_zero _
  rw [hdvd]
  unfold Fits
  rw [succ_sub_one, hpow]
  omega

end HamixOS.Lib
