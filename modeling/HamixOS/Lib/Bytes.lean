import Mathlib.Data.List.Basic
import Mathlib.Tactic.Ring

namespace HamixOS.Lib

open List Nat

/-!
# Byte buffers

A buffer is a list of bytes.  `slice` reads a range, `splice` overwrites one in place, and
`getLE`/`putLE` read and store little-endian numbers of any width through them.

* `slice_splice_self`, `slice_splice_of_disjoint` — what a store does to the ranges of a buffer;
* `getLE_putLE_self`, `getLE_splice_of_disjoint` — the same for the numbers kept in it;
* `getLE_putFields`, `getLE_putWords` — records and tables of numbers read back;
* `flatten_pieces` — a buffer cut into parts of one size is its parts one after the other.
-/

/-- A buffer of bytes. -/
abbrev Bytes := List UInt8

instance instNeZeroFour : NeZero 4 := ⟨by decide⟩

/-! ### Ranges of a buffer -/

/-- The `n` bytes of `b` from offset `o` on. -/
def slice (b : Bytes) (o n : Nat) : Bytes :=
  (b.drop o).take n

/-- `b` with the bytes from offset `o` on overwritten by `src`. -/
def splice (b : Bytes) (o : Nat) (src : Bytes) : Bytes :=
  b.take o ++ src ++ b.drop (o + src.length)

/-- A buffer of `n` zero bytes. -/
def zeros (n : Nat) : Bytes := List.replicate n 0

@[simp] theorem length_zeros (n : Nat) : (zeros n).length = n := by
  simp [zeros]

variable {b : Bytes}

theorem length_slice {o n : Nat} (h : o + n ≤ b.length) :
    (slice b o n).length = n := by
  simp only [slice, length_take, length_drop]
  omega

theorem length_slice_le (b : Bytes) (o n : Nat) : (slice b o n).length ≤ n := by
  simp only [slice, length_take]
  omega

theorem length_splice {b src : Bytes} {o : Nat} (h : o + src.length ≤ b.length) :
    (splice b o src).length = b.length := by
  simp only [splice, length_append, length_take, length_drop]
  omega

theorem getElem?_slice (b : Bytes) (o n i : Nat) :
    (slice b o n)[i]? = if i < n then b[o + i]? else none := by
  simp only [slice, getElem?_take, getElem?_drop]

theorem getElem?_splice {b src : Bytes} {o : Nat} (h : o + src.length ≤ b.length) (i : Nat) :
    (splice b o src)[i]? =
      if o ≤ i ∧ i < o + src.length then src[i - o]? else b[i]? := by
  have hlen : (b.take o).length = o := by
    simp only [length_take]
    omega
  simp only [splice, append_assoc]
  by_cases hlo : i < o
  · rw [getElem?_append_left (by omega), getElem?_take, if_pos hlo, if_neg (by omega)]
  · rw [getElem?_append_right (by omega), hlen]
    by_cases hhi : i < o + src.length
    · rw [getElem?_append_left (by omega), if_pos (by omega)]
    · rw [getElem?_append_right (by omega), getElem?_drop, if_neg (by omega)]
      congr 1
      omega

theorem slice_splice_self {b src : Bytes} {o : Nat} (h : o + src.length ≤ b.length) :
    slice (splice b o src) o src.length = src := by
  apply ext_getElem?
  intro i
  rw [getElem?_slice, getElem?_splice h]
  by_cases hi : i < src.length
  · rw [if_pos hi, if_pos (by omega)]
    congr 1
    omega
  · rw [if_neg hi, getElem?_eq_none (by omega)]

variable {o p n : Nat}

theorem slice_splice_of_disjoint {b src : Bytes} (h : o + src.length ≤ b.length)
    (hd : p + n ≤ o ∨ o + src.length ≤ p) :
    slice (splice b o src) p n = slice b p n := by
  apply ext_getElem?
  intro i
  rw [getElem?_slice, getElem?_slice, getElem?_splice h]
  by_cases hi : i < n
  · rw [if_pos hi, if_pos hi, if_neg (by omega)]
  · rw [if_neg hi, if_neg hi]

/-- A range inside the overwritten one is a range of the source. -/
theorem slice_splice_of_inside {b src : Bytes} (h : o + src.length ≤ b.length)
    (hlo : o ≤ p) (hhi : p + n ≤ o + src.length) :
    slice (splice b o src) p n = slice src (p - o) n := by
  apply ext_getElem?
  intro i
  rw [getElem?_slice, getElem?_slice, getElem?_splice h]
  by_cases hi : i < n
  · rw [if_pos hi, if_pos hi, if_pos (by omega)]
    congr 1
    omega
  · rw [if_neg hi, if_neg hi]

theorem slice_slice {o n p m : Nat} (h : p + m ≤ n) :
    slice (slice b o n) p m = slice b (o + p) m := by
  apply ext_getElem?
  intro i
  simp only [getElem?_slice]
  by_cases hi : i < m
  · rw [if_pos hi, if_pos hi, if_pos (by omega)]
    congr 1
    omega
  · rw [if_neg hi, if_neg hi]

theorem slice_all {n : Nat} (h : b.length ≤ n) : slice b 0 n = b := by
  exact take_of_length_le h

theorem slice_zero (b : Bytes) (n : Nat) : slice b 0 n = b.take n := rfl

theorem slice_zeros {m o n : Nat} (h : o + n ≤ m) : slice (zeros m) o n = zeros n := by
  apply ext_getElem?
  intro i
  rw [getElem?_slice]
  by_cases hi : i < n
  · rw [if_pos hi]
    simp only [zeros, getElem?_replicate]
    rw [if_pos (by omega), if_pos hi]
  · rw [if_neg hi, getElem?_eq_none (by rw [length_zeros]; omega)]

/-! ### Little-endian numbers -/

/-- The `n` little-endian bytes of `v`, its higher bytes dropped. -/
def toLE : Nat → Nat → Bytes
  | 0, _ => []
  | n + 1, v => UInt8.ofNat v :: toLE n (v / 256)

/-- The number a little-endian byte sequence stands for. -/
def ofLE : Bytes → Nat
  | [] => 0
  | x :: xs => x.toNat + 256 * ofLE xs

@[simp] theorem length_toLE (n v : Nat) : (toLE n v).length = n := by
  induction n generalizing v with
  | zero => rfl
  | succ n ih => simp [toLE, ih]

theorem ofLE_toLE (n v : Nat) : ofLE (toLE n v) = v % 256 ^ n := by
  induction n generalizing v with
  | zero => simp [toLE, ofLE, mod_one]
  | succ n ih =>
    have hx : (UInt8.ofNat v).toNat = v % 256 := by simp
    rw [toLE, ofLE, ih, hx, Nat.pow_succ', mod_mul]

theorem ofLE_lt (xs : Bytes) : ofLE xs < 256 ^ xs.length := by
  induction xs with
  | nil => simp [ofLE]
  | cons x xs ih =>
    have hx : x.toNat < 256 := x.toNat_lt
    simp only [ofLE, length_cons, pow_succ]
    omega

theorem ofLE_zeros (n : Nat) : ofLE (zeros n) = 0 := by
  induction n with
  | zero => rfl
  | succ n ih =>
    have hz : zeros (n + 1) = 0 :: zeros n := by simp [zeros, replicate_succ]
    rw [hz, ofLE, ih]
    rfl

/-- The `n`-byte little-endian number of `b` at offset `o`. -/
def getLE (n : Nat) (b : Bytes) (o : Nat) : Nat := ofLE (slice b o n)

/-- `b` with the `n`-byte little-endian number `v` stored at offset `o`. -/
def putLE (n : Nat) (b : Bytes) (o v : Nat) : Bytes := splice b o (toLE n v)

theorem getLE_lt (n : Nat) (b : Bytes) (o : Nat) : getLE n b o < 256 ^ n := by
  refine lt_of_lt_of_le (ofLE_lt _) ?_
  exact Nat.pow_le_pow_right (by omega) (length_slice_le b o n)

theorem length_putLE {n o v : Nat} (h : o + n ≤ b.length) :
    (putLE n b o v).length = b.length :=
  length_splice (by simpa using h)

theorem getLE_putLE_self {n o v : Nat} (h : o + n ≤ b.length) :
    getLE n (putLE n b o v) o = v % 256 ^ n := by
  have hfit : o + (toLE n v).length ≤ b.length := by simpa using h
  have hs := slice_splice_self hfit
  rw [length_toLE] at hs
  rw [getLE, putLE, hs, ofLE_toLE]

theorem getLE_splice_of_disjoint {n o p : Nat} {b src : Bytes} (h : o + src.length ≤ b.length)
    (hd : p + n ≤ o ∨ o + src.length ≤ p) :
    getLE n (splice b o src) p = getLE n b p := by
  rw [getLE, getLE, slice_splice_of_disjoint h hd]

theorem getLE_putLE_of_disjoint {n m o p v : Nat} (h : o + m ≤ b.length)
    (hd : p + n ≤ o ∨ o + m ≤ p) :
    getLE n (putLE m b o v) p = getLE n b p :=
  getLE_splice_of_disjoint (by simpa using h) (by simpa using hd)

theorem slice_putLE_of_disjoint {n m o p v : Nat} (h : o + m ≤ b.length)
    (hd : p + n ≤ o ∨ o + m ≤ p) :
    slice (putLE m b o v) p n = slice b p n :=
  slice_splice_of_disjoint (by simpa using h) (by simpa using hd)

theorem getLE_zeros {n m o : Nat} (h : o + n ≤ m) : getLE n (zeros m) o = 0 := by
  rw [getLE, slice_zeros h, ofLE_zeros]

/-! ### Records of numbers -/

/-- Store a list of fields `(offset, width, value)`, the first one first. -/
def putFields (b : Bytes) (fs : List (Nat × Nat × Nat)) : Bytes :=
  fs.foldl (fun b f => putLE f.2.1 b f.1 f.2.2) b

/-- Fields that share no byte. -/
def FieldsApart (f g : Nat × Nat × Nat) : Prop := f.1 + f.2.1 ≤ g.1 ∨ g.1 + g.2.1 ≤ f.1

variable {fs : List (Nat × Nat × Nat)}

section

variable (h : ∀ f ∈ fs, f.1 + f.2.1 ≤ b.length)

include h

theorem length_putFields : (putFields b fs).length = b.length := by
  induction fs generalizing b with
  | nil => rfl
  | cons f fs ih =>
    have hf : (putLE f.2.1 b f.1 f.2.2).length = b.length := length_putLE (h f (by simp))
    show (putFields (putLE f.2.1 b f.1 f.2.2) fs).length = b.length
    rw [ih, hf]
    intro g hg
    rw [hf]
    exact h g (by simp [hg])

theorem slice_putFields_of_disjoint {p n : Nat}
 (hd : ∀ f ∈ fs, p + n ≤ f.1 ∨ f.1 + f.2.1 ≤ p) :
    slice (putFields b fs) p n = slice b p n := by
  induction fs generalizing b with
  | nil => rfl
  | cons f fs ih =>
    have hf : (putLE f.2.1 b f.1 f.2.2).length = b.length := length_putLE (h f (by simp))
    show slice (putFields (putLE f.2.1 b f.1 f.2.2) fs) p n = slice b p n
    rw [ih, slice_putLE_of_disjoint (h f (by simp)) (hd f (by simp))]
    · intro g hg
      rw [hf]
      exact h g (by simp [hg])
    · intro g hg
      exact hd g (by simp [hg])

theorem getLE_putFields_of_disjoint {p n : Nat}
 (hd : ∀ f ∈ fs, p + n ≤ f.1 ∨ f.1 + f.2.1 ≤ p) :
    getLE n (putFields b fs) p = getLE n b p := by
  rw [getLE, getLE, slice_putFields_of_disjoint h hd]

end

/-- Every field of a record whose fields share no byte reads back. -/
theorem getLE_putFields {f : Nat × Nat × Nat}
    (h : ∀ g ∈ fs, g.1 + g.2.1 ≤ b.length) (hap : fs.Pairwise FieldsApart) (hf : f ∈ fs) :
    getLE f.2.1 (putFields b fs) f.1 = f.2.2 % 256 ^ f.2.1 := by
  induction fs generalizing b with
  | nil => cases hf
  | cons g fs ih =>
    have hlen : (putLE g.2.1 b g.1 g.2.2).length = b.length := length_putLE (h g (by simp))
    have hrest : ∀ k ∈ fs, k.1 + k.2.1 ≤ (putLE g.2.1 b g.1 g.2.2).length := by
      intro k hk
      rw [hlen]
      exact h k (by simp [hk])
    obtain ⟨hg, hap'⟩ := pairwise_cons.mp hap
    show getLE f.2.1 (putFields (putLE g.2.1 b g.1 g.2.2) fs) f.1 = _
    rcases mem_cons.mp hf with rfl | hmem
    · rw [getLE_putFields_of_disjoint hrest hg]
      exact getLE_putLE_self (h f (by simp))
    · exact ih hrest hap' hmem

/-- The numbers `vs`, four bytes each, stored one after the other from offset `o` on. -/
def putWords (b : Bytes) (o : Nat) : List Nat → Bytes
  | [] => b
  | v :: vs => putWords (putLE 4 b o v) (o + 4) vs

variable {vs : List Nat}

theorem length_putWords {o : Nat} (h : o + 4 * vs.length ≤ b.length) :
    (putWords b o vs).length = b.length := by
  induction vs generalizing b o with
  | nil => rfl
  | cons v vs ih =>
    simp only [length_cons] at h
    have hv : (putLE 4 b o v).length = b.length := length_putLE (by omega)
    rw [putWords, ih (by omega), hv]

theorem slice_putWords_of_disjoint (h : o + 4 * vs.length ≤ b.length) (hd : p + n ≤ o ∨ o + 4 * vs.length ≤ p) :
    slice (putWords b o vs) p n = slice b p n := by
  induction vs generalizing b o with
  | nil => rfl
  | cons v vs ih =>
    simp only [length_cons] at h hd
    have hv : (putLE 4 b o v).length = b.length := length_putLE (by omega)
    rw [putWords, ih (by omega) (by omega), slice_putLE_of_disjoint (by omega) (by omega)]

theorem getLE_putWords_of_disjoint (h : o + 4 * vs.length ≤ b.length) (hd : p + n ≤ o ∨ o + 4 * vs.length ≤ p) :
    getLE n (putWords b o vs) p = getLE n b p := by
  rw [getLE, getLE, slice_putWords_of_disjoint h hd]

theorem getLE_putWords {o : Nat} (h : o + 4 * vs.length ≤ b.length)
    {i : Nat} (hi : i < vs.length) :
    getLE 4 (putWords b o vs) (o + 4 * i) = vs[i] % 2 ^ 32 := by
  induction vs generalizing b o i with
  | nil => cases hi
  | cons v vs ih =>
    simp only [length_cons] at h hi
    have hv : (putLE 4 b o v).length = b.length := length_putLE (by omega)
    rw [putWords]
    cases i with
    | zero =>
      rw [getLE_putWords_of_disjoint (by omega) (by omega)]
      exact getLE_putLE_self (by omega)
    | succ i =>
      have hstep := ih (b := putLE 4 b o v) (o := o + 4) (i := i) (by omega) (by omega)
      rw [show o + 4 * (i + 1) = o + 4 + 4 * i by omega, hstep]
      rfl

/-! ### Buffers in parts of one size -/

/-- The parts of size `n` of `b`, the first `k` of them. -/
def pieces (n : Nat) (b : Bytes) (k : Nat) : List Bytes :=
  (List.range k).map (fun i => slice b (i * n) n)

/-- A buffer of `k` parts of size `n` is its parts one after the other. -/
theorem flatten_pieces {n k : Nat} (h : b.length = k * n) :
    (pieces n b k).flatten = b := by
  induction k generalizing b with
  | zero =>
    have hb : b = [] := length_eq_zero_iff.mp (by omega)
    simp [pieces, hb]
  | succ k ih =>
    have hsucc : (k + 1) * n = k * n + n := succ_mul k n
    have htake : (b.take (k * n)).length = k * n := by
      rw [length_take]
      omega
    have hparts : pieces n (b.take (k * n)) k = pieces n b k := by
      apply map_congr_left
      intro i hi
      have hik : i < k := mem_range.mp hi
      have hle : i * n + n ≤ k * n := by
        have := Nat.mul_le_mul_right n hik
        rw [succ_mul] at this
        exact this
      apply ext_getElem?
      intro j
      simp only [getElem?_slice, getElem?_take]
      by_cases hj : j < n
      · rw [if_pos hj, if_pos hj, if_pos (by omega)]
      · rw [if_neg hj, if_neg hj]
    have hlast : slice b (k * n) n = b.drop (k * n) := by
      rw [slice]
      apply take_of_length_le
      rw [length_drop]
      omega
    have hstep : pieces n b (k + 1) = pieces n b k ++ [slice b (k * n) n] := by
      simp [pieces, range_succ]
    rw [hstep, flatten_append, ← hparts, ih htake, flatten_singleton, hlast]
    exact take_append_drop (k * n) b

end HamixOS.Lib
