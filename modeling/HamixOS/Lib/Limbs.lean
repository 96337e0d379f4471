import Mathlib.Data.List.Induction
import Mathlib.Data.Nat.Size
import HamixOS.Lib.Chunks
import HamixOS.Lib.Words

namespace HamixOS.Lib.Limbs

open List Option Nat UInt8

/-!
# Numbers of many words

A number is the list of its words of 32 bits, the least significant one first.  The loops over such lists carry one
number from a word to the next, and each has one theorem here about the value of what it builds.

* `value_shl`, `value_sub` — the value after a shift by one bit and after a subtraction;
* `addProduct_eq`, `product_eq` — a row of a multiplication, and the rows one after the other;
* `compareTop_eq` — the comparison from the most significant word on.
-/

/-- The number a list of words stands for. -/
def value : List UInt32 → Nat
  | [] => 0
  | x :: xs => x.toNat + 2 ^ 32 * value xs

@[simp] theorem value_nil : value [] = 0 := rfl

@[simp] theorem value_cons (x : UInt32) (xs : List UInt32) : value (x :: xs) = x.toNat + 2 ^ 32 * value xs := rfl

@[simp] theorem toNat_ofNat (n : Nat) : (UInt32.ofNat n).toNat = n % 2 ^ 32 := UInt32.toNat_ofNat'

theorem value_append (xs ys : List UInt32) : value (xs ++ ys) = value xs + 2 ^ (32 * xs.length) * value ys := by
  induction xs with
  | nil => simp
  | cons x xs ih =>
    rw [cons_append, value_cons, value_cons, ih, length_cons, mul_succ, pow_add]
    ring

theorem value_lt (xs : List UInt32) : value xs < 2 ^ (32 * xs.length) := by
  induction xs with
  | nil => simp
  | cons x xs ih =>
    have hx := x.toNat_lt
    rw [value_cons, length_cons, mul_succ, pow_add]
    omega

theorem value_replicate (n : Nat) : value (replicate n 0) = 0 := by
  induction n with
  | zero => rfl
  | succ n ih => simp [replicate_succ, ih]

theorem testBit_value (xs : List UInt32) (i : Nat) :
    (value xs).testBit i = (xs[i / 32]?.map fun x => x.toNat.testBit (i % 32)).getD false := by
  induction xs generalizing i with
  | nil => simp
  | cons x xs ih =>
    rw [value_cons, add_comm, testBit_two_pow_mul_add _ x.toNat_lt]
    split_ifs with hi
    · simp [div_eq_of_lt hi, mod_eq_of_lt hi]
    · have hdiv : i / 32 = (i - 32) / 32 + 1 := by omega
      have hmod : i % 32 = (i - 32) % 32 := by omega
      rw [ih, hdiv, hmod, getElem?_cons_succ]

/-! ### Bytes -/

theorem ofLE_append (xs ys : Bytes) : ofLE (xs ++ ys) = ofLE xs + 256 ^ xs.length * ofLE ys := by
  induction xs with
  | nil => simp [ofLE]
  | cons x xs ih =>
    rw [cons_append, ofLE, ofLE, ih, length_cons, pow_succ]
    ring

/-- The bytes of a number, from any byte sequence that stands for it. -/
theorem toLE_ofLE (n : Nat) (xs : Bytes) : toLE n (ofLE xs) = xs.take n ++ zeros (n - xs.length) := by
  induction xs generalizing n with
  | nil =>
    induction n with
    | zero => rfl
    | succ n ih => simpa [toLE, ofLE, zeros, replicate_succ] using ih
  | cons x xs ih =>
    cases n with
    | zero => simp [toLE, zeros]
    | succ n =>
      have hfirst : ofNat (x.toNat + 256 * ofLE xs) = x := UInt8.toNat_inj.mp (by simp)
      have hrest : (x.toNat + 256 * ofLE xs) / 256 = ofLE xs := by
        have hx := x.toNat_lt
        omega
      rw [ofLE, toLE, hfirst, hrest, ih]
      simp

theorem ofLE_flatMap (xs : List UInt32) : ofLE (xs.flatMap le32) = value xs := by
  induction xs with
  | nil => rfl
  | cons x xs ih =>
    have hx : x.toNat % 256 ^ 4 = x.toNat := mod_eq_of_lt x.toNat_lt
    rw [flatMap_cons, ofLE_append, ih, length_le32, le32, ofLE_toLE, hx]
    rfl

/-- A word put together from bytes, the most significant one first. -/
def ofBytes (bytes : Bytes) : UInt32 := bytes.foldl (fun v b => v <<< 8 ||| b.toUInt32) 0

theorem ofBytes_reverse {bytes : Bytes} (h : bytes.length ≤ 4) : (ofBytes bytes.reverse).toNat = ofLE bytes := by
  unfold ofBytes
  rw [foldl_reverse]
  induction bytes with
  | nil => rfl
  | cons b bytes ih =>
    rw [length_cons] at h
    have hb := b.toNat_lt
    have hrest := ofLE_lt bytes
    have hpow : 256 ^ bytes.length ≤ 256 ^ 3 := Nat.pow_le_pow_right (by decide) (by omega)
    specialize ih (by omega)
    rw [foldr_cons, UInt32.toNat_or, UInt32.toNat_shiftLeft, ih, toNat_toUInt32, ofLE]
    show ofLE bytes <<< 8 % 2 ^ 32 ||| b.toNat = _
    rw [mod_eq_of_lt (by rw [shiftLeft_eq]; omega), ← shiftLeft_add_eq_or_of_lt hb, shiftLeft_eq]
    omega

theorem value_chunks (bytes : Bytes) : value ((chunks 4 bytes).map fun c => ofBytes c.reverse) = ofLE bytes := by
  induction hn : bytes.length using Nat.strongRecOn generalizing bytes with
  | _ n ih =>
    by_cases hnil : bytes = []
    · rw [hnil]
      rfl
    · have hpos := length_pos_iff.mpr hnil
      rw [chunks_cons (by decide) hnil, map_cons, value_cons, ofBytes_reverse (length_take_le 4 bytes),
        ih _ (by rw [length_drop]; omega) _ rfl]
      conv_rhs => rw [← take_append_drop 4 bytes, ofLE_append]
      by_cases hlen : 4 ≤ bytes.length
      · rw [length_take_of_le hlen]
        rfl
      · rw [drop_eq_nil_of_le (by omega)]
        simp [ofLE]

/-! ### Trimmed lists -/

/-- The most significant word is not zero. -/
def Trimmed (xs : List UInt32) : Prop := xs.getLast? ≠ some 0

instance (xs : List UInt32) : Decidable (Trimmed xs) := inferInstanceAs (Decidable (_ ≠ _))

/-- The loop that drops zeros at the most significant end. -/
def trim (xs : List UInt32) : List UInt32 := (xs.reverse.dropWhile (· == 0)).reverse

theorem trimmed_trim (xs : List UInt32) : Trimmed (trim xs) := by
  intro h
  rw [trim, getLast?_reverse] at h
  have := head?_dropWhile_not (· == 0) xs.reverse
  simp [h] at this

theorem value_trim (xs : List UInt32) : value (trim xs) = value xs := by
  unfold trim
  induction xs using reverseRecOn with
  | nil => rfl
  | append_singleton xs x ih =>
    rw [reverse_append, reverse_singleton, singleton_append, dropWhile_cons]
    split_ifs with hx
    · obtain rfl : x = 0 := by simpa using hx
      simp [ih, value_append]
    · simp

theorem trimmed_append {xs : List UInt32} {x : UInt32} : Trimmed (xs ++ [x]) ↔ x ≠ 0 := by simp [Trimmed]

/-- A trimmed list is no longer than its value needs. -/
theorem le_value_append {xs : List UInt32} {x : UInt32} (hx : x ≠ 0) :
    2 ^ (32 * xs.length) * x.toNat ≤ value (xs ++ [x]) ∧ 0 < x.toNat := by
  have hpos : x.toNat ≠ 0 := fun h => hx (UInt32.toNat_inj.mp h)
  rw [value_append]
  exact ⟨by simp, by omega⟩

theorem value_lt_of_length {xs ys : List UInt32} (hys : Trimmed ys) (h : xs.length < ys.length) : value xs < value ys := by
  obtain ⟨zs, y, rfl⟩ : ∃ zs y, ys = zs ++ [y] :=
    ⟨ys.dropLast, ys.getLast (ne_nil_of_length_pos (by omega)), (dropLast_append_getLast _).symm⟩
  obtain ⟨hle, hpos⟩ := @le_value_append zs y (trimmed_append.mp hys)
  rw [length_append, length_singleton] at h
  calc value xs < 2 ^ (32 * xs.length) := value_lt xs
    _ ≤ 2 ^ (32 * zs.length) := Nat.pow_le_pow_right (by decide) (by omega)
    _ ≤ 2 ^ (32 * zs.length) * y.toNat := Nat.le_mul_of_pos_right _ hpos
    _ ≤ value (zs ++ [y]) := hle

/-- `u32::leading_zeros`. -/
def leadingZeros (x : UInt32) : Nat := if x = 0 then 32 else 31 - x.toNat.log2

/-- The number of bits, read off the most significant word. -/
def bits (xs : List UInt32) : Nat := (xs.getLast?.map fun top => xs.length * 32 - leadingZeros top).getD 0

theorem bits_eq {xs : List UInt32} (h : Trimmed xs) : bits xs = (value xs).size := by
  induction xs using reverseRecOn with
  | nil => rfl
  | append_singleton xs x =>
    obtain ⟨hle, hpos⟩ := @le_value_append xs x (trimmed_append.mp h)
    have hx := log2_self_le (pos_iff_ne_zero.mp hpos)
    have hx' : x.toNat + 1 ≤ 2 ^ (x.toNat.log2 + 1) := lt_log2_self
    have hlog : x.toNat.log2 < 32 := (log2_lt (pos_iff_ne_zero.mp hpos)).mpr x.toNat_lt
    have hbits : bits (xs ++ [x]) = 32 * xs.length + (x.toNat.log2 + 1) := by
      simp only [bits, leadingZeros, if_neg (trimmed_append.mp h), getLast?_append, getLast?_singleton,
        some_or, map_some, getD_some, length_append, length_singleton]
      omega
    rw [hbits]
    apply le_antisymm
    · refine lt_size.mpr (show 2 ^ (32 * xs.length + x.toNat.log2) ≤ _ from ?_)
      rw [pow_add]
      exact le_trans (mul_le_mul_left _ hx) hle
    · refine size_le.mpr ?_
      calc value (xs ++ [x]) < 2 ^ (32 * xs.length) * (x.toNat + 1) := by
            have := value_lt xs
            rw [value_append, value_cons, value_nil, Nat.mul_zero, add_zero, mul_succ]
            omega
        _ ≤ 2 ^ (32 * xs.length + (x.toNat.log2 + 1)) := by
            rw [pow_add]
            exact mul_le_mul_left _ hx'

/-! ### Comparing -/

/-- The loop over the words of two numbers, both from the most significant one on. -/
def compareTop : List UInt32 → List UInt32 → Ordering
  | x :: xs, y :: ys => if x ≠ y then compare x.toNat y.toNat else compareTop xs ys
  | _, _ => .eq

theorem compareTop_eq {xs ys : List UInt32} (h : xs.length = ys.length) :
    compareTop xs.reverse ys.reverse = compare (value xs) (value ys) := by
  induction xs using reverseRecOn generalizing ys with
  | nil =>
    obtain rfl := eq_nil_of_length_eq_zero h.symm
    simp [compareTop]
  | append_singleton xs x ih =>
    obtain ⟨zs, y, rfl⟩ : ∃ zs y, ys = zs ++ [y] :=
      ⟨ys.dropLast, ys.getLast (ne_nil_of_length_pos (by simp at h; omega)), (dropLast_append_getLast _).symm⟩
    have hlen : xs.length = zs.length := by simpa using h
    have hxs := value_lt xs
    have hzs := value_lt zs
    rw [reverse_append, reverse_append, reverse_singleton, reverse_singleton, singleton_append,
      singleton_append, compareTop, value_append, value_append, hlen]
    rw [hlen] at hxs
    simp only [value_cons, value_nil, Nat.mul_zero, add_zero]
    split_ifs with hne
    · -- the words below cannot make up for a smaller word at the top
      have hstep {m n : Nat} (hmn : m < n) (v w : Nat) (hv : v < 2 ^ (32 * zs.length)) :
          v + 2 ^ (32 * zs.length) * m < w + 2 ^ (32 * zs.length) * n := by
        have := Nat.mul_le_mul_left (2 ^ (32 * zs.length)) (succ_le_of_lt hmn)
        rw [mul_succ] at this
        omega
      rcases Nat.lt_or_gt_of_ne (fun he => hne (UInt32.toNat_inj.mp he)) with hlt | hgt
      · rw [Nat.compare_eq_lt.mpr hlt, Nat.compare_eq_lt.mpr (hstep hlt _ _ hxs)]
      · rw [Nat.compare_eq_gt.mpr hgt, Nat.compare_eq_gt.mpr (hstep hgt _ _ hzs)]
    · obtain rfl : x = y := not_not.mp hne
      rw [ih hlen]
      simp only [compare_eq_ite_lt, Nat.add_lt_add_iff_right]

/-! ### Shifting, subtracting -/

/-- The loop that shifts by one bit; `carry` is the bit that comes in. -/
def shl (carry : UInt32) : List UInt32 → List UInt32
  | [] => if carry ≠ 0 then [carry] else []
  | x :: xs => (x <<< 1 ||| carry) :: shl (x >>> 31) xs

theorem value_shl {carry : UInt32} (hc : carry.toNat ≤ 1) (xs : List UInt32) :
    value (shl carry xs) = 2 * value xs + carry.toNat := by
  induction xs generalizing carry with
  | nil =>
    rw [shl]
    split_ifs with h
    · simp
    · simp [not_not.mp h]
  | cons x xs ih =>
    have hx := x.toNat_lt
    have hhigh : (x >>> 31).toNat = x.toNat / 2 ^ 31 := by
      rw [UInt32.toNat_shiftRight, shiftRight_eq_div_pow]
      rfl
    have hlow : (x <<< 1 ||| carry).toNat = 2 * (x.toNat % 2 ^ 31) + carry.toNat := by
      have hshift : (x <<< 1).toNat = (x.toNat % 2 ^ 31) <<< 1 := by
        rw [UInt32.toNat_shiftLeft]
        show x.toNat <<< 1 % 2 ^ 32 = _
        rw [shiftLeft_eq, shiftLeft_eq]
        omega
      rw [UInt32.toNat_or, hshift, ← shiftLeft_add_eq_or_of_lt (by omega), shiftLeft_eq]
      omega
    rw [shl, value_cons, value_cons, ih (by omega), hhigh, hlow]
    omega

theorem trimmed_shl {carry : UInt32} {xs : List UInt32} (h : Trimmed xs) (hc : carry.toNat ≤ 1) : Trimmed (shl carry xs) := by
  induction xs generalizing carry with
  | nil =>
    rw [shl]
    split_ifs with hne
    · simpa [Trimmed] using hne
    · simp [Trimmed]
  | cons x xs ih =>
    cases xs with
    | nil =>
      -- a word that is shifted out whole leaves its carry behind
      have hvalue := value_shl hc [x]
      have hx : x.toNat ≠ 0 := fun h0 => h (by simp [UInt32.toNat_inj.mp (h0.trans UInt32.toNat_zero.symm)])
      rw [shl, shl] at hvalue ⊢
      split_ifs at hvalue ⊢ with hne
      · simpa [Trimmed] using hne
      · intro hlast
        obtain hzero : x <<< 1 ||| carry = 0 := by simpa using hlast
        simp [hzero] at hvalue
        omega
    | cons y ys =>
      have hnext := @ih (x >>> 31) (by simpa [Trimmed] using h)
      simpa [shl, Trimmed] using hnext (by
        have := x.toNat_lt
        rw [UInt32.toNat_shiftRight, shiftRight_eq_div_pow]
        show x.toNat / 2 ^ 31 ≤ 1
        omega)

/-- The loop that subtracts, a word of `ys` that is missing counted as zero. -/
def sub (borrow : Int) : List UInt32 → List UInt32 → List UInt32
  | [], _ => []
  | x :: xs, ys =>
    let v : Int := x.toNat - ((ys.headD 0).toNat + borrow)
    if v < 0 then UInt32.ofNat (v + 2 ^ 32).toNat :: sub 1 xs ys.tail else UInt32.ofNat v.toNat :: sub 0 xs ys.tail

theorem value_headD (ys : List UInt32) : value ys = (ys.headD 0).toNat + 2 ^ 32 * value ys.tail := by
  cases ys <;> simp

theorem value_sub {borrow : Nat} (hb : borrow ≤ 1) {xs ys : List UInt32} (h : value ys + borrow ≤ value xs) :
    value (sub borrow xs ys) = value xs - value ys - borrow := by
  induction xs generalizing borrow ys with
  | nil => simp [sub]
  | cons x xs ih =>
    have hx := x.toNat_lt
    have hy := (ys.headD 0).toNat_lt
    rw [value_headD ys, value_cons] at h ⊢
    rw [sub]
    split_ifs with hneg
    · have hrest := @ih 1 (by omega) ys.tail (by omega)
      have hword : ((x.toNat : Int) - ((ys.headD 0).toNat + borrow) + 2 ^ 32).toNat =
          x.toNat + 2 ^ 32 - (ys.headD 0).toNat - borrow := by omega
      rw [value_cons, toNat_ofNat, hword, ← Int.natCast_one, hrest]
      omega
    · have hrest := @ih 0 (by omega) ys.tail (by omega)
      have hword : ((x.toNat : Int) - ((ys.headD 0).toNat + borrow)).toNat = x.toNat - (ys.headD 0).toNat - borrow := by
        omega
      rw [value_cons, toNat_ofNat, hword, ← Int.natCast_zero, hrest]
      omega

/-! ### Multiplying -/

/-- The loop that carries on past the end of a row; the number is too short when it has no word left. -/
def carryOn : List UInt32 → Nat → Option (List UInt32)
  | out, 0 => some out
  | [], _ + 1 => none
  | o :: out, c + 1 =>
    let t := o.toNat + (c + 1)
    if 2 ^ 64 ≤ t then none else (carryOn out (t / 2 ^ 32)).map (UInt32.ofNat t :: ·)

/-- A row: `a` times the words of `ys`, added onto `out`. -/
def addProduct (a : UInt32) : List UInt32 → List UInt32 → Nat → Option (List UInt32)
  | [], out, carry => carryOn out carry
  | _ :: _, [], _ => none
  | y :: ys, o :: out, carry =>
    let t := a.toNat * y.toNat + o.toNat + carry
    if 2 ^ 64 ≤ t then none else (addProduct a ys out (t / 2 ^ 32)).map (UInt32.ofNat t :: ·)

/-- The rows, each one place higher than the one before. -/
def product : List UInt32 → List UInt32 → List UInt32 → Option (List UInt32)
  | [], _, out => some out
  | a :: xs, ys, out => do
    match ← addProduct a ys out 0 with
    | [] => none
    | o :: out => (product xs ys out).map (o :: ·)

variable {a : UInt32} {xs ys out : List UInt32} {carry : Nat}

theorem carryOn_eq (hc : carry < 2 ^ 32) (h : value out + carry < 2 ^ (32 * out.length)) :
    ∃ r, carryOn out carry = some r ∧ r.length = out.length ∧ value r = value out + carry := by
  induction out generalizing carry with
  | nil =>
    obtain rfl : carry = 0 := by simpa using h
    exact ⟨[], rfl, rfl, rfl⟩
  | cons o out ih =>
    have ho := o.toNat_lt
    cases carry with
    | zero => exact ⟨o :: out, rfl, rfl, rfl⟩
    | succ c =>
      rw [value_cons, length_cons, mul_succ, pow_add] at h
      obtain ⟨r, hr, hlen, hvalue⟩ := @ih ((o.toNat + (c + 1)) / 2 ^ 32) (by omega) (by omega)
      refine ⟨UInt32.ofNat (o.toNat + (c + 1)) :: r, ?_, by simp [hlen], ?_⟩
      · rw [carryOn, if_neg (by omega), hr]
        rfl
      · rw [value_cons, value_cons, toNat_ofNat, hvalue]
        omega

theorem addProduct_eq (hc : carry < 2 ^ 32) (hlen : ys.length ≤ out.length)
    (h : value out + a.toNat * value ys + carry < 2 ^ (32 * out.length)) : ∃ r, addProduct a ys out carry = some r ∧
      r.length = out.length ∧ value r = value out + a.toNat * value ys + carry := by
  induction ys generalizing out carry with
  | nil => simpa [addProduct] using carryOn_eq hc (by simpa using h)
  | cons y ys ih =>
    cases out with
    | nil => simp at hlen
    | cons o out =>
      have ho := o.toNat_lt
      -- the largest product leaves room for the word and for the carry
      have hword : a.toNat * y.toNat ≤ (2 ^ 32 - 1) * (2 ^ 32 - 1) :=
        Nat.mul_le_mul (le_sub_one_of_lt a.toNat_lt) (le_sub_one_of_lt y.toNat_lt)
      have hsplit : a.toNat * value (y :: ys) = a.toNat * y.toNat + 2 ^ 32 * (a.toNat * value ys) := by
        rw [value_cons]
        ring
      rw [hsplit] at h ⊢
      rw [value_cons, length_cons, mul_succ, pow_add] at h
      obtain ⟨r, hr, hlen', hvalue⟩ := @ih out ((a.toNat * y.toNat + o.toNat + carry) / 2 ^ 32) (by omega)
        (by simpa using hlen) (by omega)
      refine ⟨UInt32.ofNat (a.toNat * y.toNat + o.toNat + carry) :: r, ?_, by simp [hlen'], ?_⟩
      · rw [addProduct, if_neg (by omega), hr]
        rfl
      · rw [value_cons, value_cons, toNat_ofNat, hvalue]
        omega

theorem product_eq (hlen : xs.length + ys.length ≤ out.length)
    (h : value out + value xs * value ys < 2 ^ (32 * out.length)) :
    ∃ r, product xs ys out = some r ∧ value r = value out + value xs * value ys := by
  induction xs generalizing out with
  | nil => exact ⟨out, rfl, by simp⟩
  | cons a xs ih =>
    have hsplit : value (a :: xs) * value ys = a.toNat * value ys + 2 ^ 32 * (value xs * value ys) := by
      rw [value_cons]
      ring
    rw [length_cons] at hlen
    rw [hsplit] at h ⊢
    obtain ⟨row, hrow, hsame, hvalue⟩ := @addProduct_eq a ys out 0 (by decide) (by omega)
      (by omega)
    cases row with
    | nil =>
      rw [length_nil] at hsame
      omega
    | cons o rest =>
      -- the row's lowest word is final, what is above it takes the next row
      rw [value_cons] at hvalue
      rw [← hsame, length_cons, mul_succ, pow_add] at h
      obtain ⟨r, hr, hrest⟩ := @ih rest (by rw [length_cons] at hsame; omega) (by omega)
      refine ⟨o :: r, ?_, ?_⟩
      · rw [product, hrow]
        show (product xs ys rest).map _ = _
        rw [hr]
        rfl
      · rw [value_cons, hrest]
        omega

end HamixOS.Lib.Limbs
