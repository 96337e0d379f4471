import HamixOS.Lib.Limbs
import HamixOS.Pantry.Sha

namespace HamixOS.Pantry

open Lib List Limbs Nat

/-!
# RSA signatures (`crypto.rs`)

The numbers of many words that a signature is checked with, and the check of its padding.  A word that is looked up
outside its list stops the program: what can do so is an `Option`.
-/

/-- A number whose most significant word is not zero. -/
structure Big where
  limbs : List UInt32
  trimmed : Limbs.Trimmed limbs

namespace Big

def value (a : Big) : Nat := Limbs.value a.limbs

def ofLimbs (limbs : List UInt32) : Big := ⟨Limbs.trim limbs, Limbs.trimmed_trim limbs⟩

def fromBe (bytes : Bytes) : Big := ofLimbs ((chunks 4 bytes.reverse).map fun c => Limbs.ofBytes c.reverse)

/-- The byte at each place is written that far from the end; there may be fewer bytes than places, and more. -/
def toBe (a : Big) (len : Nat) : Bytes :=
  ((a.limbs.flatMap le32).take len ++ zeros (len - (a.limbs.flatMap le32).length)).reverse

def bits (a : Big) : Nat := Limbs.bits a.limbs

def bit (a : Big) (i : Nat) : Bool := (a.limbs[i / 32]?.map fun l => l.toNat.testBit (i % 32)).getD false

def cmp (a b : Big) : Ordering :=
  if a.limbs.length ≠ b.limbs.length then compare a.limbs.length b.limbs.length
  else Limbs.compareTop a.limbs.reverse b.limbs.reverse

def subAssign (a b : Big) : Big := ofLimbs (Limbs.sub 0 a.limbs b.limbs)

def shl1With (a : Big) (bit : Bool) : Big :=
  ⟨Limbs.shl bit.toNat.toUInt32 a.limbs, Limbs.trimmed_shl a.trimmed (by cases bit <;> decide)⟩

def mul (a b : Big) : Option Big :=
  (Limbs.product a.limbs b.limbs (List.replicate (a.limbs.length + b.limbs.length + 1) 0)).map ofLimbs

/-- The loop of `rem`, for the bits of `a` below `i`. -/
def remLoop (a m : Big) : Nat → Big → Big
  | 0, r => r
  | i + 1, r =>
    let r := r.shl1With (a.bit i)
    remLoop a m i (if r.cmp m ≠ .lt then r.subAssign m else r)

def rem (a m : Big) : Big := remLoop a m a.bits ⟨[], by decide⟩

/-- The loop of `pow_mod`, for the bits of `exp` below `i`. -/
def powLoop (base exp m : Big) : Nat → Big → Option Big
  | 0, result => some result
  | i + 1, result => do
    let result := (← result.mul result).rem m
    if exp.bit i then powLoop base exp m i ((← result.mul base).rem m) else powLoop base exp m i result

def powMod (a exp m : Big) : Option Big := powLoop (a.rem m) exp m exp.bits ⟨[1], by decide⟩

end Big

/-- A public key; its size is the number of bytes of the modulus. -/
structure RsaKey where
  n : Big
  e : Big
  size : Nat
  sized : size = (n.bits + 7) / 8

namespace RsaKey

/-- The end of `from_pem`. -/
def new (n e : Bytes) : RsaKey := ⟨.fromBe n, .fromBe e, _, rfl⟩

/-- The part of `verify` that looks at the decrypted bytes. -/
def padded (size : Nat) (em pre digest : Bytes) : Option Bool := do
  let tail := pre.length + digest.length
  if size < tail + 1 then none
  else
    let padEnd := size - tail - 1
    if (← em[0]?) ≠ 0 ∨ (← em[1]?) ≠ 1 ∨ (← em[padEnd]?) ≠ 0 ∨ padEnd < 10 then some false
    else if (← getRange em 2 padEnd).any (· ≠ 0xFF) then some false
    else some ((← getRange em (padEnd + 1) (padEnd + 1 + pre.length)) = pre ∧
      (← getRange em (size - digest.length) em.length) = digest)

def verify (key : RsaKey) (pre digest signature : Bytes) : Option Bool :=
  if signature.length ≠ key.size ∨ key.size < 64 then some false
  else
    let s := Big.fromBe signature
    if s.cmp key.n ≠ .lt then some false
    else do padded key.size ((← s.powMod key.e key.n).toBe key.size) pre digest

def prefix1 : Bytes := [0x30, 0x21, 0x30, 0x09, 0x06, 0x05, 0x2b, 0x0e, 0x03, 0x02, 0x1a, 0x05, 0x00, 0x04, 0x14]

def prefix256 : Bytes :=
  [0x30, 0x31, 0x30, 0x0d, 0x06, 0x09, 0x60, 0x86, 0x48, 0x01, 0x65, 0x03, 0x04, 0x02, 0x01, 0x05, 0x00, 0x04, 0x20]

def verifySha1 (key : RsaKey) (digest signature : Bytes) : Option Bool := key.verify prefix1 digest signature

def verifySha256 (key : RsaKey) (digest signature : Bytes) : Option Bool := key.verify prefix256 digest signature

end RsaKey

/-! ### The numbers -/

/-- The number that bytes stand for, the most significant one first. -/
def ofBE (bytes : Bytes) : Nat := ofLE bytes.reverse

namespace Big

variable {a b m : Big}

theorem value_ofLimbs (limbs : List UInt32) : (ofLimbs limbs).value = Limbs.value limbs := value_trim limbs

theorem value_fromBe (bytes : Bytes) : (fromBe bytes).value = ofBE bytes := by
  rw [fromBe, value_ofLimbs, value_chunks, ofBE]

theorem toBe_eq (a : Big) (len : Nat) : a.toBe len = toBE len a.value := by
  rw [toBe, toBE, value, ← ofLE_flatMap, toLE_ofLE]

theorem bits_eq (a : Big) : a.bits = a.value.size := Limbs.bits_eq a.trimmed

theorem bit_eq (a : Big) (i : Nat) : a.bit i = a.value.testBit i := (testBit_value a.limbs i).symm

theorem cmp_eq (a b : Big) : a.cmp b = compare a.value b.value := by
  unfold cmp
  split_ifs with hlen
  · rcases lt_or_gt_of_ne hlen with hlt | hgt
    · rw [Nat.compare_eq_lt.mpr hlt]
      exact (Nat.compare_eq_lt.mpr (value_lt_of_length b.trimmed hlt)).symm
    · rw [Nat.compare_eq_gt.mpr hgt]
      exact (Nat.compare_eq_gt.mpr (value_lt_of_length a.trimmed hgt)).symm
  · exact compareTop_eq (not_not.mp hlen)

theorem value_subAssign (h : b.value ≤ a.value) : (a.subAssign b).value = a.value - b.value := by
  rw [subAssign, value_ofLimbs]
  exact value_sub (zero_le 1) h

theorem value_shl1With (a : Big) (bit : Bool) : (a.shl1With bit).value = 2 * a.value + bit.toNat := by
  have hbit : bit.toNat.toUInt32.toNat = bit.toNat := by cases bit <;> rfl
  have hle : bit.toNat.toUInt32.toNat ≤ 1 := by
    rw [hbit]
    exact Bool.toNat_le bit
  have hvalue := value_shl hle a.limbs
  rwa [hbit] at hvalue

theorem mul_eq (a b : Big) : ∃ c, a.mul b = some c ∧ c.value = a.value * b.value := by
  have hfits : Limbs.value a.limbs * Limbs.value b.limbs < 2 ^ (32 * (a.limbs.length + b.limbs.length + 1)) := by
    refine lt_of_lt_of_le (mul_lt_mul'' (value_lt _) (value_lt _)) ?_
    rw [← pow_add, ← mul_add]
    exact Nat.pow_le_pow_right (by decide) (by omega)
  obtain ⟨r, hr, hvalue⟩ := product_eq
    (show a.limbs.length + b.limbs.length ≤ (replicate (a.limbs.length + b.limbs.length + 1) 0).length by simp)
    (by rwa [value_replicate, length_replicate, zero_add])
  refine ⟨ofLimbs r, by rw [mul, hr]; rfl, ?_⟩
  rw [value_ofLimbs, hvalue, value_replicate, zero_add]
  rfl

theorem testBit_mod (n i : Nat) : n % 2 ^ (i + 1) = 2 ^ i * (n.testBit i).toNat + n % 2 ^ i := by
  rw [mod_pow_succ, toNat_testBit, add_comm]

/-- A turn of `rem`: the remainder of the bits so far is the remainder of one bit more. -/
theorem remLoop_eq (i : Nat) {r : Big} (h : r.value < m.value) :
    (remLoop a m i r).value = (2 ^ i * r.value + a.value % 2 ^ i) % m.value := by
  induction i generalizing r with
  | zero => simp [remLoop, mod_one, mod_eq_of_lt h]
  | succ i ih =>
    have hshl := value_shl1With r (a.bit i)
    have hbit := Bool.toNat_le (a.bit i)
    have hturn : (if (r.shl1With (a.bit i)).cmp m ≠ .lt then (r.shl1With (a.bit i)).subAssign m
        else r.shl1With (a.bit i)).value = (2 * r.value + (a.bit i).toNat) % m.value := by
      split_ifs with hle <;> rw [cmp_eq, Nat.compare_ne_lt] at hle
      · rw [value_subAssign hle, hshl, mod_eq_sub_mod (by omega), mod_eq_of_lt (by omega)]
      · rw [hshl, mod_eq_of_lt (by omega)]
    rw [remLoop, ih (by rw [hturn]; exact mod_lt _ (by omega)), hturn, testBit_mod, bit_eq, add_mod,
      mul_mod_mod, ← add_mod]
    congr 1
    ring

theorem value_rem (a : Big) (hm : 0 < m.value) : (a.rem m).value = a.value % m.value := by
  have hzero : (⟨[], by decide⟩ : Big).value < m.value := hm
  rw [rem, remLoop_eq _ hzero, bits_eq, mod_eq_of_lt (lt_size_self a.value)]
  simp [value]

theorem powLoop_eq (base e : Big) (i : Nat) {r : Big} (h : r.value < m.value) : ∃ c, powLoop base e m i r = some c ∧
    c.value = r.value ^ 2 ^ i * base.value ^ (e.value % 2 ^ i) % m.value := by
  induction i generalizing r with
  | zero => exact ⟨r, rfl, by simp [mod_one, mod_eq_of_lt h]⟩
  | succ i ih =>
    have hm : 0 < m.value := by omega
    obtain ⟨square, hsquare, hvalue⟩ := mul_eq r r
    have hrem := value_rem square hm
    have hturn : powLoop base e m (i + 1) r = if e.value.testBit i = true
        then (do powLoop base e m i ((← (square.rem m).mul base).rem m)) else powLoop base e m i (square.rem m) := by
      rw [powLoop, hsquare, bit_eq]
      rfl
    rw [hturn, testBit_mod]
    split_ifs with hbit
    · obtain ⟨product, hproduct, hvalue'⟩ := mul_eq (square.rem m) base
      obtain ⟨c, hc, hpow⟩ := ih (r := product.rem m) (by rw [value_rem _ hm]; exact mod_lt _ hm)
      refine ⟨c, by rw [hproduct]; exact hc, ?_⟩
      rw [hpow, value_rem _ hm, hvalue', hrem, hvalue, hbit, mod_mul_mod, mul_mod, ← Nat.pow_mod, ← mul_mod]
      congr 1
      simp only [Bool.toNat_true, mul_one]
      ring
    · obtain ⟨c, hc, hpow⟩ := ih (r := square.rem m) (by rw [hrem]; exact mod_lt _ hm)
      refine ⟨c, hc, ?_⟩
      rw [hpow, hrem, hvalue, Bool.eq_false_of_not_eq_true hbit, mul_mod, ← Nat.pow_mod, ← mul_mod]
      congr 1
      simp only [Bool.toNat_false, mul_zero, zero_add]
      ring

theorem powMod_eq (a e : Big) (hm : 1 < m.value) :
    ∃ c, a.powMod e m = some c ∧ c.value = a.value ^ e.value % m.value := by
  obtain ⟨c, hc, hvalue⟩ := powLoop_eq (a.rem m) e e.bits (r := ⟨[1], by decide⟩) hm
  refine ⟨c, hc, ?_⟩
  rw [hvalue, bits_eq, mod_eq_of_lt (lt_size_self e.value), value_rem _ (by omega)]
  simp [value, ← Nat.pow_mod]

end Big

/-! ### The padding -/

namespace RsaKey

/-- The bytes that a signature has to decrypt to. -/
def encoded (k : Nat) (pre digest : Bytes) : Bytes :=
  [0, 1] ++ List.replicate (k - 3 - pre.length - digest.length) 0xFF ++ [0] ++ pre ++ digest

theorem exists_append {n : Nat} {l : Bytes} (h : n ≤ l.length) : ∃ xs ys, l = xs ++ ys ∧ xs.length = n :=
  ⟨l.take n, l.drop n, (take_append_drop n l).symm, length_take_of_le h⟩

theorem getRange_part (xs ys zs : Bytes) :
    getRange (xs ++ ys ++ zs) xs.length (xs.length + ys.length) = some ys :=
  getRange_of_drop (by simp) (by rw [append_assoc, drop_left])

theorem padded_eq {em pre digest : Bytes} (h : pre.length + digest.length + 13 ≤ em.length) :
    padded em.length em pre digest = some (decide (em = encoded em.length pre digest)) := by
  -- the six parts of the bytes, each as long as the check reads it
  obtain ⟨front, rest, rfl, hfront⟩ := exists_append (show 2 ≤ em.length by omega)
  simp only [length_append, hfront] at h
  obtain ⟨pad, rest, rfl, hpad⟩ := exists_append (show rest.length - pre.length - digest.length - 1 ≤ rest.length by omega)
  obtain ⟨p, d, rfl, hp⟩ := exists_append (show pre.length + 1 ≤ rest.length by
    simp only [length_append] at h hpad
    omega)
  obtain ⟨b0, b1, rfl⟩ := length_eq_two.mp hfront
  obtain ⟨mark, p, rfl⟩ := exists_cons_of_length_eq_add_one hp
  simp only [length_cons, length_append, add_right_cancel_iff] at h hp hpad
  have hd : d.length = digest.length := by omega
  obtain ⟨em, hem⟩ : ∃ em, em = [b0, b1] ++ (pad ++ (mark :: p ++ d)) := ⟨_, rfl⟩
  have hsize : em.length = pad.length + 3 + p.length + d.length := by
    simp [hem]
    omega
  have hmark : em[pad.length + 2]? = some mark := by simp [hem]
  have hpadding : getRange em 2 (pad.length + 2) = some pad := by
    simpa [hem, add_comm 2] using getRange_part [b0, b1] pad (mark :: p ++ d)
  have hprefix : getRange em (pad.length + 3) (pad.length + 3 + p.length) = some p := by
    simpa [hem] using getRange_part ([b0, b1] ++ pad ++ [mark]) p d
  have hdigest : getRange em (pad.length + 3 + p.length) em.length = some d := by
    rw [hsize]
    simpa [hem, add_assoc, add_comm, add_left_comm] using getRange_part ([b0, b1] ++ pad ++ [mark] ++ p) d []
  have hends : em.length - (pre.length + digest.length) - 1 = pad.length + 2 ∧
      em.length - digest.length = pad.length + 3 + p.length := by omega
  have hlast : encoded em.length pre digest = [0, 1] ++ (replicate pad.length 0xFF ++ (0 :: pre ++ digest)) := by
    rw [encoded, show em.length - 3 - pre.length - digest.length = pad.length by omega]
    simp
  have hparts : em = [0, 1] ++ (replicate pad.length 0xFF ++ (0 :: pre ++ digest)) ↔
      (b0 = 0 ∧ b1 = 1 ∧ mark = 0) ∧ pad.any (· ≠ 0xFF) = false ∧ p = pre ∧ d = digest := by
    have hfill : pad.any (· ≠ 0xFF) = false ↔ pad = replicate pad.length 0xFF := by
      simp [eq_replicate_iff]
    rw [hem, hfill]
    constructor
    · intro h
      obtain ⟨h0, h1, h⟩ : b0 = 0 ∧ b1 = 1 ∧ pad ++ (mark :: p ++ d) =
        replicate pad.length 0xFF ++ (0 :: pre ++ digest) := by simpa using h
      obtain ⟨hpad, h⟩ := append_inj h (by simp)
      obtain ⟨hmark, h⟩ := cons.inj h
      exact ⟨⟨h0, h1, hmark⟩, hpad, append_inj h hp⟩
    · rintro ⟨⟨rfl, rfl, rfl⟩, hall, rfl, rfl⟩
      rw [← hall]
  rw [← hem, hlast, padded, if_neg (by omega), hends.1, hends.2]
  have hb0 : em[0]? = some b0 := by rw [hem]; rfl
  have hb1 : em[1]? = some b1 := by rw [hem]; rfl
  simp only [hb0, hb1, hmark, hpadding, ← hp, hprefix, hdigest, Option.bind_eq_bind, Option.bind_some, hparts]
  split_ifs with hwrong hany
  · refine congrArg some (decide_eq_false fun h => ?_).symm
    obtain ⟨h0, h1, h2⟩ := h.1
    rcases hwrong with h | h | h | h
    · exact h h0
    · exact h h1
    · exact h h2
    · omega
  · refine congrArg some (decide_eq_false fun h => ?_).symm
    rw [h.2.1] at hany
    exact Bool.false_ne_true hany
  · have hright : b0 = 0 ∧ b1 = 1 ∧ mark = 0 := by
      rw [not_or, not_or, not_or, not_not, not_not, not_not] at hwrong
      exact ⟨hwrong.1, hwrong.2.1, hwrong.2.2.1⟩
    refine congrArg some (decide_eq_decide.mpr ⟨fun h => ⟨hright, Bool.eq_false_of_not_eq_true hany, h⟩, fun h => h.2.2⟩)

/-- A signature of the size of the modulus and below it, whose power is the encoded digest. -/
def Signed (key : RsaKey) (pre digest signature : Bytes) : Prop :=
  signature.length = (key.n.value.size + 7) / 8 ∧ 64 ≤ (key.n.value.size + 7) / 8 ∧ ofBE signature < key.n.value ∧
    toBE ((key.n.value.size + 7) / 8) (ofBE signature ^ key.e.value % key.n.value) =
      encoded ((key.n.value.size + 7) / 8) pre digest

theorem verify_eq (key : RsaKey) (hn : 1 < key.n.value) {pre digest : Bytes} (h : pre.length + digest.length ≤ 51)
    (signature : Bytes) : ∃ b, key.verify pre digest signature = some b ∧ (b = true ↔ key.Signed pre digest signature) := by
  have hsize : key.size = (key.n.value.size + 7) / 8 := by rw [key.sized, Big.bits_eq]
  obtain ⟨c, hc, hpow⟩ := Big.powMod_eq (Big.fromBe signature) key.e hn
  rw [Big.value_fromBe] at hpow
  have hbelow : (Big.fromBe signature).cmp key.n ≠ .lt ↔ key.n.value ≤ ofBE signature := by
    rw [Big.cmp_eq, Nat.compare_ne_lt, Big.value_fromBe]
  rw [verify, Signed, ← hsize]
  simp only [hbelow, hc]
  by_cases hlen : signature.length ≠ key.size ∨ key.size < 64
  · rw [if_pos hlen]
    exact ⟨false, rfl, by simp; omega⟩
  · rw [if_neg hlen]
    by_cases hbig : key.n.value ≤ ofBE signature
    · rw [if_pos hbig]
      exact ⟨false, rfl, by simp; omega⟩
    · have hem : (c.toBe key.size).length = key.size := by rw [Big.toBe_eq, toBE, length_reverse, length_toLE]
      have hpadded := @padded_eq (c.toBe key.size) pre digest (by omega)
      rw [hem, Big.toBe_eq, hpow] at hpadded
      rw [if_neg hbig]
      refine ⟨_, (congrArg (padded key.size · pre digest) (by rw [Big.toBe_eq, hpow])).trans hpadded, ?_⟩
      rw [decide_eq_true_iff]
      exact ⟨fun h => ⟨by omega, by omega, by omega, h⟩, fun h => h.2.2.2⟩

/-- The check of a signature accepts what it should and nothing else, over numbers that compute as numbers do. -/
theorem verify_exact (key : RsaKey) (hn : 1 < key.n.value) (signature : Bytes) :
    (∀ digest : Bytes, digest.length = 20 →
      ∃ b, key.verifySha1 digest signature = some b ∧ (b = true ↔ key.Signed prefix1 digest signature)) ∧
    (∀ digest : Bytes, digest.length = 32 →
      ∃ b, key.verifySha256 digest signature = some b ∧ (b = true ↔ key.Signed prefix256 digest signature)) ∧
    (∀ bytes, (Big.fromBe bytes).value = ofBE bytes) ∧
    (∀ a b : Big, ∃ c, a.mul b = some c ∧ c.value = a.value * b.value) ∧
    (∀ a m : Big, 0 < m.value → (a.rem m).value = a.value % m.value) ∧
    (∀ a b : Big, a.cmp b = compare a.value b.value) ∧
    (∀ a b : Big, b.value ≤ a.value → (a.subAssign b).value = a.value - b.value) ∧
    ∀ a e m : Big, 1 < m.value → ∃ c, a.powMod e m = some c ∧ c.value = a.value ^ e.value % m.value := by
  refine ⟨fun digest hd => ?_, fun digest hd => ?_, Big.value_fromBe, Big.mul_eq, fun a m hm => Big.value_rem a hm,
    Big.cmp_eq, fun a b h => Big.value_subAssign h, fun a e m hm => Big.powMod_eq a e hm⟩
  · exact verify_eq key hn (by rw [hd]; decide) signature
  · exact verify_eq key hn (by rw [hd]; decide) signature

/-- Under the exponent 1 the encoded digest is its own signature. -/
theorem verify_exact_plain : ∃ key : RsaKey, 1 < key.n.value ∧
    key.verifySha1 (zeros 20) (encoded 64 prefix1 (zeros 20)) = some true := by
  have hn : 1 < (RsaKey.new (List.replicate 64 0xFF) [1]).n.value := by decide +kernel
  obtain ⟨b, hb, hsigned⟩ := (verify_exact (RsaKey.new (List.replicate 64 0xFF) [1]) hn
    (encoded 64 prefix1 (zeros 20))).1 (zeros 20) rfl
  refine ⟨_, hn, hb.trans (congrArg some (hsigned.mpr ?_))⟩
  rw [Signed, ← Big.bits_eq]
  decide +kernel

end RsaKey

end HamixOS.Pantry
