import HamixOS.Lib.Text

namespace HamixOS.Lib

open List UInt8

/-!
# UTF-8, read leniently

`fromUtf8Lossy` decodes bytes as `String::from_utf8_lossy` does: what is not the beginning of a
character, as long as it can be, becomes one U+FFFD.
-/

namespace Utf8

def replacement : Char := Char.ofNat 0xFFFD

/-- A continuation byte. -/
def isCont (b : UInt8) : Bool := b &&& 0xC0 = 0x80

/-- The second byte of a character of three bytes. -/
def second3 (a b : UInt8) : Bool :=
  (a = 0xE0 ∧ 0xA0 ≤ b ∧ b ≤ 0xBF) ∨ (0xE1 ≤ a ∧ a ≤ 0xEC ∧ 0x80 ≤ b ∧ b ≤ 0xBF) ∨
    (a = 0xED ∧ 0x80 ≤ b ∧ b ≤ 0x9F) ∨ (0xEE ≤ a ∧ a ≤ 0xEF ∧ 0x80 ≤ b ∧ b ≤ 0xBF)

/-- The second byte of a character of four bytes. -/
def second4 (a b : UInt8) : Bool :=
  (a = 0xF0 ∧ 0x90 ≤ b ∧ b ≤ 0xBF) ∨ (0xF1 ≤ a ∧ a ≤ 0xF3 ∧ 0x80 ≤ b ∧ b ≤ 0xBF) ∨
    (a = 0xF4 ∧ 0x80 ≤ b ∧ b ≤ 0x8F)

def low (b : UInt8) : Nat := b.toNat % 64

/-- The first character of `a :: rest`, and what is left. -/
def decodeOne (a : UInt8) (rest : List UInt8) : Char × List UInt8 :=
  if a < 0x80 then (Char.ofNat a.toNat, rest)
  else if 0xC2 ≤ a ∧ a ≤ 0xDF then
    match rest with
    | b :: t => if isCont b then (Char.ofNat (a.toNat % 32 * 64 + low b), t) else (replacement, rest)
    | [] => (replacement, rest)
  else if 0xE0 ≤ a ∧ a ≤ 0xEF then
    match rest with
    | b :: c :: t =>
      if second3 a b then
        if isCont c then (Char.ofNat (a.toNat % 16 * 4096 + low b * 64 + low c), t) else (replacement, c :: t)
      else (replacement, rest)
    | [b] => (replacement, if second3 a b then [] else rest)
    | [] => (replacement, rest)
  else if 0xF0 ≤ a ∧ a ≤ 0xF4 then
    match rest with
    | b :: c :: d :: t =>
      if second4 a b then
        if isCont c then
          if isCont d then (Char.ofNat (a.toNat % 8 * 262144 + low b * 4096 + low c * 64 + low d), t)
          else (replacement, d :: t)
        else (replacement, c :: d :: t)
      else (replacement, rest)
    | [b, c] => (replacement, if second4 a b then if isCont c then [] else [c] else rest)
    | [b] => (replacement, if second4 a b then [] else rest)
    | [] => (replacement, rest)
  else (replacement, rest)

/-- Every character takes at least one byte, so as many rounds as bytes are enough. -/
def decode : Nat → List UInt8 → Text
  | 0, _ => []
  | _ + 1, [] => []
  | fuel + 1, a :: rest => (decodeOne a rest).1 :: decode fuel (decodeOne a rest).2

end Utf8

def fromUtf8Lossy (bytes : List UInt8) : Text := Utf8.decode bytes.length bytes

example : fromUtf8Lossy [0x61, 0xE2, 0x82, 0xAC, 0xE2, 0x82, 0x62] = ['a', '€', Utf8.replacement, 'b'] := by decide

namespace Utf8

/-- The bytes of a text. -/
def encode (text : Text) : List UInt8 := text.flatMap String.utf8EncodeChar

theorem isCont_ofNat (v : Nat) : isCont (ofNat (v % 64 + 128)) = true := by
  have hall : ∀ n < 64, isCont (ofNat (n + 128)) = true := by decide
  exact hall (v % 64) (Nat.mod_lt _ (by decide))

theorem low_ofNat (v : Nat) : low (ofNat (v % 64 + 128)) = v % 64 := by
  unfold low
  rw [toNat_ofNat']
  omega

theorem second3_ofNat {v : Nat} (hlow : 0x800 ≤ v) (hhigh : v < 0x10000) (hs : v < 0xD800 ∨ 0xDFFF < v) :
    second3 (ofNat (v / 4096 % 16 + 224)) (ofNat (v / 64 % 64 + 128)) = true := by
  unfold second3
  rw [decide_eq_true_iff]
  simp only [← UInt8.toNat_inj, le_iff_toNat_le, toNat_ofNat', reduceToNat]
  omega

theorem second4_ofNat {v : Nat} (hlow : 0x10000 ≤ v) (hhigh : v < 0x110000) :
    second4 (ofNat (v / 262144 % 8 + 240)) (ofNat (v / 4096 % 64 + 128)) = true := by
  unfold second4
  rw [decide_eq_true_iff]
  simp only [← UInt8.toNat_inj, le_iff_toNat_le, toNat_ofNat', reduceToNat]
  omega

theorem ofNat_toNat (c : Char) {n : Nat} (h : n = c.val.toNat) : Char.ofNat n = c := by
  rw [h]
  exact Char.ofNat_toNat c

/-- A character is read back from its bytes. -/
theorem decodeOne_utf8EncodeChar (c : Char) (t : List UInt8) :
    ∃ a rest, String.utf8EncodeChar c = a :: rest ∧ decodeOne a (rest ++ t) = (c, t) := by
  have hvalid : c.val.toNat < 0xD800 ∨ (0xDFFF < c.val.toNat ∧ c.val.toNat < 0x110000) := c.valid
  unfold String.utf8EncodeChar
  generalize hv : c.val.toNat = v at hvalid ⊢
  by_cases h1 : v ≤ 0x7F
  · rw [if_pos h1]
    refine ⟨_, _, rfl, ?_⟩
    unfold decodeOne
    have hn : (ofNat v).toNat = v := by
      rw [toNat_ofNat']
      omega
    rw [if_pos (by rw [lt_iff_toNat_lt, hn]; exact Nat.lt_succ_of_le h1), hn, ofNat_toNat c hv.symm]
    rfl
  rw [if_neg h1]
  by_cases h2 : v ≤ 0x7FF
  · rw [if_pos h2]
    refine ⟨_, _, rfl, ?_⟩
    unfold decodeOne
    have hn : (ofNat (v / 64 % 0x20 + 0xC0)).toNat = v / 64 + 192 := by
      rw [toNat_ofNat']
      omega
    rw [if_neg (by rw [lt_iff_toNat_lt, hn]; simp),
      if_pos (by simp only [le_iff_toNat_le, hn, reduceToNat]; omega)]
    dsimp only [cons_append]
    rw [isCont_ofNat, if_pos rfl, low_ofNat, hn, ofNat_toNat c (by omega)]
    rfl
  rw [if_neg h2]
  by_cases h3 : v ≤ 0xFFFF
  · rw [if_pos h3]
    refine ⟨_, _, rfl, ?_⟩
    unfold decodeOne
    have hn : (ofNat (v / 4096 % 0x10 + 0xE0)).toNat = v / 4096 + 224 := by
      rw [toNat_ofNat']
      omega
    rw [if_neg (by rw [lt_iff_toNat_lt, hn]; simp),
      if_neg (by simp only [le_iff_toNat_le, hn, reduceToNat]; omega),
      if_pos (by simp only [le_iff_toNat_le, hn, reduceToNat]; omega)]
    dsimp only [cons_append]
    rw [second3_ofNat (by omega) (by omega) (by omega), if_pos rfl, isCont_ofNat, if_pos rfl, low_ofNat, low_ofNat, hn,
      ofNat_toNat c (by omega)]
    rfl
  rw [if_neg h3]
  refine ⟨_, _, rfl, ?_⟩
  unfold decodeOne
  have hn : (ofNat (v / 262144 % 0x08 + 0xF0)).toNat = v / 262144 + 240 := by
    rw [toNat_ofNat']
    omega
  rw [if_neg (by rw [lt_iff_toNat_lt, hn]; simp),
    if_neg (by simp only [le_iff_toNat_le, hn, reduceToNat]; omega),
    if_neg (by simp only [le_iff_toNat_le, hn, reduceToNat]; omega),
    if_pos (by simp only [le_iff_toNat_le, hn, reduceToNat]; omega)]
  dsimp only [cons_append]
  rw [second4_ofNat (by omega) (by omega), if_pos rfl, isCont_ofNat, if_pos rfl, isCont_ofNat, if_pos rfl, low_ofNat,
    low_ofNat, low_ofNat, hn, ofNat_toNat c (by omega)]
  rfl

theorem decode_encode (text : Text) {fuel : Nat} (h : (encode text).length ≤ fuel) : decode fuel (encode text) = text := by
  induction text generalizing fuel with
  | nil =>
    cases fuel with
    | zero => rfl
    | succ n => rfl
  | cons c text ih =>
    obtain ⟨a, rest, hc, hone⟩ := decodeOne_utf8EncodeChar c (encode text)
    have hsplit : encode (c :: text) = a :: (rest ++ encode text) := by
      unfold encode
      rw [flatMap_cons, hc]
      rfl
    rw [hsplit] at h ⊢
    cases fuel with
    | zero => cases h
    | succ fuel =>
      rw [decode, hone, ih]
      rw [length_cons, length_append] at h
      omega

end Utf8

theorem fromUtf8Lossy_encode (text : Text) : fromUtf8Lossy (Utf8.encode text) = text :=
  Utf8.decode_encode text le_rfl

/-- `str::from_utf8`. -/
def fromUtf8 (bytes : List UInt8) : Option Text :=
  if Utf8.encode (fromUtf8Lossy bytes) = bytes then some (fromUtf8Lossy bytes) else none

theorem fromUtf8_encode (text : Text) : fromUtf8 (Utf8.encode text) = some text := by
  unfold fromUtf8
  rw [fromUtf8Lossy_encode, if_pos rfl]

end HamixOS.Lib
