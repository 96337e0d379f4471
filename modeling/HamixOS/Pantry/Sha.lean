import Mathlib.Data.List.GetD
import HamixOS.Lib.Bytes
import HamixOS.Lib.Chunks

namespace HamixOS.Pantry

open Lib List Nat

/-!
# SHA-1 and SHA-256 (`crypto.rs`)

The two hashes as the program computes them, one over a buffer of 64 bytes that is filled piece by piece and one over
a tail that is padded by itself; and as FIPS 180-4 defines them, over the blocks of the padded message.
-/

abbrev Word := BitVec 32

/-- `u32::from_be_bytes`. -/
def word (b : Bytes) : Word := BitVec.ofNat 32 (b.foldl (fun n x => n * 256 + x.toNat) 0)

/-- `to_be_bytes`, of a number of `n` bytes. -/
def toBE (n v : Nat) : Bytes := (toLE n v).reverse

/-- The loop that fills `w` up from place 16 on. -/
def extend (next : List Word → Word) : Nat → List Word → List Word
  | 0, w => w
  | n + 1, w => extend next n (w ++ [next w])

/-- The first sixteen words of `w`. -/
def firstWords (chunk : Bytes) : List Word := (List.range 16).map fun i => word (slice chunk (i * 4) 4)

/-- `w[w.len() - i]`. -/
def back (w : List Word) (i : Nat) : Word := w.getD (w.length - i) 0

/-! ### The program -/

structure Sha1.Regs where
  a : Word
  b : Word
  c : Word
  d : Word
  e : Word

structure Sha1 where
  state : Sha1.Regs
  buffer : Bytes
  filled : Nat
  length : Nat

namespace Sha1

def init : Regs := ⟨0x67452301, 0xEFCDAB89, 0x98BADCFE, 0x10325476, 0xC3D2E1F0⟩

def new : Sha1 := ⟨init, zeros 64, 0, 0⟩

def nextWord (w : List Word) : Word := (back w 3 ^^^ back w 8 ^^^ back w 14 ^^^ back w 16).rotateLeft 1

/-- A round of the loop of `block`. -/
def round (r : Regs) (i : Nat) (w : Word) : Regs :=
  let f := if i < 20 then (r.b &&& r.c) ||| (~~~r.b &&& r.d) else if i < 40 then r.b ^^^ r.c ^^^ r.d
    else if i < 60 then (r.b &&& r.c) ||| (r.b &&& r.d) ||| (r.c &&& r.d) else r.b ^^^ r.c ^^^ r.d
  let k : Word := if i < 20 then 0x5A827999 else if i < 40 then 0x6ED9EBA1 else if i < 60 then 0x8F1BBCDC else 0xCA62C1D6
  ⟨r.a.rotateLeft 5 + f + r.e + k + w, r.a, r.b.rotateLeft 30, r.c, r.d⟩

def Regs.add (r s : Regs) : Regs := ⟨r.a + s.a, r.b + s.b, r.c + s.c, r.d + s.d, r.e + s.e⟩

def block (state : Regs) (chunk : Bytes) : Regs :=
  let w := extend nextWord 64 (firstWords chunk)
  state.add ((List.range 80).foldl (fun r i => round r i (w.getD i 0)) state)

/-- The part of `update` for a buffer that is not empty; the bytes that are left. -/
def fill (h : Sha1) (data : Bytes) : Sha1 × Bytes :=
  if 0 < h.filled then
    let take := min (64 - h.filled) data.length
    let buffer := splice h.buffer h.filled (data.take take)
    if h.filled + take = 64 then ({ h with state := block h.state buffer, buffer, filled := 0 }, data.drop take)
    else ({ h with buffer, filled := h.filled + take }, data.drop take)
  else (h, data)

/-- The loop of `update` over whole blocks, and what follows it. -/
def drain : Nat → Sha1 → Bytes → Sha1
  | 0, h, data => { h with buffer := splice h.buffer 0 data, filled := h.filled + data.length }
  | fuel + 1, h, data =>
    if 64 ≤ data.length then drain fuel { h with state := block h.state (data.take 64) } (data.drop 64)
    else { h with buffer := splice h.buffer 0 data, filled := h.filled + data.length }

def update (h : Sha1) (data : Bytes) : Sha1 :=
  let r := fill { h with length := h.length + data.length } data
  drain (r.2.length / 64) r.1 r.2

/-- The loop of `finish`. -/
def padZeros : Nat → Sha1 → Sha1
  | 0, h => h
  | fuel + 1, h => if h.filled ≠ 56 then padZeros fuel (h.update [0]) else h

def Regs.bytes (r : Regs) : Bytes := [r.a, r.b, r.c, r.d, r.e].flatMap fun v => toBE 4 v.toNat

def finish (h : Sha1) : Bytes :=
  ((padZeros 64 (h.update [0x80])).update (toBE 8 (h.length * 8 % 2 ^ 64))).state.bytes

end Sha1

namespace Sha256

structure Regs where
  a : Word
  b : Word
  c : Word
  d : Word
  e : Word
  f : Word
  g : Word
  h : Word

def K256 : List Word :=
  [0x428a2f98, 0x71374491, 0xb5c0fbcf, 0xe9b5dba5, 0x3956c25b, 0x59f111f1, 0x923f82a4, 0xab1c5ed5, 0xd807aa98,
    0x12835b01, 0x243185be, 0x550c7dc3, 0x72be5d74, 0x80deb1fe, 0x9bdc06a7, 0xc19bf174, 0xe49b69c1, 0xefbe4786,
    0x0fc19dc6, 0x240ca1cc, 0x2de92c6f, 0x4a7484aa, 0x5cb0a9dc, 0x76f988da, 0x983e5152, 0xa831c66d, 0xb00327c8,
    0xbf597fc7, 0xc6e00bf3, 0xd5a79147, 0x06ca6351, 0x14292967, 0x27b70a85, 0x2e1b2138, 0x4d2c6dfc, 0x53380d13,
    0x650a7354, 0x766a0abb, 0x81c2c92e, 0x92722c85, 0xa2bfe8a1, 0xa81a664b, 0xc24b8b70, 0xc76c51a3, 0xd192e819,
    0xd6990624, 0xf40e3585, 0x106aa070, 0x19a4c116, 0x1e376c08, 0x2748774c, 0x34b0bcb5, 0x391c0cb3, 0x4ed8aa4a,
    0x5b9cca4f, 0x682e6ff3, 0x748f82ee, 0x78a5636f, 0x84c87814, 0x8cc70208, 0x90befffa, 0xa4506ceb, 0xbef9a3f7,
    0xc67178f2]

def init : Regs :=
  ⟨0x6a09e667, 0xbb67ae85, 0x3c6ef372, 0xa54ff53a, 0x510e527f, 0x9b05688c, 0x1f83d9ab, 0x5be0cd19⟩

def nextWord (w : List Word) : Word :=
  let s0 := (back w 15).rotateRight 7 ^^^ (back w 15).rotateRight 18 ^^^ (back w 15) >>> 3
  let s1 := (back w 2).rotateRight 17 ^^^ (back w 2).rotateRight 19 ^^^ (back w 2) >>> 10
  back w 16 + s0 + back w 7 + s1

def round (r : Regs) (i : Nat) (w : Word) : Regs :=
  let s1 := r.e.rotateRight 6 ^^^ r.e.rotateRight 11 ^^^ r.e.rotateRight 25
  let ch := (r.e &&& r.f) ^^^ (~~~r.e &&& r.g)
  let t1 := r.h + s1 + ch + K256.getD i 0 + w
  let s0 := r.a.rotateRight 2 ^^^ r.a.rotateRight 13 ^^^ r.a.rotateRight 22
  let maj := (r.a &&& r.b) ^^^ (r.a &&& r.c) ^^^ (r.b &&& r.c)
  ⟨t1 + (s0 + maj), r.a, r.b, r.c, r.d + t1, r.e, r.f, r.g⟩

def Regs.add (r s : Regs) : Regs :=
  ⟨r.a + s.a, r.b + s.b, r.c + s.c, r.d + s.d, r.e + s.e, r.f + s.f, r.g + s.g, r.h + s.h⟩

def block (state : Regs) (chunk : Bytes) : Regs :=
  let w := extend nextWord 48 (firstWords chunk)
  state.add ((List.range 64).foldl (fun r i => round r i (w.getD i 0)) state)

def Regs.bytes (r : Regs) : Bytes := [r.a, r.b, r.c, r.d, r.e, r.f, r.g, r.h].flatMap fun v => toBE 4 v.toNat

/-- The loop that pads the tail. -/
def padTail : Nat → Bytes → Bytes
  | 0, tail => tail
  | fuel + 1, tail => if tail.length % 64 ≠ 56 then padTail fuel (tail ++ [0]) else tail

end Sha256

def sha256 (data : Bytes) : Bytes :=
  let full := data.length / 64 * 64
  let tail := Sha256.padTail 64 (data.drop full ++ [0x80]) ++ toBE 8 (data.length * 8 % 2 ^ 64)
  ((chunks 64 (data.take full) ++ chunks 64 tail).foldl Sha256.block Sha256.init).bytes

/-! ### The standard -/

namespace Fips

/-- The number of zero bytes: the least that makes the padded message end on a block. -/
def zeroCount (n : Nat) : Nat := (119 - n % 64) % 64

/-- The padded message. -/
def pad (m : Bytes) : Bytes := m ++ 0x80 :: (zeros (zeroCount m.length) ++ toBE 8 (m.length * 8))

def Ch (x y z : Word) : Word := (x &&& y) ^^^ (~~~x &&& z)

def Parity (x y z : Word) : Word := x ^^^ y ^^^ z

def Maj (x y z : Word) : Word := (x &&& y) ^^^ (x &&& z) ^^^ (y &&& z)

/-- The words of a block. -/
def M (chunk : Bytes) (t : Nat) : Word := word (slice chunk (t * 4) 4)

def W1 (chunk : Bytes) (t : Nat) : Word :=
  if t < 16 then M chunk t
  else (W1 chunk (t - 3) ^^^ W1 chunk (t - 8) ^^^ W1 chunk (t - 14) ^^^ W1 chunk (t - 16)).rotateLeft 1

def f1 (t : Nat) : Word → Word → Word → Word :=
  if t < 20 then Ch else if t < 40 then Parity else if t < 60 then Maj else Parity

def K1 (t : Nat) : Word :=
  if t < 20 then 0x5A827999 else if t < 40 then 0x6ED9EBA1 else if t < 60 then 0x8F1BBCDC else 0xCA62C1D6

def round1 (W : Nat → Word) (r : Sha1.Regs) (t : Nat) : Sha1.Regs :=
  let T := r.a.rotateLeft 5 + f1 t r.b r.c r.d + r.e + K1 t + W t
  ⟨T, r.a, r.b.rotateLeft 30, r.c, r.d⟩

def block1 (H : Sha1.Regs) (chunk : Bytes) : Sha1.Regs := H.add ((List.range 80).foldl (round1 (W1 chunk)) H)

def sha1 (m : Bytes) : Bytes := ((chunks 64 (pad m)).foldl block1 Sha1.init).bytes

def sigma0 (x : Word) : Word := x.rotateRight 7 ^^^ x.rotateRight 18 ^^^ x >>> 3

def sigma1 (x : Word) : Word := x.rotateRight 17 ^^^ x.rotateRight 19 ^^^ x >>> 10

def Sigma0 (x : Word) : Word := x.rotateRight 2 ^^^ x.rotateRight 13 ^^^ x.rotateRight 22

def Sigma1 (x : Word) : Word := x.rotateRight 6 ^^^ x.rotateRight 11 ^^^ x.rotateRight 25

def W256 (chunk : Bytes) (t : Nat) : Word :=
  if t < 16 then M chunk t
  else sigma1 (W256 chunk (t - 2)) + W256 chunk (t - 7) + sigma0 (W256 chunk (t - 15)) + W256 chunk (t - 16)

def round256 (W : Nat → Word) (r : Sha256.Regs) (t : Nat) : Sha256.Regs :=
  let T1 := r.h + Sigma1 r.e + Ch r.e r.f r.g + Sha256.K256.getD t 0 + W t
  let T2 := Sigma0 r.a + Maj r.a r.b r.c
  ⟨T1 + T2, r.a, r.b, r.c, r.d + T1, r.e, r.f, r.g⟩

def block256 (H : Sha256.Regs) (chunk : Bytes) : Sha256.Regs := H.add ((List.range 64).foldl (round256 (W256 chunk)) H)

def sha256 (m : Bytes) : Bytes := ((chunks 64 (pad m)).foldl block256 Sha256.init).bytes

/-- The zero bytes are the fewest that fill a block up to the length. -/
theorem zeroCount_spec (n : Nat) : (n + 1 + zeroCount n) % 64 = 56 ∧ zeroCount n < 64 := by
  unfold zeroCount
  omega

end Fips

/-! ### One block -/

section Block

variable {f : List Word → Word} {W : Nat → Word}

/-- A schedule that is extended by the recursion of `W` is `W`. -/
theorem extend_eq (hnext : ∀ w, 16 ≤ w.length → (∀ t < w.length, w.getD t 0 = W t) → f w = W w.length) (n : Nat)
    {w : List Word} (hlen : 16 ≤ w.length) (hw : ∀ t < w.length, w.getD t 0 = W t) :
    ∀ t < w.length + n, (extend f n w).getD t 0 = W t := by
  induction n generalizing w with
  | zero => exact hw
  | succ n ih =>
    intro t ht
    refine ih (by simp; omega) ?_ t (by simp; omega)
    intro t ht
    rw [length_append, length_singleton] at ht
    by_cases hlt : t < w.length
    · rw [getD_append _ _ _ _ hlt]
      exact hw t hlt
    · obtain rfl : t = w.length := by omega
      rw [getD_append_right _ _ _ _ le_rfl, Nat.sub_self]
      exact hnext w hlen hw

theorem back_eq {w : List Word} (hw : ∀ t < w.length, w.getD t 0 = W t) {i : Nat} (hi : 0 < i) (hlen : i ≤ w.length) :
    back w i = W (w.length - i) := hw _ (by omega)

theorem firstWords_eq (chunk : Bytes) {t : Nat} (h : t < (firstWords chunk).length) :
    t < 16 ∧ (firstWords chunk).getD t 0 = Fips.M chunk t := by
  have ht : t < 16 := by simpa [firstWords] using h
  exact ⟨ht, by simp [firstWords, Fips.M, getD_eq_getElem?_getD, ht]⟩

/-- The rounds of a block read the words of the schedule. -/
theorem foldl_rounds {ρ : Type} {f : ρ → Nat → Word → ρ} {g : ρ → Nat → ρ} {w : List Word} {n : Nat}
    (hf : ∀ r t, f r t (W t) = g r t) (hw : ∀ t < n, w.getD t 0 = W t) (r : ρ) :
    (range n).foldl (fun r i => f r i (w.getD i 0)) r = (range n).foldl g r := by
  refine foldl_ext _ _ r fun r t ht => ?_
  rw [hw t (mem_range.mp ht), hf]

end Block

theorem or_eq_xor (x y z : Word) : (x &&& y) ||| (~~~x &&& z) = Fips.Ch x y z := by
  apply BitVec.eq_of_getLsbD_eq
  intro i hi
  simp only [Fips.Ch, BitVec.getLsbD_or, BitVec.getLsbD_and, BitVec.getLsbD_xor, BitVec.getLsbD_not, hi, decide_true,
    Bool.true_and]
  cases x.getLsbD i <;> simp

theorem or_eq_maj (x y z : Word) : (x &&& y) ||| (x &&& z) ||| (y &&& z) = Fips.Maj x y z := by
  apply BitVec.eq_of_getLsbD_eq
  intro i _
  simp only [Fips.Maj, BitVec.getLsbD_or, BitVec.getLsbD_and, BitVec.getLsbD_xor]
  cases x.getLsbD i <;> cases y.getLsbD i <;> cases z.getLsbD i <;> rfl

theorem Sha1.block_eq : Sha1.block = Fips.block1 := by
  funext H chunk
  have hlen : (firstWords chunk).length = 16 := by simp [firstWords]
  have hw := extend_eq (f := Sha1.nextWord) (W := Fips.W1 chunk) (fun w hlen hw => by
    rw [Sha1.nextWord, back_eq hw (by decide) (by omega), back_eq hw (by decide) (by omega),
      back_eq hw (by decide) (by omega), back_eq hw (by decide) (by omega)]
    conv_rhs => rw [Fips.W1, if_neg (by omega)]) 64 (w := firstWords chunk) (by omega) fun t ht => by
      obtain ⟨h16, ht⟩ := firstWords_eq chunk ht
      rw [ht, Fips.W1, if_pos h16]
  have hround : ∀ r t, Sha1.round r t (Fips.W1 chunk t) = Fips.round1 (Fips.W1 chunk) r t := by
    intro r t
    unfold Sha1.round Fips.round1 Fips.f1 Fips.K1
    simp only [or_eq_xor, or_eq_maj]
    split_ifs <;> rfl
  rw [Sha1.block, Fips.block1, foldl_rounds hround fun t ht => hw t (by omega)]

theorem Sha256.block_eq : Sha256.block = Fips.block256 := by
  funext H chunk
  have hlen : (firstWords chunk).length = 16 := by simp [firstWords]
  have hw := extend_eq (f := Sha256.nextWord) (W := Fips.W256 chunk) (fun w hlen hw => by
    rw [Sha256.nextWord, back_eq hw (by decide) (by omega), back_eq hw (by decide) (by omega),
      back_eq hw (by decide) (by omega), back_eq hw (by decide) (by omega)]
    conv_rhs => rw [Fips.W256, if_neg (by omega), Fips.sigma0, Fips.sigma1]
    ac_rfl) 48 (w := firstWords chunk) (by omega) fun t ht => by
      obtain ⟨h16, ht⟩ := firstWords_eq chunk ht
      rw [ht, Fips.W256, if_pos h16]
  rw [Sha256.block, Fips.block256, foldl_rounds (g := Fips.round256 (Fips.W256 chunk)) (fun r t => rfl) fun t ht => hw t (by omega)]

/-! ### The whole message -/

section Blocks

variable {ρ : Type} (f : ρ → Bytes → ρ)

/-- The blocks of `l`, one after the other. -/
def blocks (s : ρ) (l : Bytes) : ρ := (chunks 64 l).foldl f s

variable {f}

theorem blocks_append (s : ρ) {a : Bytes} (h : a.length % 64 = 0) (b : Bytes) :
    blocks f s (a ++ b) = blocks f (blocks f s a) b := by
  rw [blocks, chunks_append (by decide) h, foldl_append]
  rfl

theorem blocks_one (s : ρ) {a : Bytes} (h : a.length = 64) : blocks f s a = f s a := by
  rw [blocks, chunks_of_length (by decide) h]
  rfl

end Blocks

namespace Sha1

/-- What the registers and the buffer hold after the bytes `m`. -/
structure Holds (h : Sha1) (m : Bytes) : Prop where
  state : h.state = blocks block init (m.take (m.length / 64 * 64))
  size : h.buffer.length = 64
  buffer : h.buffer.take h.filled = m.drop (m.length / 64 * 64)
  filled : h.filled = m.length % 64

theorem holds_new : Holds new [] := ⟨rfl, rfl, rfl, rfl⟩

variable {h : Sha1} {m : Bytes}

/-- At the end of a block the buffer is empty. -/
theorem holds_whole (hm : m.length % 64 = 0) :
    Holds h m ↔ h.state = blocks block init m ∧ h.buffer.length = 64 ∧ h.filled = 0 := by
  have hfull : m.length / 64 * 64 = m.length := by omega
  constructor
  · intro hh
    have hstate := hh.state
    rw [hfull, take_length] at hstate
    exact ⟨hstate, hh.size, hh.filled.trans hm⟩
  · rintro ⟨hstate, hsize, hfilled⟩
    exact ⟨by rw [hfull, take_length, hstate], hsize, by rw [hfull, hfilled, drop_length, take_zero],
      hfilled.trans hm.symm⟩

theorem take_splice {b src : Bytes} {o : Nat} (h : o + src.length ≤ b.length) :
    (splice b o src).take (o + src.length) = b.take o ++ src := by
  have hlen : (b.take o ++ src).length = o + src.length := by
    rw [length_append, length_take]
    omega
  rw [splice, ← hlen, take_left]

/-- What does not fill a block is kept. -/
theorem holds_rest {data : Bytes} (hm : m.length % 64 = 0) (hh : Holds h m) (hlt : data.length < 64) :
    Holds { h with buffer := splice h.buffer 0 data, filled := h.filled + data.length } (m ++ data) := by
  obtain ⟨hstate, hsize, hfilled⟩ := (holds_whole hm).mp hh
  have hfull : (m ++ data).length / 64 * 64 = m.length := by rw [length_append]; omega
  have hbuffer : (splice h.buffer 0 data).take (0 + data.length) = h.buffer.take 0 ++ data := take_splice (by omega)
  refine ⟨by rw [hfull, take_left]; exact hstate, by rw [length_splice (by omega)]; exact hsize, ?_, ?_⟩
  · rw [hfull, drop_left, hfilled]
    exact hbuffer
  · show h.filled + data.length = _
    rw [length_append, hfilled]
    omega

theorem drain_holds (fuel : Nat) {data : Bytes} (hm : m.length % 64 = 0) (hh : Holds h m)
    (hfuel : data.length / 64 ≤ fuel) : Holds (drain fuel h data) (m ++ data) := by
  induction fuel generalizing h m data with
  | zero => exact holds_rest hm hh (by omega)
  | succ fuel ih =>
    rw [drain]
    split_ifs with hle
    · obtain ⟨hstate, hsize, hfilled⟩ := (holds_whole hm).mp hh
      have htake : (data.take 64).length = 64 := by rw [length_take]; omega
      have hm' : (m ++ data.take 64).length % 64 = 0 := by rw [length_append]; omega
      have hnext : Holds { h with state := block h.state (data.take 64) } (m ++ data.take 64) :=
        (holds_whole hm').mpr ⟨by rw [blocks_append _ hm, blocks_one _ htake, hstate], hsize, hfilled⟩
      have hrest := ih hm' hnext (show (data.drop 64).length / 64 ≤ fuel by rw [length_drop]; omega)
      rwa [append_assoc, take_append_drop] at hrest
    · exact holds_rest hm hh (by omega)

/-- A buffer that is not empty takes all of the bytes, or as many as complete its block. -/
theorem fill_holds (hh : Holds h m) (data : Bytes) : ∃ part, data = part ++ (fill h data).2 ∧
    Holds (fill h data).1 (m ++ part) ∧ ((fill h data).2 = [] ∨ (m ++ part).length % 64 = 0) := by
  have hfilled := hh.filled
  have hsize := hh.size
  have hsplit : m = m.take (m.length / 64 * 64) ++ h.buffer.take h.filled := by rw [hh.buffer, take_append_drop]
  have hfull : (m.take (m.length / 64 * 64)).length % 64 = 0 := by rw [length_take]; omega
  unfold fill
  split_ifs with hpos
  · have hlen : (data.take (min (64 - h.filled) data.length)).length = min (64 - h.filled) data.length := by
      rw [length_take]
      omega
    have hin : h.filled + (data.take (min (64 - h.filled) data.length)).length ≤ h.buffer.length := by omega
    have hbuffer := take_splice hin
    have hsize' := length_splice hin
    refine ⟨data.take (min (64 - h.filled) data.length), ?_⟩
    dsimp only
    split_ifs with hdone
    · refine ⟨(take_append_drop _ _).symm, ?_, .inr ?_⟩
      · rw [hlen, hdone, take_of_length_le (by omega)] at hbuffer
        refine (holds_whole ?_).mpr ⟨?_, hsize'.trans hsize, rfl⟩
        · rw [length_append, hlen]
          omega
        · show block h.state _ = _
          conv_rhs => rw [hsplit, append_assoc, ← hbuffer, blocks_append _ hfull, blocks_one _ (by omega), ← hh.state]
      · rw [length_append, hlen]
        omega
    · have hmin : min (64 - h.filled) data.length = data.length := by omega
      have hdiv : (m ++ data).length / 64 * 64 = m.length / 64 * 64 := by rw [length_append]; omega
      simp only [hmin, take_length] at hbuffer hsize' ⊢
      refine ⟨by simp, ⟨?_, hsize'.trans hsize, ?_, ?_⟩, .inl (by simp)⟩
      · rw [hdiv, take_append_of_le_length (by omega)]
        exact hh.state
      · rw [hdiv, drop_append_of_le_length (by omega), ← hh.buffer]
        exact hbuffer
      · show h.filled + data.length = _
        rw [length_append]
        omega
  · refine ⟨[], rfl, by rwa [append_nil], .inr ?_⟩
    rw [append_nil]
    omega

theorem update_holds (hh : Holds h m) (data : Bytes) : Holds (h.update data) (m ++ data) := by
  have hcount : Holds { h with length := h.length + data.length } m := ⟨hh.state, hh.size, hh.buffer, hh.filled⟩
  obtain ⟨part, hpart, hfill, hend⟩ := fill_holds hcount data
  rw [update]
  rcases hend with hnil | hwhole
  · have hsame : ∀ h : Sha1, drain 0 h [] = h := fun h => by simp [drain, splice]
    rw [hnil, append_nil] at hpart
    rw [hnil, length_nil, Nat.zero_div, hsame]
    exact hpart ▸ hfill
  · have := drain_holds _ hwhole hfill (le_refl ((fill { h with length := h.length + data.length } data).2.length / 64))
    rwa [append_assoc, ← hpart] at this

/-- The zeros that `finish` appends. -/
theorem padZeros_holds (fuel : Nat) (hh : Holds h m) (hfuel : (120 - m.length % 64) % 64 ≤ fuel) :
    Holds (padZeros fuel h) (m ++ zeros ((120 - m.length % 64) % 64)) := by
  have hfilled := hh.filled
  induction fuel generalizing h m with
  | zero =>
    rw [le_zero.mp hfuel]
    exact (append_nil m).symm ▸ hh
  | succ fuel ih =>
    rw [padZeros]
    split_ifs with hmore
    · have hnext := update_holds hh [0]
      have hcount : (120 - m.length % 64) % 64 = (120 - (m ++ [0]).length % 64) % 64 + 1 := by
        rw [length_append, length_singleton]
        omega
      have := ih hnext (by omega) hnext.filled
      rwa [hcount, zeros, replicate_succ, append_cons]
    · have hzero : (120 - m.length % 64) % 64 = 0 := by omega
      rw [hzero]
      exact (append_nil m).symm ▸ hh

theorem length_update (h : Sha1) (data : Bytes) : (h.update data).length = h.length + data.length := by
  have hdrain : ∀ fuel (h : Sha1) data, (drain fuel h data).length = h.length := by
    intro fuel
    induction fuel with
    | zero => exact fun _ _ => rfl
    | succ fuel ih =>
      intro h data
      rw [drain]
      split_ifs
      · exact ih _ _
      · rfl
  rw [update, hdrain, fill]
  split_ifs
  · dsimp only
    split_ifs
    · rfl
    · rfl
  · rfl

theorem finish_eq (hh : Holds h m) (hlen : h.length = m.length) (hm : m.length < 2 ^ 61) : h.finish = Fips.sha1 m := by
  have hzero : (120 - (m ++ [0x80]).length % 64) % 64 = Fips.zeroCount m.length := by
    rw [length_append, length_singleton, Fips.zeroCount]
    omega
  have hpad := update_holds (padZeros_holds 64 (update_holds hh [0x80]) (by omega)) (toBE 8 (h.length * 8 % 2 ^ 64))
  have hbits : h.length * 8 % 2 ^ 64 = m.length * 8 := by omega
  have hmessage : m ++ [0x80] ++ zeros (Fips.zeroCount m.length) ++ toBE 8 (m.length * 8) = Fips.pad m := by
    rw [Fips.pad]
    simp only [append_assoc, cons_append, nil_append]
  have hwhole : (Fips.pad m).length % 64 = 0 := by
    have := (Fips.zeroCount_spec m.length).1
    rw [← hmessage]
    simp only [length_append, length_singleton, length_zeros, toBE, length_reverse, length_toLE]
    omega
  rw [hzero, hbits, hmessage] at hpad
  rw [finish, hbits, ((holds_whole hwhole).mp hpad).1, Sha1.block_eq]
  rfl

end Sha1

theorem Sha256.padTail_eq (fuel : Nat) {tail : Bytes} (hfuel : (120 - tail.length % 64) % 64 ≤ fuel) :
    padTail fuel tail = tail ++ zeros ((120 - tail.length % 64) % 64) := by
  induction fuel generalizing tail with
  | zero =>
    rw [le_zero.mp hfuel]
    exact (append_nil tail).symm
  | succ fuel ih =>
    rw [padTail]
    split_ifs with hmore
    · have hcount : (120 - tail.length % 64) % 64 = (120 - (tail ++ [0]).length % 64) % 64 + 1 := by
        rw [length_append, length_singleton]
        omega
      rw [ih (by omega), hcount, zeros, zeros, replicate_succ, ← append_cons]
    · have hzero : (120 - tail.length % 64) % 64 = 0 := by omega
      rw [hzero]
      exact (append_nil tail).symm

/-- Both hashes are those of the standard, SHA-1 for every way to cut the message. -/
theorem hashes_eq (m : Bytes) (hm : m.length < 2 ^ 61) : sha256 m = Fips.sha256 m ∧
    ∀ chunks : List Bytes, chunks.flatten = m → (chunks.foldl Sha1.update Sha1.new).finish = Fips.sha1 m := by
  constructor
  · have hcount : (120 - (m.drop (m.length / 64 * 64) ++ [0x80]).length % 64) % 64 = Fips.zeroCount m.length := by
      rw [length_append, length_drop, length_singleton, Fips.zeroCount]
      omega
    have hbits : m.length * 8 % 2 ^ 64 = m.length * 8 := by omega
    have hfull : (m.take (m.length / 64 * 64)).length % 64 = 0 := by rw [length_take]; omega
    have hpad : Fips.pad m = m.take (m.length / 64 * 64) ++
        (m.drop (m.length / 64 * 64) ++ [0x80] ++ zeros (Fips.zeroCount m.length) ++ toBE 8 (m.length * 8)) := by
      rw [Fips.pad]
      simp only [append_assoc, cons_append, nil_append]
      rw [← append_assoc (m.take _), take_append_drop]
    rw [sha256, Fips.sha256, hpad, chunks_append (by decide) hfull, Sha256.padTail_eq 64 (by omega), hcount, hbits, Sha256.block_eq]
  · intro chunks hc
    have hrun : ∀ (chunks : List Bytes) (h : Sha1) (l : Bytes), Sha1.Holds h l → h.length = l.length →
        Sha1.Holds (chunks.foldl Sha1.update h) (l ++ chunks.flatten) ∧
          (chunks.foldl Sha1.update h).length = (l ++ chunks.flatten).length := by
      intro chunks
      induction chunks with
      | nil => exact fun h l hh hlen => by simpa using ⟨hh, hlen⟩
      | cons c chunks ih =>
        intro h l hh hlen
        have := ih (h.update c) (l ++ c) (Sha1.update_holds hh c) (by rw [Sha1.length_update, hlen, length_append])
        rwa [append_assoc] at this
    obtain ⟨hh, hlen⟩ := hrun chunks .new [] Sha1.holds_new rfl
    rw [nil_append, hc] at hh hlen
    exact Sha1.finish_eq hh hlen hm

theorem hashes_eq_abc : [0x61, 0x62, 0x63].length < 2 ^ 61 ∧ sha256 [0x61, 0x62, 0x63] = Fips.sha256 [0x61, 0x62, 0x63] :=
  ⟨by decide, (hashes_eq [0x61, 0x62, 0x63] (by decide)).1⟩

end HamixOS.Pantry
