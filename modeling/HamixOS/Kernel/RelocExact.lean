import HamixOS.Kernel.Reloc

namespace HamixOS.Kernel

open Lib Nat Int Except Assoc

/-!
# What a relocation leaves (`module/reloc.rs`)

A field is where the bits of a number stand in an instruction or in data, with the rule that reads them back.

* `Field.write_holds` — after a write the field has the number exactly if the number can be represented;
* `upper_lower_iff` — the same for a number split between an upper and a signed lower immediate;
* `X86.exact_iff`, `Aarch64.exact_iff`, `Riscv.exact_iff`, `Riscv.pair_iff` — for each architecture, when `apply`
  refuses a relocation or leaves exactly its value.
-/

namespace Reloc

/-! ### Fields -/

/-- The bits from `shift` to `bits` of a number, in the pieces of a word of `size` bytes; `mask` keeps the rest. -/
structure Field where
  size : Nat
  mask : Nat
  shift : Nat
  bits : Nat
  pieces : List Piece
  pos : 0 < bits
  le : shift ≤ bits
  spread : Spread pieces mask (8 * size) shift bits

/-- How the bits of a field are read. -/
inductive Reading where
  | signed
  | unsigned
  | either

def Reading.Reads (bits n : Nat) (v : Int) : Reading → Prop
  | .signed => (n : Int).bmod (2 ^ bits) = v
  | .unsigned => (n : Int) = v
  | .either => (n : Int).bmod (2 ^ bits) = v ∨ (n : Int) = v

/-- The numbers that a field of this reading can have. -/
def Reading.Represents (shift bits : Nat) (v : Int) : Reading → Prop
  | .signed => Fits bits v ∧ 2 ^ shift ∣ v
  | .unsigned => (0 ≤ v ∧ v < 2 ^ bits) ∧ 2 ^ shift ∣ v
  | .either => (Fits bits v ∧ 2 ^ shift ∣ v) ∨ ((0 ≤ v ∧ v < 2 ^ bits) ∧ 2 ^ shift ∣ v)

theorem unsigned_low_iff {bits shift : Nat} (hle : shift ≤ bits) (v : Int) :
    ((low bits v >>> shift <<< shift : Nat) : Int) = v ↔ (0 ≤ v ∧ v < 2 ^ bits) ∧ 2 ^ shift ∣ v := by
  have hpow : ∀ n, (0 : Int) < 2 ^ n := fun n => Int.pow_pos (by decide)
  rw [cast_shift bits shift hle]
  constructor
  · intro h
    have hdvd : (2 : Int) ^ shift ∣ v := by
      have hnat : ((low bits v >>> shift <<< shift : Nat) : Int) = v := by rw [cast_shift bits shift hle, h]
      rw [← hnat, Nat.shiftLeft_eq, natCast_mul, natCast_pow]
      exact Dvd.intro_left _ rfl
    rw [emod_eq_zero_of_dvd hdvd] at h
    exact ⟨by omega, hdvd⟩
  · rintro ⟨⟨hnonneg, hsmall⟩, hdvd⟩
    rw [emod_eq_zero_of_dvd hdvd, emod_eq_of_lt hnonneg hsmall, sub_zero]

theorem Reading.reads_iff {bits shift : Nat} (hpos : 0 < bits) (hle : shift ≤ bits) (v : Int) (r : Reading) :
    r.Reads bits (low bits v >>> shift <<< shift) v ↔ r.Represents shift bits v := by
  cases r with
  | signed => exact signed_low_iff hpos hle v
  | unsigned => exact unsigned_low_iff hle v
  | either => exact or_congr (signed_low_iff hpos hle v) (unsigned_low_iff hle v)

namespace Field

def read (f : Field) (image : Bytes) (at_ : Nat) : Nat := gather f.pieces (getLE f.size image at_)

def write (f : Field) (image : Bytes) (at_ v : Nat) : Bytes :=
  putLE f.size image at_ (getLE f.size image at_ &&& f.mask ||| scatter f.pieces v)

/-- The field has the number `v` in the new image, and the other bits of its word are those of the old one. -/
structure Holds (f : Field) (r : Reading) (image image' : Bytes) (at_ : Nat) (v : Int) : Prop where
  value : r.Reads f.bits (f.read image' at_) v
  others : ∀ j < 8 * f.size, f.pieces.any (·.target j) = false →
    (getLE f.size image' at_).testBit j = (getLE f.size image at_).testBit j

variable {at_ : Nat} {image : Bytes}

section

variable (f : Field)

include f

theorem getLE_write (h : at_ + f.size ≤ image.length) (v : Nat) :
    getLE f.size (f.write image at_ v) at_ =
      (getLE f.size image at_ &&& f.mask ||| scatter f.pieces v) % 2 ^ (8 * f.size) := by
  have hbase : 256 ^ f.size = 2 ^ (8 * f.size) := by rw [show 256 = 2 ^ 8 from rfl, ← pow_mul]
  rw [write, getLE_putLE_self h, hbase]

theorem getLE_write_congr {image₁ image₂ : Bytes} (h₁ : at_ + f.size ≤ image₁.length)
    (h₂ : at_ + f.size ≤ image₂.length) (hword : getLE f.size image₁ at_ = getLE f.size image₂ at_) (v : Nat) :
    getLE f.size (f.write image₁ at_ v) at_ = getLE f.size (f.write image₂ at_ v) at_ := by
  rw [f.getLE_write h₁, f.getLE_write h₂, hword]

theorem read_write (h : at_ + f.size ≤ image.length) (v : Nat) :
    f.read (f.write image at_ v) at_ = (v % 2 ^ f.bits) >>> f.shift <<< f.shift := by
  rw [read, f.getLE_write h, f.spread.gather_mod, f.spread.gather_write]

/-- Only the word of the field counts in the new image. -/
theorem written_holds (r : Reading) {image image' : Bytes} {at_ n : Nat} (h : at_ + f.size ≤ image.length)
    (hword : getLE f.size image' at_ = getLE f.size (f.write image at_ n) at_) (v : Int) :
    f.Holds r image image' at_ v ↔ r.Reads f.bits ((n % 2 ^ f.bits) >>> f.shift <<< f.shift) v := by
  have hread : f.read image' at_ = (n % 2 ^ f.bits) >>> f.shift <<< f.shift := by rw [read, hword, ← f.read_write h, read]
  rw [← hread]
  refine ⟨fun hholds => hholds.value, fun hreads => ⟨hreads, fun j hj hnone => ?_⟩⟩
  rw [hword, f.getLE_write h, testBit_mod_two_pow, decide_eq_true hj, Bool.true_and, f.spread.testBit_other _ _ hj hnone]

/-- A field that is written has the number exactly if it can represent it. -/
theorem write_holds (r : Reading) {at_ w : Nat} (h : at_ + f.size ≤ image.length)
    (hw : f.bits ≤ w) (v : Int) : f.Holds r image (f.write image at_ (low w v)) at_ v ↔ r.Represents f.shift f.bits v := by
  rw [f.written_holds r h rfl, low_mod hw]
  exact r.reads_iff f.pos f.le v

/-- Only the word of the field counts in the old image. -/
theorem holds_congr {r : Reading} {image₁ image₂ image' : Bytes} {v : Int}
    (h : getLE f.size image₁ at_ = getLE f.size image₂ at_) :
    f.Holds r image₁ image' at_ v ↔ f.Holds r image₂ image' at_ v := by
  constructor
  · rintro ⟨hvalue, hothers⟩
    exact ⟨hvalue, fun j hj hnone => (hothers j hj hnone).trans (by rw [h])⟩
  · rintro ⟨hvalue, hothers⟩
    exact ⟨hvalue, fun j hj hnone => (hothers j hj hnone).trans (by rw [h])⟩

theorem length_write (h : at_ + f.size ≤ image.length) (v : Nat) :
    (f.write image at_ v).length = image.length :=
  length_putLE h

/-- The rest of the image stays. -/
theorem getLE_write_of_disjoint {at_ p n : Nat} (h : at_ + f.size ≤ image.length)
    (hd : p + n ≤ at_ ∨ at_ + f.size ≤ p) (v : Nat) : getLE n (f.write image at_ v) p = getLE n image p :=
  getLE_putLE_of_disjoint h hd

end

/-- A number of `n` bytes. -/
def data (n : Nat) (hn : 0 < n) : Field where
  size := n
  mask := 0
  shift := 0
  bits := 8 * n
  pieces := [⟨0, 8 * n, 0⟩]
  pos := by omega
  le := Nat.zero_le _
  spread :=
    { apart := List.pairwise_singleton _ _
      within := by simp
      covers := by simp [Piece.source]
      cleared := by simp
      kept := by
        intro j hj hnone
        simp [Piece.target, hj] at hnone
      inside := by simp }

theorem write_data (n : Nat) (hn : 0 < n) (image : Bytes) (at_ : Nat) (v : Int) :
    (data n hn).write image at_ (low (8 * n) v) = putLE n image at_ (low (8 * n) v) := by
  have hscatter : scatter [⟨0, 8 * n, 0⟩] (low (8 * n) v) = low (8 * n) v := by
    show (low (8 * n) v >>> 0 &&& 2 ^ (8 * n) - 1) <<< 0 ||| 0 = _
    rw [Nat.or_zero, Nat.shiftLeft_zero, Nat.shiftRight_zero, Nat.and_two_pow_sub_one_eq_mod, low_mod le_rfl]
  show putLE n image at_ (getLE n image at_ &&& 0 ||| scatter [⟨0, 8 * n, 0⟩] (low (8 * n) v)) = _
  rw [and_zero, zero_or, hscatter]

end Field

/-! ### Upper and lower immediates -/

/-- The upper 20 bits of a word, as `lui` and `auipc` have them. -/
def uType : Field := ⟨4, 0xFFF, 12, 32, [⟨12, 20, 12⟩], by decide, by decide, by decide⟩

/-- The immediate of a load, of `addi` and of `jalr`. -/
def iType : Field := ⟨4, 0x000FFFFF, 0, 12, [⟨0, 12, 20⟩], by decide, by decide, by decide⟩

/-- The immediate of a store. -/
def sType : Field := ⟨4, 0x01FFF07F, 0, 12, [⟨5, 7, 25⟩, ⟨0, 5, 7⟩], by decide, by decide, by decide⟩

/-- The two immediates have the number exactly if it is in the reach of the upper one after the rounding. -/
theorem upper_lower_iff (v w : Int) (hw : (4096 : Int) ∣ v - w) :
    ((low 32 (v + 0x800) >>> 12 <<< 12 : Nat) : Int).bmod (2 ^ 32) + ((low 12 w : Nat) : Int).bmod (2 ^ 12) = v ↔
      Fits 32 (v + 0x800) := by
  have hlow : ((low 12 w : Nat) : Int).bmod (2 ^ 12) = (v + 0x800) % 4096 - 0x800 := by
    rw [bmod_eq_iff (by decide), cast_low]
    omega
  have hupper : ((low 32 (v + 0x800) >>> 12 <<< 12 : Nat) : Int).bmod (2 ^ 32) = v + 0x800 - (v + 0x800) % 4096 ↔
      Fits 32 (v + 0x800) := by
    rw [bmod_eq_iff (by decide), cast_shift 32 12 (by decide)]
    unfold Fits
    norm_num
    omega
  rw [hlow, ← hupper]
  omega

/-! ### Numbers without low zeros -/

variable {bits : Nat}

theorem signed_represents {v : Int} : Reading.signed.Represents 0 bits v ↔ Fits bits v :=
  and_iff_left (one_dvd v)

theorem unsigned_represents {v : Int} : Reading.unsigned.Represents 0 bits v ↔ 0 ≤ v ∧ v < 2 ^ bits :=
  and_iff_left (one_dvd v)

theorem either_represents (hpos : 0 < bits) {v : Int} :
    Reading.either.Represents 0 bits v ↔ -2 ^ (bits - 1) ≤ v ∧ v < 2 ^ bits := by
  have hlt : (2 : Int) ^ (bits - 1) < 2 ^ bits := pow_lt_pow_right₀ (by decide) (by omega)
  have hhalf : (0 : Int) < 2 ^ (bits - 1) := Int.pow_pos (by decide)
  show Reading.signed.Represents 0 bits v ∨ Reading.unsigned.Represents 0 bits v ↔ _
  rw [signed_represents, unsigned_represents, Fits]
  omega

theorem fits_i64 (v : Int) : Fits 64 (i64 v) :=
  ⟨le_bmod (by decide), bmod_lt (by decide)⟩

theorem fitsSigned_iff {v : Int} : fitsSigned v bits = true ↔ Fits bits v := decide_eq_true_iff

/-! ### What an application leaves -/

/-- An application that is refused, or whose image has the property. -/
def Leaves (r : Applied) (P : Bytes → Prop) : Prop := ∀ image' t', r = .ok (image', t') → P image'

variable {P : Bytes → Prop}

theorem leaves_ok {image : Bytes} {t : Tables} : Leaves (.ok (image, t)) P ↔ P image :=
  ⟨fun h => h image t rfl, fun h image' t' heq => by cases heq; exact h⟩

theorem leaves_error {e : String} : Leaves (.error e) P ↔ True :=
  iff_true_intro fun _ _ h => nomatch h

theorem leaves_check {c : Prop} [Decidable c] {e : String} {r : Applied} :
    Leaves (if c then .error e else r) P ↔ (¬ c → Leaves r P) := by
  by_cases h : c
  · rw [if_pos h, leaves_error, true_iff]
    exact fun hn => absurd h hn
  · rw [if_neg h]
    exact ⟨fun hr _ => hr, fun hr => hr h⟩

/-! ### Sites -/

/-- A relocation to be applied at a place of an image. -/
structure Site where
  image : Bytes
  base : Nat
  tables : Tables
  at_ : Nat
  symbol : Nat
  addend : Int

namespace Site

def place (i : Site) : Nat := i.base + i.at_

/-- S + A. -/
def target (i : Site) : Int := i64 (i.symbol + i.addend)

/-- S + A - P. -/
def offset (i : Site) : Int := i64 (i.symbol + i.addend - i.place)

/-- Where the slot of the symbol is in the image. -/
def got (i : Site) : Nat := slotOf i.tables.got i.tables.nextGot i.symbol

/-- A range of the image outside the field. -/
structure Apart (i : Site) (size slot span : Nat) : Prop where
  inside : slot + span ≤ i.image.length
  apart : slot + span ≤ i.at_ ∨ i.at_ + size ≤ slot

/-- The field is in the image, and so is the slot that it needs, beside it. -/
structure Placed (i : Site) (size : Nat) (needsGot : Bool) : Prop where
  inside : i.at_ + size ≤ i.image.length
  symbol : i.symbol < 2 ^ 64
  got : needsGot = true → i.Apart size i.got 8

/-- The field has the value, and the slot, if there is one, the symbol. -/
def Keeps (i : Site) (field : Option (Field × Reading)) (needsGot : Bool) (v : Int) (image' : Bytes) : Prop :=
  ∀ f ∈ field, f.1.Holds f.2 i.image image' i.at_ v ∧ (needsGot = true → getLE 8 image' i.got = i.symbol)

variable {i : Site} {w : Nat}

theorem keeps_none {g : Bool} {v : Int} {image' : Bytes} : i.Keeps none g v image' := by simp [Keeps]

theorem write_keeps (f : Field) (r : Reading) (hw : f.bits ≤ w) (hp : i.Placed f.size false) (v : Int) :
    i.Keeps (some (f, r)) false v (f.write i.image i.at_ (low w v)) ↔ r.Represents f.shift f.bits v := by
  rw [← f.write_holds r hp.inside hw]
  simp [Keeps]

theorem data_keeps (n : Nat) (hn : 0 < n) (r : Reading) (hw : w = 8 * n) (hp : i.Placed n false) (v : Int) :
    i.Keeps (some (.data n hn, r)) false v (putLE n i.image i.at_ (low w v)) ↔ r.Represents 0 w v := by
  subst hw
  rw [← Field.write_data n hn]
  exact write_keeps (.data n hn) r le_rfl hp v

/-- A field written after the slot of the symbol is filled. -/
theorem write_got_keeps (f : Field) (r : Reading) (hw : f.bits ≤ w) (hp : i.Placed f.size true) (v : Int) :
    i.Keeps (some (f, r)) true v (f.write (put64 i.image i.got i.symbol) i.at_ (low w v)) ↔
      r.Represents f.shift f.bits v := by
  have hslot := hp.got rfl
  have hlen : (put64 i.image i.got i.symbol).length = i.image.length := length_putLE hslot.inside
  have hin : i.at_ + f.size ≤ (put64 i.image i.got i.symbol).length := by
    rw [hlen]
    exact hp.inside
  have hword : getLE f.size i.image i.at_ = getLE f.size (put64 i.image i.got i.symbol) i.at_ :=
    (getLE_putLE_of_disjoint hslot.inside hslot.apart.symm).symm
  have hsymbol : getLE 8 (f.write (put64 i.image i.got i.symbol) i.at_ (low w v)) i.got = i.symbol := by
    rw [f.getLE_write_of_disjoint hin hslot.apart, put64, getLE_putLE_self hslot.inside]
    exact mod_eq_of_lt hp.symbol
  rw [← f.write_holds r hin hw, ← f.holds_congr hword]
  simp [Keeps, hsymbol]

theorem data_got_keeps (n : Nat) (hn : 0 < n) (r : Reading) (hw : w = 8 * n) (hp : i.Placed n true) (v : Int) :
    i.Keeps (some (.data n hn, r)) true v (putLE n (put64 i.image i.got i.symbol) i.at_ (low w v)) ↔
      r.Represents 0 w v := by
  subst hw
  rw [← Field.write_data n hn]
  exact write_got_keeps (.data n hn) r le_rfl hp v

/-- A word that is written if the number fits. -/
theorem checked_keeps (hp : i.Placed 4 false) (v : Int) (e : String) (t : Tables) :
    Leaves (if ¬ fitsSigned v 32 then .error e else .ok (putLE 4 i.image i.at_ (low 32 v), t))
      (i.Keeps (some (.data 4 (by decide), .signed)) false v) := by
  refine leaves_check.mpr fun hfits => leaves_ok.mpr ((data_keeps 4 (by decide) .signed rfl hp v).mpr ?_)
  exact signed_represents.mpr (fitsSigned_iff.mp (not_not.mp hfits))

theorem checked_got_keeps (hp : i.Placed 4 true) (v : Int) (e : String) (t : Tables) :
    Leaves (if ¬ fitsSigned v 32 then .error e
        else .ok (putLE 4 (put64 i.image i.got i.symbol) i.at_ (low 32 v), t))
      (i.Keeps (some (.data 4 (by decide), .signed)) true v) := by
  refine leaves_check.mpr fun hfits => leaves_ok.mpr ((data_got_keeps 4 (by decide) .signed rfl hp v).mpr ?_)
  exact signed_represents.mpr (fitsSigned_iff.mp (not_not.mp hfits))

/-- A field that is written if the number fits, apart from the low bits that it has no place for. -/
theorem checked_write_iff (f : Field) (hw : f.bits ≤ w) (hp : i.Placed f.size false) (v : Int) (e : String) (t : Tables) :
    Leaves (if ¬ fitsSigned v f.bits then .error e else .ok (f.write i.image i.at_ (low w v), t))
      (i.Keeps (some (f, .signed)) false v) ↔ (Fits f.bits v → 2 ^ f.shift ∣ v) := by
  rw [leaves_check, leaves_ok, write_keeps f .signed hw hp, not_not, fitsSigned_iff]
  exact imp_congr_right fun hfits => and_iff_right hfits

theorem checked_write_keeps (f : Field) (hw : f.bits ≤ w) (hshift : f.shift = 0) (hp : i.Placed f.size false) (v : Int)
    (e : String) (t : Tables) :
    Leaves (if ¬ fitsSigned v f.bits then .error e else .ok (f.write i.image i.at_ (low w v), t))
      (i.Keeps (some (f, .signed)) false v) := by
  refine (checked_write_iff f hw hp v e t).mpr fun _ => ?_
  rw [hshift]
  exact one_dvd v

/-- A word of 64 bits takes every number. -/
theorem wide_keeps (hp : i.Placed 8 false) (v : Int) (t : Tables) :
    Leaves (.ok (putLE 8 i.image i.at_ (low 64 (i64 v)), t))
      (i.Keeps (some (.data 8 (by decide), .signed)) false (i64 v)) :=
  leaves_ok.mpr ((data_keeps 8 (by decide) .signed rfl hp _).mpr (signed_represents.mpr (fits_i64 v)))

theorem offset_eq (i : Site) : i64 (i64 (i.symbol + i.addend) - (i.base + i.at_ : Nat)) = i.offset := bmod_sub_bmod

end Site

/-! ### x86_64 -/

namespace X86

/-- The field of a kind, and how it is read. -/
def Kind.field : Kind → Option (Field × Reading)
  | .none => Option.none
  | .r64 | .pc64 => some (.data 8 (by decide), .signed)
  | .pc32 | .plt32 | .got32 | .gotpcrel | .gotpcrelx | .rexGotpcrelx | .r32s => some (.data 4 (by decide), .signed)
  | .r32 => some (.data 4 (by decide), .unsigned)
  | .r16 => some (.data 2 (by decide), .either)
  | .pc16 => some (.data 2 (by decide), .signed)
  | .r8 => some (.data 1 (by decide), .either)
  | .pc8 => some (.data 1 (by decide), .signed)

def Kind.size (kind : Kind) : Nat := kind.field.elim 0 (·.1.size)

/-- What a kind puts in its field: S + A, S + A - P, the slot from the start of the image, or the slot from the place. -/
def Kind.expression (i : Site) : Kind → Int
  | .none => 0
  | .r64 | .r32 | .r32s | .r16 | .r8 => i.target
  | .pc32 | .plt32 | .pc16 | .pc8 | .pc64 => i.offset
  | .got32 => i64 (i.got + i.addend)
  | .gotpcrel | .gotpcrelx | .rexGotpcrelx => i64 ((i.base + i.got : Nat) + i.addend - i.place)

/-- The field has the value of its kind, and the slot the symbol. -/
def Recovers (i : Site) (kind : Kind) (image' : Bytes) : Prop :=
  i.Keeps kind.field kind.needsGot (kind.expression i) image'

/-- `apply` refuses the relocation or leaves its value. -/
def Exact (i : Site) (kind : Kind) : Prop :=
  Leaves (applyKind i.image i.base i.tables kind i.at_ i.symbol i.addend) (Recovers i kind)

/-- The kinds of 8 and 16 bits have no check. -/
def InRange (i : Site) : Kind → Prop
  | .r16 => -2 ^ 15 ≤ i.target ∧ i.target < 2 ^ 16
  | .r8 => -2 ^ 7 ≤ i.target ∧ i.target < 2 ^ 8
  | .pc16 => Fits 16 i.offset
  | .pc8 => Fits 8 i.offset
  | _ => True

theorem exact_iff (i : Site) (kind : Kind) (hp : i.Placed kind.size kind.needsGot) : Exact i kind ↔ InRange i kind := by
  cases kind with
  | none => exact iff_true_intro (leaves_ok.mpr Site.keeps_none)
  | r64 => exact iff_true_intro (Site.wide_keeps hp _ _)
  | pc64 => exact iff_true_intro (Site.wide_keeps hp _ _)
  | pc32 => exact iff_true_intro (Site.checked_keeps hp _ _ _)
  | plt32 => exact iff_true_intro (Site.checked_keeps hp _ _ _)
  | r32s => exact iff_true_intro (Site.checked_keeps hp _ _ _)
  | got32 =>
    have hslot : i64 (i.got + i.addend) = i64 ((i.base + i.got : Nat) - i.base + i.addend) := by
      rw [natCast_add]
      congr 1
      ring
    refine iff_true_intro ?_
    unfold Exact Recovers Kind.expression
    rw [hslot]
    exact Site.checked_got_keeps hp _ _ _
  | gotpcrel => exact iff_true_intro (Site.checked_got_keeps hp _ _ _)
  | gotpcrelx => exact iff_true_intro (Site.checked_got_keeps hp _ _ _)
  | rexGotpcrelx => exact iff_true_intro (Site.checked_got_keeps hp _ _ _)
  | r32 =>
    refine iff_true_intro (leaves_check.mpr fun h => leaves_ok.mpr ?_)
    refine (Site.data_keeps 4 (by decide) .unsigned rfl hp _).mpr (unsigned_represents.mpr ?_)
    have h : ¬ (i.target < 0 ∨ 2 ^ 32 - 1 < i.target) := h
    show 0 ≤ i.target ∧ i.target < 2 ^ 32
    omega
  | r16 =>
    refine leaves_ok.trans ((Site.data_keeps 2 (by decide) .either rfl hp _).trans ?_)
    exact either_represents (by decide)
  | r8 =>
    refine leaves_ok.trans ((Site.data_keeps 1 (by decide) .either rfl hp _).trans ?_)
    exact either_represents (by decide)
  | pc16 => exact leaves_ok.trans ((Site.data_keeps 2 (by decide) .signed rfl hp _).trans signed_represents)
  | pc8 => exact leaves_ok.trans ((Site.data_keeps 1 (by decide) .signed rfl hp _).trans signed_represents)

end X86

/-! ### aarch64 -/

namespace Aarch64

/-- The immediate of `adr` and `adrp`. -/
def adr : Field := ⟨4, adrMask, 0, 21, [⟨0, 2, 29⟩, ⟨2, 19, 5⟩], by decide, by decide, by decide⟩

/-- The word offset of `b` and `bl`. -/
def branch26 : Field := ⟨4, branchMask, 2, 28, [⟨2, 26, 0⟩], by decide, by decide, by decide⟩

/-- That of a conditional branch. -/
def cond19 : Field := ⟨4, condMask, 2, 21, [⟨2, 19, 5⟩], by decide, by decide, by decide⟩

/-- That of a test and branch. -/
def test14 : Field := ⟨4, testMask, 2, 16, [⟨2, 14, 5⟩], by decide, by decide, by decide⟩

section

variable (image : Bytes)

include image

theorem setAdr_eq (at_ : Nat) (imm : Int) : setAdr image at_ imm = adr.write image at_ (low 32 imm) := by
  show put32 image at_ (_ ||| _ ||| _) = put32 image at_ (_ ||| (_ ||| (_ ||| 0)))
  rw [or_zero, Nat.or_assoc]
  rfl

theorem setBranch_eq (at_ : Nat) (v : Int) : setBranch image at_ v = branch26.write image at_ (low 34 v) := by
  unfold setBranch
  rw [show (4 : Int) = 2 ^ 2 from rfl, low_div]
  show _ = put32 image at_ (_ ||| (_ ||| 0))
  rw [or_zero]
  rfl

theorem setCond_eq (at_ : Nat) (v : Int) :
    put32 image at_ (get32 image at_ &&& condMask ||| (low 32 (v / 4) &&& 0x7FFFF) <<< 5) =
      cond19.write image at_ (low 34 v) := by
  rw [show (4 : Int) = 2 ^ 2 from rfl, low_div]
  show _ = put32 image at_ (_ ||| (_ ||| 0))
  rw [or_zero]
  rfl

theorem setTest_eq (at_ : Nat) (v : Int) :
    put32 image at_ (get32 image at_ &&& testMask ||| (low 32 (v / 4) &&& 0x3FFF) <<< 5) =
      test14.write image at_ (low 34 v) := by
  rw [show (4 : Int) = 2 ^ 2 from rfl, low_div]
  show _ = put32 image at_ (_ ||| (_ ||| 0))
  rw [or_zero]
  rfl

end

/-- The field of a kind, and how it is read; the kinds without a check have none. -/
def Kind.field : Kind → Option (Field × Reading)
  | .abs64 | .prel64 => some (.data 8 (by decide), .signed)
  | .abs32 => some (.data 4 (by decide), .either)
  | .prel32 => some (.data 4 (by decide), .signed)
  | .abs16 | .prel16 => some (.data 2 (by decide), .either)
  | .adrPrelLo21 | .adrPrelPgHi21 | .adrGotPage => some (adr, .signed)
  | .jump26 | .call26 => some (branch26, .signed)
  | .condbr19 => some (cond19, .signed)
  | .tstbr14 => some (test14, .signed)
  | _ => Option.none

def Kind.size (kind : Kind) : Nat := kind.field.elim 0 (·.1.size)

def Kind.needsGot : Kind → Bool
  | .adrGotPage | .ld64GotLo12Nc => true
  | _ => false

def Kind.needsStub : Kind → Bool
  | .jump26 | .call26 => true
  | _ => false

/-- Where the stub of the target is in the image. -/
def stubAt (i : Site) : Nat := slotOf i.tables.stubs i.tables.nextStub (low 64 i.target)

/-- The way of a branch: to the target if it is near, else to its stub. -/
def hop (i : Site) : Int :=
  if fitsSigned i.offset 28 then i.offset else i64 ((i.base + stubAt i : Nat) - i.place)

/-- `ldr x16, #8`, `br x16` and the target. -/
structure StubTo (image : Bytes) (slot : Nat) (target : Nat) : Prop where
  load : getLE 4 image slot = 0x58000050
  jump : getLE 4 image (slot + 4) = 0xD61F0200
  target : getLE 8 image (slot + 8) = target

/-- What a kind puts in its field: S + A, S + A - P, or pages between them and the pages of the slot and the place. -/
def Kind.expression (i : Site) : Kind → Int
  | .abs64 | .abs32 | .abs16 => i.target
  | .prel64 | .prel32 | .prel16 | .adrPrelLo21 | .condbr19 | .tstbr14 => i.offset
  | .adrPrelPgHi21 => i64 (page i.target - page i.place) / 4096
  | .adrGotPage => i64 (page (i.base + i.got : Nat) - page i.place) / 4096
  | .jump26 | .call26 => hop i
  | _ => 0

/-- The field has the value of its kind, the slot the symbol, and a stub that is used jumps to the target. -/
def Recovers (i : Site) (kind : Kind) (image' : Bytes) : Prop :=
  i.Keeps kind.field kind.needsGot (kind.expression i) image' ∧
    (kind.needsStub = true → ¬ fitsSigned i.offset 28 = true → StubTo image' (stubAt i) (low 64 i.target))

/-- `apply` refuses the relocation or leaves its value. -/
def Exact (i : Site) (kind : Kind) : Prop :=
  Leaves (applyKind i.image i.base i.tables kind i.at_ i.symbol i.addend) (Recovers i kind)

/-- The data kinds of 16 and 32 bits and the page of the slot have no check, and a branch none of its low bits. -/
def InRange (i : Site) : Kind → Prop
  | .abs32 => -2 ^ 31 ≤ i.target ∧ i.target < 2 ^ 32
  | .abs16 => -2 ^ 15 ≤ i.target ∧ i.target < 2 ^ 16
  | .prel16 => -2 ^ 15 ≤ i.offset ∧ i.offset < 2 ^ 16
  | .condbr19 => Fits 21 i.offset → 2 ^ 2 ∣ i.offset
  | .tstbr14 => Fits 16 i.offset → 2 ^ 2 ∣ i.offset
  | .jump26 | .call26 => Fits 28 (hop i) → 2 ^ 2 ∣ hop i
  | .adrGotPage => Fits 21 (Kind.adrGotPage.expression i)
  | _ => True

/-- The image with a stub at `slot`. -/
def fillStub (image : Bytes) (slot target : Nat) : Bytes :=
  put64 (put32 (put32 image slot 0x58000050) (slot + 4) 0xD61F0200) (slot + 8) target

/-- A write of a stub is behind those before it. -/
theorem stub_inside {image : Bytes} {slot : Nat} (h : slot + stubSize ≤ image.length) :
    (put32 image slot 0x58000050).length = image.length ∧
      (put32 (put32 image slot 0x58000050) (slot + 4) 0xD61F0200).length = image.length := by
  have hsize : stubSize = 16 := rfl
  have hload : (put32 image slot 0x58000050).length = image.length := length_putLE (by omega)
  exact ⟨hload, (length_putLE (by omega)).trans hload⟩

theorem length_fillStub {image : Bytes} {slot : Nat} (h : slot + stubSize ≤ image.length) (target : Nat) :
    (fillStub image slot target).length = image.length := by
  have hsize : stubSize = 16 := rfl
  obtain ⟨-, hjump⟩ := stub_inside h
  exact (length_putLE (by omega)).trans hjump

theorem getLE_fillStub_of_disjoint {image : Bytes} {slot p n : Nat} (h : slot + stubSize ≤ image.length)
    (hd : p + n ≤ slot ∨ slot + stubSize ≤ p) (target : Nat) :
    getLE n (fillStub image slot target) p = getLE n image p := by
  have hsize : stubSize = 16 := rfl
  obtain ⟨hload, hjump⟩ := stub_inside h
  refine (getLE_putLE_of_disjoint (by omega) (by omega)).trans ?_
  refine (getLE_putLE_of_disjoint (by omega) (by omega)).trans ?_
  exact getLE_putLE_of_disjoint (by omega) (by omega)

theorem stubTo_fillStub {image : Bytes} {slot target : Nat} (h : slot + stubSize ≤ image.length)
    (ht : target < 2 ^ 64) : StubTo (fillStub image slot target) slot target := by
  have hsize : stubSize = 16 := rfl
  obtain ⟨hload, hjump⟩ := stub_inside h
  constructor
  · refine (getLE_putLE_of_disjoint (by omega) (by omega)).trans ?_
    refine (getLE_putLE_of_disjoint (by omega) (by omega)).trans ?_
    exact getLE_putLE_self (by omega)
  · refine (getLE_putLE_of_disjoint (by omega) (by omega)).trans ?_
    exact getLE_putLE_self (by omega)
  · exact (getLE_putLE_self (by omega)).trans (mod_eq_of_lt ht)

/-- A field written after the stub of the target is made. -/
theorem write_stub_keeps {i : Site} {w : Nat} (f : Field) (r : Reading) (hw : f.bits ≤ w) (hp : i.Placed f.size false)
    (hs : i.Apart f.size (stubAt i) stubSize) (v : Int) :
    (i.Keeps (some (f, r)) false v (f.write (fillStub i.image (stubAt i) (low 64 i.target)) i.at_ (low w v)) ∧
      StubTo (f.write (fillStub i.image (stubAt i) (low 64 i.target)) i.at_ (low w v)) (stubAt i) (low 64 i.target)) ↔
      r.Represents f.shift f.bits v := by
  have hin : i.at_ + f.size ≤ (fillStub i.image (stubAt i) (low 64 i.target)).length := by
    rw [length_fillStub hs.inside]
    exact hp.inside
  have hword : getLE f.size i.image i.at_ = getLE f.size (fillStub i.image (stubAt i) (low 64 i.target)) i.at_ :=
    (getLE_fillStub_of_disjoint hs.inside hs.apart.symm _).symm
  have hapart := hs.apart
  have hsize : stubSize = 16 := rfl
  have hstub := stubTo_fillStub hs.inside (low_lt 64 i.target)
  have hstub' : StubTo (f.write (fillStub i.image (stubAt i) (low 64 i.target)) i.at_ (low w v)) (stubAt i)
      (low 64 i.target) := by
    constructor
    · rw [f.getLE_write_of_disjoint hin (by omega)]
      exact hstub.load
    · rw [f.getLE_write_of_disjoint hin (by omega)]
      exact hstub.jump
    · rw [f.getLE_write_of_disjoint hin (by omega)]
      exact hstub.target
  rw [and_iff_left hstub', ← f.write_holds r hin hw, ← f.holds_congr hword]
  simp [Site.Keeps]

/-- A branch, direct or through a stub. -/
theorem branch_iff {i : Site} {kind : Kind} (hkind : kind = .jump26 ∨ kind = .call26) (hp : i.Placed 4 false)
    (hs : i.Apart 4 (stubAt i) stubSize) : Exact i kind ↔ (Fits 28 (hop i) → 2 ^ 2 ∣ hop i) := by
  have happly : applyKind i.image i.base i.tables kind i.at_ i.symbol i.addend =
      if fitsSigned i.offset 28 then .ok (branch26.write i.image i.at_ (low 34 i.offset), i.tables)
      else if ¬ fitsSigned (i64 ((i.base + stubAt i : Nat) - i.place)) 28 then .error "module: branch target out of range"
      else .ok (branch26.write (fillStub i.image (stubAt i) (low 64 i.target)) i.at_
        (low 34 (i64 ((i.base + stubAt i : Nat) - i.place))), (stub i.image i.base i.tables (low 64 i.target)).2.2) := by
    rw [← setBranch_eq, ← setBranch_eq, ← i.offset_eq]
    rcases hkind with rfl | rfl <;> rfl
  have hexact : Exact i kind ↔ Leaves (applyKind i.image i.base i.tables kind i.at_ i.symbol i.addend) fun image' =>
      i.Keeps (some (branch26, .signed)) false (hop i) image' ∧
        (¬ fitsSigned i.offset 28 = true → StubTo image' (stubAt i) (low 64 i.target)) := by
    rcases hkind with rfl | rfl
    · simp only [Exact, Leaves, Recovers, Kind.field, Kind.needsGot, Kind.expression, Kind.needsStub, true_imp_iff]
    · simp only [Exact, Leaves, Recovers, Kind.field, Kind.needsGot, Kind.expression, Kind.needsStub, true_imp_iff]
  rw [hexact, happly]
  by_cases hnear : fitsSigned i.offset 28 = true
  · have hhop : hop i = i.offset := if_pos hnear
    rw [if_pos hnear, leaves_ok, hhop, and_iff_left (fun h => absurd hnear h)]
    refine (Site.write_keeps branch26 .signed (by decide) hp _).trans ?_
    exact ⟨fun h _ => h.2, fun h => ⟨fitsSigned_iff.mp hnear, h (fitsSigned_iff.mp hnear)⟩⟩
  · have hhop : hop i = i64 ((i.base + stubAt i : Nat) - i.place) := if_neg hnear
    rw [if_neg hnear, ← hhop, leaves_check, leaves_ok, not_not, fitsSigned_iff]
    refine imp_congr_right fun hfits => ?_
    have hkeeps := write_stub_keeps branch26 .signed (w := 34) (by decide) hp hs (hop i)
    refine Iff.trans ?_ (hkeeps.trans (and_iff_right hfits))
    exact and_congr_right fun _ => ⟨fun h => h hnear, fun h _ => h⟩

theorem exact_iff (i : Site) (kind : Kind) (hp : i.Placed kind.size kind.needsGot)
    (hs : kind.needsStub = true → i.Apart kind.size (stubAt i) stubSize) : Exact i kind ↔ InRange i kind := by
  have hplain : ∀ {r : Applied} {P : Bytes → Prop}, (Leaves r fun image' => P image' ∧
      (false = true → ¬ fitsSigned i.offset 28 = true → StubTo image' (stubAt i) (low 64 i.target))) ↔ Leaves r P := by
    intro r P
    simp [Leaves]
  cases kind with
  | none => exact hplain.trans (iff_true_intro (leaves_ok.mpr Site.keeps_none))
  | abs64 => exact hplain.trans (iff_true_intro (Site.wide_keeps hp _ _))
  | abs32 =>
    refine hplain.trans (leaves_ok.trans ((Site.data_keeps 4 (by decide) .either rfl hp _).trans ?_))
    exact either_represents (by decide)
  | abs16 =>
    refine hplain.trans (leaves_ok.trans ((Site.data_keeps 2 (by decide) .either rfl hp _).trans ?_))
    exact either_represents (by decide)
  | prel64 =>
    refine hplain.trans (iff_true_intro ?_)
    rw [applyKind, i.offset_eq]
    exact Site.wide_keeps hp _ _
  | prel32 =>
    refine hplain.trans (iff_true_intro ?_)
    rw [applyKind, i.offset_eq]
    exact Site.checked_keeps hp _ _ _
  | prel16 =>
    refine hplain.trans ?_
    rw [applyKind, i.offset_eq]
    exact leaves_ok.trans ((Site.data_keeps 2 (by decide) .either rfl hp _).trans (either_represents (by decide)))
  | adrPrelLo21 =>
    refine hplain.trans (iff_true_intro ?_)
    rw [applyKind, i.offset_eq, setAdr_eq]
    exact Site.checked_write_keeps adr (by decide) rfl hp _ _ _
  | adrPrelPgHi21 =>
    refine hplain.trans (iff_true_intro ?_)
    rw [applyKind, setAdr_eq]
    exact Site.checked_write_keeps adr (by decide) rfl hp _ _ _
  | adrPrelPgHi21Nc => exact hplain.trans (iff_true_intro (leaves_ok.mpr Site.keeps_none))
  | addAbsLo12Nc => exact hplain.trans (iff_true_intro (leaves_ok.mpr Site.keeps_none))
  | ldst8AbsLo12Nc => exact hplain.trans (iff_true_intro (leaves_ok.mpr Site.keeps_none))
  | tstbr14 =>
    refine hplain.trans ?_
    rw [applyKind, i.offset_eq, setTest_eq]
    exact Site.checked_write_iff (w := 34) test14 (by decide) hp i.offset _ i.tables
  | condbr19 =>
    refine hplain.trans ?_
    rw [applyKind, i.offset_eq, setCond_eq]
    exact Site.checked_write_iff (w := 34) cond19 (by decide) hp i.offset _ i.tables
  | jump26 => exact branch_iff (.inl rfl) hp (hs rfl)
  | call26 => exact branch_iff (.inr rfl) hp (hs rfl)
  | ldst16AbsLo12Nc => exact hplain.trans (iff_true_intro (leaves_ok.mpr Site.keeps_none))
  | ldst32AbsLo12Nc => exact hplain.trans (iff_true_intro (leaves_ok.mpr Site.keeps_none))
  | ldst64AbsLo12Nc => exact hplain.trans (iff_true_intro (leaves_ok.mpr Site.keeps_none))
  | ldst128AbsLo12Nc => exact hplain.trans (iff_true_intro (leaves_ok.mpr Site.keeps_none))
  | adrGotPage =>
    refine hplain.trans ?_
    rw [applyKind, setAdr_eq]
    exact leaves_ok.trans ((Site.write_got_keeps adr .signed (by decide) hp _).trans signed_represents)
  | ld64GotLo12Nc => exact hplain.trans (iff_true_intro (leaves_ok.mpr Site.keeps_none))

end Aarch64

/-! ### riscv64 -/

namespace Riscv

/-- The offset of a conditional branch. -/
def bType : Field :=
  ⟨4, 0x01FFF07F, 1, 13, [⟨12, 1, 31⟩, ⟨5, 6, 25⟩, ⟨1, 4, 8⟩, ⟨11, 1, 7⟩], by decide, by decide, by decide⟩

/-- That of `jal`. -/
def jType : Field :=
  ⟨4, 0xFFF, 1, 21, [⟨20, 1, 31⟩, ⟨1, 10, 21⟩, ⟨11, 1, 20⟩, ⟨12, 8, 12⟩], by decide, by decide, by decide⟩

/-- That of a compressed branch. -/
def cbType : Field :=
  ⟨2, 0xE383, 1, 9, [⟨8, 1, 12⟩, ⟨3, 2, 10⟩, ⟨6, 2, 5⟩, ⟨1, 2, 3⟩, ⟨5, 1, 2⟩], by decide, by decide, by decide⟩

/-- That of a compressed jump. -/
def cjType : Field :=
  ⟨2, 0xE003, 1, 12,
    [⟨11, 1, 12⟩, ⟨4, 1, 11⟩, ⟨8, 2, 9⟩, ⟨10, 1, 8⟩, ⟨6, 1, 7⟩, ⟨7, 1, 6⟩, ⟨1, 3, 3⟩, ⟨5, 1, 2⟩],
    by decide, by decide, by decide⟩

section

variable (image : Bytes)

include image

theorem setBranch_eq (at_ v : Nat) :
    put32 image at_ (get32 image at_ &&& 0x01FFF07F ||| encodeBranch v) = bType.write image at_ v := by
  show _ = put32 image at_ (_ ||| (_ ||| (_ ||| (_ ||| (_ ||| 0)))))
  rw [or_zero, encodeBranch, Nat.or_assoc, Nat.or_assoc]
  rfl

theorem setJal_eq (at_ v : Nat) :
    put32 image at_ (get32 image at_ &&& 0xFFF ||| encodeJal v) = jType.write image at_ v := by
  show _ = put32 image at_ (_ ||| (_ ||| (_ ||| (_ ||| (_ ||| 0)))))
  rw [or_zero, encodeJal, Nat.or_assoc, Nat.or_assoc]
  rfl

theorem setRvcBranch_eq (at_ v : Nat) :
    put16 image at_ (get16 image at_ &&& 0xE383 ||| encodeRvcBranch v) = cbType.write image at_ v := by
  show _ = put16 image at_ (_ ||| (_ ||| (_ ||| (_ ||| (_ ||| (_ ||| 0))))))
  rw [or_zero, encodeRvcBranch, Nat.or_assoc, Nat.or_assoc, Nat.or_assoc]
  rfl

theorem setRvcJump_eq (at_ v : Nat) :
    put16 image at_ (get16 image at_ &&& 0xE003 ||| encodeRvcJump v) = cjType.write image at_ v := by
  show _ = put16 image at_ (_ ||| (_ ||| (_ ||| (_ ||| (_ ||| (_ ||| (_ ||| (_ ||| (_ ||| 0)))))))))
  rw [or_zero, encodeRvcJump, Nat.or_assoc, Nat.or_assoc, Nat.or_assoc, Nat.or_assoc, Nat.or_assoc, Nat.or_assoc]
  rfl

end

theorem low_i64 (hbits : bits ≤ 64) (v : Int) : low bits (i64 v) = low bits v := by
  have hword : low 64 (i64 v) = low 64 v := congrArg toNat bmod_emod
  rw [← low_mod hbits, hword, low_mod hbits]

theorem setU_eq (image : Bytes) (at_ : Nat) (v : Int) : setU image at_ v = uType.write image at_ (low 44 (v + 0x800)) := by
  have hhi : hi20 v = low 44 (v + 0x800) >>> 12 &&& 0xFFFFF := by
    rw [hi20, show (4096 : Int) = 2 ^ 12 from rfl, low_div, low_i64 (by decide)]
  show put32 image at_ (_ ||| hi20 v <<< 12) = put32 image at_ (_ ||| (_ ||| 0))
  rw [or_zero, hhi]
  rfl

theorem setI_eq (image : Bytes) (at_ : Nat) (v : Int) : setI image at_ v = iType.write image at_ (low 32 v) := by
  show _ = put32 image at_ (_ ||| (_ ||| 0))
  rw [or_zero]
  rfl

theorem setS_eq (image : Bytes) (at_ : Nat) (v : Int) : setS image at_ v = sType.write image at_ (low 32 v) := by
  have hhigh : (low 32 v &&& 0xFFF) >>> 5 = low 32 v >>> 5 &&& 0x7F := shiftRight_and_distrib
  have hlow : low 32 v &&& 0xFFF &&& 0x1F = low 32 v &&& 0x1F := Nat.and_assoc _ _ _
  show put32 image at_ (_ ||| _ ||| _) = put32 image at_ (_ ||| (_ ||| (_ ||| 0)))
  rw [or_zero, Nat.or_assoc, hhigh, hlow]
  rfl

/-- The field of a kind, and how it is read; a pair of immediates is apart. -/
def Kind.field : Kind → Option (Field × Reading)
  | .r32 => some (.data 4 (by decide), .either)
  | .r64 => some (.data 8 (by decide), .signed)
  | .pcrel32 => some (.data 4 (by decide), .signed)
  | .branch => some (bType, .signed)
  | .jal => some (jType, .signed)
  | .rvcBranch => some (cbType, .signed)
  | .rvcJump => some (cjType, .signed)
  | _ => Option.none

def Kind.size : Kind → Nat
  | .call | .callPlt => 8
  | kind => kind.field.elim 0 (·.1.size)

def Kind.expression (i : Site) : Kind → Int
  | .r32 | .r64 => i.target
  | _ => i.offset

/-- An upper immediate at `at₁` and a signed lower one at `at₂` that together are the number, in the image `image'`. -/
def Split (lower : Field) (image₁ : Bytes) (at₁ : Nat) (image₂ : Bytes) (at₂ : Nat) (image' : Bytes) (v : Int) : Prop :=
  ∃ up lo, uType.Holds .signed image₁ image' at₁ up ∧ lower.Holds .signed image₂ image' at₂ lo ∧ up + lo = v

/-- The field has the value of its kind, or the two immediates of a call have it. -/
def Recovers (i : Site) (kind : Kind) (image' : Bytes) : Prop :=
  i.Keeps kind.field false (kind.expression i) image' ∧
    (kind = .call ∨ kind = .callPlt → Split iType i.image i.at_ i.image (i.at_ + 4) image' i.offset)

/-- `apply` refuses the relocation or leaves its value. -/
def Exact (i : Site) (kind : Kind) : Prop :=
  Leaves (applyKind i.image i.base i.tables kind i.at_ i.symbol i.addend) (Recovers i kind)

/-- The words of 32 bits have no check, a branch none of its low bit, and a call none of the rounding. -/
def InRange (i : Site) : Kind → Prop
  | .r32 => -2 ^ 31 ≤ i.target ∧ i.target < 2 ^ 32
  | .pcrel32 => Fits 32 i.offset
  | .branch => Fits 13 i.offset → 2 ^ 1 ∣ i.offset
  | .jal => Fits 21 i.offset → 2 ^ 1 ∣ i.offset
  | .rvcBranch => Fits 9 i.offset → 2 ^ 1 ∣ i.offset
  | .rvcJump => Fits 12 i.offset → 2 ^ 1 ∣ i.offset
  | .call | .callPlt => Fits 32 i.offset → i.offset < 2 ^ 31 - 0x800
  | _ => True

/-- The immediates that are written, and what they are together. -/
theorem split_iff {lower : Field} (hlower : lower = iType ∨ lower = sType) {image₁ image₂ image' : Bytes} {at₁ at₂ : Nat}
    (h₁ : at₁ + 4 ≤ image₁.length) (h₂ : at₂ + 4 ≤ image₂.length) {v w : Int} (hw : (4096 : Int) ∣ v - w)
    (hup : getLE 4 image' at₁ = getLE 4 (uType.write image₁ at₁ (low 44 (v + 0x800))) at₁)
    (hlo : getLE 4 image' at₂ = getLE 4 (lower.write image₂ at₂ (low 32 w)) at₂) :
    Split lower image₁ at₁ image₂ at₂ image' v ↔ Fits 32 (v + 0x800) := by
  have hupper : ∀ u, uType.Holds .signed image₁ image' at₁ u ↔
      ((low 32 (v + 0x800) >>> 12 <<< 12 : Nat) : Int).bmod (2 ^ 32) = u := by
    intro u
    rw [uType.written_holds .signed h₁ hup, show uType.bits = 32 from rfl, low_mod (by decide)]
    rfl
  have hlow : ∀ l, lower.Holds .signed image₂ image' at₂ l ↔ ((low 12 w : Nat) : Int).bmod (2 ^ 12) = l := by
    intro l
    rcases hlower with rfl | rfl
    · rw [iType.written_holds .signed h₂ hlo, show iType.bits = 12 from rfl, low_mod (by decide)]
      rfl
    · rw [sType.written_holds .signed h₂ hlo, show sType.bits = 12 from rfl, low_mod (by decide)]
      rfl
  rw [← upper_lower_iff v w hw]
  constructor
  · rintro ⟨u, l, hu, hl, hsum⟩
    rw [(hupper u).mp hu, (hlow l).mp hl, hsum]
  · intro hsum
    exact ⟨_, _, (hupper _).mpr rfl, (hlow _).mpr rfl, hsum⟩

/-- A call: the upper immediate and the lower one after it. -/
theorem call_iff {i : Site} {kind : Kind} (hkind : kind = .call ∨ kind = .callPlt) (hp : i.Placed 8 false) :
    Exact i kind ↔ (Fits 32 i.offset → i.offset < 2 ^ 31 - 0x800) := by
  have happly : applyKind i.image i.base i.tables kind i.at_ i.symbol i.addend =
      if ¬ fitsSigned i.offset 32 then .error "module: call out of range"
      else .ok (iType.write (uType.write i.image i.at_ (low 44 (i.offset + 0x800))) (i.at_ + 4) (low 32 i.offset),
        i.tables) := by
    rw [← setU_eq, ← setI_eq, ← i.offset_eq]
    rcases hkind with rfl | rfl <;> rfl
  have hnone : ∀ image', i.Keeps kind.field false (kind.expression i) image' := by
    intro image'
    rcases hkind with rfl | rfl <;> exact Site.keeps_none
  have hinside := hp.inside
  have hupper : i.at_ + 4 ≤ i.image.length := by omega
  have hlen := uType.length_write hupper (low 44 (i.offset + 0x800))
  have hother : getLE 4 i.image (i.at_ + 4) = getLE 4 (uType.write i.image i.at_ (low 44 (i.offset + 0x800))) (i.at_ + 4) :=
    (uType.getLE_write_of_disjoint hupper (.inr le_rfl) _).symm
  unfold Exact
  rw [happly, leaves_check, leaves_ok, not_not, fitsSigned_iff]
  refine imp_congr_right fun hfits => ?_
  rw [Recovers, and_iff_right (hnone _), imp_iff_right hkind]
  refine (split_iff (w := i.offset) (.inl rfl) hupper (by omega) ?_ ?_ ?_).trans ?_
  · rw [sub_self]
    exact dvd_zero _
  · exact iType.getLE_write_of_disjoint (by rw [hlen]; exact hinside) (.inl le_rfl) _
  · exact iType.getLE_write_congr (by rw [hlen]; exact hinside) hinside hother.symm _
  · unfold Fits at hfits ⊢
    omega

/-- The kinds of one field, and calls. -/
theorem exact_iff (i : Site) (kind : Kind) (hp : i.Placed kind.size false) : Exact i kind ↔ InRange i kind := by
  have hplain : ∀ {r : Applied} {P : Bytes → Prop} {kind : Kind}, ¬ (kind = .call ∨ kind = .callPlt) →
      ((Leaves r fun image' => P image' ∧
        (kind = .call ∨ kind = .callPlt → Split iType i.image i.at_ i.image (i.at_ + 4) image' i.offset)) ↔ Leaves r P) := by
    intro r P kind hkind
    simp [Leaves, hkind]
  have hnone : ∀ {kind : Kind} {r : Applied}, ¬ (kind = .call ∨ kind = .callPlt) → kind.field = Option.none →
      Leaves r fun image' => i.Keeps kind.field false (kind.expression i) image' ∧
        (kind = .call ∨ kind = .callPlt → Split iType i.image i.at_ i.image (i.at_ + 4) image' i.offset) := by
    intro kind r hkind hfield image' t' _
    rw [hfield]
    exact ⟨Site.keeps_none, fun h => absurd h hkind⟩
  cases kind with
  | none => exact iff_true_intro (hnone (by decide) rfl)
  | align => exact iff_true_intro (hnone (by decide) rfl)
  | relax => exact iff_true_intro (hnone (by decide) rfl)
  | gotHi20 => exact iff_true_intro (hnone (by decide) rfl)
  | pcrelHi20 => exact iff_true_intro (hnone (by decide) rfl)
  | pcrelLo12I => exact iff_true_intro (hnone (by decide) rfl)
  | pcrelLo12S => exact iff_true_intro (hnone (by decide) rfl)
  | hi20 => exact iff_true_intro (hnone (by decide) rfl)
  | lo12I => exact iff_true_intro (hnone (by decide) rfl)
  | lo12S => exact iff_true_intro (hnone (by decide) rfl)
  | add n => exact iff_true_intro (hnone (by simp) rfl)
  | sub n => exact iff_true_intro (hnone (by simp) rfl)
  | set n => exact iff_true_intro (hnone (by simp) rfl)
  | sub6 => exact iff_true_intro (hnone (by decide) rfl)
  | set6 => exact iff_true_intro (hnone (by decide) rfl)
  | r32 =>
    refine (hplain (by decide)).trans (leaves_ok.trans ((Site.data_keeps 4 (by decide) .either rfl hp _).trans ?_))
    exact either_represents (by decide)
  | r64 => exact (hplain (by decide)).trans (iff_true_intro (Site.wide_keeps hp _ _))
  | pcrel32 =>
    refine (hplain (by decide)).trans ?_
    rw [applyKind, i.offset_eq]
    exact leaves_ok.trans ((Site.data_keeps 4 (by decide) .signed rfl hp _).trans signed_represents)
  | branch =>
    refine (hplain (by decide)).trans ?_
    rw [applyKind, i.offset_eq, setBranch_eq]
    exact Site.checked_write_iff (w := 32) bType (by decide) hp i.offset _ i.tables
  | jal =>
    refine (hplain (by decide)).trans ?_
    rw [applyKind, i.offset_eq, setJal_eq]
    exact Site.checked_write_iff (w := 32) jType (by decide) hp i.offset _ i.tables
  | rvcBranch =>
    refine (hplain (by decide)).trans ?_
    rw [applyKind, i.offset_eq, setRvcBranch_eq]
    exact Site.checked_write_iff (w := 16) cbType (by decide) hp i.offset _ i.tables
  | rvcJump =>
    refine (hplain (by decide)).trans ?_
    rw [applyKind, i.offset_eq, setRvcJump_eq]
    exact Site.checked_write_iff (w := 16) cjType (by decide) hp i.offset _ i.tables
  | call => exact call_iff (.inl rfl) hp
  | callPlt => exact call_iff (.inr rfl) hp

/-! ### Pairs -/

/-- The kinds of an upper immediate. -/
inductive Upper where
  | abs
  | pcrel
  | got
  deriving DecidableEq

namespace Upper

def kind : Upper → Kind
  | .abs => .hi20
  | .pcrel => .pcrelHi20
  | .got => .gotHi20

/-- The kind of the lower immediate that goes with it, in a store or not. -/
def lowerKind : Upper → Bool → Kind
  | .abs, false => .lo12I
  | .abs, true => .lo12S
  | _, false => .pcrelLo12I
  | _, true => .pcrelLo12S

/-- S + A, S + A - P, or the slot of the symbol from the place of the upper immediate. -/
def expression (i : Site) : Upper → Int
  | .abs => i.target
  | .pcrel => i.offset
  | .got => i64 ((i.base + i.got : Nat) + i.addend - i.place)

def needsGot (up : Upper) : Bool := up = .got

end Upper

def lowerField (store : Bool) : Field := if store then sType else iType

def applyAt (i : Site) (kind : Kind) : Applied := applyKind i.image i.base i.tables kind i.at_ i.symbol i.addend

/-- The relocation `j` is of the lower immediate that goes with the upper one of `i`: it has the same target, or the
place of the upper one, whose entry is still in its table.  The image `image'` is what both leave in the end. -/
structure Pair (i j : Site) (up : Upper) (store : Bool) (image' : Bytes) : Prop where
  upper : i.Placed 4 up.needsGot
  lower : j.Placed 4 false
  target : up = .abs → j.target = i.target
  symbol : up ≠ .abs → j.symbol = i.place
  entry : up ≠ .abs → ∀ image₁ t₁, applyAt i up.kind = .ok (image₁, t₁) →
    Assoc.get j.tables.hi j.symbol = Assoc.get t₁.hi j.symbol
  upperWord : ∀ image₁ t₁, applyAt i up.kind = .ok (image₁, t₁) → getLE 4 image' i.at_ = getLE 4 image₁ i.at_
  lowerWord : ∀ image₂ t₂, applyAt j (up.lowerKind store) = .ok (image₂, t₂) → getLE 4 image' j.at_ = getLE 4 image₂ j.at_

/-- One of the two is refused, or the immediates together are the value, and the slot has the symbol. -/
def PairExact (i j : Site) (up : Upper) (store : Bool) (image' : Bytes) : Prop :=
  Leaves (applyAt i up.kind) fun image₁ => Leaves (applyAt j (up.lowerKind store)) fun _ =>
    Split (lowerField store) i.image i.at_ j.image j.at_ image' (up.expression i) ∧
      (up.needsGot = true → getLE 8 image₁ i.got = i.symbol)

/-- An absolute upper immediate is refused if the target is not in reach; the others never are. -/
theorem upper_applied_iff (i : Site) (up : Upper) :
    (∃ image₁ t₁, applyAt i up.kind = .ok (image₁, t₁)) ↔ (up = .abs → Fits 32 i.target) := by
  cases up with
  | abs =>
    rw [← fitsSigned_iff, imp_iff_right rfl]
    show (∃ image₁ t₁, (if ¬ fitsSigned i.target 32 = true then error _ else .ok _) = ok (image₁, t₁)) ↔ _
    by_cases hfits : fitsSigned i.target 32 = true
    · rw [if_neg (not_not.mpr hfits)]
      exact ⟨fun _ => hfits, fun _ => ⟨_, _, rfl⟩⟩
    · rw [if_pos hfits]
      exact ⟨(fun ⟨_, _, h⟩ => nomatch h), fun h => absurd h hfits⟩
  | pcrel => exact ⟨(fun _ h => nomatch h), fun _ => ⟨_, _, rfl⟩⟩
  | got => exact ⟨(fun _ h => nomatch h), fun _ => ⟨_, _, rfl⟩⟩

variable {up : Upper}

/-- What an upper immediate leaves: its bits, the symbol in the slot, and the value in the table. -/
theorem upper_applied {i : Site} (hp : i.Placed 4 up.needsGot) {image₁ : Bytes} {t₁ : Tables}
    (happly : applyAt i up.kind = .ok (image₁, t₁)) :
    getLE 4 image₁ i.at_ = getLE 4 (uType.write i.image i.at_ (low 44 (up.expression i + 0x800))) i.at_ ∧
      (up.needsGot = true → getLE 8 image₁ i.got = i.symbol) ∧
        (up ≠ .abs → get t₁.hi i.place = some (up.expression i)) := by
  cases up with
  | abs =>
    have hfits := (upper_applied_iff i .abs).mp ⟨image₁, t₁, happly⟩ rfl
    have happly' : applyAt i Upper.abs.kind = .ok (setU i.image i.at_ i.target, i.tables) :=
      if_neg (not_not.mpr (fitsSigned_iff.mpr hfits))
    obtain ⟨rfl, rfl⟩ := Prod.mk.inj (ok.inj (happly.symm.trans happly'))
    rw [setU_eq]
    exact ⟨rfl, (fun h => nomatch h), fun h => absurd rfl h⟩
  | pcrel =>
    have happly' : applyAt i Upper.pcrel.kind =
        .ok (setU i.image i.at_ i.offset, { i.tables with hi := (i.place, i.offset) :: i.tables.hi }) := by
      rw [← i.offset_eq]
      rfl
    obtain ⟨rfl, rfl⟩ := Prod.mk.inj (ok.inj (happly.symm.trans happly'))
    rw [setU_eq]
    exact ⟨rfl, (fun h => nomatch h), fun _ => (get_cons _ _ _).trans (if_pos rfl)⟩
  | got =>
    have hslot := hp.got rfl
    have hinside : i.at_ + 4 ≤ (put64 i.image i.got i.symbol).length := by
      rw [put64, length_putLE hslot.inside]
      exact hp.inside
    obtain ⟨himage, htables⟩ := Prod.mk.inj (ok.inj happly.symm)
    have himage : image₁ = uType.write (put64 i.image i.got i.symbol) i.at_ (low 44 (Upper.got.expression i + 0x800)) := by
      rw [← setU_eq]
      exact himage
    subst himage htables
    refine ⟨uType.getLE_write_congr hinside hp.inside (getLE_putLE_of_disjoint hslot.inside hslot.apart.symm) _,
      fun _ => ?_, fun _ => (get_cons _ _ _).trans (if_pos rfl)⟩
    rw [uType.getLE_write_of_disjoint hinside hslot.apart, put64, getLE_putLE_self hslot.inside]
    exact mod_eq_of_lt hp.symbol

/-- A lower immediate made from the value in the table. -/
theorem low_of_entry {j : Site} (hup : up ≠ .abs) (store : Bool) {v : Int}
    (hentry : get j.tables.hi j.symbol = some v) :
    applyAt j (up.lowerKind store) =
      .ok ((lowerField store).write j.image j.at_ (low 32 (i64 (v - i64 (v + 0x800) / 4096 * 4096))), j.tables) := by
  cases store with
  | false =>
    have hkind : up.lowerKind false = .pcrelLo12I := by
      cases up with
      | abs => exact absurd rfl hup
      | pcrel => rfl
      | got => rfl
    rw [applyAt, hkind, applyKind, hentry]
    exact congrArg (fun image => ok (image, j.tables)) (setI_eq _ _ _)
  | true =>
    have hkind : up.lowerKind true = .pcrelLo12S := by
      cases up with
      | abs => exact absurd rfl hup
      | pcrel => rfl
      | got => rfl
    rw [applyAt, hkind, applyKind, hentry]
    exact congrArg (fun image => ok (image, j.tables)) (setS_eq _ _ _)

/-- The rest of a value is the value but for whole pages. -/
theorem dvd_sub_rest (v : Int) : (4096 : Int) ∣ v - i64 (v - i64 (v + 0x800) / 4096 * 4096) := by
  have hwrap : ((2 ^ 64 : Nat) : Int) ∣
      v - i64 (v + 0x800) / 4096 * 4096 - i64 (v - i64 (v + 0x800) / 4096 * 4096) := dvd_self_sub_bmod
  have hpage : (4096 : Int) ∣ ((2 ^ 64 : Nat) : Int) := ⟨2 ^ 52, by norm_num⟩
  have hrest := dvd_trans hpage hwrap
  omega

/-- What the lower immediate is made from: the value of the upper one, but for whole pages. -/
theorem lower_applied {i j : Site} {store : Bool} {image' image₁ : Bytes} {t₁ : Tables}
    (h : Pair i j up store image') (happly : applyAt i up.kind = .ok (image₁, t₁)) :
    ∃ w, (4096 : Int) ∣ up.expression i - w ∧ applyAt j (up.lowerKind store) =
      .ok ((lowerField store).write j.image j.at_ (low 32 w), j.tables) := by
  by_cases hup : up = .abs
  · subst hup
    refine ⟨j.target, ?_, ?_⟩
    · show (4096 : Int) ∣ i.target - j.target
      rw [h.target rfl, sub_self]
      exact dvd_zero _
    · cases store with
      | false => exact congrArg (fun image => ok (image, j.tables)) (setI_eq _ _ _)
      | true => exact congrArg (fun image => ok (image, j.tables)) (setS_eq _ _ _)
  · obtain ⟨-, -, hvalue⟩ := upper_applied h.upper happly
    have hentry := h.entry hup image₁ t₁ happly
    rw [h.symbol hup, hvalue hup] at hentry
    rw [← h.symbol hup] at hentry
    exact ⟨_, dvd_sub_rest _, low_of_entry hup store hentry⟩

theorem pair_iff {i j : Site} {store : Bool} {image' : Bytes} (h : Pair i j up store image') :
    PairExact i j up store image' ↔ ((up = .abs → Fits 32 i.target) → Fits 32 (up.expression i + 0x800)) := by
  have hsplit : ∀ image₁ t₁, applyAt i up.kind = .ok (image₁, t₁) →
      ((Leaves (applyAt j (up.lowerKind store)) fun _ =>
        Split (lowerField store) i.image i.at_ j.image j.at_ image' (up.expression i) ∧
          (up.needsGot = true → getLE 8 image₁ i.got = i.symbol)) ↔ Fits 32 (up.expression i + 0x800)) := by
    intro image₁ t₁ happly
    obtain ⟨hword, hgot, -⟩ := upper_applied h.upper happly
    obtain ⟨w, hw, hlower⟩ := lower_applied h happly
    have hfield : lowerField store = iType ∨ lowerField store = sType := by cases store <;> simp [lowerField]
    rw [hlower, leaves_ok, and_iff_left hgot]
    refine split_iff hfield h.upper.inside h.lower.inside hw ((h.upperWord _ _ happly).trans hword) ?_
    exact h.lowerWord _ _ hlower
  rw [← upper_applied_iff]
  constructor
  · rintro hexact ⟨image₁, t₁, happly⟩
    exact (hsplit image₁ t₁ happly).mp (hexact image₁ t₁ happly)
  · intro hfits image₁ t₁ happly
    exact (hsplit image₁ t₁ happly).mpr (hfits ⟨image₁, t₁, happly⟩)

end Riscv

/-! ### The three architectures -/

/-- A relocation of one of the architectures by its number in the file, or two that belong together. -/
inductive Relocation where
  | x86 (code : Nat)
  | aarch64 (code : Nat)
  | riscv (code : Nat)
  | pair (upper : Riscv.Upper) (store : Bool) (lower : Site) (image' : Bytes)

namespace Relocation

/-- The fields and the slots are in the image, apart from each other. -/
def Placed (i : Site) : Relocation → Prop
  | .x86 code => ∀ kind, X86.Kind.ofCode code = some kind → i.Placed kind.size kind.needsGot
  | .aarch64 code => ∀ kind, Aarch64.Kind.ofCode code = some kind → i.Placed kind.size kind.needsGot ∧
      (kind.needsStub = true → i.Apart kind.size (Aarch64.stubAt i) Aarch64.stubSize)
  | .riscv code => ∀ kind, Riscv.Kind.ofCode code = some kind → i.Placed kind.size false
  | .pair upper store lower image' => Riscv.Pair i lower upper store image'

/-- `apply` refuses the number, or leaves the value of its kind. -/
def Exact (i : Site) : Relocation → Prop
  | .x86 code => Leaves (X86.apply i.image i.base i.tables code i.at_ i.symbol i.addend) fun image' =>
      ∃ kind, X86.Kind.ofCode code = some kind ∧ X86.Recovers i kind image'
  | .aarch64 code => Leaves (Aarch64.apply i.image i.base i.tables code i.at_ i.symbol i.addend) fun image' =>
      ∃ kind, Aarch64.Kind.ofCode code = some kind ∧ Aarch64.Recovers i kind image'
  | .riscv code => Leaves (Riscv.apply i.image i.base i.tables code i.at_ i.symbol i.addend) fun image' =>
      ∃ kind, Riscv.Kind.ofCode code = some kind ∧ Riscv.Recovers i kind image'
  | .pair upper store lower image' => Riscv.PairExact i lower upper store image'

/-- The values that are in reach where there is no check for it. -/
def InRange (i : Site) : Relocation → Prop
  | .x86 code => ∀ kind, X86.Kind.ofCode code = some kind → X86.InRange i kind
  | .aarch64 code => ∀ kind, Aarch64.Kind.ofCode code = some kind → Aarch64.InRange i kind
  | .riscv code => ∀ kind, Riscv.Kind.ofCode code = some kind → Riscv.InRange i kind
  | .pair upper _ _ _ => (upper = .abs → Fits 32 i.target) →
      -2 ^ 31 - 0x800 ≤ upper.expression i ∧ upper.expression i < 2 ^ 31 - 0x800

/-- A number with no kind is refused. -/
theorem code_iff {κ : Type} {code : Option κ} {r : Applied} {applied : κ → Applied}
    {recovers : κ → Bytes → Prop} {reach : κ → Prop}
    (hnone : code = none → ∃ e, r = .error e) (hsome : ∀ kind, code = some kind → r = applied kind)
    (h : ∀ kind, code = some kind → (Leaves (applied kind) (recovers kind) ↔ reach kind)) :
    (Leaves r fun image' => ∃ kind, code = some kind ∧ recovers kind image') ↔ ∀ kind, code = some kind → reach kind := by
  cases code with
  | none =>
    obtain ⟨e, rfl⟩ := hnone rfl
    exact iff_of_true (leaves_error.mpr trivial) fun _ heq => nomatch heq
  | some kind =>
    rw [hsome kind rfl]
    constructor
    · rintro hleaves _ ⟨⟩
      refine (h kind rfl).mp fun image' t' happly => ?_
      obtain ⟨_, ⟨⟩, hrecovers⟩ := hleaves image' t' happly
      exact hrecovers
    · intro hreach image' t' happly
      exact ⟨kind, rfl, (h kind rfl).mpr (hreach kind rfl) image' t' happly⟩

/-- Relocations are exact or refused exactly where the kinds without a full check are given values in reach. -/
theorem exact_iff_inRange (i : Site) (r : Relocation) (hp : r.Placed i) : r.Exact i ↔ r.InRange i := by
  cases r with
  | x86 code =>
    refine code_iff (fun h => ?_) (fun kind h => ?_) fun kind h => X86.exact_iff i kind (hp kind h)
    · exact ⟨_, (by rw [X86.apply, h])⟩
    · rw [X86.apply, h]
  | aarch64 code =>
    refine code_iff (fun h => ?_) (fun kind h => ?_) fun kind h => Aarch64.exact_iff i kind (hp kind h).1 (hp kind h).2
    · exact ⟨_, (by rw [Aarch64.apply, h])⟩
    · rw [Aarch64.apply, h]
  | riscv code =>
    refine code_iff (fun h => ?_) (fun kind h => ?_) fun kind h => Riscv.exact_iff i kind (hp kind h)
    · exact ⟨_, (by rw [Riscv.apply, h])⟩
    · rw [Riscv.apply, h]
  | pair upper store lower image' =>
    refine (Riscv.pair_iff hp).trans (imp_congr_right fun _ => ?_)
    unfold Fits
    omega

/-- A call of `target` from the start of an image, whose two instructions have no immediates yet. -/
def callSite (target : Nat) : Site := ⟨zeros 8, 0, ⟨[], 0, [], 0, []⟩, 0, target, 0⟩

theorem callSite_placed {target : Nat} (ht : target < 2 ^ 64) : (riscv 18).Placed (callSite target) := by
  rintro _ ⟨⟩
  exact ⟨le_refl 8, ht, (fun h => nomatch h)⟩

theorem exact_iff_inRange_call :
    (riscv 18).Placed (callSite 4096) ∧ ((riscv 18).Exact (callSite 4096) ↔ (riscv 18).InRange (callSite 4096)) :=
  ⟨callSite_placed (by decide), exact_iff_inRange (callSite 4096) (.riscv 18) (callSite_placed (by decide))⟩

/-- A call that is as far as 32 bits allow goes back instead. -/
theorem far_call : ¬ ∀ (i : Site) (r : Relocation), r.Placed i → r.Exact i := by
  intro hall
  have hleaves := hall (callSite (2 ^ 31 - 1)) (.riscv 18) (callSite_placed (by decide))
  have hexact : Riscv.Exact (callSite (2 ^ 31 - 1)) .call := by
    intro image' t' happly
    obtain ⟨_, ⟨⟩, hrecovers⟩ := hleaves image' t' happly
    exact hrecovers
  have hplaced : (callSite (2 ^ 31 - 1)).Placed 8 false := ⟨le_refl 8, (by decide), (fun h => nomatch h)⟩
  have hreach := (Riscv.exact_iff _ .call hplaced).mp hexact
  exact absurd (hreach (by decide)) (by decide)

end Relocation

end Reloc

end HamixOS.Kernel
