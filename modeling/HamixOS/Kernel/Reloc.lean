import HamixOS.Lib.Assoc
import HamixOS.Lib.BitFields
import HamixOS.Lib.Bytes

namespace HamixOS.Kernel

open Lib

/-!
# Relocations (`module/reloc.rs`)

The three `arch` modules, each with its kinds, its encodings and `apply`.  An image is the list of its bytes.
Arithmetic on `u64` and `i64` is that of the release build: it wraps, and a sum is wrapped once, at its end.

The kinds are enumerations, made from the number in the file by `ofCode`.
-/

namespace Reloc

/-- The tables of a module; the maps are lists of keys and values. -/
structure Tables where
  got : List (Nat × Nat)
  nextGot : Nat
  stubs : List (Nat × Nat)
  nextStub : Nat
  hi : List (Nat × Int)

/-- What `apply` gives: the image and the tables, or an error. -/
abbrev Applied := Except String (Bytes × Tables)

/-- An `i64`. -/
def i64 (v : Int) : Int := v.bmod (2 ^ 64)

def put32 (image : Bytes) (at_ value : Nat) : Bytes := putLE 4 image at_ value

def get32 (image : Bytes) (at_ : Nat) : Nat := getLE 4 image at_

def put64 (image : Bytes) (at_ value : Nat) : Bytes := putLE 8 image at_ value

def put16 (image : Bytes) (at_ value : Nat) : Bytes := putLE 2 image at_ value

def get16 (image : Bytes) (at_ : Nat) : Nat := getLE 2 image at_

/-- The slot of a symbol in the table `m`, which is at `next` if it is new. -/
def slotOf (m : List (Nat × Nat)) (next symbol : Nat) : Nat := (Assoc.get m symbol).getD next

/-- The image and the tables with the slot of a symbol in the global offset table filled. -/
def gotSlot (image : Bytes) (t : Tables) (symbol : Nat) : Nat × Bytes × Tables :=
  let slot := slotOf t.got t.nextGot symbol
  (slot, put64 image slot symbol,
    if (Assoc.get t.got symbol).isSome then t
    else { t with got := (symbol, t.nextGot) :: t.got, nextGot := t.nextGot + 8 })

def fitsSigned (value : Int) (bits : Nat) : Bool := decide (Fits bits value)

/-! ### x86_64 -/

namespace X86

inductive Kind where
  | none
  | r64
  | pc32
  | got32
  | plt32
  | gotpcrel
  | r32
  | r32s
  | r16
  | pc16
  | r8
  | pc8
  | pc64
  | gotpcrelx
  | rexGotpcrelx
  deriving DecidableEq

def Kind.ofCode : Nat → Option Kind
  | 0 => some .none
  | 1 => some .r64
  | 2 => some .pc32
  | 3 => some .got32
  | 4 => some .plt32
  | 9 => some .gotpcrel
  | 10 => some .r32
  | 11 => some .r32s
  | 12 => some .r16
  | 13 => some .pc16
  | 14 => some .r8
  | 15 => some .pc8
  | 24 => some .pc64
  | 41 => some .gotpcrelx
  | 42 => some .rexGotpcrelx
  | _ => Option.none

def Kind.needsGot : Kind → Bool
  | .got32 | .gotpcrel | .gotpcrelx | .rexGotpcrelx => true
  | _ => false

/-- The value of a relocation, with the image and the tables after the slot is filled. -/
def value (image : Bytes) (base : Nat) (t : Tables) (kind : Kind) (at_ symbol : Nat) (addend : Int) : Int × Bytes × Tables :=
  let place := base + at_
  match kind with
  | .none => (0, image, t)
  | .r64 | .r32 | .r32s | .r16 | .r8 => (i64 (symbol + addend), image, t)
  | .pc32 | .plt32 | .pc16 | .pc8 | .pc64 => (i64 (symbol + addend - place), image, t)
  | .got32 =>
    let slot := gotSlot image t symbol
    (i64 ((base + slot.1 : Nat) - base + addend), slot.2)
  | .gotpcrel | .gotpcrelx | .rexGotpcrelx =>
    let slot := gotSlot image t symbol
    (i64 ((base + slot.1 : Nat) + addend - place), slot.2)

def applyKind (image : Bytes) (base : Nat) (t : Tables) (kind : Kind) (at_ symbol : Nat) (addend : Int) : Applied :=
  let r := value image base t kind at_ symbol addend
  match kind with
  | .none => .ok (image, t)
  | .r64 | .pc64 => .ok (put64 r.2.1 at_ (low 64 r.1), r.2.2)
  | .pc32 | .plt32 | .got32 | .gotpcrel | .gotpcrelx | .rexGotpcrelx =>
    if ¬ fitsSigned r.1 32 then .error "module: relocation does not fit in 32 bits"
    else .ok (put32 r.2.1 at_ (low 32 r.1), r.2.2)
  | .r32 =>
    if r.1 < 0 ∨ 2 ^ 32 - 1 < r.1 then .error "module: 32-bit relocation overflowed"
    else .ok (put32 r.2.1 at_ (low 32 r.1), r.2.2)
  | .r32s =>
    if ¬ fitsSigned r.1 32 then .error "module: signed 32-bit relocation overflowed"
    else .ok (put32 r.2.1 at_ (low 32 r.1), r.2.2)
  | .r16 | .pc16 => .ok (put16 r.2.1 at_ (low 16 r.1), r.2.2)
  | .r8 | .pc8 => .ok (putLE 1 r.2.1 at_ (low 8 r.1), r.2.2)

def apply (image : Bytes) (base : Nat) (t : Tables) (code at_ symbol : Nat) (addend : Int) : Applied :=
  match Kind.ofCode code with
  | Option.none => .error "module: unsupported relocation type"
  | some kind => applyKind image base t kind at_ symbol addend

end X86

/-! ### aarch64 -/

namespace Aarch64

inductive Kind where
  | none
  | abs64
  | abs32
  | abs16
  | prel64
  | prel32
  | prel16
  | adrPrelLo21
  | adrPrelPgHi21
  | adrPrelPgHi21Nc
  | addAbsLo12Nc
  | ldst8AbsLo12Nc
  | tstbr14
  | condbr19
  | jump26
  | call26
  | ldst16AbsLo12Nc
  | ldst32AbsLo12Nc
  | ldst64AbsLo12Nc
  | ldst128AbsLo12Nc
  | adrGotPage
  | ld64GotLo12Nc
  deriving DecidableEq

def Kind.ofCode : Nat → Option Kind
  | 0 => some .none
  | 256 => some .none
  | 257 => some .abs64
  | 258 => some .abs32
  | 259 => some .abs16
  | 260 => some .prel64
  | 261 => some .prel32
  | 262 => some .prel16
  | 274 => some .adrPrelLo21
  | 275 => some .adrPrelPgHi21
  | 276 => some .adrPrelPgHi21Nc
  | 277 => some .addAbsLo12Nc
  | 278 => some .ldst8AbsLo12Nc
  | 279 => some .tstbr14
  | 280 => some .condbr19
  | 282 => some .jump26
  | 283 => some .call26
  | 284 => some .ldst16AbsLo12Nc
  | 285 => some .ldst32AbsLo12Nc
  | 286 => some .ldst64AbsLo12Nc
  | 299 => some .ldst128AbsLo12Nc
  | 311 => some .adrGotPage
  | 312 => some .ld64GotLo12Nc
  | _ => Option.none

def stubSize : Nat := 16

/-- The address of the page of a `u64`. -/
def page (value : Int) : Int := i64 ((low 64 value / 4096 * 4096 : Nat) : Int)

/-- The complement of `(0x3 << 29) | (0x7FFFF << 5)`. -/
def adrMask : Nat := 0x9F00001F

def setAdr (image : Bytes) (at_ : Nat) (imm : Int) : Bytes :=
  let insn := get32 image at_ &&& adrMask
  let imm := low 32 imm
  put32 image at_ (insn ||| (imm &&& 0x3) <<< 29 ||| (imm >>> 2 &&& 0x7FFFF) <<< 5)

/-- The complement of `0xFFF << 10`. -/
def imm12Mask : Nat := 0xFFC003FF

def setImm12 (image : Bytes) (at_ value : Nat) : Bytes :=
  let insn := get32 image at_ &&& imm12Mask
  put32 image at_ (insn ||| (value &&& 0xFFF) <<< 10)

/-- The stub that jumps to a symbol, with the image and the tables after it is made. -/
def stub (image : Bytes) (base : Nat) (t : Tables) (symbol : Nat) : Nat × Bytes × Tables :=
  let slot := slotOf t.stubs t.nextStub symbol
  (base + slot, put64 (put32 (put32 image slot 0x58000050) (slot + 4) 0xD61F0200) (slot + 8) symbol,
    if (Assoc.get t.stubs symbol).isSome then t
    else { t with stubs := (symbol, t.nextStub) :: t.stubs, nextStub := t.nextStub + stubSize })

/-- The complement of `0x03FF_FFFF`. -/
def branchMask : Nat := 0xFC000000

/-- The instruction of a branch. -/
def setBranch (image : Bytes) (at_ : Nat) (v : Int) : Bytes :=
  put32 image at_ (get32 image at_ &&& branchMask ||| low 32 (v / 4) &&& 0x3FFFFFF)

/-- The complement of `0x7FFFF << 5`. -/
def condMask : Nat := 0xFF00001F

/-- The complement of `0x3FFF << 5`. -/
def testMask : Nat := 0xFFF8001F

def applyKind (image : Bytes) (base : Nat) (t : Tables) (kind : Kind) (at_ symbol : Nat) (addend : Int) : Applied :=
  let place : Int := (base + at_ : Nat)
  let s := i64 (symbol + addend)
  match kind with
  | .none => .ok (image, t)
  | .abs64 => .ok (put64 image at_ (low 64 s), t)
  | .abs32 => .ok (put32 image at_ (low 32 s), t)
  | .abs16 => .ok (put16 image at_ (low 16 s), t)
  | .prel64 => .ok (put64 image at_ (low 64 (i64 (s - place))), t)
  | .prel32 =>
    let v := i64 (s - place)
    if ¬ fitsSigned v 32 then .error "module: PREL32 relocation overflowed" else .ok (put32 image at_ (low 32 v), t)
  | .prel16 => .ok (put16 image at_ (low 16 (i64 (s - place))), t)
  | .adrPrelLo21 =>
    let v := i64 (s - place)
    if ¬ fitsSigned v 21 then .error "module: ADR relocation overflowed" else .ok (setAdr image at_ v, t)
  | .adrPrelPgHi21 =>
    let v := i64 (page s - page place) / 4096
    if ¬ fitsSigned v 21 then .error "module: ADRP relocation overflowed" else .ok (setAdr image at_ v, t)
  | .adrPrelPgHi21Nc => .ok (setAdr image at_ (i64 (page s - page place) / 4096), t)
  | .addAbsLo12Nc | .ldst8AbsLo12Nc => .ok (setImm12 image at_ (low 64 s), t)
  | .ldst16AbsLo12Nc => .ok (setImm12 image at_ ((low 64 s &&& 0xFFF) >>> 1), t)
  | .ldst32AbsLo12Nc => .ok (setImm12 image at_ ((low 64 s &&& 0xFFF) >>> 2), t)
  | .ldst64AbsLo12Nc => .ok (setImm12 image at_ ((low 64 s &&& 0xFFF) >>> 3), t)
  | .ldst128AbsLo12Nc => .ok (setImm12 image at_ ((low 64 s &&& 0xFFF) >>> 4), t)
  | .jump26 | .call26 =>
    let v := i64 (s - place)
    if fitsSigned v 28 then .ok (setBranch image at_ v, t)
    else
      let r := stub image base t (low 64 s)
      let v := i64 (r.1 - place)
      if ¬ fitsSigned v 28 then .error "module: branch target out of range" else .ok (setBranch r.2.1 at_ v, r.2.2)
  | .condbr19 =>
    let v := i64 (s - place)
    if ¬ fitsSigned v 21 then .error "module: conditional branch out of range"
    else .ok (put32 image at_ (get32 image at_ &&& condMask ||| (low 32 (v / 4) &&& 0x7FFFF) <<< 5), t)
  | .tstbr14 =>
    let v := i64 (s - place)
    if ¬ fitsSigned v 16 then .error "module: test branch out of range"
    else .ok (put32 image at_ (get32 image at_ &&& testMask ||| (low 32 (v / 4) &&& 0x3FFF) <<< 5), t)
  | .adrGotPage =>
    let slot := gotSlot image t symbol
    .ok (setAdr slot.2.1 at_ (i64 (page (base + slot.1 : Nat) - page place) / 4096), slot.2.2)
  | .ld64GotLo12Nc =>
    let slot := gotSlot image t symbol
    .ok (setImm12 slot.2.1 at_ ((low 64 (base + slot.1 : Nat) &&& 0xFFF) >>> 3), slot.2.2)

def apply (image : Bytes) (base : Nat) (t : Tables) (code at_ symbol : Nat) (addend : Int) : Applied :=
  match Kind.ofCode code with
  | Option.none => .error "module: unsupported aarch64 relocation type"
  | some kind => applyKind image base t kind at_ symbol addend

end Aarch64

/-! ### riscv64 -/

namespace Riscv

inductive Kind where
  | none
  | r32
  | r64
  | branch
  | jal
  | call
  | callPlt
  | gotHi20
  | pcrelHi20
  | pcrelLo12I
  | pcrelLo12S
  | hi20
  | lo12I
  | lo12S
  | add (bytes : Nat)
  | sub (bytes : Nat)
  | set (bytes : Nat)
  | align
  | rvcBranch
  | rvcJump
  | relax
  | sub6
  | set6
  | pcrel32
  deriving DecidableEq

def Kind.ofCode : Nat → Option Kind
  | 0 => some .none
  | 1 => some .r32
  | 2 => some .r64
  | 16 => some .branch
  | 17 => some .jal
  | 18 => some .call
  | 19 => some .callPlt
  | 20 => some .gotHi20
  | 23 => some .pcrelHi20
  | 24 => some .pcrelLo12I
  | 25 => some .pcrelLo12S
  | 26 => some .hi20
  | 27 => some .lo12I
  | 28 => some .lo12S
  | 33 => some (.add 1)
  | 34 => some (.add 2)
  | 35 => some (.add 4)
  | 36 => some (.add 8)
  | 37 => some (.sub 1)
  | 38 => some (.sub 2)
  | 39 => some (.sub 4)
  | 40 => some (.sub 8)
  | 43 => some .align
  | 44 => some .rvcBranch
  | 45 => some .rvcJump
  | 51 => some .relax
  | 52 => some .sub6
  | 53 => some .set6
  | 54 => some (.set 1)
  | 55 => some (.set 2)
  | 56 => some (.set 4)
  | 57 => some .pcrel32
  | _ => Option.none

/-- The pass that a kind belongs to. -/
def Kind.inPass (kind : Kind) (pass : Nat) : Bool :=
  let late := kind = .pcrelLo12I ∨ kind = .pcrelLo12S
  if pass = 0 then ¬ late else late

def hi20 (value : Int) : Nat := low 32 (i64 (value + 0x800) / 4096) &&& 0xFFFFF

def setU (image : Bytes) (at_ : Nat) (value : Int) : Bytes :=
  put32 image at_ (get32 image at_ &&& 0xFFF ||| hi20 value <<< 12)

def setI (image : Bytes) (at_ : Nat) (value : Int) : Bytes :=
  put32 image at_ (get32 image at_ &&& 0x000FFFFF ||| (low 32 value &&& 0xFFF) <<< 20)

/-- The complement of `(0x7F << 25) | (0x1F << 7)`. -/
def storeMask : Nat := 0x01FFF07F

def setS (image : Bytes) (at_ : Nat) (value : Int) : Bytes :=
  let v := low 32 value &&& 0xFFF
  put32 image at_ (get32 image at_ &&& storeMask ||| (v >>> 5) <<< 25 ||| (v &&& 0x1F) <<< 7)

/-- The immediate of a conditional branch. -/
def encodeBranch (v : Nat) : Nat :=
  (v >>> 12 &&& 1) <<< 31 ||| (v >>> 5 &&& 0x3F) <<< 25 ||| (v >>> 1 &&& 0xF) <<< 8 ||| (v >>> 11 &&& 1) <<< 7

def encodeJal (v : Nat) : Nat :=
  (v >>> 20 &&& 1) <<< 31 ||| (v >>> 1 &&& 0x3FF) <<< 21 ||| (v >>> 11 &&& 1) <<< 20 ||| (v >>> 12 &&& 0xFF) <<< 12

def encodeRvcBranch (v : Nat) : Nat :=
  (v >>> 8 &&& 1) <<< 12 ||| (v >>> 3 &&& 3) <<< 10 ||| (v >>> 6 &&& 3) <<< 5 ||| (v >>> 1 &&& 3) <<< 3 ||| (v >>> 5 &&& 1) <<< 2

def encodeRvcJump (v : Nat) : Nat :=
  (v >>> 11 &&& 1) <<< 12 ||| (v >>> 4 &&& 1) <<< 11 ||| (v >>> 8 &&& 3) <<< 9 ||| (v >>> 10 &&& 1) <<< 8 |||
    (v >>> 6 &&& 1) <<< 7 ||| (v >>> 7 &&& 1) <<< 6 ||| (v >>> 1 &&& 7) <<< 3 ||| (v >>> 5 &&& 1) <<< 2

def applyKind (image : Bytes) (base : Nat) (t : Tables) (kind : Kind) (at_ symbol : Nat) (addend : Int) : Applied :=
  let place := base + at_
  let s := i64 (symbol + addend)
  match kind with
  | .none | .align | .relax => .ok (image, t)
  | .r32 => .ok (put32 image at_ (low 32 s), t)
  | .r64 => .ok (put64 image at_ (low 64 s), t)
  | .pcrel32 => .ok (put32 image at_ (low 32 (i64 (s - place))), t)
  | .branch =>
    let v := i64 (s - place)
    if ¬ fitsSigned v 13 then .error "module: branch out of range"
    else .ok (put32 image at_ (get32 image at_ &&& 0x01FFF07F ||| encodeBranch (low 32 v)), t)
  | .jal =>
    let v := i64 (s - place)
    if ¬ fitsSigned v 21 then .error "module: jal out of range"
    else .ok (put32 image at_ (get32 image at_ &&& 0xFFF ||| encodeJal (low 32 v)), t)
  | .call | .callPlt =>
    let v := i64 (s - place)
    if ¬ fitsSigned v 32 then .error "module: call out of range"
    else .ok (setI (setU image at_ v) (at_ + 4) v, t)
  | .pcrelHi20 =>
    let v := i64 (s - place)
    .ok (setU image at_ v, { t with hi := (place, v) :: t.hi })
  | .gotHi20 =>
    let slot := gotSlot image t symbol
    let v := i64 ((base + slot.1 : Nat) + addend - place)
    .ok (setU slot.2.1 at_ v, { slot.2.2 with hi := (place, v) :: slot.2.2.hi })
  | .pcrelLo12I =>
    match Assoc.get t.hi symbol with
    | Option.none => .error "module: PCREL_LO12 without a matching HI20"
    | some v => .ok (setI image at_ (i64 (v - i64 (v + 0x800) / 4096 * 4096)), t)
  | .pcrelLo12S =>
    match Assoc.get t.hi symbol with
    | Option.none => .error "module: PCREL_LO12 without a matching HI20"
    | some v => .ok (setS image at_ (i64 (v - i64 (v + 0x800) / 4096 * 4096)), t)
  | .hi20 =>
    if ¬ fitsSigned s 32 then
      .error "module: absolute HI20 needs an address below 2 GiB, build with -C code-model=medium"
    else .ok (setU image at_ s, t)
  | .lo12I => .ok (setI image at_ s, t)
  | .lo12S => .ok (setS image at_ s, t)
  | .add n => .ok (putLE n image at_ (low (8 * n) (getLE n image at_ + s)), t)
  | .sub n => .ok (putLE n image at_ (low (8 * n) (getLE n image at_ - s)), t)
  | .set n => .ok (putLE n image at_ (low (8 * n) s), t)
  | .sub6 =>
    let old := getLE 1 image at_
    .ok (putLE 1 image at_ (old &&& 0xC0 ||| low 8 ((old &&& 0x3F : Nat) - s) &&& 0x3F), t)
  | .set6 => .ok (putLE 1 image at_ (getLE 1 image at_ &&& 0xC0 ||| low 8 s &&& 0x3F), t)
  | .rvcBranch =>
    let v := i64 (s - place)
    if ¬ fitsSigned v 9 then .error "module: compressed branch out of range"
    else .ok (put16 image at_ (get16 image at_ &&& 0xE383 ||| encodeRvcBranch (low 16 v)), t)
  | .rvcJump =>
    let v := i64 (s - place)
    if ¬ fitsSigned v 12 then .error "module: compressed jump out of range"
    else .ok (put16 image at_ (get16 image at_ &&& 0xE003 ||| encodeRvcJump (low 16 v)), t)

def apply (image : Bytes) (base : Nat) (t : Tables) (code at_ symbol : Nat) (addend : Int) : Applied :=
  match Kind.ofCode code with
  | Option.none => .error "module: unsupported riscv64 relocation type"
  | some kind => applyKind image base t kind at_ symbol addend

end Riscv

end Reloc

end HamixOS.Kernel
