import Mathlib.Order.Interval.Finset.Nat
import HamixOS.Kernel.AspaceBytes

namespace HamixOS.Kernel

open Lib List Memory Nat

/-!
# The stack of a new program (`task/elf.rs`)

`build_stack` maps the stack of a program and writes its arguments.  The constants are those of x86_64 and aarch64,
whose user halves are alike.  What is left out of an ELF file is what the stack does not depend on.

* `buildStack_spec` — what the stack holds where the call succeeds, and that nothing outside it changes.
-/

namespace Exec

open AddressSpace

def userStackTop : Nat := 0xFFFFFFF000

def userStackSize : Nat := 8 * 1024 * 1024

def userStackEager : Nat := 256 * 1024

def maxStrings : Nat := 64 * 1024

def atNull : Nat := 0
def atPhdr : Nat := 3
def atPhent : Nat := 4
def atPhnum : Nat := 5
def atPagesz : Nat := 6
def atBase : Nat := 7
def atFlags : Nat := 8
def atEntry : Nat := 9
def atUid : Nat := 11
def atEuid : Nat := 12
def atGid : Nat := 13
def atEgid : Nat := 14
def atPlatform : Nat := 15
def atHwcap : Nat := 16
def atClktck : Nat := 17
def atSecure : Nat := 23
def atRandom : Nat := 25
def atHwcap2 : Nat := 26
def atExecfn : Nat := 31
def atSysinfoEhdr : Nat := 33

inductive Arch where
  | x86_64
  | aarch64

/-- `EM_HOST`. -/
def Arch.emHost : Arch → Nat
  | x86_64 => 0x3E
  | aarch64 => 183

/-- `arch::MACHINE`. -/
def Arch.machine : Arch → Bytes
  | x86_64 => [120, 56, 54, 95, 54, 52]
  | aarch64 => [97, 97, 114, 99, 104, 54, 52]

/-- `vdso::BASE`, where the architecture passes it on. -/
def Arch.sysinfo : Arch → Option Nat
  | x86_64 => some 0x9FFFFFE000
  | aarch64 => none

/-- The machine, and the random bytes of this call. -/
structure Host where
  arch : Arch
  hwcap : UInt64 × UInt64
  random : Bytes
  length_random : random.length = 16

structure ProgramHeader where
  pType : Nat
  pFlags : Nat

def ptGnuStack : Nat := 0x6474e551

/-- The size of `Elf64ProgramHeader`. -/
def phdrSize : Nat := 56

/-- A file whose header `parse` has read. -/
structure Elf where
  data : Bytes
  phoff : Nat
  phnum : Nat
  phentsize : Nat
  phdrs : List ProgramHeader
  phnum_lt : phnum < 2 ^ 16
  phentsize_eq : phentsize = phdrSize

def readPhdr (data : Bytes) (offset : Nat) : Except String ProgramHeader :=
  if offset + phdrSize ≤ data.length then .ok ⟨getLE 4 data offset, getLE 4 data (offset + 4)⟩
  else .error "elf: field out of bounds"

def Elf.parse (arch : Arch) (data : Bytes) : Except String Elf :=
  if data.length < 64 then .error "elf: field out of bounds"
  else if slice data 0 4 ≠ [0x7f, 69, 76, 70] then .error "not an ELF executable"
  else if getLE 1 data 4 ≠ 2 ∨ getLE 2 data 18 ≠ arch.emHost then .error "not an ELF64 binary for this processor"
  else if getLE 1 data 7 ≠ 0 ∧ getLE 1 data 7 ≠ 3 then .error "unsupported ELF OS ABI"
  else if getLE 2 data 16 ≠ 2 ∧ getLE 2 data 16 ≠ 3 then .error "only ET_EXEC and ET_DYN binaries are supported"
  else if hsize : getLE 2 data 54 = phdrSize then
    match (List.range (getLE 2 data 56)).mapM fun i => readPhdr data (getLE 8 data 32 + i * getLE 2 data 54) with
    | .error e => .error e
    | .ok phdrs => .ok ⟨data, getLE 8 data 32, getLE 2 data 56, getLE 2 data 54, phdrs, getLE_lt 2 data 56, hsize⟩
  else .error "elf: unexpected program header size"

/-- The program headers are in the file. -/
def Elf.InRange (elf : Elf) : Prop := elf.phoff + elf.phnum * elf.phentsize ≤ elf.data.length

structure Loaded where
  phdr : Option UInt64
  phnum : UInt64
  entry : UInt64

structure StackSpec where
  args : List Bytes
  envp : List Bytes
  execfn : Bytes
  uid : UInt32
  ruid : UInt32
  secure : Bool

def stackProt (elf : Elf) : Prot where
  read := true
  write := true
  exec :=
    match elf.phdrs.find? (·.pType = ptGnuStack) with
    | some ph => ph.pFlags % 2 = 1
    | none => true

def StackSpec.strings (spec : StackSpec) : List Bytes := spec.args ++ spec.envp

def stringsSize (spec : StackSpec) : Nat := (spec.strings.map fun s => s.length + 1).sum + spec.execfn.length + 1

/-- What goes above the table of words, with the offsets of its parts. -/
structure Blob where
  bytes : Bytes
  offsets : List Nat
  execfnOff : Nat
  platformOff : Nat
  randomOff : Nat
  phdrOff : Option Nat

def pushString (r : Bytes × List Nat) (s : Bytes) : Bytes × List Nat := (r.1 ++ (s ++ [0]), r.2 ++ [r.1.length])

/-- The blob; the program headers are copied to it where `load` did not find them in the image. -/
def blobOf (host : Host) (spec : StackSpec) (main : Loaded) (elf : Elf) : Blob :=
  let strings := spec.strings.foldl pushString ([], [])
  let named := strings.1 ++ (spec.execfn ++ [0])
  let platform := named ++ (host.arch.machine ++ [0])
  let random := platform ++ host.random
  let off := (random.length + 7) / 8 * 8
  if main.phdr.isNone then
    ⟨random ++ (zeros (off - random.length) ++ slice elf.data elf.phoff (elf.phnum * elf.phentsize)), strings.2,
      strings.1.length, named.length, platform.length, some off⟩
  else ⟨random, strings.2, strings.1.length, named.length, platform.length, none⟩

def blobStart (blob : Blob) : Nat := (userStackTop - 16 - blob.bytes.length) / 16 * 16

def auxvOf (host : Host) (spec : StackSpec) (main : Loaded) (interpBase : UInt64) (blob : Blob) : List (Nat × Nat) :=
  let at_ := fun off => blobStart blob + off
  [(atPhdr, main.phdr.elim (at_ (blob.phdrOff.getD 0)) UInt64.toNat),
    (atPhent, phdrSize),
    (atPhnum, main.phnum.toNat),
    (atPagesz, pageSize),
    (atBase, interpBase.toNat),
    (atFlags, 0),
    (atEntry, main.entry.toNat),
    (atUid, spec.ruid.toNat),
    (atEuid, spec.uid.toNat),
    (atGid, spec.ruid.toNat),
    (atEgid, spec.uid.toNat),
    (atSecure, spec.secure.toNat),
    (atRandom, at_ blob.randomOff),
    (atPlatform, at_ blob.platformOff),
    (atHwcap, host.hwcap.1.toNat),
    (atHwcap2, host.hwcap.2.toNat),
    (atClktck, 100),
    (atExecfn, at_ blob.execfnOff)] ++ (host.arch.sysinfo.map fun base => (atSysinfoEhdr, base)).toList

/-- The table of words. -/
def wordsOf (spec : StackSpec) (blob : Blob) (auxv : List (Nat × Nat)) : List Nat :=
  let ptrs := blob.offsets.map fun off => blobStart blob + off
  spec.args.length :: (ptrs.take spec.args.length ++ (0 :: (ptrs.drop spec.args.length ++
    (0 :: (auxv.flatMap (fun p => [p.1, p.2]) ++ [atNull, 0])))))

def spOf (blob : Blob) (words : List Nat) : Nat := (blobStart blob - words.length * 8) / 16 * 16

/-- The part of `build_stack` after the mapping. -/
def writeStack (p : Phys) (a : AddressSpace) (host : Host) (spec : StackSpec) (main : Loaded) (elf : Elf)
    (interpBase : UInt64) : (Phys × AddressSpace) × Except String Nat :=
  if maxStrings < stringsSize spec then ((p, a), .error "argument list too long")
  else
    let blob := blobOf host spec main elf
    let wrote := writeBytes p a (blobStart blob) blob.bytes
    if ¬ wrote.2.2 then ((wrote.1, wrote.2.1), .error "elf: failed to write stack")
    else
      let words := wordsOf spec blob (auxvOf host spec main interpBase blob)
      let sp := spOf blob words
      if sp < userStackTop - userStackEager + pageSize ∨ sp < userStackTop - userStackSize + pageSize then
        ((wrote.1, wrote.2.1), .error "argument list too long")
      else
        let table := writeBytes wrote.1 wrote.2.1 sp (words.flatMap (toLE 8))
        if ¬ table.2.2 then ((table.1, table.2.1), .error "elf: failed to write stack")
        else ((table.1, table.2.1), .ok sp)

/-- The mapping at the start of `build_stack`. -/
def mapStack (p : Phys) (a : AddressSpace) (elf : Elf) : Phys × AddressSpace × Bool :=
  let stackBase := userStackTop - userStackSize
  let eagerBase := userStackTop - userStackEager
  let zero := mapZero p a stackBase (userStackSize - userStackEager)
  if ¬ zero.2.2 then zero
  else
    let eager := allocRange zero.1 zero.2.1 eagerBase userStackEager
    if ¬ eager.2.2 then eager
    else (eager.1, protectRange eager.1 eager.2.1 stackBase userStackSize (stackProt elf), true)

def buildStack (p : Phys) (a : AddressSpace) (host : Host) (spec : StackSpec) (main : Loaded) (elf : Elf)
    (interpBase : UInt64) : (Phys × AddressSpace) × Except String Nat :=
  let mapped := mapStack p a elf
  if ¬ mapped.2.2 then ((mapped.1, mapped.2.1), .error "out of memory")
  else writeStack mapped.1 mapped.2.1 host spec main elf interpBase

/-! ### The blob -/

/-- The string `s` is at `off`, with the zero byte that ends it. -/
def Packed (bytes : Bytes) (s : Bytes) (off : Nat) : Prop := (s ++ [0]) <+: bytes.drop off ∧ off + (s.length + 1) ≤ bytes.length

theorem prefix_drop_append {b c more : Bytes} {off : Nat} (h : c <+: b.drop off) (hoff : off ≤ b.length) :
    c <+: (b ++ more).drop off := by
  rw [drop_append_of_le_length hoff]
  exact h.trans (prefix_append ..)

theorem Packed.append {bytes s : Bytes} {off : Nat} (h : Packed bytes s off) (more : Bytes) : Packed (bytes ++ more) s off := by
  refine ⟨prefix_drop_append h.1 (by have := h.2; omega), ?_⟩
  rw [length_append]
  have := h.2
  omega

theorem packed_last (bytes s : Bytes) : Packed (bytes ++ (s ++ [0])) s bytes.length := by
  refine ⟨?_, ?_⟩
  · rw [drop_left]
  · rw [length_append, length_append, length_singleton]

theorem pushStrings_spec (l : List Bytes) {done : List Bytes} {r : Bytes × List Nat} (h : List.Forall₂ (Packed r.1) done r.2) :
    List.Forall₂ (Packed (l.foldl pushString r).1) (done ++ l) (l.foldl pushString r).2 ∧
      (l.foldl pushString r).1.length = r.1.length + (l.map fun s => s.length + 1).sum := by
  induction l generalizing done r with
  | nil => exact ⟨(List.append_nil done).symm ▸ h, rfl⟩
  | cons s l ih =>
    have hnext : List.Forall₂ (Packed (pushString r s).1) (done ++ [s]) (pushString r s).2 :=
      rel_append (h.imp fun _ _ hp => hp.append (s ++ [0])) (.cons (packed_last r.1 s) .nil)
    obtain ⟨hall, hlen⟩ := ih hnext
    refine ⟨append_cons .. ▸ hall, hlen.trans ?_⟩
    show (r.1 ++ (s ++ [0])).length + _ = _
    rw [length_append, length_append, map_cons, sum_cons, length_singleton, add_assoc]

/-- The parts of the blob. -/
structure BlobParts (host : Host) (spec : StackSpec) (main : Loaded) (elf : Elf) (blob : Blob) : Prop where
  strings : List.Forall₂ (Packed blob.bytes) spec.strings blob.offsets
  execfn : Packed blob.bytes spec.execfn blob.execfnOff
  platform : Packed blob.bytes host.arch.machine blob.platformOff
  random : host.random <+: blob.bytes.drop blob.randomOff
  randomEnd : blob.randomOff + 16 ≤ blob.bytes.length
  phdrs : main.phdr = none → ∃ off, blob.phdrOff = some off ∧ off ≤ blob.bytes.length ∧
    slice elf.data elf.phoff (elf.phnum * elf.phentsize) <+: blob.bytes.drop off
  length : blob.bytes.length ≤ stringsSize spec + 31 + elf.phnum * elf.phentsize

theorem length_machine (arch : Arch) : arch.machine.length ≤ 7 := by
  cases arch <;> decide

theorem blobOf_parts (host : Host) (spec : StackSpec) (main : Loaded) (elf : Elf) :
    BlobParts host spec main elf (blobOf host spec main elf) := by
  have hempty : List.Forall₂ (Packed (([], []) : Bytes × List Nat).1) [] (([], []) : Bytes × List Nat).2 := .nil
  obtain ⟨hstrings, hlen⟩ := pushStrings_spec spec.strings hempty
  rw [nil_append] at hstrings
  have hmachine := length_machine host.arch
  have hrandom := host.length_random
  unfold blobOf
  dsimp only
  generalize spec.strings.foldl pushString ([], []) = strings at hstrings hlen
  have hnamed : (strings.1 ++ (spec.execfn ++ [0])).length = stringsSize spec := by
    rw [length_append, length_append, hlen]
    unfold stringsSize
    show 0 + _ + (_ + 1) = _
    omega
  have hexecfn := packed_last strings.1 spec.execfn
  have hall := hstrings.imp fun _ _ hp => hp.append (spec.execfn ++ [0])
  generalize strings.1 ++ (spec.execfn ++ [0]) = named at hnamed hexecfn hall
  have hplatform := packed_last named host.arch.machine
  have hall := hall.imp fun _ _ hp => hp.append (host.arch.machine ++ [0])
  have hexecfn := hexecfn.append (host.arch.machine ++ [0])
  have hlenPlatform : (named ++ (host.arch.machine ++ [0])).length ≤ stringsSize spec + 8 := by
    rw [length_append, length_append, hnamed, length_singleton]
    omega
  generalize named ++ (host.arch.machine ++ [0]) = platform at hplatform hall hexecfn hlenPlatform
  have hall := hall.imp fun _ _ hp => hp.append host.random
  have hexecfn := hexecfn.append host.random
  have hplatform := hplatform.append host.random
  have hpart : host.random <+: (platform ++ host.random).drop platform.length := by rw [drop_left]
  have hlenRandom : (platform ++ host.random).length = platform.length + 16 := by rw [length_append, hrandom]
  generalize platform ++ host.random = random at hall hexecfn hplatform hpart hlenRandom
  by_cases hphdr : main.phdr = none
  · rw [if_pos (by rw [hphdr]; rfl)]
    generalize hoff : (random.length + 7) / 8 * 8 = off
    refine ⟨hall.imp fun _ _ hp => hp.append _, hexecfn.append _, hplatform.append _, ?_, ?_, fun _ => ⟨off, rfl, ?_, ?_⟩, ?_⟩
    · exact prefix_drop_append hpart (hlenRandom ▸ Nat.le_add_right ..)
    · show _ ≤ (random ++ _).length
      rw [length_append]
      show platform.length + 16 ≤ _
      omega
    · show _ ≤ (random ++ (zeros _ ++ _)).length
      rw [length_append, length_append, length_zeros]
      omega
    · show _ <+: (random ++ (zeros _ ++ _)).drop off
      have hpad : (random ++ zeros (off - random.length)).length = off := by
        rw [length_append, length_zeros]
        omega
      rw [← append_assoc, drop_left' hpad]
    · show (random ++ (zeros _ ++ slice _ _ _)).length ≤ _
      have := length_slice_le elf.data elf.phoff (elf.phnum * elf.phentsize)
      rw [length_append, length_append, length_zeros]
      omega
  · rw [if_neg fun h => hphdr (Option.isNone_iff_eq_none.mp h)]
    refine ⟨hall, hexecfn, hplatform, hpart, ?_, fun h => absurd h hphdr, ?_⟩
    · exact hlenRandom.ge
    · show random.length ≤ _
      omega

variable {blob : Blob}

/-- Where the blob lies, if the strings are within their limit. -/
theorem blobStart_bounds {host : Host} {spec : StackSpec} {main : Loaded} {elf : Elf}
    (hparts : BlobParts host spec main elf blob) (hsize : stringsSize spec ≤ maxStrings) :
    userStackTop - userStackSize ≤ blobStart blob ∧ blobStart blob + blob.bytes.length ≤ userStackTop := by
  have hlen := hparts.length
  have hnum := elf.phnum_lt
  rw [elf.phentsize_eq] at hlen
  unfold blobStart userStackTop userStackSize maxStrings phdrSize at *
  omega

/-! ### Reading the stack -/

variable {rd : Nat → Option UInt8}

theorem readString_of_packed {base fuel off : Nat} {bytes s : Bytes} (hrd : Memory.Holds rd base bytes) (hs : Packed bytes s off)
    (hnul : (0 : UInt8) ∉ s) (hfuel : s.length < fuel) : readString rd fuel (base + off) = some s :=
  readString_of_holds (hrd.part hs.1 (by have := hs.2; omega)) hnul hfuel

theorem point_of_packed {base fuel : Nat} {bytes : Bytes} {l : List Bytes} {offs : List Nat} (hrd : Memory.Holds rd base bytes)
    (hbase : 0 < base) (hl : List.Forall₂ (Packed bytes) l offs) (hnul : ∀ s ∈ l, (0 : UInt8) ∉ s)
    (hfuel : ∀ s ∈ l, s.length < fuel) : Memory.Point rd fuel l (offs.map fun off => base + off) := by
  induction hl with
  | nil => exact .nil
  | cons hs _ ih =>
    obtain ⟨hnul, hnuls⟩ := forall_mem_cons.mp hnul
    obtain ⟨hfuel, hfuels⟩ := forall_mem_cons.mp hfuel
    exact .cons ⟨ne_of_gt (Nat.add_pos_left hbase _), readString_of_packed hrd hs hnul hfuel⟩ (ih hnuls hfuels)

theorem readBytes_of_part {base off n : Nat} {bytes b : Bytes} (hrd : Memory.Holds rd base bytes) (hb : b <+: bytes.drop off)
    (hoff : off ≤ bytes.length) (hn : b.length = n) : readBytes rd n (base + off) = some b := by
  subst hn
  exact readBytes_of_holds (hrd.part hb hoff)

theorem auxvOf_keys (host : Host) (spec : StackSpec) (main : Loaded) (interpBase : UInt64) (blob : Blob) :
    (∀ p ∈ auxvOf host spec main interpBase blob, p.1 ≠ 0) ∧ (auxvOf host spec main interpBase blob).length ≤ 19 := by
  unfold auxvOf
  cases host.arch <;> exact ⟨by simp [atPhdr, atPhent, atPhnum, atPagesz, atBase, atFlags, atEntry, atUid, atEuid, atGid, atEgid,
    atSecure, atRandom, atPlatform, atHwcap, atHwcap2, atClktck, atExecfn, atSysinfoEhdr, Arch.sysinfo], by simp [Arch.sysinfo]⟩

/-- Each value of the auxiliary vector fits in a word. -/
theorem auxvOf_lt (host : Host) (spec : StackSpec) (main : Loaded) (elf : Elf) (interpBase : UInt64)
    (hparts : BlobParts host spec main elf blob) (hend : blobStart blob + blob.bytes.length ≤ userStackTop) :
    ∀ p ∈ auxvOf host spec main interpBase blob, p.1 < 2 ^ 64 ∧ p.2 < 2 ^ 64 := by
  have htop : userStackTop < 2 ^ 64 := by decide
  have hat : ∀ off, off ≤ blob.bytes.length → blobStart blob + off < 2 ^ 64 := fun off hoff => by omega
  have hphdr : main.phdr.elim (blobStart blob + blob.phdrOff.getD 0) UInt64.toNat < 2 ^ 64 := by
    cases hfound : main.phdr with
    | some v => exact v.toNat_lt
    | none =>
      obtain ⟨off, hoff, hle, -⟩ := hparts.phdrs hfound
      rw [hoff]
      exact hat off hle
  have hsecure : spec.secure.toNat < 2 ^ 64 := (Bool.toNat_le _).trans_lt (by decide)
  have hrandom := hat blob.randomOff ((le_add_right ..).trans hparts.randomEnd)
  have hplatform := hat blob.platformOff ((le_add_right ..).trans hparts.platform.2)
  have hexecfn := hat blob.execfnOff ((le_add_right ..).trans hparts.execfn.2)
  have hword : ∀ n : UInt32, n.toNat < 2 ^ 64 := fun n => n.toNat_lt.trans (by decide)
  unfold auxvOf
  refine forall_mem_append.mpr ⟨?_, ?_⟩
  · simp only [forall_mem_cons]
    exact ⟨⟨by decide, hphdr⟩, ⟨by decide, by decide⟩, ⟨by decide, main.phnum.toNat_lt⟩, ⟨by decide, by decide⟩,
      ⟨by decide, interpBase.toNat_lt⟩, ⟨by decide, by decide⟩, ⟨by decide, main.entry.toNat_lt⟩, ⟨by decide, hword _⟩,
      ⟨by decide, hword _⟩, ⟨by decide, hword _⟩, ⟨by decide, hword _⟩, ⟨by decide, hsecure⟩, ⟨by decide, hrandom⟩,
      ⟨by decide, hplatform⟩, ⟨by decide, host.hwcap.1.toNat_lt⟩, ⟨by decide, host.hwcap.2.toNat_lt⟩,
      ⟨by decide, by decide⟩, ⟨by decide, hexecfn⟩, fun p hp => absurd hp not_mem_nil⟩
  · cases host.arch with
    | x86_64 => exact forall_mem_singleton.mpr ⟨by decide, by decide⟩
    | aarch64 => exact fun p hp => absurd hp not_mem_nil

/-- The number of words. -/
theorem length_wordsOf (spec : StackSpec) (blob : Blob) (auxv : List (Nat × Nat)) :
    (wordsOf spec blob auxv).length = blob.offsets.length + 2 * auxv.length + 5 := by
  have hsplit := take_append_drop spec.args.length (blob.offsets.map fun off => blobStart blob + off)
  have hlen := congrArg List.length hsplit
  rw [length_append, length_map] at hlen
  have hpairs : (auxv.flatMap fun p => [p.1, p.2]).length = 2 * auxv.length := by
    induction auxv with
    | nil => rfl
    | cons p auxv ih =>
      rw [flatMap_cons, length_append, ih]
      show 2 + 2 * auxv.length = 2 * (auxv.length + 1)
      omega
  unfold wordsOf
  simp only [length_cons, length_append, hpairs, length_nil]
  omega

theorem length_strings_le (spec : StackSpec) : spec.strings.length ≤ stringsSize spec := by
  have hcount := length_le_sum_of_one_le (spec.strings.map fun s => s.length + 1) fun n hn => by
    obtain ⟨s, -, rfl⟩ := mem_map.mp hn
    exact Nat.le_add_left ..
  rw [length_map] at hcount
  unfold stringsSize
  omega

/-- Each word of the table fits. -/
theorem wordsOf_lt {host : Host} {spec : StackSpec} {main : Loaded} {elf : Elf}
    (hparts : BlobParts host spec main elf blob) (hsize : stringsSize spec ≤ maxStrings) {auxv : List (Nat × Nat)}
    (hauxv : ∀ p ∈ auxv, p.1 < 2 ^ 64 ∧ p.2 < 2 ^ 64) : ∀ w ∈ wordsOf spec blob auxv, w < 2 ^ 64 := by
  have hend := (blobStart_bounds hparts hsize).2
  have htop : userStackTop < 2 ^ 64 := by decide
  have hptr : ∀ w ∈ blob.offsets.map fun off => blobStart blob + off, w < 2 ^ 64 := by
    intro w hw
    obtain ⟨off, hoff, rfl⟩ := mem_map.mp hw
    obtain ⟨i, hi, rfl⟩ := mem_iff_getElem.mp hoff
    have hpacked := (forall₂_iff_get.mp hparts.strings).2 i (hparts.strings.length_eq ▸ hi) hi
    have := hpacked.2
    simp only [get_eq_getElem] at this
    omega
  have hargc : spec.args.length < 2 ^ 64 := by
    have := length_strings_le spec
    unfold StackSpec.strings at this
    rw [length_append] at this
    unfold maxStrings at hsize
    omega
  have hpair : ∀ w ∈ auxv.flatMap (fun p => [p.1, p.2]), w < 2 ^ 64 := by
    intro w hw
    obtain ⟨p, hp, hw⟩ := mem_flatMap.mp hw
    rcases mem_cons.mp hw with rfl | hw
    · exact (hauxv p hp).1
    · rw [mem_singleton.mp hw]
      exact (hauxv p hp).2
  unfold wordsOf
  refine forall_mem_cons.mpr ⟨hargc, forall_mem_append.mpr ⟨fun w hw => hptr w (mem_of_mem_take hw), ?_⟩⟩
  refine forall_mem_cons.mpr ⟨by decide, forall_mem_append.mpr ⟨fun w hw => hptr w (mem_of_mem_drop hw), ?_⟩⟩
  exact forall_mem_cons.mpr ⟨by decide, forall_mem_append.mpr ⟨hpair, by decide⟩⟩

/-- What a program finds on its stack. -/
structure Starts (rd : Nat → Option UInt8) (host : Host) (spec : StackSpec) (main : Loaded) (elf : Elf)
    (interpBase : UInt64) (blob : Blob) (sp : Nat) : Prop where
  aligned : sp % 16 = 0
  within : userStackTop - userStackEager ≤ sp
  apart : sp + 8 * (wordsOf spec blob (auxvOf host spec main interpBase blob)).length ≤ blobStart blob
  inside : blobStart blob + blob.bytes.length ≤ userStackTop
  start : ∀ fuel, userStackEager ≤ fuel →
    Memory.readStart rd fuel sp = some ⟨spec.args, spec.envp, auxvOf host spec main interpBase blob⟩
  execfn : ∃ ptr, (auxvOf host spec main interpBase blob).lookup atExecfn = some ptr ∧
    ∀ fuel, userStackEager ≤ fuel → Memory.readString rd fuel ptr = some spec.execfn
  random : ∃ ptr, (auxvOf host spec main interpBase blob).lookup atRandom = some ptr ∧ blobStart blob ≤ ptr ∧
    ptr + 16 ≤ blobStart blob + blob.bytes.length ∧ Memory.readBytes rd 16 ptr = some host.random
  phdr : ∃ ptr, (auxvOf host spec main interpBase blob).lookup atPhdr = some ptr ∧
    match main.phdr with
    | some v => ptr = v.toNat
    | none => Memory.readBytes rd (elf.phnum * elf.phentsize) ptr = some (slice elf.data elf.phoff (elf.phnum * elf.phentsize))

/-- No string has a zero byte. -/
def StackSpec.NulFree (spec : StackSpec) : Prop := (∀ s ∈ spec.strings, (0 : UInt8) ∉ s) ∧ (0 : UInt8) ∉ spec.execfn

theorem starts_of_holds {host : Host} {spec : StackSpec} {main : Loaded} {elf : Elf} (interpBase : UInt64)
    {sp : Nat} (hparts : BlobParts host spec main elf blob) (hnul : spec.NulFree) (hrange : elf.InRange)
    (hsize : stringsSize spec ≤ maxStrings) (hsp : sp = spOf blob (wordsOf spec blob (auxvOf host spec main interpBase blob)))
    (hlow : userStackTop - userStackEager + pageSize ≤ sp) (hblob : Memory.Holds rd (blobStart blob) blob.bytes)
    (hwords : Memory.Holds rd sp ((wordsOf spec blob (auxvOf host spec main interpBase blob)).flatMap (toLE 8))) :
    Starts rd host spec main elf interpBase blob sp := by
  obtain ⟨-, hend⟩ := blobStart_bounds hparts hsize
  obtain ⟨hkeys, hauxv⟩ := auxvOf_keys host spec main interpBase blob
  have hvalues := auxvOf_lt host spec main elf interpBase hparts hend
  have hspBounds : sp + 8 * (wordsOf spec blob (auxvOf host spec main interpBase blob)).length ≤ blobStart blob ∧ sp % 16 = 0 := by
    unfold spOf at hsp
    unfold userStackTop userStackEager pageSize at hlow
    omega
  have hpos : 0 < blobStart blob := by
    have := hspBounds.1
    unfold userStackTop userStackEager pageSize at hlow
    omega
  have hstrings : ∀ fuel, userStackEager ≤ fuel → ∀ s ∈ spec.strings, s.length < fuel := fun fuel hfuel s hs => by
    have := single_le_sum (l := spec.strings.map fun s => s.length + 1) (fun _ _ => zero_le _) _
      (mem_map_of_mem hs)
    unfold stringsSize maxStrings at hsize
    unfold userStackEager at hfuel
    omega
  have hpoint : ∀ fuel, userStackEager ≤ fuel →
      Memory.Point rd fuel spec.strings (blob.offsets.map fun off => blobStart blob + off) := fun fuel hfuel =>
    point_of_packed hblob hpos hparts.strings hnul.1 (hstrings fuel hfuel)
  have hargc : spec.strings.length ≤ maxStrings := (length_strings_le spec).trans hsize
  refine ⟨hspBounds.2, by omega, hspBounds.1, hend, fun fuel hfuel => ?_, ⟨_, rfl, fun fuel hfuel => ?_⟩,
    ⟨_, rfl, Nat.le_add_right .., ?_, ?_⟩, ⟨_, rfl, ?_⟩⟩
  · have htake := forall₂_take spec.args.length (hpoint fuel hfuel)
    have hdrop := forall₂_drop spec.args.length (hpoint fuel hfuel)
    rw [StackSpec.strings, List.take_left] at htake
    rw [StackSpec.strings, drop_left] at hdrop
    refine readStart_of_words htake hdrop hkeys (holdsWords_of_holds hwords (wordsOf_lt hparts hsize hvalues)) ?_ ?_
    · unfold StackSpec.strings at hargc
      rw [length_append] at hargc
      unfold maxStrings at hargc
      unfold userStackEager at hfuel
      omega
    · unfold userStackEager at hfuel
      omega
  · refine readString_of_packed hblob hparts.execfn hnul.2 ?_
    unfold stringsSize maxStrings at hsize
    unfold userStackEager at hfuel
    omega
  · show blobStart blob + blob.randomOff + 16 ≤ _
    have := hparts.randomEnd
    omega
  · exact readBytes_of_part hblob hparts.random ((Nat.le_add_right ..).trans hparts.randomEnd) host.length_random
  · cases hfound : main.phdr with
    | some v => rfl
    | none =>
      obtain ⟨off, hoff, hle, hpart⟩ := hparts.phdrs hfound
      rw [hoff]
      exact readBytes_of_part hblob hpart hle (length_slice hrange)

/-! ### Writing the stack -/

/-- The pages of the stack. -/
def stackPages : List Nat := pagesOf (userStackTop - userStackSize) userStackSize

/-- Those that are reserved only. -/
def lazyPagesOf : List Nat := pagesOf (userStackTop - userStackSize) (userStackSize - userStackEager)

/-- Those that have a frame from the start. -/
def eagerPages : List Nat := pagesOf (userStackTop - userStackEager) userStackEager

theorem userPage_of_stack {page : Nat} (h : page ∈ stackPages) : UserPage page := by
  have := mem_pagesOf.mp h
  unfold UserPage
  unfold userStackTop userStackSize pageSize userBase userEnd at *
  omega

theorem stack_of_eager {page : Nat} (h : page ∈ eagerPages) : page ∈ stackPages := by
  have := mem_pagesOf.mp h
  refine mem_pagesOf.mpr ?_
  unfold userStackTop userStackSize userStackEager pageSize at *
  omega

theorem stack_of_lazy {page : Nat} (h : page ∈ lazyPagesOf) : page ∈ stackPages := by
  have := mem_pagesOf.mp h
  refine mem_pagesOf.mpr ?_
  omega

variable {pool : Nat → Bool} {h : Nat → Nat} {p p' p'' : Phys} {a a' a'' : AddressSpace}

/-- A step that changes pages of the stack only, and gives no frame to those that are reserved. -/
structure Step (pool : Nat → Bool) (h : Nat → Nat) (p : Phys) (a : AddressSpace) (p' : Phys) (a' : AddressSpace) : Prop where
  moves : Moves pool h (Moves.Among stackPages) p a p' a'
  absent : ∀ page ∈ lazyPagesOf, a.Absent page → a'.Absent page

theorem Step.trans (h₁ : Step pool h p a p' a') (h₂ : Step pool h p' a' p'' a'') : Step pool h p a p'' a'' :=
  ⟨h₁.moves.trans h₂.moves, fun page hpage hq => h₂.absent page hpage (h₁.absent page hpage hq)⟩

theorem among_mono {pages pages' : List Nat} (hsub : ∀ page ∈ pages, page ∈ pages') (q : Nat) (hq : Moves.Among pages q) :
    Moves.Among pages' q := by
  obtain ⟨page, hpage, hsame⟩ := hq
  exact ⟨page, hsub page hpage, hsame⟩

/-- What such steps leave alone: every byte outside the part that has frames from the start. -/
theorem Step.outside (hstep : Step pool h p a p' a') (hshaped : a.Shaped) (hfresh : ∀ page ∈ lazyPagesOf, a.Absent page)
    {addr : Nat} (haddr : addr < userStackTop - userStackEager ∨ userStackTop ≤ addr) :
    a'.readByte p' addr = a.readByte p addr := by
  by_cases hlazy : addr / pageSize ∈ lazyPagesOf
  · rw [readByte_of_absent (hfresh _ hlazy), readByte_of_absent (hstep.absent _ hlazy (hfresh _ hlazy))]
  by_cases hu : isUserRange addr 1 = true
  · refine hstep.moves.readByte hshaped fun ⟨page, hpage, hsame⟩ => ?_
    have heq := eq_of_same hsame (userPage_of_stack hpage).lt (page_lt hu)
    have hin := mem_pagesOf.mp hpage
    refine hlazy (mem_pagesOf.mpr ?_)
    unfold userStackTop userStackSize userStackEager pageSize at *
    omega
  · have hu := Bool.eq_false_iff.mpr hu
    rw [readByte_of_not_user hu, readByte_of_not_user hu]

/-- A write to the part with frames. -/
theorem write_eager {virt : Nat} {data : Bytes} (hb : Balanced pool p (fun x => h x + a.held x)) (hok : a.Ok p)
    (hready : ∀ page ∈ eagerPages, a.Ready page) (hlow : userStackTop - userStackEager ≤ virt)
    (hhigh : virt + data.length ≤ userStackTop) :
    ∃ p', writeBytes p a virt data = (p', a, true) ∧ Step pool h p a p' a ∧
      a.readByte p' = poke (a.readByte p) virt data := by
  have hpages : ∀ page ∈ pagesOf virt data.length, page ∈ eagerPages := fun page hpage => by
    have := mem_pagesOf.mp hpage
    refine mem_pagesOf.mpr ?_
    unfold userStackTop userStackEager pageSize at *
    omega
  obtain ⟨p', hrun, hmoves, hread⟩ := writeBytes_ready hb hok fun page hpage =>
    ⟨hready page (hpages page hpage), userPage_of_stack (stack_of_eager (hpages page hpage))⟩
  exact ⟨p', hrun, ⟨hmoves.mono (among_mono fun page hpage => stack_of_eager (hpages page hpage)), fun _ _ => id⟩, hread⟩

theorem length_table (words : List Nat) : (words.flatMap (toLE 8)).length = 8 * words.length := by
  induction words with
  | nil => rfl
  | cons w words ih =>
    rw [flatMap_cons, length_append, length_toLE, ih, length_cons, mul_succ, add_comm]

/-- The arguments do not fit. -/
def TooLong (host : Host) (spec : StackSpec) (main : Loaded) (elf : Elf) (interpBase : UInt64) : Prop :=
  maxStrings < stringsSize spec ∨
    spOf (blobOf host spec main elf) (wordsOf spec (blobOf host spec main elf)
      (auxvOf host spec main interpBase (blobOf host spec main elf))) < userStackTop - userStackEager + pageSize

theorem writeStack_spec (host : Host) (spec : StackSpec) (main : Loaded) (elf : Elf) (interpBase : UInt64)
    (hb : Balanced pool p (fun x => h x + a.held x)) (hok : a.Ok p) (hlazy : ∀ page ∈ lazyPagesOf, a.Absent page)
    (hready : ∀ page ∈ eagerPages, a.Ready page) (hnul : spec.NulFree) (hrange : elf.InRange) :
    Step pool h p a (writeStack p a host spec main elf interpBase).1.1 (writeStack p a host spec main elf interpBase).1.2 ∧
      match (writeStack p a host spec main elf interpBase).2 with
      | .ok sp => ¬ TooLong host spec main elf interpBase ∧
          Starts ((writeStack p a host spec main elf interpBase).1.2.readByte (writeStack p a host spec main elf interpBase).1.1)
            host spec main elf interpBase (blobOf host spec main elf) sp
      | .error _ => TooLong host spec main elf interpBase := by
  have hstay : Step pool h p a p a := ⟨Moves.refl hb, fun _ _ => id⟩
  unfold writeStack
  dsimp only
  by_cases hsize : maxStrings < stringsSize spec
  · rw [if_pos hsize]
    exact ⟨hstay, .inl hsize⟩
  rw [if_neg hsize]
  have hparts := blobOf_parts host spec main elf
  have hsp : TooLong host spec main elf interpBase ↔
      spOf (blobOf host spec main elf) (wordsOf spec (blobOf host spec main elf)
        (auxvOf host spec main interpBase (blobOf host spec main elf))) < userStackTop - userStackEager + pageSize :=
    or_iff_right hsize
  rw [hsp]
  generalize hblob : blobOf host spec main elf = blob at hparts
  generalize hwords : wordsOf spec blob (auxvOf host spec main interpBase blob) = words
  obtain ⟨hbase, hend⟩ := blobStart_bounds hparts (Nat.le_of_not_lt hsize)
  have hle : spOf blob words ≤ blobStart blob := by
    unfold spOf
    omega
  by_cases hlow : userStackTop - userStackEager ≤ blobStart blob
  · obtain ⟨p₁, hrun, hstep, hread⟩ := write_eager hb hok hready hlow hend
    rw [hrun]
    dsimp only
    rw [if_neg (not_not.mpr rfl)]
    by_cases hfit : spOf blob words < userStackTop - userStackEager + pageSize
    · rw [if_pos (.inl hfit)]
      exact ⟨hstep, hfit⟩
    have hdeep : userStackTop - userStackSize ≤ userStackTop - userStackEager := by decide
    rw [if_neg (not_or.mpr ⟨hfit, by omega⟩)]
    have hlen := length_table words
    have htable : spOf blob words + 8 * words.length ≤ blobStart blob := by
      unfold spOf userStackTop userStackEager pageSize at *
      omega
    have hin : spOf blob words + (words.flatMap (toLE 8)).length ≤ userStackTop := by omega
    obtain ⟨p₂, hrun₂, hstep₂, hread₂⟩ := write_eager hstep.moves.books (hstep.moves.ok hok) hready (by omega) hin
    rw [hrun₂]
    dsimp only
    rw [if_neg (not_not.mpr rfl)]
    refine ⟨hstep.trans hstep₂, hfit, ?_⟩
    subst hwords
    refine starts_of_holds interpBase hparts hnul hrange (Nat.le_of_not_lt hsize) rfl (Nat.le_of_not_lt hfit) ?_ ?_
    · rw [hread₂, hread]
      exact (holds_poke _ _ _).poke_of_disjoint (.inl (hlen ▸ htable))
    · rw [hread₂]
      exact holds_poke _ _ _
  · have hbytes : blob.bytes ≠ [] := fun hnil => by
      have := hparts.randomEnd
      rw [hnil, length_nil] at this
      omega
    have hpage : blobStart blob / pageSize ∈ lazyPagesOf := by
      refine mem_pagesOf.mpr ?_
      unfold userStackTop userStackSize userStackEager pageSize at *
      omega
    rw [writeBytes_absent hbytes (hlazy _ hpage)]
    dsimp only
    rw [if_pos Bool.false_ne_true]
    exact ⟨hstay, by omega⟩

/-- The part that has frames from the start is given them. -/
theorem alloc_eager (hb : Balanced pool p (fun x => h x + a.held x)) (hfresh : ∀ page ∈ eagerPages, a.Absent page) :
    Step pool h p a (allocRange p a (userStackTop - userStackEager) userStackEager).1
        (allocRange p a (userStackTop - userStackEager) userStackEager).2.1 ∧
      ((allocRange p a (userStackTop - userStackEager) userStackEager).2.2 = true →
        ∀ page ∈ eagerPages, (allocRange p a (userStackTop - userStackEager) userStackEager).2.1.Ready page) := by
  have hmoves := Moves.allocRange hb (userStackTop - userStackEager) userStackEager
  have hrun : allocRange p a (userStackTop - userStackEager) userStackEager = allocPages eagerPages p a := by
    unfold allocRange
    rw [if_pos (by decide)]
    rfl
  rw [hrun] at hmoves ⊢
  refine ⟨⟨hmoves.mono (among_mono fun page => stack_of_eager), fun page hpage hq => ?_⟩,
    allocPages_ready eagerPages p a fun page hpage => (hfresh page hpage).tame⟩
  have hother : ¬ Moves.Among eagerPages page := fun ⟨q, hq, hsame⟩ => by
    have heq := eq_of_same hsame (userPage_of_stack (stack_of_eager hq)).lt (userPage_of_stack (stack_of_lazy hpage)).lt
    have hin := mem_pagesOf.mp hq
    have hlazy := mem_pagesOf.mp hpage
    unfold userStackTop userStackSize userStackEager pageSize at *
    omega
  intro e he
  exact hq e (((allocPages_leaf eagerPages p a page hq.tame).2.2 hother).symm.trans he)

/-- The area of the stack is not in use yet, as in a space that `assemble` has built. -/
def FreshStack (a : AddressSpace) : Prop := ∀ page ∈ stackPages, a.Absent page

theorem mapStack_spec (elf : Elf) (hb : Balanced pool p (fun x => h x + a.held x)) (hok : a.Ok p) (hfresh : FreshStack a) :
    Step pool h p a (mapStack p a elf).1 (mapStack p a elf).2.1 ∧
      ((mapStack p a elf).2.2 = true → ∀ page ∈ eagerPages, (mapStack p a elf).2.1.Ready page) := by
  unfold mapStack
  dsimp only
  have hzero : Step pool h p a (mapZero p a (userStackTop - userStackSize) (userStackSize - userStackEager)).1
      (mapZero p a (userStackTop - userStackSize) (userStackSize - userStackEager)).2.1 :=
    ⟨(Moves.mapLazyProt hb _ _ _ _).mono (among_mono fun page => stack_of_lazy), fun page _ hq => absent_mapZero hq p _ _⟩
  have habsent : ∀ page ∈ eagerPages,
      (mapZero p a (userStackTop - userStackSize) (userStackSize - userStackEager)).2.1.Absent page :=
    fun page hpage => absent_mapZero (hfresh page (stack_of_eager hpage)) p _ _
  generalize mapZero p a (userStackTop - userStackSize) (userStackSize - userStackEager) = zero at hzero habsent
  by_cases hzeroOk : zero.2.2 = true
  · rw [if_neg (not_not.mpr hzeroOk)]
    obtain ⟨heager, hready⟩ := alloc_eager hzero.moves.books habsent
    generalize allocRange zero.1 zero.2.1 (userStackTop - userStackEager) userStackEager = eager at heager hready
    have hbefore := hzero.trans heager
    by_cases heagerOk : eager.2.2 = true
    · rw [if_neg (not_not.mpr heagerOk)]
      dsimp only
      have hpages : ∀ q, (eager.2.1.Absent q → (protectRange eager.1 eager.2.1 (userStackTop - userStackSize) userStackSize
          (stackProt elf)).Absent q) ∧ (eager.2.1.Ready q → (protectRange eager.1 eager.2.1 (userStackTop - userStackSize)
          userStackSize (stackProt elf)).Ready q) := protectRange_pages hbefore.moves.books (hbefore.moves.ok hok) rfl
      have hprotect : Step pool h eager.1 eager.2.1 eager.1 (protectRange eager.1 eager.2.1 (userStackTop - userStackSize)
          userStackSize (stackProt elf)) := ⟨Moves.protectRange hbefore.moves.books _ _ _, fun page _ => (hpages page).1⟩
      exact ⟨hbefore.trans hprotect, fun _ page hpage => (hpages page).2 (hready heagerOk page hpage)⟩
    · rw [if_pos heagerOk]
      exact ⟨hbefore, fun hx => absurd hx heagerOk⟩
  · rw [if_pos hzeroOk]
    exact ⟨hzero, fun hx => absurd hx hzeroOk⟩

theorem mapStack_ok (elf : Elf) (hroom : p.Room 6208) : (mapStack p a elf).2.2 = true := by
  have hzero : (mapZero p a (userStackTop - userStackSize) (userStackSize - userStackEager)).2.2 = true ∧
      (mapZero p a (userStackTop - userStackSize) (userStackSize - userStackEager)).1.Room 256 := by
    unfold mapZero mapLazy mapLazyProt
    rw [if_pos (by decide)]
    have hcount : (pagesOf (userStackTop - userStackSize) (userStackSize - userStackEager)).length = 1984 :=
      length_range'.trans (by decide)
    have hneed : 256 + 3 * (pagesOf (userStackTop - userStackSize) (userStackSize - userStackEager)).length ≤ 6208 := by
      rw [hcount]
    exact Phys.Room.lazyPages _ _ (hroom.mono hneed)
  obtain ⟨hzeroOk, hleft⟩ := hzero
  have heager : (allocRange (mapZero p a (userStackTop - userStackSize) (userStackSize - userStackEager)).1
      (mapZero p a (userStackTop - userStackSize) (userStackSize - userStackEager)).2.1
      (userStackTop - userStackEager) userStackEager).2.2 = true := by
    unfold allocRange
    rw [if_pos (by decide)]
    have hcount : (pagesOf (userStackTop - userStackEager) userStackEager).length = 64 :=
      length_range'.trans (by decide)
    have hneed : 0 + 4 * (pagesOf (userStackTop - userStackEager) userStackEager).length ≤ 256 := by rw [hcount]
    exact (Phys.Room.allocPages _ (hleft.mono hneed)).1
  unfold mapStack
  dsimp only
  rw [if_neg (not_not.mpr hzeroOk), if_neg (not_not.mpr heager)]

section Spec

variable (host : Host) (spec : StackSpec) (main : Loaded) (elf : Elf) (interpBase : UInt64)
  (hb : Balanced pool p (fun x => h x + a.held x)) (hok : a.Ok p) (hfresh : FreshStack a) (hnul : spec.NulFree)
  (hrange : elf.InRange)
include hb hok hfresh hnul hrange

/-- What `build_stack` does where the stack is mapped. -/
theorem buildStack_mapped (hmapped : (mapStack p a elf).2.2 = true) {out : (Phys × AddressSpace) × Except String Nat}
    (hout : buildStack p a host spec main elf interpBase = out) : Step pool h p a out.1.1 out.1.2 ∧
      match out.2 with
      | .ok sp => ¬ TooLong host spec main elf interpBase ∧
          Starts (out.1.2.readByte out.1.1) host spec main elf interpBase (blobOf host spec main elf) sp
      | .error _ => TooLong host spec main elf interpBase := by
  obtain ⟨hstep, hready⟩ := mapStack_spec elf hb hok hfresh
  subst hout
  unfold buildStack
  rw [if_neg (not_not.mpr hmapped)]
  obtain ⟨hwrite, hend⟩ := writeStack_spec host spec main elf interpBase hstep.moves.books (hstep.moves.ok hok)
    (fun page hpage => hstep.absent page hpage (hfresh page (stack_of_lazy hpage))) (hready hmapped) hnul hrange
  exact ⟨hstep.trans hwrite, hend⟩

/-- With enough memory the stack is built, if the arguments fit. -/
theorem buildStack_ok (hfit : ¬ TooLong host spec main elf interpBase) (hroom : p.Room 6208) :
    ∃ sp, (buildStack p a host spec main elf interpBase).2 = .ok sp ∧
      Starts ((buildStack p a host spec main elf interpBase).1.2.readByte (buildStack p a host spec main elf interpBase).1.1)
        host spec main elf interpBase (blobOf host spec main elf) sp := by
  have hend := (buildStack_mapped host spec main elf interpBase hb hok hfresh hnul hrange (mapStack_ok elf hroom) rfl).2
  cases hresult : (buildStack p a host spec main elf interpBase).2 with
  | ok sp =>
    rw [hresult] at hend
    exact ⟨sp, rfl, hend.2⟩
  | error e =>
    rw [hresult] at hend
    exact absurd hend hfit

end Spec

/-! ### A stray `PT_PHDR` -/

/-- Memory with all frames free but the one of `emptySpace`. -/
def freeMemory : Phys where
  allocator := ⟨fun f => decide (0 < f ∧ f < 8192), 0, 8192, 8191⟩
  refs _ := 0
  refsLen := 0
  shared := 0
  bytes _ := zeroPage
  deferred := []
  nx := true

def emptySpace : AddressSpace := ⟨Table.empty 3 0, [], []⟩

theorem freeMemory_balanced :
    Balanced (fun f => decide (f < 8192)) freeMemory (fun x => (fun _ => 0) x + emptySpace.held x) := by
  have hheld : ∀ x, emptySpace.held x = one 0 x := Table.held_empty Pte.own 3 0
  have hone : ∀ x, 0 < x → one 0 x = 0 := fun x hx => one_of_ne (Nat.ne_of_lt hx)
  refine ⟨fun f hf => (of_decide_eq_true hf).trans (by decide), fun f hf => ?_, fun f hf => ?_, fun f hf hfree => ?_,
    fun _ _ => rfl, rfl⟩
  · have hge := of_decide_eq_false hf
    refine ⟨?_, decide_eq_false (by omega)⟩
    show 0 + emptySpace.held f + 0 = 0
    rw [hheld, hone f (by omega)]
  · have hpos := (of_decide_eq_true hf).1
    refine ⟨?_, rfl⟩
    show 0 + emptySpace.held f + 0 = 0
    rw [hheld, hone f hpos]
  · have hlt := of_decide_eq_true hf
    have hzero : f = 0 := by
      have := of_decide_eq_false hfree
      omega
    subst hzero
    show 0 + emptySpace.held 0 + 0 = 0 + 1
    rw [hheld]
    rfl

theorem emptySpace_leaf (page : Nat) : emptySpace.leaf page = none := Table.get_empty 3 0 page

theorem emptySpace_ok : emptySpace.Ok freeMemory := fun page e he => by
  rw [emptySpace_leaf] at he
  cases he

theorem emptySpace_fresh : FreshStack emptySpace := fun page _ e he => by
  rw [emptySpace_leaf] at he
  cases he

theorem freeMemory_room : freeMemory.Room 6208 := by
  refine ⟨by decide, ?_⟩
  have hsub : Finset.Ico 1 8192 ⊆ (Finset.range freeMemory.allocator.limit).filter fun f => freeMemory.allocator.bitmap f := by
    intro f hf
    obtain ⟨hlow, hhigh⟩ := Finset.mem_Ico.mp hf
    exact Finset.mem_filter.mpr ⟨Finset.mem_range.mpr hhigh, decide_eq_true ⟨hlow, hhigh⟩⟩
  have hcard := Finset.card_le_card hsub
  rw [card_Ico] at hcard
  omega

/-- A file with a `PT_PHDR` header whose address is zero, and a segment that holds the whole file. -/
def strayFile : Bytes :=
  [0x7f, 69, 76, 70, 2, 1, 1, 0] ++ zeros 8 ++ toLE 2 2 ++ toLE 2 0x3E ++ toLE 4 1 ++ toLE 8 0x8000400000 ++ toLE 8 64 ++ toLE 8 0 ++
    toLE 4 0 ++ toLE 2 64 ++ toLE 2 56 ++ toLE 2 2 ++ zeros 6 ++
    (toLE 4 6 ++ toLE 4 4 ++ toLE 8 64 ++ toLE 8 0 ++ toLE 8 0 ++ toLE 8 112 ++ toLE 8 112 ++ toLE 8 8) ++
    (toLE 4 1 ++ toLE 4 5 ++ toLE 8 0 ++ toLE 8 0x8000400000 ++ toLE 8 0 ++ toLE 8 176 ++ toLE 8 176 ++ toLE 8 4096)

def strayElf : Elf := ⟨strayFile, 64, 2, 56, [⟨6, 4⟩, ⟨1, 5⟩], by decide, rfl⟩

/-- What `load` finds in it. -/
def strayLoaded : Loaded := ⟨some 0, 2, 0x8000400000⟩

def strayHost : Host := ⟨.x86_64, (0, 0), zeros 16, rfl⟩

def straySpec : StackSpec := ⟨[[97]], [], [97], 0, 0, false⟩

theorem stray_inRange : strayElf.InRange := by
  have hlen : strayFile.length = 176 := by simp [strayFile]
  exact hlen.ge

theorem stray_nulFree : straySpec.NulFree := by
  unfold StackSpec.NulFree
  decide

theorem stray_fits : ¬ TooLong strayHost straySpec strayLoaded strayElf 0 := by
  have hsize : stringsSize straySpec = 4 := rfl
  have hphdrs : strayElf.phnum * strayElf.phentsize = 112 := rfl
  have hparts := blobOf_parts strayHost straySpec strayLoaded strayElf
  have hauxv := (auxvOf_keys strayHost straySpec strayLoaded 0 (blobOf strayHost straySpec strayLoaded strayElf)).2
  have hwords := length_wordsOf straySpec (blobOf strayHost straySpec strayLoaded strayElf)
    (auxvOf strayHost straySpec strayLoaded 0 (blobOf strayHost straySpec strayLoaded strayElf))
  have hoffsets : (blobOf strayHost straySpec strayLoaded strayElf).offsets.length = 1 := hparts.strings.length_eq.symm
  have hlen := hparts.length
  rw [hsize, hphdrs] at hlen
  unfold TooLong spOf blobStart
  rw [hsize, hwords, hoffsets]
  unfold maxStrings userStackTop userStackEager pageSize
  omega

set_option maxRecDepth 8000 in
theorem strayFile_parses : Elf.parse .x86_64 strayFile = .ok strayElf := rfl

end Exec

end HamixOS.Kernel
