import HamixOS.Lib.Bits
import HamixOS.HextFs.Device

namespace HamixOS.HextFs

open Lib List

/-!
# On-disk records

The numbers, the checksum and the inode record as they are laid out on disk.
-/

def rootIno : Nat := 2
def sIfmt : Nat := 0xF000
def sIfdir : Nat := 0x4000
def sIfreg : Nat := 0x8000
def sIflnk : Nat := 0xA000

def cleanBlocks : Nat := 256
def ext2Magic : Nat := 0xEF53
def hextMagic : Nat := 0x54584548
def hextVersion : Nat := 1
def hextOffset : Nat := 0x300
def journalIno : Nat := 5
def lostFoundIno : Nat := 11
def firstIno : Nat := 11
def inodeSize : Nat := 128
def featureIncompatFiletype : Nat := 0x2
def featureRoSparseSuper : Nat := 0x1
def featureRoLargeFile : Nat := 0x2
def journalHeader : Nat := 0x484A5848
def journalDescriptor : Nat := 0x444A5848
def journalCommit : Nat := 0x434A5848

/-! ### Numbers -/

def get16 (b : Bytes) (o : Nat) : Nat := getLE 2 b o
def get32 (b : Bytes) (o : Nat) : Nat := getLE 4 b o
def get64 (b : Bytes) (o : Nat) : Nat := getLE 8 b o
def put16 (b : Bytes) (o v : Nat) : Bytes := putLE 2 b o v
def put32 (b : Bytes) (o v : Nat) : Bytes := putLE 4 b o v
def put64 (b : Bytes) (o v : Nat) : Bytes := putLE 8 b o v

/-- The quotient rounded up. -/
def divCeil (n d : Nat) : Nat := (n + d - 1) / d

/-- The next multiple of four. -/
def align4 (n : Nat) : Nat := (n + 3) / 4 * 4

/-! ### The checksum -/

/-- One step of the bitwise division behind the table. -/
def crcBit (c : UInt32) : UInt32 :=
  if c &&& 1 = 0 then c >>> 1 else (0xEDB88320 : UInt32) ^^^ (c >>> 1)

/-- Entry `i` of the table. -/
def crcTable (i : UInt32) : UInt32 := (List.range 8).foldl (fun c _ => crcBit c) i

/-- The checksum of a buffer. -/
def crc32 (data : Bytes) : Nat :=
  (~~~ data.foldl (fun crc b => crcTable ((crc ^^^ b.toUInt32) &&& 0xFF) ^^^ (crc >>> 8))
    (0xFFFFFFFF : UInt32)).toNat

/-! ### Inodes -/

/-- An inode record. -/
structure Inode where
  mode : Nat := 0
  uid : Nat := 0
  gid : Nat := 0
  size : Nat := 0
  atime : Nat := 0
  ctime : Nat := 0
  mtime : Nat := 0
  dtime : Nat := 0
  links : Nat := 0
  blocks512 : Nat := 0
  flags : Nat := 0
  block : List Nat := List.replicate 15 0
deriving DecidableEq, Repr

namespace Inode

/-- The record with every field zero. -/
def empty : Inode := {}

/-- Read a record. -/
def decode (b : Bytes) : Inode where
  mode := get16 b 0
  uid := get16 b 2 + get16 b 120 * 2 ^ 16
  size := get32 b 4 + get32 b 108 * 2 ^ 32
  atime := get32 b 8
  ctime := get32 b 12
  mtime := get32 b 16
  dtime := get32 b 20
  gid := get16 b 24 + get16 b 122 * 2 ^ 16
  links := get16 b 26
  blocks512 := get32 b 28
  flags := get32 b 32
  block := (List.range 15).map (fun i => get32 b (40 + i * 4))

/-- The 128 bytes of a record. -/
def encode (n : Inode) : Bytes :=
  let b := zeros inodeSize
  let b := put16 b 0 n.mode
  let b := put16 b 2 n.uid
  let b := put32 b 4 n.size
  let b := put32 b 8 n.atime
  let b := put32 b 12 n.ctime
  let b := put32 b 16 n.mtime
  let b := put32 b 20 n.dtime
  let b := put16 b 24 n.gid
  let b := put16 b 26 n.links
  let b := put32 b 28 n.blocks512
  let b := put32 b 32 n.flags
  let b := putWords b 40 n.block
  let b := put32 b 108 (n.size / 2 ^ 32)
  let b := put16 b 120 (n.uid / 2 ^ 16)
  put16 b 122 (n.gid / 2 ^ 16)

def isDir (n : Inode) : Bool := n.mode &&& sIfmt == sIfdir

def isFile (n : Inode) : Bool := n.mode &&& sIfmt == sIfreg

/-- The values fit their fields. -/
structure Fits (n : Inode) : Prop where
  mode : n.mode < 2 ^ 16
  uid : n.uid < 2 ^ 32
  gid : n.gid < 2 ^ 32
  size : n.size < 2 ^ 64
  atime : n.atime < 2 ^ 32
  ctime : n.ctime < 2 ^ 32
  mtime : n.mtime < 2 ^ 32
  dtime : n.dtime < 2 ^ 32
  links : n.links < 2 ^ 16
  blocks512 : n.blocks512 < 2 ^ 32
  flags : n.flags < 2 ^ 32
  len : n.block.length = 15
  block : ∀ p ∈ n.block, p < 2 ^ 32

/-- The fields before the pointers, and those after. -/
def headFields (n : Inode) : List (Nat × Nat × Nat) :=
  [(0, 2, n.mode), (2, 2, n.uid), (4, 4, n.size), (8, 4, n.atime), (12, 4, n.ctime),
    (16, 4, n.mtime), (20, 4, n.dtime), (24, 2, n.gid), (26, 2, n.links), (28, 4, n.blocks512),
    (32, 4, n.flags)]

def tailFields (n : Inode) : List (Nat × Nat × Nat) :=
  [(108, 4, n.size / 2 ^ 32), (120, 2, n.uid / 2 ^ 16), (122, 2, n.gid / 2 ^ 16)]

theorem encode_eq (n : Inode) :
    n.encode = putFields (putWords (putFields (zeros inodeSize) n.headFields) 40 n.block)
      n.tailFields := rfl

theorem length_head (n : Inode) : (putFields (zeros inodeSize) n.headFields).length = 128 := by
  rw [length_putFields]
  · rfl
  · simp [headFields, inodeSize]

variable {n : Inode}

section

variable (h : n.block.length = 15)

include h

theorem length_words :
    (putWords (putFields (zeros inodeSize) n.headFields) 40 n.block).length = 128 := by
  rw [length_putWords, length_head]
  rw [length_head, h]
  omega

theorem length_encode : n.encode.length = 128 := by
  rw [encode_eq, length_putFields, length_words h]
  rw [length_words h]
  simp [tailFields]

/-- A field before the pointers reads back. -/
theorem getLE_encode_head {f : Nat × Nat × Nat}
    (hf : f ∈ n.headFields) : getLE f.2.1 n.encode f.1 = f.2.2 % 256 ^ f.2.1 := by
  have hlo : f.1 + f.2.1 ≤ 36 := by
    simp only [headFields, mem_cons, not_mem_nil, or_false] at hf
    rcases hf with rfl | rfl | rfl | rfl | rfl | rfl | rfl | rfl | rfl | rfl | rfl <;> simp
  rw [encode_eq, getLE_putFields_of_disjoint, getLE_putWords_of_disjoint, getLE_putFields]
  · simp [headFields, inodeSize]
  · simp [headFields, FieldsApart]
  · exact hf
  · rw [length_head, h]
    omega
  · omega
  · rw [length_words h]
    simp [tailFields]
  · simp only [tailFields, mem_cons, not_mem_nil, or_false, forall_eq_or_imp, forall_eq]
    omega

/-- A field after the pointers reads back. -/
theorem getLE_encode_tail {f : Nat × Nat × Nat}
    (hf : f ∈ n.tailFields) : getLE f.2.1 n.encode f.1 = f.2.2 % 256 ^ f.2.1 := by
  rw [encode_eq, getLE_putFields]
  · rw [length_words h]
    simp [tailFields]
  · simp [tailFields, FieldsApart]
  · exact hf

/-- A pointer reads back. -/
theorem get32_encode_block {i : Nat} (hi : i < n.block.length) :
    get32 n.encode (40 + 4 * i) = n.block[i] % 2 ^ 32 := by
  rw [get32, encode_eq, getLE_putFields_of_disjoint, getLE_putWords]
  · rw [length_head, h]
    omega
  · rw [length_words h]
    simp [tailFields]
  · simp only [tailFields, mem_cons, not_mem_nil, or_false, forall_eq_or_imp, forall_eq]
    omega

end

/-- What fits its fields survives the trip to disk. -/
theorem decode_encode (h : n.Fits) : decode n.encode = n := by
  have hhead : ∀ o w v, (o, w, v) ∈ n.headFields → getLE w n.encode o = v % 256 ^ w :=
    fun o w v hf => getLE_encode_head h.len hf
  have htail : ∀ o w v, (o, w, v) ∈ n.tailFields → getLE w n.encode o = v % 256 ^ w :=
    fun o w v hf => getLE_encode_tail h.len hf
  have hblock : (List.range 15).map (fun i => get32 n.encode (40 + i * 4)) = n.block := by
    apply ext_getElem
    · simp [h.len]
    · intro i h1 h2
      have hb := get32_encode_block h.len h2
      have hlt := h.block n.block[i] (getElem_mem h2)
      rw [getElem_map, getElem_range, mul_comm i 4, hb, Nat.mod_eq_of_lt hlt]
  obtain ⟨hmode, huid, hgid, hsize, hat, hct, hmt, hdt, hlinks, hb512, hflags, hlen, hblk⟩ := h
  cases n with
  | mk mode uid gid size atime ctime mtime dtime links blocks512 flags block =>
    simp only at hmode huid hgid hsize hat hct hmt hdt hlinks hb512 hflags hblock
    simp only [decode, get16, get32] at hblock ⊢
    rw [hblock, hhead 0 2 mode (by simp [headFields]), hhead 2 2 uid (by simp [headFields]),
      htail 120 2 (uid / 2 ^ 16) (by simp [tailFields]), hhead 4 4 size (by simp [headFields]),
      htail 108 4 (size / 2 ^ 32) (by simp [tailFields]), hhead 8 4 atime (by simp [headFields]),
      hhead 12 4 ctime (by simp [headFields]), hhead 16 4 mtime (by simp [headFields]),
      hhead 20 4 dtime (by simp [headFields]), hhead 24 2 gid (by simp [headFields]),
      htail 122 2 (gid / 2 ^ 16) (by simp [tailFields]), hhead 26 2 links (by simp [headFields]),
      hhead 28 4 blocks512 (by simp [headFields]), hhead 32 4 flags (by simp [headFields])]
    simp only [mk.injEq, and_true]
    omega

/-- What was decoded fits its fields. -/
theorem fits_decode (b : Bytes) : (decode b).Fits := by
  have h16 : ∀ o, get16 b o < 65536 := fun o => getLE_lt 2 b o
  have h32 : ∀ o, get32 b o < 4294967296 := fun o => getLE_lt 4 b o
  have huid := h16 2
  have huid' := h16 120
  have hgid := h16 24
  have hgid' := h16 122
  have hsize := h32 4
  have hsize' := h32 108
  refine ⟨h16 _, ?_, ?_, ?_, h32 _, h32 _, h32 _, h32 _, h16 _, h32 _, h32 _, by simp [decode], ?_⟩
  · show get16 b 2 + get16 b 120 * 65536 < 4294967296
    omega
  · show get16 b 24 + get16 b 122 * 65536 < 4294967296
    omega
  · show get32 b 4 + get32 b 108 * 4294967296 < 18446744073709551616
    omega
  · intro p hp
    obtain ⟨i, -, rfl⟩ := mem_map.mp hp
    exact h32 _

/-- The record of a block of zero bytes. -/
theorem decode_zeros : decode (zeros 128) = empty := by
  have h : ∀ n o, o + n ≤ 128 → getLE n (zeros 128) o = 0 := fun n o ho => getLE_zeros ho
  simp only [decode, get16, get32, empty]
  rw [h 2 0 (by omega), h 2 2 (by omega), h 2 120 (by omega), h 4 4 (by omega),
    h 4 108 (by omega), h 4 8 (by omega), h 4 12 (by omega), h 4 16 (by omega), h 4 20 (by omega),
    h 2 24 (by omega), h 2 122 (by omega), h 2 26 (by omega), h 4 28 (by omega), h 4 32 (by omega)]
  have hblock : (List.range 15).map (fun i => getLE 4 (zeros 128) (40 + i * 4))
      = List.replicate 15 0 := by
    apply ext_getElem
    · simp
    · intro i h1 h2
      have hi : i < 15 := by simpa using h1
      rw [getElem_map, getElem_range, getElem_replicate]
      exact h 4 _ (by omega)
  rw [hblock]
  rfl

end Inode

end HamixOS.HextFs
