import HamixOS.Lib.Returns
import HamixOS.Lib.Text
import Mathlib.Data.List.ReduceOption

namespace HamixOS.Kernel

open Lib List Option Checked Nat

/-!
# Partition tables (`drivers/block.rs`)

`partitions` reads the MBR of a disk, then its GPT or the chain of its extended partition.  `read` is
`block::read` down to the check of the range; what the read cache and the drivers do below it is `transfer`,
with a state of their own.  A sum that does not fit and a slice out of range stop the run, and the size of
the buffer for the GPT entries is kept, to be compared with the disk.

* `returns_partitions` — with a GPT that fits the run returns, with partitions that lie on the disk;
* `partitions_safe_iff` — that is when it is safe: the place and the size of the GPT entries are not checked
  before they are used.
-/

namespace Partitions

structure Disk where
  name : Text
  sectors : Nat
  sectors_lt : sectors < 2 ^ 64

/-- The disks and what is below the check of `block::read`. -/
structure Drives (σ : Type) where
  disks : List Disk
  transfer : Nat → Nat → Nat → σ → Option Bytes × σ
  length_transfer : ∀ index lba n s b, (transfer index lba n s).1 = some b → b.length = n

/-- The state of a run: that of the drivers, and the size of the buffer for the GPT entries. -/
structure Scan (σ : Type) where
  device : σ
  table : Nat

structure Partition where
  name : Text
  number : Nat
  start : Nat
  sectors : Nat
  kind : Text
  bootable : Bool
  deriving DecidableEq

abbrev ScanM (σ : Type) := CheckedM Overflow (Scan σ)

def guidKind (guid : Bytes) : Text :=
  if guid = [0xAF, 0x3D, 0xC6, 0x0F, 0x83, 0x84, 0x72, 0x47, 0x8E, 0x79, 0x3D, 0x69, 0xD8, 0x47, 0x7D, 0xE4] then
    "linux".toList
  else if guid = [0x28, 0x73, 0x2A, 0xC1, 0x1F, 0xF8, 0xD2, 0x11, 0xBA, 0x4B, 0x00, 0xA0, 0xC9, 0x3E, 0xC9, 0x3B] then
    "efi".toList
  else if guid = [0xA2, 0xA0, 0xD0, 0xEB, 0xE5, 0xB9, 0x33, 0x44, 0x87, 0xC0, 0x68, 0xB6, 0xB7, 0x26, 0x99, 0xC7] then
    "msdata".toList
  else if guid = [0x48, 0x61, 0x68, 0x21, 0x49, 0x64, 0x6F, 0x6E, 0x74, 0x4E, 0x65, 0x65, 0x64, 0x45, 0x46, 0x49] then
    "bios-boot".toList
  else if guid = [0x6D, 0xFD, 0x57, 0x06, 0xAB, 0xA4, 0xC4, 0x43, 0x84, 0xE5, 0x09, 0x33, 0xC8, 0x4B, 0x4F, 0x4F] then
    "swap".toList
  else "gpt".toList

/-- The kinds of a partition that holds others. -/
def isExtended (kind : UInt8) : Bool := kind = 0x05 || kind = 0x0F || kind = 0x85

def mbrKind (kind : UInt8) : Text :=
  if kind = 0x83 then "linux".toList
  else if kind = 0x82 then "swap".toList
  else if kind = 0x07 then "ntfs".toList
  else if kind = 0x0B ∨ kind = 0x0C then "fat32".toList
  else if kind = 0x04 ∨ kind = 0x06 ∨ kind = 0x0E then "fat16".toList
  else if kind = 0xEF then "efi".toList
  else if isExtended kind then "extended".toList
  else if kind = 0xA5 ∨ kind = 0xA6 ∨ kind = 0xA9 then "bsd".toList
  else "0x".toList ++ [Nat.digitChar (kind.toNat / 16), Nat.digitChar (kind.toNat % 16)]

/-- The name of a partition. -/
def nameOf (disk : Disk) (number : Nat) : Text := disk.name ++ Nat.toDigits 10 number

def efiPart : Bytes := [0x45, 0x46, 0x49, 0x20, 0x50, 0x41, 0x52, 0x54]

/-- Whether a sector ends in `0x55`, `0xAA`. -/
def signed {σ : Type} (sector : Bytes) : ScanM σ Bool := do
  let a ← Checked.index sector 510
  let b ← Checked.index sector 511
  pure (decide (a = 0x55 ∧ b = 0xAA))

/-! ### Entries -/

section Entries

variable {σ : Type} (disk : Disk)

def gptEntry (table : Bytes) (size i : Nat) : ScanM σ (Option Partition) := do
  let entry ← Checked.cut table (i * size) (i * size + size)
  let guid ← Checked.cut entry 0 16
  if guid.all (· = 0) then pure none
  else do
    let first ← Checked.word 8 entry 32
    let last ← Checked.word 8 entry 40
    if last < first ∨ disk.sectors ≤ last then pure none
    else do
      let number ← Checked.plus 32 i 1
      let span ← Checked.minus last first
      let sectors ← Checked.plus 64 span 1
      pure (some ⟨nameOf disk (i + 1), number, first, sectors, guidKind guid, false⟩)

/-- A partition of the MBR with its kind. -/
def mbrEntry (mbr : Bytes) (i : Nat) : ScanM σ (Option (UInt8 × Partition)) := do
  let entry ← Checked.cut mbr (446 + i * 16) (462 + i * 16)
  let kind ← Checked.index entry 4
  let start ← Checked.word 4 entry 8
  let count ← Checked.word 4 entry 12
  if kind = 0 ∨ count = 0 ∨ start = 0 then pure none
  else do
    let stop ← Checked.plus 64 start count
    if disk.sectors < stop then pure none
    else do
      let number ← Checked.plus 32 i 1
      let flags ← Checked.index entry 0
      pure (some (kind, ⟨nameOf disk (i + 1), number, start, count, mbrKind kind, decide (flags &&& 0x80 ≠ 0)⟩))

/-- The partition that the boot record at `ebrLba` describes. -/
def ebrEntry (sector : Bytes) (ebrLba number : Nat) : ScanM σ (Option Partition) := do
  let entry ← Checked.cut sector 446 462
  let start ← Checked.word 4 entry 8
  let count ← Checked.word 4 entry 12
  let kind ← Checked.index entry 4
  if kind = 0 ∨ count = 0 then pure none
  else do
    let first ← Checked.plus 64 ebrLba start
    let stop ← Checked.plus 64 first count
    if disk.sectors < stop then pure none
    else pure (some ⟨nameOf disk number, number, first, count, mbrKind kind, false⟩)

end Entries

/-! ### Tables -/

namespace Drives

variable {σ : Type} (d : Drives σ)

def fetch (index lba n : Nat) : ScanM σ (Option Bytes) := fun s =>
  let r := d.transfer index lba n s.device
  .ok r.1 { s with device := r.2 }

/-- `block::read` into a buffer of `n` bytes. -/
def read (index lba n : Nat) : ScanM σ (Option Bytes) :=
  match d.disks[index]? with
  | none => pure none
  | some disk =>
    if n % 512 ≠ 0 then pure none
    else do
      let stop ← Checked.plus 64 lba (n / 512)
      if disk.sectors < stop then pure none else d.fetch index lba n

def gptEntries (index : Nat) (disk : Disk) (header : Bytes) : ScanM σ (List Partition) := do
  let entriesLba ← Checked.word 8 header 72
  let entries ← Checked.word 4 header 80
  let entrySize ← Checked.word 4 header 84
  let count := min entries 256
  let size := max entrySize 128
  let sectors := (count * size + 511) / 512
  modify fun s => { s with table := sectors * 512 }
  let table ← d.read index entriesLba (sectors * 512)
  match table with
  | none => pure []
  | some table => do
    let found ← (List.range count).mapM (gptEntry disk table size)
    pure found.reduceOption

/-- Nothing where there is no GPT. -/
def gptTable (index : Nat) (disk : Disk) (mbr : Bytes) : ScanM σ (Option (List Partition)) := do
  let kinds ← (List.range 4).mapM fun i => Checked.index mbr (446 + i * 16 + 4)
  if 0xEE ∈ kinds then do
    let second ← d.read index 1 512
    match second with
    | none => pure none
    | some header => do
      let magic ← Checked.cut header 0 8
      if magic = efiPart then do
        let out ← d.gptEntries index disk header
        pure (some out)
      else pure none
  else pure none

/-- The boot records of an extended partition, `turns` of them at most. -/
def ebrChain (index : Nat) (disk : Disk) (base : Nat) : Nat → Nat → Nat → List Partition → ScanM σ (List Partition)
  | 0, _, _, out => pure out
  | turns + 1, ebrLba, number, out => do
    let read ← d.read index ebrLba 512
    match read with
    | none => pure out
    | some sector => do
      let ok ← signed sector
      if ok = false then pure out
      else do
        let found ← ebrEntry disk sector ebrLba number
        let next ← Checked.cut sector 462 478
        let nextStart ← Checked.word 4 next 8
        let nextKind ← Checked.index next 4
        if nextKind = 0 ∨ nextStart = 0 then pure (out ++ found.toList)
        else do
          let ebrLba ← Checked.plus 64 base nextStart
          ebrChain index disk base turns ebrLba (number + found.toList.length) (out ++ found.toList)

def mbrTable (index : Nat) (disk : Disk) (mbr : Bytes) : ScanM σ (List Partition) := do
  let found ← (List.range 4).mapM (mbrEntry disk mbr)
  let out := found.reduceOption.map (·.2)
  -- the last one counts
  match (found.reduceOption.filter fun e => isExtended e.1).getLast? with
  | none => pure out
  | some e => d.ebrChain index disk e.2.start 32 e.2.start 5 out

def partitions (index : Nat) : ScanM σ (List Partition) :=
  match d.disks[index]? with
  | none => pure []
  | some disk => do
    let first ← d.read index 0 512
    match first with
    | none => pure []
    | some mbr => do
      let ok ← signed mbr
      if ok = false then pure []
      else do
        let gpt ← d.gptTable index disk mbr
        match gpt with
        | some out => pure out
        | none => d.mbrTable index disk mbr

end Drives

/-! ### Entries on the disk -/

/-- A partition of at least one sector that lies on the disk. -/
def OnDisk (disk : Disk) (p : Partition) : Prop := 1 ≤ p.sectors ∧ p.start + p.sectors ≤ disk.sectors

section Entries

variable {σ : Type} {disk : Disk} {s : Scan σ}

theorem index_run {α : Type} {xs : List α} {i : Nat} (h : i < xs.length) (a : α) :
    (Checked.index xs i : ScanM σ α) s = .ok (xs.getD i a) s := by
  unfold Checked.index
  rw [getD_eq_getElem?_getD, getElem?_eq_getElem h]
  rfl

theorem mapM_index_run {α : Type} {xs : List α} (a : α) {f : Nat → Nat} {l : List Nat} (h : ∀ i ∈ l, f i < xs.length) :
    (l.mapM (fun i => Checked.index xs (f i)) : ScanM σ (List α)) s = .ok (l.map fun i => xs.getD (f i) a) s := by
  induction l with
  | nil => rfl
  | cons i l ih =>
    obtain ⟨hi, hl⟩ := forall_mem_cons.mp h
    rw [mapM_cons, run_ok (index_run hi a), run_ok (ih hl)]
    rfl

/-- The bytes that make a sector a boot record. -/
def Signed (sector : Bytes) : Prop := sector.getD 510 0 = 0x55 ∧ sector.getD 511 0 = 0xAA

instance (sector : Bytes) : Decidable (Signed sector) := inferInstanceAs (Decidable (_ ∧ _))

theorem signed_run {sector : Bytes} (h : sector.length = 512) :
    (signed sector : ScanM σ Bool) s = .ok (decide (Signed sector)) s := by
  unfold signed
  rw [run_ok (index_run (by omega) 0), run_ok (index_run (by omega) 0)]
  rfl

theorem returns_gptEntry {table : Bytes} {size i : Nat} (hsize : 128 ≤ size) (htable : i * size + size ≤ table.length)
    (hi : i < 256) : Returns (· = s) (gptEntry disk table size i) s (fun o => ∀ p ∈ o, OnDisk disk p) := by
  have hlen : (slice table (i * size) (i * size + size - i * size)).length = size := by
    rw [length_slice (by omega)]
    omega
  have hnone : ∀ p ∈ (none : Option Partition), OnDisk disk p := fun p hp => absurd hp (by simp)
  unfold gptEntry
  refine .cut (le_add_right _ _) htable (.cut (zero_le _) (by omega) (.ite (fun _ => .pure rfl hnone) fun _ => ?_))
  refine .word (by omega) (.word (by omega) (.ite (fun _ => .pure rfl hnone) fun hspan => ?_))
  generalize getLE 8 _ 32 = first at hspan ⊢
  generalize getLE 8 _ 40 = last at hspan ⊢
  have hlt := disk.sectors_lt
  refine .plus (by omega) (.minus (by omega) (.plus (by omega) (.pure rfl ?_)))
  intro p hp
  obtain rfl := some.inj hp
  exact ⟨le_add_left _ _, show first + (last - first + 1) ≤ disk.sectors by omega⟩

theorem returns_mbrEntry {mbr : Bytes} (hmbr : mbr.length = 512) {i : Nat} (hi : i < 4) :
    Returns (· = s) (mbrEntry disk mbr i) s (fun o => ∀ e ∈ o, OnDisk disk e.2 ∧ e.2.start < 2 ^ 32) := by
  have hlen : (slice mbr (446 + i * 16) (462 + i * 16 - (446 + i * 16))).length = 16 := by
    rw [length_slice (by omega)]
    omega
  have hnone : ∀ e ∈ (none : Option (UInt8 × Partition)), OnDisk disk e.2 ∧ e.2.start < 2 ^ 32 :=
    fun e he => absurd he (by simp)
  unfold mbrEntry
  refine .cut (by omega) (by omega) (.index (by omega) fun kind _ => ?_)
  have hstart := getLE_lt 4 (slice mbr (446 + i * 16) (462 + i * 16 - (446 + i * 16))) 8
  have hcount := getLE_lt 4 (slice mbr (446 + i * 16) (462 + i * 16 - (446 + i * 16))) 12
  refine .word (by omega) (.word (by omega) ?_)
  generalize getLE 4 _ 8 = start at hstart ⊢
  generalize getLE 4 _ 12 = count at hcount ⊢
  refine .ite (fun _ => .pure rfl hnone) fun hsome => .plus (by omega) (.ite (fun _ => .pure rfl hnone) fun hstop => ?_)
  refine .plus (by omega) (.index (by omega) fun flags _ => .pure rfl ?_)
  intro e he
  obtain rfl := some.inj he
  have hpos : count ≠ 0 := fun hzero => hsome (.inr (.inl hzero))
  exact ⟨⟨pos_of_ne_zero hpos, Nat.le_of_not_lt hstop⟩, hstart⟩

theorem returns_ebrEntry {sector : Bytes} (hsector : sector.length = 512) {ebrLba number : Nat} (hlba : ebrLba < 2 ^ 33) :
    Returns (· = s) (ebrEntry disk sector ebrLba number) s (fun o => ∀ p ∈ o, OnDisk disk p) := by
  have hlen : (slice sector 446 (462 - 446)).length = 16 := length_slice (by omega)
  have hnone : ∀ p ∈ (none : Option Partition), OnDisk disk p := fun p hp => absurd hp (by simp)
  have hstart := getLE_lt 4 (slice sector 446 (462 - 446)) 8
  have hcount := getLE_lt 4 (slice sector 446 (462 - 446)) 12
  unfold ebrEntry
  refine .cut (by omega) (by omega) (.word (by omega) (.word (by omega) (.index (by omega) fun kind _ => ?_)))
  generalize getLE 4 _ 8 = start at hstart ⊢
  generalize getLE 4 _ 12 = count at hcount ⊢
  refine .ite (fun _ => .pure rfl hnone) fun hsome => .plus (by omega) (.plus (by omega) ?_)
  refine .ite (fun _ => .pure rfl hnone) fun hstop => .pure rfl ?_
  intro p hp
  obtain rfl := some.inj hp
  have hpos : count ≠ 0 := fun hzero => hsome (.inr hzero)
  exact ⟨pos_of_ne_zero hpos, Nat.le_of_not_lt hstop⟩

theorem forall_mem_reduceOption {α : Type} {P : α → Prop} {l : List (Option α)} (h : ∀ o ∈ l, ∀ a ∈ o, P a) :
    ∀ a ∈ l.reduceOption, P a := fun a ha => h (some a) (reduceOption_mem_iff.mp ha) a rfl

end Entries

/-! ### Tables on the disk -/

/-- The kinds of the four entries of an MBR. -/
def kinds (mbr : Bytes) : List UInt8 := (List.range 4).map fun i => mbr.getD (446 + i * 16 + 4) 0

theorem kinds_run {σ : Type} {s : Scan σ} {mbr : Bytes} (h : mbr.length = 512) :
    ((List.range 4).mapM (fun i => Checked.index mbr (446 + i * 16 + 4)) : ScanM σ (List UInt8)) s = .ok (kinds mbr) s := by
  refine mapM_index_run 0 fun i hi => ?_
  have := mem_range.mp hi
  omega

/-- Where the entries of a GPT are. -/
def entriesLba (header : Bytes) : Nat := getLE 8 header 72

/-- The sectors that the entries of a GPT take. -/
def tableSectors (header : Bytes) : Nat := (min (getLE 4 header 80) 256 * max (getLE 4 header 84) 128 + 511) / 512

/-- The entries of a GPT are no longer than the disk and end below the largest number of a sector. -/
def Fits (disk : Disk) (header : Bytes) : Prop :=
  entriesLba header + tableSectors header < 2 ^ 64 ∧ tableSectors header ≤ disk.sectors

namespace Drives

variable {σ : Type} {d : Drives σ} {index : Nat} {disk : Disk} {s : Scan σ}

/-- The entries of the GPT fit, if the disk has one. -/
def GptFits (d : Drives σ) (index : Nat) (disk : Disk) (s : Scan σ) : Prop :=
  ∀ mbr s₁ header s₂, d.read index 0 512 s = .ok (some mbr) s₁ → Signed mbr → 0xEE ∈ kinds mbr →
    d.read index 1 512 s₁ = .ok (some header) s₂ → slice header 0 8 = efiPart → Fits disk header

section

variable (hdisk : d.disks[index]? = some disk)

include hdisk

theorem post_read {lba n : Nat} (hn : n % 512 = 0) :
    Post (d.read index lba n) s
      (fun o s' => s'.table = s.table ∧ (∀ b ∈ o, b.length = n) ∧ lba + n / 512 < 2 ^ 64)
      (fun _ _ => 2 ^ 64 ≤ lba + n / 512) := by
  unfold read Checked.plus
  simp only [hdisk, hn, ne_eq, not_true_eq_false, if_false]
  by_cases hlt : lba + n / 512 < 2 ^ 64
  · rw [if_pos hlt]
    show Post (if disk.sectors < lba + n / 512 then _ else _) s _ _
    by_cases hout : disk.sectors < lba + n / 512
    · rw [if_pos hout]
      exact ⟨rfl, fun b hb => absurd hb (by simp), hlt⟩
    · rw [if_neg hout]
      exact ⟨rfl, fun b hb => d.length_transfer _ _ _ _ _ hb, hlt⟩
  · rw [if_neg hlt]
    exact Nat.le_of_not_lt hlt

theorem run_read (lba n : Nat) (hn : n % 512 = 0) (hlt : lba + n / 512 < 2 ^ 64) :
    ∃ o s', d.read index lba n s = .ok o s' ∧ s'.table = s.table ∧ ∀ b ∈ o, b.length = n := by
  obtain ⟨o, s', hrun, htable, hlen, -⟩ :=
    Post.total (Post.mono (post_read (s := s) hdisk hn) (fun _ _ h => h) fun _ _ hle => absurd hlt (not_lt.mpr hle))
  exact ⟨o, s', hrun, htable, hlen⟩

/-- Reading the entries overflows or gives partitions on the disk, with a buffer of `tableSectors`. -/
theorem post_gptEntries {header : Bytes} (hheader : header.length = 512) :
    Post (d.gptEntries index disk header) s
      (fun out s' => s'.table = tableSectors header * 512 ∧ (∀ p ∈ out, OnDisk disk p) ∧
        entriesLba header + tableSectors header < 2 ^ 64)
      (fun _ _ => 2 ^ 64 ≤ entriesLba header + tableSectors header) := by
  unfold gptEntries
  refine post_word (by omega) (post_word (by omega) (post_word (by omega) (Post.change ?_)))
  show Post (d.read index (entriesLba header) (tableSectors header * 512) >>= _) _ _ _
  refine Post.bind (post_read hdisk (mul_mod_left _ _)) (fun _ _ hle => ?_) ?_
  · rwa [Nat.mul_div_cancel _ (by decide)] at hle
  rintro o s' ⟨htable, hlen, hlt⟩
  rw [Nat.mul_div_cancel _ (by decide)] at hlt
  cases o with
  | none => exact ⟨htable, fun p hp => absurd hp not_mem_nil, hlt⟩
  | some table =>
    have hsize : 128 ≤ max (getLE 4 header 84) 128 := le_max_right _ _
    have htablen : min (getLE 4 header 80) 256 * max (getLE 4 header 84) 128 ≤ table.length := by
      rw [hlen table rfl, tableSectors]
      omega
    have hentries : Returns (· = s') ((List.range (min (getLE 4 header 80) 256)).mapM
        (gptEntry disk table (max (getLE 4 header 84) 128))) s' (fun found => ∀ o ∈ found, ∀ p ∈ o, OnDisk disk p) := by
      refine Returns.mono (Returns.mapM (fun i hi t ht => ?_) rfl) fun _ h => h.2
      have hcount := mem_range.mp hi
      rw [ht]
      refine returns_gptEntry hsize (le_trans ?_ htablen) (by omega)
      rw [← succ_mul]
      exact mul_le_mul_right _ hcount
    refine Post.seq hentries ?_
    rintro found t ⟨rfl, hfound⟩
    exact Post.pure ⟨htable, forall_mem_reduceOption hfound, hlt⟩

/-- With a GPT that fits, or with none, reading it returns. -/
theorem returns_gptTable {mbr : Bytes} (hmbr : mbr.length = 512)
    (hs : s.table ≤ disk.sectors * 512)
    (hfits : ∀ header s₂, 0xEE ∈ kinds mbr → d.read index 1 512 s = .ok (some header) s₂ →
      slice header 0 8 = efiPart → Fits disk header) :
    Returns (fun s' => s'.table ≤ disk.sectors * 512) (d.gptTable index disk mbr) s
      (fun o => ∀ out ∈ o, ∀ p ∈ out, OnDisk disk p) := by
  have hnone : ∀ out ∈ (none : Option (List Partition)), ∀ p ∈ out, OnDisk disk p := fun out hout => absurd hout (by simp)
  unfold gptTable
  refine Returns.step (kinds_run hmbr) (Returns.ite (fun hprotective => ?_) fun _ => .pure hs hnone)
  obtain ⟨o, s', hrun, htable, hlen⟩ := run_read (s := s) hdisk 1 512 rfl (by decide)
  refine Returns.step hrun ?_
  rw [← htable] at hs
  cases o with
  | none => exact Returns.pure hs hnone
  | some header =>
    have hheader := hlen header rfl
    refine Returns.cut (zero_le _) (by omega) (Returns.ite (fun hmagic => ?_) fun _ => .pure hs hnone)
    obtain ⟨hlt, hle⟩ := hfits header s' hprotective hrun hmagic
    refine Returns.bind (Q := fun out => ∀ p ∈ out, OnDisk disk p) ?_ fun out s₂ hs₂ hout => .pure hs₂ ?_
    · refine Post.mono (post_gptEntries hdisk hheader) ?_ fun _ _ hge => absurd hlt (not_lt.mpr hge)
      rintro out s₂ ⟨htable, hout, -⟩
      refine ⟨?_, hout⟩
      show s₂.table ≤ disk.sectors * 512
      rw [htable]
      exact mul_le_mul_right 512 hle
    · intro out' hout'
      obtain rfl := some.inj hout'
      exact hout

theorem returns_ebrChain {base : Nat} (hbase : base < 2 ^ 32) {turns : Nat}
    {ebrLba number : Nat} (hlba : ebrLba < 2 ^ 33) {out : List Partition} (hout : ∀ p ∈ out, OnDisk disk p)
    (hs : s.table ≤ disk.sectors * 512) :
    Returns (fun s' => s'.table ≤ disk.sectors * 512) (d.ebrChain index disk base turns ebrLba number out) s
      (fun out => ∀ p ∈ out, OnDisk disk p) := by
  induction turns generalizing ebrLba number out s with
  | zero => exact .pure hs hout
  | succ turns ih =>
    obtain ⟨o, s', hrun, htable, hlen⟩ :=
      run_read (s := s) hdisk ebrLba 512 rfl (show ebrLba + 1 < 2 ^ 64 by omega)
    rw [← htable] at hs
    refine Returns.step hrun ?_
    cases o with
    | none => exact Returns.pure hs hout
    | some sector =>
      have hsector := hlen sector rfl
      refine Returns.step (signed_run hsector) (Returns.ite (fun _ => .pure hs hout) fun _ => ?_)
      refine Returns.bind (Q := fun o => ∀ p ∈ o, OnDisk disk p) ?_ fun found s₂ hs₂ hfound => ?_
      · refine Post.mono (returns_ebrEntry hsector hlba) ?_ fun _ _ h => h
        rintro o s₂ ⟨rfl, ho⟩
        exact ⟨hs, ho⟩
      · have hall : ∀ p ∈ out ++ found.toList, OnDisk disk p := by
          intro p hp
          rcases mem_append.mp hp with hold | hnew
          · exact hout p hold
          · exact hfound p (mem_toList.mp hnew)
        have hnext : (slice sector 462 (478 - 462)).length = 16 := length_slice (by omega)
        have hstart := getLE_lt 4 (slice sector 462 (478 - 462)) 8
        refine .cut (by omega) (by omega) (.word (by omega) (.index (by omega) fun kind _ => ?_))
        generalize getLE 4 _ 8 = nextStart at hstart ⊢
        refine .ite (fun _ => .pure hs₂ hall) fun _ => .plus (by omega) ?_
        exact ih (by omega) hall hs₂

theorem returns_mbrTable {mbr : Bytes} (hmbr : mbr.length = 512)
    (hs : s.table ≤ disk.sectors * 512) :
    Returns (fun s' => s'.table ≤ disk.sectors * 512) (d.mbrTable index disk mbr) s
      (fun out => ∀ p ∈ out, OnDisk disk p) := by
  unfold mbrTable
  refine Returns.bind (Q := fun found => ∀ o ∈ found, ∀ e ∈ o, OnDisk disk e.2 ∧ e.2.start < 2 ^ 32) ?_
    fun found s₂ hs₂ hfound => ?_
  · refine Returns.mono (Returns.mapM (fun i hi t ht => ?_) hs) fun _ h => h.2
    refine Post.mono (returns_mbrEntry hmbr (mem_range.mp hi)) ?_ fun _ _ h => h
    rintro o t' ⟨rfl, ho⟩
    exact ⟨ht, ho⟩
  · have hentries := forall_mem_reduceOption hfound
    have hout : ∀ p ∈ found.reduceOption.map (·.2), OnDisk disk p := by
      intro p hp
      obtain ⟨e, he, rfl⟩ := mem_map.mp hp
      exact (hentries e he).1
    cases hlast : (found.reduceOption.filter fun e => isExtended e.1).getLast? with
    | none => exact .pure hs₂ hout
    | some e =>
      have hmem := (mem_filter.mp (mem_of_getLast? hlast)).1
      have hstart := (hentries e hmem).2
      exact returns_ebrChain hdisk hstart (by omega) hout hs₂

/-- With a GPT that fits, or with none, `partitions` returns, its buffer is no larger than the disk and its
partitions lie on the disk. -/
theorem returns_partitions (hfits : d.GptFits index disk s)
    (hs : s.table ≤ disk.sectors * 512) :
    Returns (fun s' => s'.table ≤ disk.sectors * 512) (d.partitions index) s
      (fun out => ∀ p ∈ out, OnDisk disk p) := by
  have hnone : ∀ p ∈ ([] : List Partition), OnDisk disk p := fun p hp => absurd hp not_mem_nil
  unfold partitions
  simp only [hdisk]
  obtain ⟨o, s', hrun, htable, hlen⟩ := run_read (s := s) hdisk 0 512 rfl (by decide)
  rw [← htable] at hs
  refine Returns.step hrun ?_
  cases o with
  | none => exact Returns.pure hs hnone
  | some mbr =>
    have hmbr := hlen mbr rfl
    refine Returns.step (signed_run hmbr) (Returns.ite (fun _ => .pure hs hnone) fun hsigned => ?_)
    have hsigned : Signed mbr := by simpa using hsigned
    refine Returns.bind (returns_gptTable hdisk hmbr hs fun header s₂ hprotective hheader hmagic =>
      hfits mbr s' header s₂ hrun hsigned hprotective hheader hmagic) fun gpt s₂ hs₂ hgpt => ?_
    cases gpt with
    | some out => exact Returns.pure hs₂ (hgpt out rfl)
    | none => exact returns_mbrTable hdisk hmbr hs₂

/-- What `partitions` returns once it has found a GPT. -/
theorem post_gptFound {mbr header : Bytes} {s₁ s₂ : Scan σ}
    (hmbr : d.read index 0 512 s = .ok (some mbr) s₁) (hsigned : Signed mbr) (hprotective : 0xEE ∈ kinds mbr)
    (hheader : d.read index 1 512 s₁ = .ok (some header) s₂) (hmagic : slice header 0 8 = efiPart) :
    Post (d.partitions index) s
      (fun _ t => t.table = tableSectors header * 512 ∧ entriesLba header + tableSectors header < 2 ^ 64)
      (fun _ _ => True) := by
  have hlen : ∀ {lba s b s'}, d.read index lba 512 s = .ok (some b) s' → b.length = 512 := fun h =>
    (Post.ok (post_read hdisk rfl) h).2.1 _ rfl
  have hgpt : Post (d.gptTable index disk mbr) s₁
      (fun o t => ∃ out, o = some out ∧
        t.table = tableSectors header * 512 ∧ entriesLba header + tableSectors header < 2 ^ 64)
      (fun _ _ => True) := by
    unfold gptTable
    refine post_step (kinds_run (hlen hmbr)) ?_
    rw [if_pos hprotective]
    refine post_step hheader (post_cut (zero_le _) (by rw [hlen hheader]; decide) ?_)
    rw [if_pos (show slice header 0 (8 - 0) = efiPart from hmagic)]
    refine Post.bind (post_gptEntries hdisk (hlen hheader)) (fun _ _ _ => trivial) ?_
    rintro out t ⟨htable, -, hlt⟩
    exact ⟨out, rfl, htable, hlt⟩
  unfold partitions
  simp only [hdisk]
  refine post_step hmbr (post_step (signed_run (hlen hmbr)) ?_)
  rw [if_neg (by simp [hsigned])]
  refine Post.bind hgpt (fun _ _ h => h) ?_
  rintro _ t ⟨out, rfl, h⟩
  exact h

end

/-- Reading the partition table of any disk ends; it overflows no sum, leaves no slice, takes no buffer for the
GPT that is larger than the disk and returns partitions on the disk exactly if the GPT fits, where the disk has
one. -/
theorem partitions_safe_iff (d : Drives σ) (index : Nat) (device : σ) :
    (∃ out t, d.partitions index ⟨device, 0⟩ = .ok out t ∧ ∀ disk, d.disks[index]? = some disk →
      t.table ≤ disk.sectors * 512 ∧ ∀ p ∈ out, OnDisk disk p) ↔
    ∀ disk, d.disks[index]? = some disk → d.GptFits index disk ⟨device, 0⟩ := by
  constructor
  · rintro ⟨out, t, hrun, hsafe⟩ disk hdisk mbr s₁ header s₂ hmbr hsigned hprotective hheader hmagic
    obtain ⟨htable, hlt⟩ := Post.ok (post_gptFound hdisk hmbr hsigned hprotective hheader hmagic) hrun
    have hle := (hsafe disk hdisk).1
    rw [htable] at hle
    exact ⟨hlt, Nat.le_of_mul_le_mul_right hle (by decide)⟩
  · intro hfits
    cases hdisk : d.disks[index]? with
    | none =>
      refine ⟨[], ⟨device, 0⟩, ?_, fun disk h => absurd h (by simp)⟩
      unfold partitions
      simp only [hdisk]
      rfl
    | some disk =>
      obtain ⟨out, t, hrun, htable, hout⟩ := (returns_partitions hdisk (hfits disk hdisk) (Nat.zero_le _)).run
      refine ⟨out, t, hrun, fun disk' hdisk' => ?_⟩
      obtain rfl := some.inj hdisk'
      exact ⟨htable, hout⟩

end Drives

/-- Two sectors: an MBR that names a GPT, and its header, with the place, the number and the size of the
entries given. -/
def hostile (lba entries size : Nat) : Drives Unit where
  disks := [⟨"sda".toList, 2, by decide⟩]
  transfer := fun _ at_ n _ =>
    let mbr := splice (splice (zeros 512) 450 [0xEE]) 510 [0x55, 0xAA]
    let header := splice (splice (zeros 512) 0 efiPart) 72 (toLE 8 lba ++ toLE 4 entries ++ toLE 4 size)
    (some (((if at_ = 0 then mbr else header) ++ zeros n).take n), ())
  length_transfer := by
    rintro - at_ n - b hb
    rw [← Option.some.inj hb, List.length_take, List.length_append, length_zeros]
    omega

/-- The size of the buffer for the GPT entries after a run. -/
def Drives.buffer {σ : Type} (d : Drives σ) (index : Nat) (s : Scan σ) : Nat :=
  match d.partitions index s with
  | .ok _ t => t.table
  | .error _ t => t.table

/-- Entries in the last sector of all overflow the sum in `read`; and 256 entries of 2^32 - 1 bytes each take a
buffer of a tebibyte for a disk of two sectors. -/
theorem partitions_hostile :
    outcome ((hostile (2 ^ 64 - 1) 1 128).partitions 0) ⟨(), 0⟩ = .error (.error .overflow) ∧
      (hostile 2 (2 ^ 32 - 1) (2 ^ 32 - 1)).buffer 0 ⟨(), 0⟩ = 1099511627776 := by
  decide +kernel

end Partitions

end HamixOS.Kernel
