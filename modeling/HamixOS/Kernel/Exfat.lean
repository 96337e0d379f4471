import HamixOS.Lib.Extents

namespace HamixOS.Kernel

namespace Exfat

open Lib List Option Nat

/-!
# Files of an exFAT volume

The part of `fs/exfat.rs` that finds the sectors of a file: `runs` gathers them as extents,
`read_file_sector` reads one of them.  The read cache of `drivers/block.rs` is left out here.

* `Volume.Fits.clusterLba_eq` — the clusters of a volume lie one after the other;
* `Volume.next_eq` — the FAT sector kept in memory does not change what a FAT entry says;
* `Volume.Fits.laid_of_chain`, `Volume.Fits.laid_of_contiguous` — the extents of a file are its
  clusters in order.
-/

/-- A disk: its size, and the sectors that can be read. -/
structure Device where
  sectors : Nat
  data : Nat → Option Bytes
  sectors_lt : sectors < 2 ^ 63
  data_length : ∀ i b, data i = some b → b.length = 512
  data_end : ∀ i, sectors ≤ i → data i = none

/-- Arithmetic on `u32` and on `u64` wraps. -/
def u32 (n : Nat) : Nat := n % 2 ^ 32

def u64 (n : Nat) : Nat := n % 2 ^ 64

/-- `block::read` of `n` sectors. -/
def Device.read (d : Device) (lba n : Nat) : Option Bytes :=
  if d.sectors < u64 (lba + n) then none else collect d.data (List.range' lba n)

structure FoundFile where
  first : Nat
  bytes : Nat
  contiguous : Bool

structure Volume where
  offset : Nat
  sectorUnits : Nat
  clusterShift : Nat
  fatOffset : Nat
  heapOffset : Nat
  clusters : Nat
  root : Nat
  deriving DecidableEq

/-- `b"EXFAT   "`. -/
def exfatName : Bytes := [0x45, 0x58, 0x46, 0x41, 0x54, 0x20, 0x20, 0x20]

/-- `Volume::open`. -/
def openVolume (d : Device) (offset : Nat) : Option Volume :=
  (d.read offset 1).bind fun boot =>
    let sectorShift := getLE 1 boot 108
    let clusterShift := getLE 1 boot 109
    if slice boot 3 8 ≠ exfatName then none
    else if ¬ (9 ≤ sectorShift ∧ sectorShift ≤ 12) ∨ 25 < clusterShift then none
    else
      some
        { offset := offset
          sectorUnits := 1 <<< (sectorShift - 9)
          clusterShift := clusterShift
          fatOffset := getLE 4 boot 80
          heapOffset := getLE 4 boot 88
          clusters := getLE 4 boot 92
          root := getLE 4 boot 96 }

/-- `u64::div_ceil`. -/
def divCeil (a b : Nat) : Nat := (a + b - 1) / b

/-- The FAT sector in memory and where it is from. -/
abbrev FatCache := Option (Nat × Bytes)

namespace Volume

variable (v : Volume)

def clusterLba (cluster : Nat) : Nat :=
  u64 (v.offset + u64 (u64 (v.heapOffset + u64 (u64 (cluster + 2 ^ 64 - 2) <<< v.clusterShift)) * v.sectorUnits))

def clusterBytes : Nat := (512 * v.sectorUnits) <<< v.clusterShift

def valid (cluster : Nat) : Bool := 2 ≤ cluster ∧ cluster < u32 (v.clusters + 2)

/-- The FAT sector at `lba`, from memory if it is there. -/
def fatSector (d : Device) (cache : FatCache) (lba : Nat) : Option (Nat × Bytes) :=
  match cache with
  | some (kept, b) => if kept = lba then some (kept, b) else (d.read lba 1).map fun b => (lba, b)
  | none => (d.read lba 1).map fun b => (lba, b)

/-- `next`, with the FAT sector that is in memory afterwards; who calls it gives up on `none`. -/
def next (d : Device) (cache : FatCache) (cluster : Nat) : Option (Nat × FatCache) :=
  let byte := cluster * 4
  let lba := v.offset + v.fatOffset * v.sectorUnits + byte / 512
  (fatSector d cache lba).bind fun kept =>
    let value := getLE 4 kept.2 (byte % 512)
    if v.valid value then some (value, some kept) else none

/-- The loop of `runs` over the clusters that are left. -/
def runsFrom (d : Device) : Nat → Nat → List (Nat × Nat) → FatCache → Option (List (Nat × Nat))
  | 0, _, runs, _ => some runs
  | left + 1, cluster, runs, cache =>
    let runs := pushExtent runs (v.clusterLba cluster) (v.clusterBytes / 512)
    if left = 0 then some runs
    else (v.next d cache cluster).bind fun n => runsFrom d left n.1 runs n.2

def runs (d : Device) (file : FoundFile) : Option (List (Nat × Nat)) :=
  let count := divCeil file.bytes v.clusterBytes
  let perCluster := v.clusterBytes / 512
  if file.contiguous then some [(v.clusterLba file.first, count * perCluster)]
  else v.runsFrom d count file.first [] none

/-- The loop of `cluster_at`. -/
def clusterAtFrom (d : Device) : Nat → Nat → FatCache → Option Nat
  | 0, cluster, _ => some cluster
  | index + 1, cluster, cache => (v.next d cache cluster).bind fun n => clusterAtFrom d index n.1 n.2

def clusterAt (d : Device) (file : FoundFile) (index : Nat) : Option Nat :=
  if file.contiguous then some (u32 (file.first + u32 index)) else v.clusterAtFrom d index file.first none

end Volume

def fileRuns (d : Device) (offset : Nat) (file : FoundFile) : Option (List (Nat × Nat)) :=
  (openVolume d offset).bind fun v => v.runs d file

def readFileSector (d : Device) (offset : Nat) (file : FoundFile) (byte : Nat) : Option Bytes :=
  (openVolume d offset).bind fun v =>
    (v.clusterAt d file (byte / v.clusterBytes)).bind fun cluster =>
      d.read (u64 (v.clusterLba cluster + byte % v.clusterBytes / 512)) 1

/-! ### Reading the disk -/

theorem u64_of_lt {n : Nat} (h : n < 2 ^ 64) : u64 n = n := mod_eq_of_lt h

/-- A read is the sectors one after the other, and fails where one cannot be read. -/
theorem Device.read_eq (d : Device) {lba n : Nat} (hn : 0 < n) (hlt : lba + n < 2 ^ 64) :
    d.read lba n = collect d.data (range' lba n) := by
  unfold Device.read
  rw [u64_of_lt hlt]
  split
  · next hend =>
    -- the last sector is behind the end of the disk
    refine (collect_eq_none (i := lba + n - 1) ?_ (d.data_end _ (by omega))).symm
    rw [mem_range'_1]
    omega
  · rfl

theorem Device.read_one (d : Device) {lba : Nat} (hlt : lba + 1 < 2 ^ 64) : d.read lba 1 = d.data lba := by
  rw [d.read_eq one_pos hlt]
  exact collect_singleton d.data lba

/-! ### The clusters of a volume -/

namespace Volume

/-- The fields of a volume that `open` accepts. -/
structure Fits (v : Volume) : Prop where
  offset_lt : v.offset < 2 ^ 63
  units_pos : 0 < v.sectorUnits
  units_le : v.sectorUnits ≤ 8
  shift_le : v.clusterShift ≤ 25
  heap_lt : v.heapOffset < 2 ^ 32
  clusters_lt : v.clusters < 2 ^ 32

/-- The sectors of a cluster. -/
def perCluster (v : Volume) : Nat := v.sectorUnits * 2 ^ v.clusterShift

variable {v : Volume}

theorem clusterBytes_eq (v : Volume) : v.clusterBytes = 512 * v.perCluster := by
  unfold clusterBytes perCluster
  rw [shiftLeft_eq, mul_assoc]

theorem clusterBytes_div (v : Volume) : v.clusterBytes / 512 = v.perCluster := by
  rw [clusterBytes_eq, Nat.mul_div_cancel_left _ (by omega)]

variable {d : Device}

theorem fits_of_open {offset : Nat} (h : openVolume d offset = some v) : v.Fits := by
  obtain ⟨boot, hboot, h⟩ := bind_eq_some_iff.mp h
  dsimp only at h
  -- a sector that was read is a sector of the disk
  have hoffset : offset < d.sectors := by
    refine Nat.lt_of_not_le fun hle => ?_
    unfold Device.read at hboot
    rw [collect_eq_none (i := offset) (by simp) (d.data_end _ hle)] at hboot
    split at hboot <;> cases hboot
  split at h
  · cases h
  · split at h
    · cases h
    · next hshift =>
      cases h
      obtain ⟨hsector, hcluster⟩ := not_or.mp hshift
      rw [not_not] at hsector
      have hunits : getLE 1 boot 108 - 9 ≤ 3 := by omega
      refine ⟨lt_trans hoffset d.sectors_lt, ?_, ?_, Nat.le_of_not_lt hcluster, getLE_lt 4 boot 88,
        getLE_lt 4 boot 92⟩
      · show 0 < 1 <<< (getLE 1 boot 108 - 9)
        rw [one_shiftLeft]
        exact Nat.two_pow_pos _
      · show 1 <<< (getLE 1 boot 108 - 9) ≤ 8
        rw [one_shiftLeft]
        exact Nat.pow_le_pow_right (by omega) hunits

namespace Fits

theorem perCluster_pos (h : v.Fits) : 0 < v.perCluster := mul_pos h.units_pos (Nat.two_pow_pos _)

/-- The first sector of the heap. -/
def base (v : Volume) : Nat := v.offset + v.heapOffset * v.sectorUnits

/-- The clusters lie one after the other, and no sum wraps. -/
theorem clusterLba_eq (h : v.Fits) {c : Nat} (hlo : 2 ≤ c) (hhi : c < 2 ^ 32) :
    v.clusterLba c = base v + (c - 2) * v.perCluster ∧ base v + (c - 2) * v.perCluster < 2 ^ 63 + 2 ^ 62 := by
  have hc : u64 (c + 2 ^ 64 - 2) = c - 2 := by
    unfold u64
    omega
  have hpow : 2 ^ v.clusterShift ≤ 2 ^ 25 := Nat.pow_le_pow_right (by omega) h.shift_le
  have hshift : (c - 2) * 2 ^ v.clusterShift ≤ 2 ^ 32 * 2 ^ 25 := Nat.mul_le_mul (by omega) hpow
  have hheap := h.heap_lt
  have hsum : (v.heapOffset + (c - 2) * 2 ^ v.clusterShift) * v.sectorUnits ≤ 2 ^ 58 * 8 :=
    Nat.mul_le_mul (by omega) h.units_le
  have hoffset := h.offset_lt
  have hplace : v.offset + (v.heapOffset + (c - 2) * 2 ^ v.clusterShift) * v.sectorUnits =
      base v + (c - 2) * v.perCluster := by
    unfold base perCluster
    ring
  refine ⟨?_, by omega⟩
  unfold clusterLba
  rw [hc, shiftLeft_eq, u64_of_lt (n := (c - 2) * 2 ^ v.clusterShift) (by omega),
    u64_of_lt (n := v.heapOffset + _) (by omega), u64_of_lt (n := _ * v.sectorUnits) (by omega),
    u64_of_lt (by omega)]
  exact hplace

theorem valid_iff {c : Nat} : v.valid c = true ↔ 2 ≤ c ∧ c < u32 (v.clusters + 2) := decide_eq_true_iff

/-- Where a cluster is valid the number of clusters does not wrap. -/
theorem clusters_end (h : v.Fits) {c : Nat} (hc : v.valid c = true) : u32 (v.clusters + 2) = v.clusters + 2 := by
  have hlt := h.clusters_lt
  have hvalid := valid_iff.mp hc
  unfold u32 at hvalid ⊢
  omega

end Fits

/-! ### The FAT -/

/-- The FAT sector in memory is what the disk holds there. -/
def Kept (d : Device) (cache : FatCache) : Prop := ∀ at0 b, cache = some (at0, b) → d.read at0 1 = some b

theorem kept_none (d : Device) : Kept d none := nofun

variable {cache : FatCache}

section

variable (h : Kept d cache)

include h

theorem fatSector_eq (lba : Nat) :
    fatSector d cache lba = (d.read lba 1).map fun b => (lba, b) := by
  unfold fatSector
  split
  · next at0 b =>
    split
    · next heq =>
      rw [← heq, h at0 b rfl]
      rfl
    · rfl
  · rfl

/-- A FAT entry says the same whichever sector is in memory. -/
theorem next_eq (c : Nat) : v.next d cache c = v.next d none c := by
  unfold next
  dsimp only
  rw [fatSector_eq h, fatSector_eq (kept_none d)]

theorem next_spec {c : Nat} {n : Nat × FatCache}
    (hn : v.next d cache c = some n) : v.valid n.1 = true ∧ Kept d n.2 := by
  unfold next at hn
  dsimp only at hn
  rw [fatSector_eq h] at hn
  obtain ⟨kept, hkept, hn⟩ := bind_eq_some_iff.mp hn
  obtain ⟨b, hb, rfl⟩ := map_eq_some_iff.mp hkept
  obtain ⟨hvalid, hn⟩ := ite_none_right_eq_some.mp hn
  cases hn
  refine ⟨hvalid, ?_⟩
  intro at0 b' heq
  cases heq
  exact hb

theorem clusterAtFrom_eq (index c : Nat) :
    v.clusterAtFrom d index c cache = v.clusterAtFrom d index c none := by
  cases index with
  | zero => rfl
  | succ index => rw [clusterAtFrom, clusterAtFrom, next_eq h]

end

/-- The loop of `runs` goes through the clusters of the chain. -/
theorem runsFrom_chain (left : Nat) :
    ∀ {c : Nat} {rs rs' : List (Nat × Nat)} {cache : FatCache}, Kept d cache → v.valid c = true →
      v.runsFrom d left c rs cache = some rs' →
      ∃ cs : List Nat, cs.length = left ∧ (∀ i, i < left → v.clusterAtFrom d i c none = cs[i]?) ∧
        (∀ x ∈ cs, v.valid x = true) ∧
        places rs' = places rs ++ cs.flatMap fun c => range' (v.clusterLba c) v.perCluster := by
  induction left with
  | zero =>
    intro c rs rs' cache _ _ h
    cases h
    exact ⟨[], rfl, nofun, nofun, (append_nil _).symm⟩
  | succ left ih =>
    intro c rs rs' cache hkept hc h
    unfold runsFrom at h
    have hpush := places_pushExtent rs (v.clusterLba c) v.perCluster
    rw [clusterBytes_div] at h
    split at h
    · next hlast =>
      cases h
      refine ⟨[c], by rw [hlast]; rfl, ?_, ?_, ?_⟩
      · intro i hi
        rw [show i = 0 by omega]
        rfl
      · intro x hx
        rw [mem_singleton.mp hx]
        exact hc
      · rw [hpush, flatMap_singleton]
    · obtain ⟨n, hn, h⟩ := bind_eq_some_iff.mp h
      obtain ⟨hvalid, hkept'⟩ := next_spec hkept hn
      obtain ⟨cs, hlen, hat, hall, hplaces⟩ := ih hkept' hvalid h
      refine ⟨c :: cs, by rw [length_cons, hlen], ?_, ?_, ?_⟩
      · intro i hi
        cases i with
        | zero => rfl
        | succ i =>
          rw [next_eq hkept] at hn
          rw [clusterAtFrom, hn, getElem?_cons_succ, ← hat i (by omega)]
          exact clusterAtFrom_eq hkept' i n.1
      · intro x hx
        rcases mem_cons.mp hx with rfl | hx
        · exact hc
        · exact hall x hx
      · rw [hplaces, hpush, append_assoc, flatMap_cons]

/-! ### The sectors of a file -/

/-- The extents `rs` of a file are its clusters `cs` in order. -/
structure Laid (v : Volume) (d : Device) (file : FoundFile) (rs : List (Nat × Nat)) (cs : List Nat) : Prop where
  length : cs.length = divCeil file.bytes v.clusterBytes
  clusterAt : ∀ i, i < cs.length → v.clusterAt d file i = cs[i]?
  valid : ∀ c ∈ cs, v.valid c = true
  places : places rs = cs.flatMap fun c => List.range' (v.clusterLba c) v.perCluster

namespace Fits

theorem laid_of_chain {file : FoundFile} {rs : List (Nat × Nat)} (hfirst : v.valid file.first = true)
    (hchain : file.contiguous = false) (hrs : v.runs d file = some rs) : ∃ cs, v.Laid d file rs cs := by
  unfold runs at hrs
  rw [hchain, if_neg Bool.false_ne_true] at hrs
  obtain ⟨cs, hlen, hat, hall, hplaces⟩ := runsFrom_chain _ (kept_none d) hfirst hrs
  refine ⟨cs, hlen, ?_, hall, hplaces⟩
  intro i hi
  unfold Volume.clusterAt
  rw [hchain, if_neg Bool.false_ne_true]
  exact hat i (hlen ▸ hi)

theorem laid_of_contiguous (h : v.Fits) {file : FoundFile} {rs : List (Nat × Nat)}
    (hfirst : v.valid file.first = true) (hcont : file.contiguous = true) (hrs : v.runs d file = some rs)
    (hin : file.first + divCeil file.bytes v.clusterBytes ≤ v.clusters + 2) : ∃ cs, v.Laid d file rs cs := by
  have hend := h.clusters_end hfirst
  have hlo := (valid_iff.mp hfirst).1
  have hwrap : v.clusters + 2 < 2 ^ 32 := by
    rw [← hend]
    exact mod_lt _ (Nat.two_pow_pos _)
  unfold runs at hrs
  dsimp only at hrs
  rw [hcont, if_pos rfl, clusterBytes_div] at hrs
  cases hrs
  generalize hcount : divCeil file.bytes v.clusterBytes = count at hin
  refine ⟨range' file.first count, by rw [length_range', hcount], ?_, ?_, ?_⟩
  · intro i hi
    rw [length_range'] at hi
    unfold Volume.clusterAt u32
    rw [hcont, if_pos rfl, getElem?_range' hi, mod_eq_of_lt (a := i) (by omega), mod_eq_of_lt (by omega),
      one_mul]
  · intro c hc
    rw [mem_range'_1] at hc
    exact valid_iff.mpr ⟨by omega, by omega⟩
  · -- sector by sector: `j` lies in the cluster `first + j / perCluster`
    have hpos := h.perCluster_pos
    apply ext_getElem?
    intro j
    rw [getElem?_blocks hpos, places_cons, places_nil, append_nil]
    dsimp only
    by_cases hj : j / v.perCluster < count
    · have hj' : j < count * v.perCluster := (div_lt_iff_lt_mul hpos).mp hj
      rw [getElem?_range' hj', getElem?_range' hj, map_some]
      refine congrArg some ?_
      rw [(h.clusterLba_eq hlo (by omega)).1, (h.clusterLba_eq (c := file.first + 1 * (j / v.perCluster)) (by omega) (by omega)).1]
      have hsplit : file.first + 1 * (j / v.perCluster) - 2 = (file.first - 2) + j / v.perCluster := by omega
      have hdiv := div_add_mod j v.perCluster
      rw [hsplit, add_mul]
      rw [mul_comm] at hdiv
      omega
    · have hj' : ¬ j < count * v.perCluster := fun hc => hj ((div_lt_iff_lt_mul hpos).mpr hc)
      rw [getElem?_eq_none (by simpa using hj'), getElem?_eq_none (by simpa using hj)]
      rfl

end Fits

end Volume

end Exfat

end HamixOS.Kernel
