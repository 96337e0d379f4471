import HamixOS.Kernel.Exfat

namespace HamixOS.Kernel

namespace Exfat

open Lib List Nat Option

/-!
# Loop disks

`drivers/block.rs` makes a disk of the extents of a file: a read is cut at the ends of the
extents and passed on to the parent disk.

* `mappedReadFrom_eq` — a read of such a disk is the sectors of its extents in order;
* `loop_disk_is_file` — when such a disk is the file its extents come from;
* `contiguous_file_leaves_heap` — a file that is not.
-/

/-- A disk that maps onto its parent: where each extent begins on it, the sector of the parent it
    begins at, and its length. -/
structure MappedDisk where
  runs : List (Nat × Nat × Nat)
  sectors : Nat

/-- `register_mapped_disk`; the entry in the list of disks is left out. -/
def registerMappedDisk (runs : List (Nat × Nat)) : MappedDisk := ⟨tableFrom 0 runs, (runs.map (·.2)).sum⟩

namespace MappedDisk

/-- The loop of `mapped_read` from a sector on, with so many sectors of the buffer left; each
    turn reads one sector at least. -/
def readFrom (m : MappedDisk) (parent : Device) : Nat → Nat → Nat → Option Bytes
  | 0, _, _ => some []
  | fuel + 1, sector, left =>
    if left = 0 then some []
    else
      match locate m.runs sector with
      | none => none
      | some (start, lba, sectors) =>
        if start + sectors ≤ sector then none
        else
          let take := min left (start + sectors - sector)
          (parent.read (lba + (sector - start)) take).bind fun b =>
            (readFrom m parent fuel (sector + take) (left - take)).map fun rest => b ++ rest

/-- `block::read` of `n` sectors of a mapped disk. -/
def read (m : MappedDisk) (parent : Device) (lba n : Nat) : Option Bytes :=
  if m.sectors < u64 (lba + n) then none else m.readFrom parent n lba n

/-- The sectors of the parent that a mapped disk stands for. -/
def Reaches (m : MappedDisk) (p : Nat) : Prop := ∃ run ∈ m.runs, run.2.1 ≤ p ∧ p < run.2.1 + run.2.2

end MappedDisk

/-- A disk of the extents `rs` is the file they come from. -/
structure IsItsFile (d : Device) (offset : Nat) (v : Volume) (file : FoundFile) (rs : List (Nat × Nat)) : Prop where
  sectors : (registerMappedDisk rs).sectors = divCeil file.bytes v.clusterBytes * v.clusterBytes / 512
  same : ∀ k n, k < divCeil file.bytes 512 → k + n ≤ (registerMappedDisk rs).sectors →
    (registerMappedDisk rs).read d k n = collect (fun j => readFileSector d offset file (512 * j)) (List.range' k n)
  inside : ∀ p, (registerMappedDisk rs).Reaches p → v.clusterLba 2 ≤ p ∧ p < v.clusterLba (2 + v.clusters)

/-! ### Reading through the extents -/

theorem sectors_register (rs : List (Nat × Nat)) : (registerMappedDisk rs).sectors = (places rs).length :=
  (length_places rs).symm

theorem exists_row_iff {rs : List (Nat × Nat)} {at0 : Nat} {P : Nat × Nat → Prop} :
    (∃ row ∈ tableFrom at0 rs, P row.2) ↔ ∃ e ∈ rs, P e := by
  induction rs generalizing at0 with
  | nil => simp [tableFrom]
  | cons e rs ih => simp only [tableFrom, exists_mem_cons_iff, ih]

theorem reaches_register {rs : List (Nat × Nat)} {p : Nat} : (registerMappedDisk rs).Reaches p ↔ p ∈ places rs := by
  rw [mem_places]
  exact exists_row_iff (P := fun e => e.1 ≤ p ∧ p < e.1 + e.2)

/-- A read goes through the extents sector by sector. -/
theorem readFrom_eq {d : Device} {rs : List (Nat × Nat)} (hfits : ∀ p ∈ places rs, p + 1 < 2 ^ 64) {fuel left sector : Nat}
    (hfuel : left ≤ fuel) (hend : sector + left ≤ (places rs).length) :
    (registerMappedDisk rs).readFrom d fuel sector left =
      collect (fun j => ((places rs)[j]?).bind d.data) (range' sector left) := by
  induction fuel generalizing left sector with
  | zero =>
    rw [le_zero.mp hfuel]
    rfl
  | succ fuel ih =>
    unfold MappedDisk.readFrom
    by_cases h0 : left = 0
    · rw [if_pos h0, h0]
      rfl
    · rw [if_neg h0]
      obtain ⟨⟨start, lba, n⟩, hrow, hle, hlt, hrowend, hat⟩ :=
        locate_table (zero_le sector) (show sector < 0 + (places rs).length by omega)
      dsimp only at hle hlt hrowend hat
      rw [show locate (registerMappedDisk rs).runs sector = some (start, lba, n) from hrow]
      dsimp only
      rw [if_neg (Nat.not_le_of_lt hlt)]
      generalize htake : min left (start + n - sector) = take
      have hpos : 0 < take := by omega
      have hplace : ∀ i, i < take → (places rs)[sector + i]? = some (lba + (sector - start) + i) := by
        intro i hi
        have := hat i (by omega)
        rwa [Nat.sub_zero] at this
      -- the last sector of the piece is a sector of the extents
      have hlast := hfits _ (mem_of_getElem? (hplace (take - 1) (by omega)))
      have hpiece : d.read (lba + (sector - start)) take =
          collect (fun j => ((places rs)[j]?).bind d.data) (range' sector take) := by
        rw [d.read_eq hpos (by omega)]
        refine collect_range'_congr ?_
        intro i hi
        rw [hplace i hi, bind_some]
      rw [ih (show left - take ≤ fuel by omega) (show sector + take + (left - take) ≤ _ by omega), hpiece, ← collect_append,
        range'_append_1]
      congr 2
      omega

namespace Volume

variable {v : Volume}

namespace Laid

variable {d : Device} {file : FoundFile} {rs : List (Nat × Nat)} {cs : List Nat}

theorem length_places (h : v.Laid d file rs cs) : (Lib.places rs).length = cs.length * v.perCluster := by
  rw [h.places]
  exact length_blocks v.clusterLba v.perCluster cs

/-- Where a sector of the file lies. -/
theorem sector (hv : v.Fits) (h : v.Laid d file rs cs) {j : Nat} (hj : j < (Lib.places rs).length) :
    ∃ c, v.clusterAt d file (j / v.perCluster) = some c ∧ v.valid c = true ∧
      (Lib.places rs)[j]? = some (v.clusterLba c + j % v.perCluster) := by
  have hpos := hv.perCluster_pos
  rw [h.length_places] at hj
  have hidx : j / v.perCluster < cs.length := (div_lt_iff_lt_mul hpos).mpr hj
  obtain ⟨c, hc⟩ : ∃ c, cs[j / v.perCluster]? = some c := ⟨_, getElem?_eq_getElem hidx⟩
  refine ⟨c, (h.clusterAt _ hidx).trans hc, h.valid c (mem_of_getElem? hc), ?_⟩
  rw [h.places, getElem?_blocks hpos, hc]
  rfl

/-- The sectors of a valid cluster lie in the heap. -/
theorem inside_of_valid (hv : v.Fits) {c r : Nat} (hc : v.valid c = true) (hr : r < v.perCluster) :
    v.clusterLba 2 ≤ v.clusterLba c + r ∧ v.clusterLba c + r < v.clusterLba (2 + v.clusters) ∧
      v.clusterLba c + r + 1 < 2 ^ 64 := by
  have hend := hv.clusters_end hc
  have hwrap : v.clusters + 2 < 2 ^ 32 := by
    rw [← hend]
    exact mod_lt _ (Nat.two_pow_pos _)
  obtain ⟨hlo, hhi⟩ := Fits.valid_iff.mp hc
  rw [hend] at hhi
  obtain ⟨hstop, hstoplt⟩ := hv.clusterLba_eq (c := 2 + v.clusters) (by omega) (by omega)
  rw [(hv.clusterLba_eq hlo (by omega)).1, (hv.clusterLba_eq (c := 2) (by omega) (by omega)).1, hstop]
  have hnext : (c - 2) * v.perCluster + v.perCluster ≤ (2 + v.clusters - 2) * v.perCluster := by
    rw [← succ_mul]
    exact mul_le_mul_right _ (by omega)
  rw [Nat.sub_self, Nat.zero_mul]
  omega

theorem inside (hv : v.Fits) (h : v.Laid d file rs cs) {p : Nat} (hp : p ∈ Lib.places rs) :
    v.clusterLba 2 ≤ p ∧ p < v.clusterLba (2 + v.clusters) ∧ p + 1 < 2 ^ 64 := by
  obtain ⟨j, hj, hget⟩ := mem_iff_getElem.mp hp
  obtain ⟨c, -, hc, hat⟩ := h.sector hv hj
  rw [getElem?_eq_getElem hj, hget] at hat
  cases hat
  exact inside_of_valid hv hc (mod_lt _ hv.perCluster_pos)

theorem readFileSector {offset : Nat} (hopen : openVolume d offset = some v) (h : v.Laid d file rs cs) {j : Nat}
    (hj : j < (Lib.places rs).length) :
    Exfat.readFileSector d offset file (512 * j) = ((Lib.places rs)[j]?).bind d.data := by
  have hv := fits_of_open hopen
  obtain ⟨c, hc, hvalid, hat⟩ := h.sector hv hj
  have hlt := (inside_of_valid hv hvalid (mod_lt j hv.perCluster_pos)).2.2
  unfold Exfat.readFileSector
  rw [hopen, bind_some, clusterBytes_eq, Nat.mul_div_mul_left _ _ (by omega), hc, bind_some,
    mul_mod_mul_left, Nat.mul_div_cancel_left _ (by omega), u64_of_lt (by omega), d.read_one hlt, hat,
    bind_some]

theorem isItsFile {offset : Nat} (hopen : openVolume d offset = some v) (h : v.Laid d file rs cs) :
    IsItsFile d offset v file rs where
  sectors := by
    rw [sectors_register, h.length_places, h.length, clusterBytes_eq, ← mul_assoc, mul_comm _ 512, mul_assoc,
      Nat.mul_div_cancel_left _ (by omega)]
  same := by
    intro k n _ hend
    have hv := fits_of_open hopen
    have hfits : ∀ p ∈ Lib.places rs, p + 1 < 2 ^ 64 := fun p hp => (h.inside hv hp).2.2
    rw [sectors_register] at hend
    have hread : (registerMappedDisk rs).read d k n = (registerMappedDisk rs).readFrom d n k n := by
      refine if_neg (Nat.not_lt_of_le ?_)
      rw [sectors_register]
      exact le_trans (mod_le _ _) hend
    rw [hread, readFrom_eq hfits (le_refl n) hend]
    refine collect_range'_congr ?_
    intro i hi
    exact (h.readFileSector hopen (by omega)).symm
  inside := by
    intro p hp
    have hin := h.inside (fits_of_open hopen) (reaches_register.mp hp)
    exact ⟨hin.1, hin.2.1⟩

end Laid

end Volume

/-! ### When the disk is the file -/

/-- Such a disk is its file exactly when a contiguous file ends in the heap. -/
theorem loop_disk_is_file {d : Device} {offset : Nat} {v : Volume} {file : FoundFile} {rs : List (Nat × Nat)}
    (hopen : openVolume d offset = some v) (hfirst : v.valid file.first = true)
    (hruns : fileRuns d offset file = some rs) :
    IsItsFile d offset v file rs ↔
      (file.contiguous = true → file.first + divCeil file.bytes v.clusterBytes ≤ v.clusters + 2) := by
  have hv := Volume.fits_of_open hopen
  have hrs : v.runs d file = some rs := by
    unfold fileRuns at hruns
    rwa [hopen, Option.bind_some] at hruns
  constructor
  · intro h hcont
    refine Nat.le_of_not_lt fun hout => ?_
    -- the last sector of the file is behind the heap
    have hend := hv.clusters_end hfirst
    have hwrap : v.clusters + 2 < 2 ^ 32 := by
      rw [← hend]
      exact Nat.mod_lt _ (Nat.two_pow_pos _)
    obtain ⟨hlo, hhi⟩ := Volume.Fits.valid_iff.mp hfirst
    have hpos := hv.perCluster_pos
    unfold Volume.runs at hrs
    dsimp only at hrs
    rw [hcont, if_pos rfl, Volume.clusterBytes_div] at hrs
    cases hrs
    generalize divCeil file.bytes v.clusterBytes = count at hout h
    have hcount : 0 < count * v.perCluster := mul_pos (by omega) hpos
    have hin := h.inside (v.clusterLba file.first + count * v.perCluster - 1) ⟨_, List.mem_singleton.mpr rfl, by
      dsimp only
      omega⟩
    rw [(hv.clusterLba_eq hlo (by omega)).1, (hv.clusterLba_eq (c := 2 + v.clusters) (by omega) (by omega)).1] at hin
    have hfar : (2 + v.clusters - 2) * v.perCluster + v.perCluster ≤
        (file.first - 2) * v.perCluster + count * v.perCluster := by
      rw [← Nat.succ_mul, ← add_mul]
      exact Nat.mul_le_mul_right _ (by omega)
    omega
  · intro hin
    by_cases hcont : file.contiguous = true
    · obtain ⟨cs, hlaid⟩ := hv.laid_of_contiguous hfirst hcont hrs (hin hcont)
      exact hlaid.isItsFile hopen
    · obtain ⟨cs, hlaid⟩ := Volume.Fits.laid_of_chain hfirst (by simpa using hcont) hrs
      exact hlaid.isItsFile hopen

/-- The boot sector of a volume with one FAT sector and a heap of `clusters` clusters, each a
    sector, behind it. -/
def bootSector (clusters : UInt8) : Bytes :=
  zeros 3 ++ exfatName ++ zeros 69 ++ [1, 0, 0, 0] ++ zeros 4 ++ [2, 0, 0, 0] ++ [clusters, 0, 0, 0] ++
    [2, 0, 0, 0] ++ zeros 8 ++ [9, 0] ++ zeros 402

/-- A FAT in which cluster 2 is followed by cluster 4. -/
def fatOfTwo : Bytes := zeros 8 ++ [4, 0, 0, 0] ++ zeros 500

/-- A disk of eight sectors with such a volume. -/
def smallDisk (clusters : UInt8) : Device where
  sectors := 8
  data := fun i =>
    if i = 0 then some (bootSector clusters) else if i = 1 then some fatOfTwo else if i < 8 then some (zeros 512) else none
  sectors_lt := by decide
  data_length := by
    intro i b h
    split at h
    · cases h
      simp [bootSector, exfatName]
    · split at h
      · cases h
        simp [fatOfTwo]
      · split at h
        · cases h
          exact length_zeros 512
        · cases h
  data_end := by
    intro i hi
    rw [if_neg (by omega), if_neg (by omega), if_neg (by omega)]

/-- What `open` reads from it. -/
def smallVolume (clusters : Nat) : Volume := ⟨0, 1, 0, 1, 2, clusters, 2⟩

/-- A file of two clusters that do not lie side by side. -/
theorem loop_disk_is_file_fragmented : IsItsFile (smallDisk 3) 0 (smallVolume 3) ⟨2, 1024, false⟩ [(2, 1), (4, 1)] :=
  (loop_disk_is_file (by decide +kernel) (by decide) (by decide +kernel)).mpr nofun

/-- A contiguous file of two clusters in a heap of one is mapped beyond the heap. -/
theorem contiguous_file_leaves_heap :
    ¬ ∀ (d : Device) (offset : Nat) (v : Volume) (file : FoundFile) (rs : List (Nat × Nat)),
      openVolume d offset = some v → v.valid file.first = true → fileRuns d offset file = some rs →
        IsItsFile d offset v file rs := by
  intro hclaim
  have h := hclaim (smallDisk 1) 0 (smallVolume 1) ⟨2, 1024, true⟩ [(2, 2)] (by decide +kernel) (by decide)
    (by decide +kernel)
  have hreach : (registerMappedDisk [(2, 2)]).Reaches 3 := ⟨(0, 2, 2), List.mem_singleton.mpr rfl, by decide⟩
  exact absurd (h.inside 3 hreach).2 (by decide)

end Exfat

end HamixOS.Kernel
