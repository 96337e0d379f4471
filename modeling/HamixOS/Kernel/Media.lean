import HamixOS.Lib.Bytes

namespace HamixOS.Kernel.Media

open Lib List Option

/-!
# Files on read-only media

`fs/media.rs`: the files of a mounted ISO 9660 or FAT volume are read from the drive by their extent,
a range of blocks or the first of a chain of clusters.
-/

/-- The 512 bytes of a sector of a drive, where it can be read. -/
abbrev Drives := (disk lba : Nat) → Option Bytes

inductive Extent
  | iso (block size : Nat)
  | fat (cluster size : Nat)
deriving DecidableEq, Repr

def Extent.size : Extent → Nat
  | iso _ size => size
  | fat _ size => size

structure FatGeometry where
  bits : Nat
  sectorBytes : Nat
  clusterSectors : Nat
  fatStart : Nat
  dataStart : Nat
  clusters : Nat
deriving DecidableEq, Repr

/-- A mounted medium: where it is, and the extents of its files. -/
structure Mount where
  dev : Nat
  disk : Nat
  offset : Nat
  fat : Option FatGeometry
  files : List Extent
deriving DecidableEq, Repr

/-- `count` sectors from `lba` on. -/
def read (drives : Drives) (disk lba count : Nat) : Option Bytes :=
  ((List.range count).mapM fun i => drives disk (lba + i)).map List.flatten

/-! ### Chains of clusters -/

structure FatReader where
  disk : Nat
  offset : Nat
  geo : FatGeometry
  cached : Option (Nat × Bytes)

namespace FatReader

def lba (r : FatReader) (sector : Nat) : Nat := r.offset + sector * (r.geo.sectorBytes / 512)

/-- A sector of the file system; the last one read is kept. -/
def sector (drives : Drives) (n : Nat) : StateT FatReader Option Bytes := fun r =>
  match r.cached with
  | some (m, data) =>
    if m = n then some (data, r)
    else (read drives r.disk (r.lba n) (r.geo.sectorBytes / 512)).map fun data => (data, { r with cached := some (n, data) })
  | none => (read drives r.disk (r.lba n) (r.geo.sectorBytes / 512)).map fun data => (data, { r with cached := some (n, data) })

/-- The cluster after `cluster`, which the file allocation table holds in 12, 16 or 32 bits. -/
def next (drives : Drives) (cluster : Nat) : StateT FatReader Option Nat := do
  let r ← get
  let bps := r.geo.sectorBytes
  let byte := if r.geo.bits = 12 then cluster * 3 / 2 else if r.geo.bits = 16 then cluster * 2 else cluster * 4
  let stop := if r.geo.bits = 12 then 0xFF8 else if r.geo.bits = 16 then 0xFFF8 else 0x0FFFFFF8
  let first := r.geo.fatStart + byte / bps
  let within := byte % bps
  let data ← sector drives first
  let value ←
    if r.geo.bits = 12 then do
      let lo := getLE 1 data within
      let hi ← if within + 1 < bps then pure (getLE 1 data (within + 1)) else do
        let data ← sector drives (first + 1)
        pure (getLE 1 data 0)
      let pair := lo + hi * 2 ^ 8
      pure (if cluster % 2 = 1 then pair / 2 ^ 4 else pair % 2 ^ 12)
    else if r.geo.bits = 16 then pure (getLE 2 data within)
    else pure (getLE 4 data within % 2 ^ 28)
  if value < 2 ∨ stop ≤ value ∨ r.geo.clusters + 1 < value then failure else pure value

def clusterBytes (r : FatReader) : Nat := r.geo.sectorBytes * r.geo.clusterSectors

def readCluster (drives : Drives) (r : FatReader) (cluster : Nat) : Option Bytes :=
  read drives r.disk (r.lba (r.geo.dataStart + (cluster - 2) * r.geo.clusterSectors)) (r.clusterBytes / 512)

/-- The clusters of a chain until there are `limit` bytes; a chain that does not end is given up when
as many clusters as there are have been read. -/
def readClusters (drives : Drives) (limit : Nat) : (fuel cluster : Nat) → FatReader → Bytes → Bytes
  | 0, _, _, out => out
  | fuel + 1, cluster, r, out =>
    if 2 ≤ cluster ∧ out.length < limit then
      match r.readCluster drives cluster with
      | none => out
      | some data =>
        match next drives cluster r with
        | none => out ++ data
        | some (cluster, r) => readClusters drives limit fuel cluster r (out ++ data)
    else out

/-- The first `limit` bytes of a chain. -/
def readChain (drives : Drives) (r : FatReader) (start limit : Nat) : Bytes :=
  (readClusters drives limit (r.geo.clusters + 1) start r []).take limit

end FatReader

/-! ### Files -/

/-- Whether a device number is that of a mounted medium. -/
def owns (mounts : List Mount) (dev : Nat) : Bool := mounts.any fun m => m.dev = dev

/-- The content of an extent. -/
def loadExtent (drives : Drives) (m : Mount) : Extent → Option Bytes
  | .iso block size =>
    (read drives m.disk (m.offset + block * 4) (max ((size + 511) / 512) 1)).map fun data => data.take size
  | .fat cluster size =>
    if size = 0 ∨ cluster < 2 then some []
    else m.fat.map fun geo => FatReader.readChain drives ⟨m.disk, m.offset, geo, none⟩ cluster size

/-- The content of file `id` of a medium; the files are numbered from 1 on. -/
def load (drives : Drives) (mounts : List Mount) (dev id : Nat) : Option Bytes :=
  match mounts.find? fun m => m.dev = dev with
  | none => none
  | some m => if id = 0 then none else m.files[id - 1]?.bind (loadExtent drives m)

/-- A file is never longer than its extent says. -/
theorem length_loadExtent {drives : Drives} {m : Mount} {extent : Extent} {data : Bytes}
    (h : loadExtent drives m extent = some data) : data.length ≤ extent.size := by
  cases extent with
  | iso block size =>
    obtain ⟨raw, -, rfl⟩ := map_eq_some_iff.mp h
    exact length_take_le _ _
  | fat cluster size =>
    simp only [loadExtent] at h
    split_ifs at h with hempty
    · cases h
      exact Nat.zero_le _
    · obtain ⟨geo, -, rfl⟩ := map_eq_some_iff.mp h
      exact length_take_le _ _

/-- What is loaded is the content of an extent of a medium with that device number. -/
theorem load_extent {drives : Drives} {mounts : List Mount} {dev id : Nat} {data : Bytes}
    (h : load drives mounts dev id = some data) :
    ∃ m extent, m ∈ mounts ∧ m.dev = dev ∧ m.files[id - 1]? = some extent ∧ loadExtent drives m extent = some data := by
  unfold load at h
  cases hm : mounts.find? fun m => m.dev = dev with
  | none =>
    rw [hm] at h
    cases h
  | some m =>
    rw [hm] at h
    split_ifs at h with hid
    obtain ⟨extent, hget, hdata⟩ := bind_eq_some_iff.mp h
    have hdev := find?_some hm
    exact ⟨m, extent, mem_of_find?_eq_some hm, by simpa using hdev, hget, hdata⟩

end HamixOS.Kernel.Media
