import HamixOS.HextFs.DirBlock
import HamixOS.HextFs.File

namespace HamixOS.HextFs

open Lib List

/-!
# Directories

The operations on directories and on the tree, and the specifications of the loops over the blocks
of one directory: `Sys.readDirBlocks`, `Sys.addToBlocks`, `Sys.removeFromBlocks`.
-/

/-- The type byte of an entry. -/
def fileTypeOf (mode : Nat) : Nat :=
  if mode &&& sIfmt = sIfdir then 2 else if mode &&& sIfmt = sIflnk then 7 else 1

/-- The first block of a new directory: itself and its parent. -/
def dotBlock (bs ino parent : Nat) : Bytes :=
  putEntry (putEntry (zeros bs) 0 ino 12 2 (utf8 ".")) 12 parent (bs - 12) 2 (utf8 "..")

namespace Hext

variable {D : Type} [BlockDevice D]

/-- The entries of a list of directory blocks. -/
def readDirBlocks : List Nat → HextM D (List DirEntry)
  | [] => pure []
  | block :: blocks => do
    let data ← readBlock block
    let s ← get
    match dirEntriesFrom s.bs data s.bs 0 with
    | .error x => throw x
    | .ok entries => do
      let rest ← readDirBlocks blocks
      pure (entries ++ rest)

/-- The entries of a directory. -/
def readDir (ino : Nat) : HextM D (List DirEntry) := do
  let inode ← readInode ino
  if inode.isDir then do
    let blocks ← blockList inode false
    readDirBlocks blocks
  else throw .notDir

/-- The inode of a name in a directory. -/
def lookup (dir : Nat) (name : String) : HextM D (Option Nat) := do
  let entries ← readDir dir
  pure ((entries.find? (fun x => x.name = name)).map DirEntry.ino)

/-- The inode of a path, from an inode on. -/
def resolveFrom (ino : Nat) : List String → HextM D Nat
  | [] => pure ino
  | part :: parts => do
    match ← lookup ino part with
    | none => throw .notFound
    | some child => resolveFrom child parts

/-- The inode of a path. -/
def resolve (path : String) : HextM D Nat :=
  resolveFrom rootIno ((path.splitOn "/").filter (fun p => p ≠ ""))

/-- Put an entry into the first block with room; whether there was one. -/
def addToBlocks (name : Bytes) (child fileType : Nat) : List Nat → HextM D Bool
  | [] => pure false
  | block :: blocks => do
    let data ← readBlock block
    let s ← get
    match addInBlock s.bs name child fileType data s.bs 0 with
    | .error x => throw x
    | .ok (some data) => do
      stage block data
      pure true
    | .ok none => addToBlocks name child fileType blocks

/-- Add a block with one entry to a directory. -/
def extendDir (dir : Nat) (inode : Inode) (name : Bytes) (child fileType : Nat) : HextM D Unit := do
  let s ← get
  let block ← allocBlock ((dir - 1) / s.inodesPerGroup)
  stage block (putEntry (zeros s.bs) 0 child s.bs fileType name)
  let (all, ptrs) ← blockListSplit inode
  freeBlocks ptrs
  let (inode, n) ← buildPointers inode (all ++ [block]) false
  let s ← get
  writeInode dir { inode with
    size := (all.length + 1) * s.bs
    blocks512 := (all.length + 1 + n) * s.bs / 512 % 2 ^ 32
    mtime := s.now }

/-- Add an entry to a directory. -/
def addEntry (dir : Nat) (name : String) (child fileType : Nat) : HextM D Unit := do
  let inode ← readInode dir
  let blocks ← blockList inode false
  let done ← addToBlocks (utf8 name) child fileType blocks
  if done then pure () else extendDir dir inode (utf8 name) child fileType

/-- Take a name out of the first block that has it. -/
def removeFromBlocks (name : Bytes) : List Nat → HextM D Unit
  | [] => throw .notFound
  | block :: blocks => do
    let data ← readBlock block
    let s ← get
    match removeInBlock s.bs name data s.bs 0 none with
    | .error x => throw x
    | .ok (some data) => stage block data
    | .ok none => removeFromBlocks name blocks

/-- Remove an entry from a directory. -/
def removeEntry (dir : Nat) (name : String) : HextM D Unit := do
  let inode ← readInode dir
  let blocks ← blockList inode false
  removeFromBlocks (utf8 name) blocks

/-- Give a new directory its first block. -/
def initDirectory (ino parent : Nat) : HextM D Unit := do
  let inode ← readInode ino
  let s ← get
  let block ← allocBlock ((ino - 1) / s.inodesPerGroup)
  stage block (dotBlock s.bs ino parent)
  writeInode ino { inode with
    block := block :: List.replicate 14 0
    size := s.bs
    blocks512 := s.bs / 512 }

/-- Whether a name may be given to a file. -/
def badName (name : String) : Bool :=
  name = "" || 255 < (utf8 name).length || name.contains '/' || name = "." || name = ".."

/-- Count one more directory in a parent. -/
def addLink (parent : Nat) : HextM D Unit := do
  let inode ← readInode parent
  writeInode parent { inode with links := (inode.links + 1) % 2 ^ 16 }

/-- Create a file or a directory. -/
def create (parent : Nat) (name : String) (mode : UInt16) (uid gid : UInt32) : HextM D Nat := do
  if badName name then throw .invalidName
  else do
    let parentInode ← readInode parent
    if parentInode.isDir then do
      match ← lookup parent name with
      | some _ => throw .exists_
      | none => do
        let s ← get
        let dir := mode.toNat &&& sIfmt == sIfdir
        let ino ← allocInode ((parent - 1) / s.inodesPerGroup) dir
        writeInode ino { mode := mode.toNat, uid := uid.toNat, gid := gid.toNat,
                         links := if dir then 2 else 1,
                         atime := s.now, ctime := s.now, mtime := s.now }
        if dir then do
          initDirectory ino parent
          addLink parent
          addEntry parent name ino (fileTypeOf mode.toNat)
          pure ino
        else do
          addEntry parent name ino (fileTypeOf mode.toNat)
          pure ino
    else throw .notDir

/-- Remove the entry of an inode, its blocks and the inode itself. -/
def dropInode (parent : Nat) (name : String) (ino : Nat) (inode : Inode) : HextM D Unit := do
  removeEntry parent name
  let blocks ← blockList inode true
  freeBlocks blocks
  let s ← get
  writeInode ino { Inode.empty with dtime := s.now }
  freeInode ino inode.isDir

/-- Count one directory less in a parent. -/
def dropLink (parent : Nat) : HextM D Unit := do
  let inode ← readInode parent
  writeInode parent { inode with links := inode.links - 1 }

/-- Remove a file or an empty directory. -/
def unlink (parent : Nat) (name : String) : HextM D Unit := do
  match ← lookup parent name with
  | none => throw .notFound
  | some ino =>
    if ino = lostFoundIno ∧ parent = rootIno then throw .invalidName
    else do
      let inode ← readInode ino
      if inode.isDir then do
        let entries ← readDir ino
        if entries.isEmpty then do
          dropLink parent
          dropInode parent name ino inode
        else throw .notEmpty
      else dropInode parent name ino inode

/-- Remove a file or a directory with everything below it.  The fuel bounds the depth of the
tree. -/
def removeTree : (fuel : Nat) → (parent : Nat) → (name : String) → HextM D Unit
  | 0, _, _ => throw .corrupt
  | fuel + 1, parent, name => do
    match ← lookup parent name with
    | none => throw .notFound
    | some ino => do
      let inode ← readInode ino
      if inode.isDir then do
        let entries ← readDir ino
        entries.forM (fun child => removeTree fuel ino child.name)
        unlink parent name
      else unlink parent name

end Hext

open Hext

/-! ### The blocks of one directory -/

/-- The entries of a directory block. -/
def blockEntries (bs : Nat) (b : Bytes) : List DirEntry :=
  match dirEntriesFrom bs b bs 0 with
  | .ok entries => entries
  | .error _ => []

/-- A well-formed directory block with names in UTF-8. -/
structure DirBlock (bs : Nat) (b : Bytes) : Prop where
  len : b.length = bs
  chain : ∃ rs, Chain bs b 0 rs bs ∧ ∀ r ∈ rs, r.ino ≠ 0 → ∃ name, r.name = utf8 name

/-- What the loop over a well-formed block returns. -/
theorem DirBlock.entries {bs : Nat} {b : Bytes} (h : DirBlock bs b) (hpos : 0 < bs) :
    dirEntriesFrom bs b bs 0 = .ok (blockEntries bs b) := by
  obtain ⟨rs, hch, -⟩ := h.chain
  have hlen := hch.length_le
  have heq := dirEntriesFrom_eq hch (show rs.length < bs by omega)
  rw [blockEntries, heq]

theorem blockEntries_eq {bs : Nat} {b : Bytes} {rs : List Rec} (h : Chain bs b 0 rs bs)
    (hpos : 0 < bs) : blockEntries bs b = rs.filterMap Rec.entry := by
  have hlen := h.length_le
  rw [blockEntries, dirEntriesFrom_eq h (by omega)]

/-- The entry of a record with a UTF-8 name. -/
theorem Rec.entry_of_name {r : Rec} {name : String} (hne : r.ino ≠ 0) (hname : r.name = utf8 name)
    (hdot : name ≠ ".") (hdots : name ≠ "..") :
    r.entry = some ⟨name, r.ino, r.fileType⟩ := by
  rw [Rec.entry, hname, fromUtf8Lossy_utf8, if_pos ⟨hne, hdot, hdots⟩]

/-- An entry of a record names it. -/
theorem Rec.entry_eq {r : Rec} {x : DirEntry} (h : r.entry = some x)
    (hutf : r.ino ≠ 0 → ∃ name, r.name = utf8 name) :
    r.ino ≠ 0 ∧ r.name = utf8 x.name ∧ r.ino = x.ino ∧ x.name ≠ "." ∧ x.name ≠ ".." := by
  rw [Rec.entry] at h
  split at h
  · rename_i hc
    obtain ⟨hne, hd, hdd⟩ := hc
    obtain ⟨name, hname⟩ := hutf hne
    cases h
    rw [hname, fromUtf8Lossy_utf8] at hd hdd
    exact ⟨hne, by rw [hname, fromUtf8Lossy_utf8], rfl, by rw [hname, fromUtf8Lossy_utf8]; exact hd,
      by rw [hname, fromUtf8Lossy_utf8]; exact hdd⟩
  · cases h

theorem Geometry.bs_lt (G : Geometry) : G.bs < 2 ^ 16 := by
  rcases G.shape with ⟨h, -⟩ | ⟨h, -⟩ <;> rw [h] <;> omega

/-- One directory block was replaced. -/
structure Edits (e : Epoch) (s : Hext Disk) (b : Nat) (d : Bytes) (s' : Hext Disk) : Prop where
  sys : Sys e s'
  view : e.geometry.view s' = { e.geometry.view s with
    data := Function.update (e.geometry.view s).data b d }
  dev : s'.dev = s.dev
  cache : ∀ b', b' ≠ b → s'.cache[b']? = s.cache[b']?
  freed : s'.freed = s.freed

namespace Sys

variable {e : Epoch} {s : Hext Disk}

/-- Staging a block in use. -/
theorem editBlock (h : Sys e s) {s1 : Hext Disk} (hs : Same s s1) (hsys : Sys e s1) {b : Nat}
    {d : Bytes} (hroom : e.geometry.Room b) (hused : (e.geometry.view s).used b = true)
    (hd : d.length = e.geometry.bs) :
    Post (Hext.stage b d) s1 (fun _ s' => Edits e s b d s') (fun _ _ => False) := by
  have hv : e.geometry.view s1 = e.geometry.view s := view_same hs
  obtain ⟨hsys', hview⟩ := hsys.stageData hroom (by rw [hv]; exact hused) hd
  rw [hv] at hview
  have := h.seq
  obtain ⟨c, rfl⟩ := hs
  refine Post.of_ok (stage_run _ b d) ⟨hsys', hview, rfl, ?_, rfl⟩
  intro b' hb'
  show (s.cache.insert b d)[b']? = _
  rw [Std.TreeMap.getElem?_insert, if_neg]
  intro heq
  rw [Nat.compare_eq_eq] at heq
  exact hb' heq.symm

variable {blocks : List Nat}

/-- The entries of well-formed blocks are read in order. -/
theorem readDirBlocks (h : Sys e s) (hroom : ∀ b ∈ blocks, e.geometry.Room b)
    (hdir : ∀ b ∈ blocks, DirBlock e.geometry.bs ((e.geometry.view s).data b)) :
    Post (Hext.readDirBlocks blocks) s
      (fun es s' => es = blocks.flatMap (fun b => blockEntries e.geometry.bs ((e.geometry.view s).data b))
        ∧ Same s s' ∧ Sys e s')
      (fun _ _ => False) := by
  induction blocks generalizing s with
  | nil => exact Post.pure ⟨rfl, Same.refl s, h⟩
  | cons b blocks ih =>
    have hr := hroom b (by simp)
    have hd := hdir b (by simp)
    rw [Hext.readDirBlocks]
    refine Post.seq (h.readBlock hr.1.2) ?_
    rintro d s1 ⟨rfl, hs1, hsys1⟩
    refine Post.get ?_
    rw [hsys1.lays.bs, ← view_data _ _ hr, hd.entries e.geometry.bs_pos]
    have hv := view_same (G := e.geometry) hs1
    refine Post.seq (ih hsys1 (fun b' hb' => hroom b' (by simp [hb']))
      (fun b' hb' => by rw [hv]; exact hdir b' (by simp [hb']))) ?_
    rintro es s2 ⟨rfl, hs2, hsys2⟩
    refine Post.pure ⟨?_, hs1.trans hs2, hsys2⟩
    rw [hv, flatMap_cons]

/-- The entry is put into one block, or no block has room. -/
theorem addToBlocks (h : Sys e s) {name : String} {child ft : Nat}
    (hroom : ∀ b ∈ blocks, e.geometry.Room b ∧ (e.geometry.view s).used b = true)
    (hdir : ∀ b ∈ blocks, DirBlock e.geometry.bs ((e.geometry.view s).data b))
    (hpos : child ≠ 0) (hchild : child < 2 ^ 32) (hname : (utf8 name).length < 256)
    (hft : ft < 256) (hdot : name ≠ ".") (hdots : name ≠ "..") :
    Post (Hext.addToBlocks (utf8 name) child ft blocks) s
      (fun done s' => (done = false ∧ Same s s' ∧ Sys e s') ∨
        (done = true ∧ ∃ b ∈ blocks, ∃ d es₁ es₂, Edits e s b d s' ∧ DirBlock e.geometry.bs d ∧
          blockEntries e.geometry.bs ((e.geometry.view s).data b) = es₁ ++ es₂ ∧
          blockEntries e.geometry.bs d = es₁ ++ ⟨name, child, ft⟩ :: es₂))
      (fun _ _ => False) := by
  induction blocks generalizing s with
  | nil => exact Post.pure (.inl ⟨rfl, Same.refl s, h⟩)
  | cons b blocks ih =>
    obtain ⟨hr, hu⟩ := hroom b (by simp)
    have hd := hdir b (by simp)
    obtain ⟨rs, hch, hutf⟩ := hd.chain
    have hrs := hch.length_le
    have hbpos := e.geometry.bs_pos
    rw [Hext.addToBlocks]
    refine Post.seq (h.readBlock hr.1.2) ?_
    rintro d s1 ⟨rfl, hs1, hsys1⟩
    refine Post.get ?_
    rw [hsys1.lays.bs, ← view_data _ _ hr]
    have hv := view_same (G := e.geometry) hs1
    rcases addInBlock_spec hch hd.len e.geometry.bs_lt (show rs.length < e.geometry.bs by omega)
      hchild hname hft with hnone | ⟨d', rs₁, rs₂, len, hsome, hlen', -, hch', hes, hnames⟩
    · rw [hnone]
      refine (ih hsys1 (fun b' hb' => by rw [hv]; exact hroom b' (by simp [hb']))
        (fun b' hb' => by rw [hv]; exact hdir b' (by simp [hb']))).mono ?_ (fun _ _ hf => hf)
      rintro done s' (⟨rfl, hs', hsys'⟩ | ⟨rfl, b', hb', d', es₁, es₂, hed, hdb, hold, hnew⟩)
      · exact .inl ⟨rfl, hs1.trans hs', hsys'⟩
      · rw [hv] at hold
        refine .inr ⟨rfl, b', by simp [hb'], d', es₁, es₂, ?_, hdb, hold, hnew⟩
        obtain ⟨c, rfl⟩ := hs1
        exact ⟨hed.sys, hed.view, hed.dev, hed.cache, hed.freed⟩
    · rw [hsome]
      refine Post.seq (h.editBlock hs1 hsys1 hr hu hlen') ?_
      rintro - s2 hed
      refine Post.pure (.inr ⟨rfl, b, by simp, d', rs₁.filterMap Rec.entry,
        rs₂.filterMap Rec.entry, hed, ⟨hlen', _, hch', ?_⟩, ?_, ?_⟩)
      · intro r hr' hne
        rcases mem_append.mp hr' with hin | hin
        · obtain ⟨r₀, hr₀, h1, h2⟩ := hnames r (by simp [hin]) hne
          obtain ⟨nm, hnm⟩ := hutf r₀ hr₀ h1
          exact ⟨nm, h2 ▸ hnm⟩
        · rcases mem_cons.mp hin with rfl | hin
          · exact ⟨name, rfl⟩
          · obtain ⟨r₀, hr₀, h1, h2⟩ := hnames r (by simp [hin]) hne
            obtain ⟨nm, hnm⟩ := hutf r₀ hr₀ h1
            exact ⟨nm, h2 ▸ hnm⟩
      · rw [blockEntries_eq hch hbpos]
        exact hes
      · rw [blockEntries_eq hch' hbpos, filterMap_append, filterMap_cons,
          Rec.entry_of_name hpos rfl hdot hdots]

/-- A name is taken out of the block that has it, or is in none. -/
theorem removeFromBlocks (h : Sys e s) {name : String}
    (hroom : ∀ b ∈ blocks, e.geometry.Room b ∧ (e.geometry.view s).used b = true)
    (hdir : ∀ b ∈ blocks, DirBlock e.geometry.bs ((e.geometry.view s).data b))
    (hdot : name ≠ ".") (hdots : name ≠ "..") :
    Post (Hext.removeFromBlocks (utf8 name) blocks) s
      (fun _ s' => ∃ b ∈ blocks, ∃ d es₁ x es₂, Edits e s b d s' ∧ DirBlock e.geometry.bs d ∧
          blockEntries e.geometry.bs ((e.geometry.view s).data b) = es₁ ++ x :: es₂ ∧
          x.name = name ∧ blockEntries e.geometry.bs d = es₁ ++ es₂)
      (fun x s' => x = .notFound ∧ Same s s' ∧ Sys e s' ∧
        ∀ b ∈ blocks, ∀ x ∈ blockEntries e.geometry.bs ((e.geometry.view s).data b), x.name ≠ name) := by
  induction blocks generalizing s with
  | nil => exact Post.throw ⟨rfl, Same.refl s, h, nofun⟩
  | cons b blocks ih =>
    obtain ⟨hr, hu⟩ := hroom b (by simp)
    have hd := hdir b (by simp)
    obtain ⟨rs, hch, hutf⟩ := hd.chain
    have hrs := hch.length_le
    have hbpos := e.geometry.bs_pos
    rw [Hext.removeFromBlocks]
    refine Post.seq (h.readBlock hr.1.2) ?_
    rintro d s1 ⟨rfl, hs1, hsys1⟩
    refine Post.get ?_
    rw [hsys1.lays.bs, ← view_data _ _ hr]
    have hv := view_same (G := e.geometry) hs1
    have hnil : Chain e.geometry.bs ((e.geometry.view s).data b) 0 [] 0 := rfl
    have hres : Removed e.geometry.bs (utf8 name) ((e.geometry.view s).data b) 0 [] rs
        (removeInBlock e.geometry.bs (utf8 name) ((e.geometry.view s).data b) e.geometry.bs 0 none) :=
      removeInBlock_spec hnil hch (.inl ⟨rfl, rfl⟩) hd.len e.geometry.bs_lt (by omega)
    rcases hres with
      ⟨hnone, hno⟩ | ⟨d', rs', rs₁, r, rs₂, hsome, hlen', -, hch', hsplit, hne, hname, hes, hnames⟩
    · rw [hnone]
      have hhere : ∀ x ∈ blockEntries e.geometry.bs ((e.geometry.view s).data b), x.name ≠ name := by
        intro x hx hxn
        rw [blockEntries_eq hch hbpos] at hx
        obtain ⟨r, hrm, hre⟩ := mem_filterMap.mp hx
        obtain ⟨hrne, hrn, -⟩ := Rec.entry_eq hre (hutf r hrm)
        exact hno r hrm hrne (by rw [hrn, hxn])
      refine (ih hsys1 (fun b' hb' => by rw [hv]; exact hroom b' (by simp [hb']))
        (fun b' hb' => by rw [hv]; exact hdir b' (by simp [hb']))).mono ?_ ?_
      · rintro - s' ⟨b', hb', d', es₁, x, es₂, hed, hdb, hold, hxn, hnew⟩
        rw [hv] at hold
        refine ⟨b', by simp [hb'], d', es₁, x, es₂, ?_, hdb, hold, hxn, hnew⟩
        obtain ⟨c, rfl⟩ := hs1
        exact ⟨hed.sys, hed.view, hed.dev, hed.cache, hed.freed⟩
      · rintro x s' ⟨rfl, hs', hsys', hout⟩
        rw [hv] at hout
        exact ⟨rfl, hs1.trans hs', hsys', forall_mem_cons.mpr ⟨hhere, hout⟩⟩
    · rw [hsome]
      refine (h.editBlock hs1 hsys1 hr hu hlen').mono ?_ (fun _ _ hf => hf.elim)
      rintro - s2 hed
      have hentry := Rec.entry_of_name hne hname hdot hdots
      refine ⟨b, by simp, d', rs₁.filterMap Rec.entry, ⟨name, r.ino, r.fileType⟩,
        rs₂.filterMap Rec.entry, hed, ⟨hlen', rs', hch', ?_⟩, ?_, rfl, ?_⟩
      · intro q hq hqne
        obtain ⟨q₀, hq₀, h1, h2⟩ := hnames q hq hqne
        have hmem : q₀ ∈ rs := by
          rw [hsplit]
          simp only [nil_append, mem_append, mem_cons] at hq₀ ⊢
          rcases hq₀ with h | h
          · exact .inl h
          · exact .inr (.inr h)
        obtain ⟨nm, hnm⟩ := hutf q₀ hmem h1
        exact ⟨nm, h2 ▸ hnm⟩
      · rw [blockEntries_eq hch hbpos, hsplit, filterMap_append, filterMap_cons, hentry]
      · rw [blockEntries_eq hch' hbpos, hes, nil_append, filterMap_append]

end Sys

end HamixOS.HextFs
