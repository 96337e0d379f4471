import HamixOS.Lib.Maintains
import HamixOS.HextFs.Range

namespace HamixOS.HextFs

open Lib List Nat

/-!
# The clean copies agree with the device

`Hext.clean` keeps blocks as they were read.  `Coherent` says that they are still what the device
holds.  A raw write drops the copies of the blocks it covers before it touches the device, so that
this is kept also where the device fails in the middle; every operation of the file system reaches
the device through `readRaw`, `writeRaw` and `flushDevice` only, and keeps it therefore.

The device is any one that is changed only where it is written (`Storage`).
-/

/-- What the file system takes for granted of a device: what is read is what stands there, and a
    write, whether it fails or not, changes nothing outside the range it was given. -/
class Storage (D : Type) [BlockDevice D] where
  byte : D → Nat → UInt8
  read_post : ∀ (d : D) (sector len : Nat), Post (BlockDevice.read sector len) d
    (fun buf d' => buf = (List.range len).map (fun i => byte d (sector * sectorSize + i)) ∧ byte d' = byte d)
    (fun _ d' => byte d' = byte d)
  write_post : ∀ (d : D) (sector : Nat) (buf : Bytes), Post (BlockDevice.write sector buf) d
    (fun _ d' => ∀ i, i < sector * sectorSize ∨ sector * sectorSize + buf.length ≤ i → byte d' i = byte d i)
    (fun _ d' => ∀ i, i < sector * sectorSize ∨ sector * sectorSize + buf.length ≤ i → byte d' i = byte d i)
  flush_post : ∀ d : D, Post BlockDevice.flush d (fun _ d' => byte d' = byte d) (fun _ d' => byte d' = byte d)

/-- A write that stores a prefix of its buffer stays in its range. -/
theorem Disk.getD_store (d : Disk) {sector : Nat} {buf : Bytes} (hle : sector * sectorSize + buf.length ≤ d.data.length)
    (n i : Nat) (hi : i < sector * sectorSize ∨ sector * sectorSize + buf.length ≤ i) :
    (d.store sector (buf.take n)).data.getD i 0 = d.data.getD i 0 := by
  have htake : (buf.take n).length ≤ buf.length := length_take_le' n buf
  rw [getD_eq_getElem?_getD, getD_eq_getElem?_getD]
  unfold Disk.store
  rw [getElem?_splice (by omega), if_neg (by omega)]

instance : Storage Disk where
  byte d i := d.data.getD i 0
  read_post d sector len := by
    show Post (Disk.read sector len) d _ _
    unfold Post Disk.read Disk.next
    cases hf : d.faults.headD .none with
    | fail stored => rfl
    | none =>
      dsimp only
      split_ifs with hle
      · refine ⟨?_, rfl⟩
        refine List.ext_getElem? fun i => ?_
        rw [List.getElem?_map, getElem?_slice]
        by_cases hi : i < len
        · rw [if_pos hi, List.getElem?_range hi, Option.map_some, List.getElem?_eq_getElem (by omega),
            List.getD_eq_getElem?_getD, List.getElem?_eq_getElem (by omega), Option.getD_some]
        · rw [if_neg hi, List.getElem?_eq_none (by rw [List.length_range]; omega)]
          rfl
      · rfl
  write_post d sector buf := by
    show Post (Disk.write sector buf) d _ _
    unfold Post Disk.write Disk.next
    cases hf : d.faults.headD .none with
    | fail stored =>
      dsimp only
      split_ifs with hle
      · exact fun i hi => Disk.getD_store _ hle stored i hi
      · exact fun i _ => rfl
    | none =>
      dsimp only
      split_ifs with hle
      · intro i hi
        have hall := Disk.getD_store { d with faults := d.faults.tail } hle buf.length i hi
        rw [List.take_length] at hall
        exact hall
      · exact fun i _ => rfl
  flush_post d := by
    show Post Disk.flush d _ _
    unfold Post Disk.flush Disk.next
    cases hf : d.faults.headD .none with
    | fail stored => rfl
    | none => rfl

namespace Hext

variable {D : Type} [BlockDevice D] [Storage D]

/-- Block `b` as it stands on the device. -/
def contents (s : Hext D) (b : Nat) : Bytes := (List.range s.bs).map fun i => Storage.byte s.dev (b * s.bs + i)

/-- The clean copies are what the device holds. -/
structure Coherent (s : Hext D) : Prop where
  bs_pos : 0 < s.bs
  sectors : s.bs % sectorSize = 0
  clean : ∀ b d, s.clean[b]? = some d → d = s.contents b

variable {s s' : Hext D}

theorem Coherent.congr (h : Coherent s) (hbs : s'.bs = s.bs) (hbyte : Storage.byte s'.dev = Storage.byte s.dev)
    (hclean : s'.clean = s.clean) : Coherent s' := by
  refine ⟨hbs ▸ h.bs_pos, hbs ▸ h.sectors, ?_⟩
  unfold contents
  rw [hbs, hbyte, hclean]
  exact h.clean

theorem Coherent.sector_mul (h : Coherent s) (b : Nat) : b * (s.bs / sectorSize) * sectorSize = b * s.bs := by
  rw [mul_assoc, Nat.div_mul_cancel (dvd_of_mod_eq_zero h.sectors)]

/-! ### The four ways to the device -/

omit [BlockDevice D] [Storage D] in
theorem post_onDevice {α : Type} {call : EStateM Error D α} {Q : α → D → Prop} {E : Error → D → Prop}
    (h : Post call s.dev Q E) :
    Post (onDevice call) s (fun a s' => ∃ d, s' = { s with dev := d } ∧ Q a d)
      (fun e s' => ∃ d, s' = { s with dev := d } ∧ E e d) := by
  unfold Post onDevice at *
  cases hc : call s.dev with
  | ok a d =>
    rw [hc] at h
    exact ⟨d, rfl, h⟩
  | error e d =>
    rw [hc] at h
    exact ⟨d, rfl, h⟩

theorem maintains_device {α : Type} {call : EStateM Error D α}
    (h : ∀ d, Post call d (fun _ d' => Storage.byte d' = Storage.byte d) (fun _ d' => Storage.byte d' = Storage.byte d)) :
    Maintains Coherent (onDevice call : HextM D α) := by
  intro s hs
  refine (post_onDevice (h s.dev)).mono ?_ ?_
  · rintro a s' ⟨d, rfl, hbyte⟩
    exact hs.congr rfl hbyte rfl
  · rintro e s' ⟨d, rfl, hbyte⟩
    exact hs.congr rfl hbyte rfl

theorem maintains_read (sector len : Nat) : Maintains Coherent (onDevice (BlockDevice.read sector len) : HextM D Bytes) :=
  maintains_device fun d => (Storage.read_post d sector len).mono (fun _ _ h => h.2) fun _ _ h => h

theorem maintains_flushDevice : Maintains Coherent (flushDevice : HextM D Unit) := maintains_device Storage.flush_post

theorem maintains_readRaw (block len : Nat) : Maintains Coherent (readRaw block len : HextM D Bytes) :=
  .bind .get fun _ => maintains_read _ _

/-- A raw read gives what the device holds. -/
theorem readRaw_contents (hs : Coherent s) (block : Nat) :
    Post (readRaw block s.bs) s
      (fun buf s' => buf = s.contents block ∧ Coherent s' ∧ s'.contents block = s.contents block ∧
        s'.cache = s.cache ∧ s'.bs = s.bs)
      (fun _ s' => Coherent s') := by
  refine Post.get ((post_onDevice (Storage.read_post s.dev _ s.bs)).mono ?_ ?_)
  · rintro buf s' ⟨d, rfl, hbuf, hbyte⟩
    have hsame : Hext.contents { s with dev := d } block = s.contents block := by
      unfold contents
      rw [hbyte]
    rw [hs.sector_mul] at hbuf
    exact ⟨hbuf, hs.congr rfl hbyte rfl, hsame, rfl, rfl⟩
  · rintro e s' ⟨d, rfl, hbyte⟩
    exact hs.congr rfl hbyte rfl

/-- The copies of the blocks a write covers are dropped before the device is touched. -/
theorem maintains_writeRaw (block : Nat) (buf : Bytes) : Maintains Coherent (writeRaw block buf : HextM D Unit) := by
  intro s hs
  refine Post.change (Post.get ?_)
  have hkeep : ∀ d : D, (∀ i, i < block * s.bs ∨ block * s.bs + buf.length ≤ i → Storage.byte d i = Storage.byte s.dev i) →
      Coherent { s.dropClean block buf with dev := d } := by
    intro d hd
    refine ⟨hs.bs_pos, hs.sectors, fun b x hx => ?_⟩
    obtain ⟨hold, hout⟩ := getElem?_dropClean hx
    have hlen := le_divCeil_mul (n := buf.length) hs.bs_pos
    rw [hs.clean b x hold]
    refine map_congr_left fun i hi => (hd (b * s.bs + i) ?_).symm
    have hilt := mem_range.mp hi
    by_cases hb : block ≤ b
    · right
      have hfar : (block + max (divCeil buf.length s.bs) 1) * s.bs ≤ b * s.bs :=
        mul_le_mul_right s.bs (by omega)
      have hcover : divCeil buf.length s.bs * s.bs ≤ max (divCeil buf.length s.bs) 1 * s.bs :=
        mul_le_mul_right s.bs (le_max_left _ _)
      rw [add_mul] at hfar
      omega
    · left
      have hnear : (b + 1) * s.bs ≤ block * s.bs := mul_le_mul_right s.bs (by omega)
      rw [succ_mul] at hnear
      omega
  have hwrite := Storage.write_post s.dev (block * (s.bs / sectorSize)) buf
  rw [hs.sector_mul] at hwrite
  refine (post_onDevice (s := s.dropClean block buf) hwrite).mono ?_ ?_
  · rintro a s' ⟨d, rfl, hd⟩
    exact hkeep d hd
  · rintro e s' ⟨d, rfl, hd⟩
    exact hkeep d hd

/-- A change that touches neither the device nor the clean copies. -/
theorem maintains_change {g : Hext D → Hext D} (hdev : ∀ s, (g s).dev = s.dev) (hclean : ∀ s, (g s).clean = s.clean)
    (hbs : ∀ s, (g s).bs = s.bs) : Maintains Coherent (modify g : HextM D PUnit) :=
  .modify fun s hs => hs.congr (hbs s) (congrArg Storage.byte (hdev s)) (hclean s)

theorem maintains_stage (block : Nat) (data : Bytes) : Maintains Coherent (stage block data : HextM D Unit) :=
  maintains_change (fun _ => rfl) (fun _ => rfl) fun _ => rfl

theorem maintains_setGroup (g : Nat) (f : Group → Group) :
    Maintains Coherent (modify (fun s => s.setGroup g f) : HextM D PUnit) :=
  maintains_change (fun _ => rfl) (fun _ => rfl) fun _ => rfl

/-- A block is its staged copy, or what the device holds; a copy of the latter may be kept. -/
theorem readBlock_contents (hs : Coherent s) (block : Nat) :
    Post (readBlock block) s
      (fun data s' => data = (s.cache[block]?).getD (s.contents block) ∧ Coherent s' ∧
        s'.contents block = s.contents block)
      (fun _ s' => Coherent s') := by
  refine Post.get ?_
  split_ifs
  · exact Post.throw hs
  · cases hcache : s.cache[block]? with
    | some data => exact Post.pure ⟨rfl, hs, rfl⟩
    | none =>
      cases hclean : s.clean[block]? with
      | some data => exact Post.pure ⟨hs.clean block data hclean, hs, rfl⟩
      | none =>
        refine Post.bind (readRaw_contents hs block) (fun _ _ h => h) ?_
        rintro buf s₁ ⟨hbuf, hs₁, hsame, -, -⟩
        refine Post.change (Post.pure ⟨hbuf, ⟨hs₁.bs_pos, hs₁.sectors, fun b d hd => ?_⟩, hsame⟩)
        rw [keepClean] at hd
        rw [Std.TreeMap.getElem?_insert] at hd
        split_ifs at hd with hb hfull
        · cases hd
          rw [Nat.compare_eq_eq] at hb
          rw [hbuf, ← hsame, hb]
          rfl
        · cases hd
        · exact hs₁.clean b d hd

theorem maintains_readBlock (block : Nat) : Maintains Coherent (readBlock block : HextM D Bytes) :=
  fun _ hs => (readBlock_contents hs block).mono (fun _ _ h => h.2.1) fun _ _ h => h

/-! ### Blocks and inodes -/

theorem maintains_allocBlockIn (goal : Nat) (steps : List Nat) :
    Maintains Coherent (allocBlockIn goal steps : HextM D Nat) := by
  induction steps with
  | nil => exact .throw _
  | cons step steps ih =>
    rw [allocBlockIn]
    refine .bind .get fun s => .ite ih (.bind (maintains_readBlock _) fun bitmap => ?_)
    extract_lets base start high
    split
    · refine .bind (maintains_stage _ _) fun _ => .bind (maintains_setGroup _ _) fun _ => ?_
      exact .bind (maintains_change (fun _ => rfl) (fun _ => rfl) fun _ => rfl) fun _ => .pure _
    · exact ih

theorem maintains_allocBlock (goal : Nat) : Maintains Coherent (allocBlock goal : HextM D Nat) :=
  .bind .get fun _ => maintains_allocBlockIn _ _

theorem maintains_allocBlocks (goal n : Nat) : Maintains Coherent (allocBlocks goal n : HextM D (List Nat)) := by
  induction n with
  | zero => exact .pure _
  | succ n ih => exact .bind (maintains_allocBlock _) fun _ => .bind ih fun _ => .pure _

theorem maintains_freeBlock (block : Nat) : Maintains Coherent (freeBlock block : HextM D Unit) := by
  refine .bind .get fun s => .ite (.throw _) (.bind (maintains_readBlock _) fun bitmap => .ite ?_ (.pure _))
  refine .bind (maintains_stage _ _) fun _ => .bind (maintains_setGroup _ _) fun _ => .bind ?_ fun _ => ?_
  · refine maintains_change (fun t => ?_) (fun t => ?_) fun t => ?_
    all_goals
      split_ifs
      · rfl
      · rfl
  · exact maintains_change (fun _ => rfl) (fun _ => rfl) fun _ => rfl

theorem maintains_freeBlocks (blocks : List Nat) : Maintains Coherent (freeBlocks blocks : HextM D Unit) := by
  induction blocks with
  | nil => exact .pure _
  | cons block blocks ih => exact .bind (maintains_freeBlock _) fun _ => ih

theorem maintains_markInodeUsed (ino : Nat) (dir : Bool) : Maintains Coherent (markInodeUsed ino dir : HextM D Unit) :=
  .bind .get fun _ => .bind (maintains_readBlock _) fun _ =>
    .ite (.pure _) (.bind (maintains_stage _ _) fun _ => maintains_setGroup _ _)

theorem maintains_allocInodeIn (goal : Nat) (dir : Bool) (steps : List Nat) :
    Maintains Coherent (allocInodeIn goal dir steps : HextM D Nat) := by
  induction steps with
  | nil => exact .throw _
  | cons step steps ih =>
    rw [allocInodeIn]
    refine .bind .get fun s => .ite ih (.bind (maintains_readBlock _) fun bitmap => ?_)
    dsimp only
    split
    · exact .bind (maintains_markInodeUsed _ _) fun _ => .pure _
    · exact ih

theorem maintains_allocInode (goal : Nat) (dir : Bool) : Maintains Coherent (allocInode goal dir : HextM D Nat) :=
  .bind .get fun _ => maintains_allocInodeIn _ _ _

theorem maintains_freeInode (ino : Nat) (dir : Bool) : Maintains Coherent (freeInode ino dir : HextM D Unit) :=
  .bind .get fun _ => .bind (maintains_readBlock _) fun _ =>
    .ite (.bind (maintains_stage _ _) fun _ => maintains_setGroup _ _) (.pure _)

theorem maintains_readInode (ino : Nat) : Maintains Coherent (readInode ino : HextM D Inode) := by
  refine .bind .get fun s => ?_
  split
  · exact .throw _
  · exact .bind (maintains_readBlock _) fun _ => .pure _

theorem maintains_writeInode (ino : Nat) (inode : Inode) : Maintains Coherent (writeInode ino inode : HextM D Unit) := by
  refine .bind .get fun s => ?_
  split
  · exact .throw _
  · exact .bind (maintains_readBlock _) fun _ => maintains_stage _ _

/-! ### Pointer trees -/

theorem maintains_collectTree (limit depth block : Nat) (acc : List Nat × List Nat) :
    Maintains Coherent (collectTree limit depth block acc : HextM D (List Nat × List Nat)) := by
  induction depth generalizing block acc with
  | zero => exact .bind .get fun s => .ite (.pure _) (.ite (.throw _) (.pure _))
  | succ depth ih =>
    refine .bind .get fun s => .ite (.pure _) (.ite (.throw _) (.bind ?_ fun ptrs => ?_))
    · exact .bind (maintains_readBlock _) fun _ => .pure _
    · exact .foldlM (fun acc p => ih p acc) _ _

theorem maintains_collectSlots (inode : Inode) (limit : Nat) (slots : List (Nat × Nat)) (acc : List Nat × List Nat) :
    Maintains Coherent (collectSlots inode limit slots acc : HextM D (List Nat × List Nat)) := by
  induction slots generalizing acc with
  | nil => exact .pure _
  | cons x slots ih => exact .ite (.pure _) (.bind (maintains_collectTree _ _ _ _) fun acc => ih acc)

theorem maintains_blockListSplit (inode : Inode) :
    Maintains Coherent (blockListSplit inode : HextM D (List Nat × List Nat)) :=
  .bind .get fun _ => .bind (maintains_collectSlots _ _ _ _) fun _ => .pure _

theorem maintains_blockList (inode : Inode) (withMeta : Bool) :
    Maintains Coherent (blockList inode withMeta : HextM D (List Nat)) :=
  .bind (maintains_blockListSplit _) fun _ => .pure _

theorem maintains_putTable (direct : Bool) (table : Nat) (data : Bytes) :
    Maintains Coherent (putTable direct table data : HextM D Unit) :=
  .ite (maintains_writeRaw _ _) (maintains_stage _ _)

theorem maintains_buildLevel (direct : Bool) (below : Nat) (blocks : List Nat) :
    Maintains Coherent (buildLevel direct below blocks : HextM D (Nat × Nat)) := by
  induction below generalizing blocks with
  | zero =>
    rw [buildLevel]
    exact .bind .get fun _ => .bind (maintains_allocBlock _) fun _ => .bind (maintains_putTable _ _ _) fun _ => .pure _
  | succ below ih =>
    rw [buildLevel]
    refine .bind .get fun _ => .bind (maintains_allocBlock _) fun _ => .bind (.mapM (fun c => ih c) _) fun _ => ?_
    exact .bind (maintains_putTable _ _ _) fun _ => .pure _

theorem maintains_buildSlots (direct : Bool) (slots : List (Nat × Nat)) (block rest : List Nat) (used : Nat) :
    Maintains Coherent (buildSlots direct slots block rest used : HextM D (List Nat × List Nat × Nat)) := by
  induction slots generalizing block rest used with
  | nil => exact .pure _
  | cons x slots ih =>
    rw [buildSlots]
    exact .ite (.pure _) (.bind .get fun _ => .bind (maintains_buildLevel _ _ _) fun _ => ih _ _ _)

theorem maintains_buildPointers (inode : Inode) (blocks : List Nat) (direct : Bool) :
    Maintains Coherent (buildPointers inode blocks direct : HextM D (Inode × Nat)) :=
  .bind (maintains_buildSlots _ _ _ _ _) fun _ => .ite (.pure _) (.throw _)

/-! ### Files -/

theorem maintains_readRuns (fuel : Nat) (blocks : List Nat) : Maintains Coherent (readRuns fuel blocks : HextM D Bytes) := by
  induction fuel generalizing blocks with
  | zero => exact .pure _
  | succ fuel ih =>
    cases blocks with
    | nil => exact .pure _
    | cons block rest =>
      rw [readRuns]
      refine .bind .get fun s => ?_
      extract_lets run
      split
      · exact .bind (ih _) fun _ => .pure _
      · exact .bind (maintains_readRaw _ _) fun _ => .bind (ih _) fun _ => .pure _

theorem maintains_readInodeData (inode : Inode) : Maintains Coherent (readInodeData inode : HextM D Bytes) :=
  .bind (maintains_blockList _ _) fun _ => .bind (maintains_readRuns _ _) fun _ => .pure _

theorem maintains_readFile (ino : Nat) : Maintains Coherent (readFile ino : HextM D Bytes) :=
  .bind (maintains_readInode _) fun _ => .ite (.throw _) (maintains_readInodeData _)

theorem maintains_writeRuns (fuel : Nat) (blocks : List Nat) (content : Bytes) :
    Maintains Coherent (writeRuns fuel blocks content : HextM D Unit) := by
  induction fuel generalizing blocks content with
  | zero => exact .pure _
  | succ fuel ih =>
    cases blocks with
    | nil => exact .pure _
    | cons block rest =>
      rw [writeRuns]
      exact .bind .get fun s => .bind (maintains_writeRaw _ _) fun _ => ih _ _

theorem maintains_writeFile (ino : Nat) (content : Bytes) : Maintains Coherent (writeFile ino content : HextM D Unit) := by
  refine .bind (maintains_readInode _) fun inode => .ite (.throw _) (.bind (maintains_blockList _ _) fun old => ?_)
  refine .bind .get fun s => .bind (maintains_allocBlocks _ _) fun blocks => .bind (maintains_writeRuns _ _ _) fun _ => ?_
  refine .bind (maintains_buildPointers _ _ _) fun r => .bind .get fun s => .bind (maintains_writeInode _ _) fun _ => ?_
  exact maintains_freeBlocks _

theorem maintains_setAttributes (ino : Nat) (mode : UInt16) (uid gid : UInt32) :
    Maintains Coherent (setAttributes ino mode uid gid : HextM D Unit) :=
  .bind (maintains_readInode _) fun _ => .ite (.pure _) (.bind .get fun _ => maintains_writeInode _ _)

theorem maintains_fileBlocks (ino : Nat) : Maintains Coherent (fileBlocks ino : HextM D (List Nat × Nat)) :=
  .bind (maintains_readInode _) fun _ => .ite (.throw _) (.bind (maintains_blockList _ _) fun _ => .pure _)

theorem maintains_rangeRuns (fuel : Nat) (blocks : List Nat) : Maintains Coherent (rangeRuns fuel blocks : HextM D Bytes) := by
  induction fuel generalizing blocks with
  | zero => exact .pure _
  | succ fuel ih =>
    cases blocks with
    | nil => exact .pure _
    | cons block rest =>
      rw [rangeRuns]
      refine .bind .get fun s => ?_
      split
      · exact .bind (ih _) fun _ => .pure _
      · extract_lets run rest'
        exact .ite (.bind (.pure _) fun _ => .bind (ih _) fun _ => .pure _)
          (.bind (maintains_readRaw _ _) fun _ => .bind (ih _) fun _ => .pure _)

theorem maintains_readRange (blocks : List Nat) (size offset want : Nat) :
    Maintains Coherent (readRange blocks size offset want : HextM D Bytes) :=
  .ite (.pure _) (.bind .get fun _ => .ite (.pure _) (.bind (maintains_rangeRuns _ _) fun _ => .pure _))

/-! ### Directories -/

theorem maintains_readDirBlocks (blocks : List Nat) :
    Maintains Coherent (readDirBlocks blocks : HextM D (List DirEntry)) := by
  induction blocks with
  | nil => exact .pure _
  | cons block blocks ih =>
    refine .bind (maintains_readBlock _) fun data => .bind .get fun s => ?_
    split
    · exact .throw _
    · exact .bind ih fun _ => .pure _

theorem maintains_readDir (ino : Nat) : Maintains Coherent (readDir ino : HextM D (List DirEntry)) :=
  .bind (maintains_readInode _) fun _ => .ite (.bind (maintains_blockList _ _) fun _ => maintains_readDirBlocks _) (.throw _)

theorem maintains_lookup (dir : Nat) (name : String) : Maintains Coherent (lookup dir name : HextM D (Option Nat)) :=
  .bind (maintains_readDir _) fun _ => .pure _

theorem maintains_resolveFrom (ino : Nat) (parts : List String) :
    Maintains Coherent (resolveFrom ino parts : HextM D Nat) := by
  induction parts generalizing ino with
  | nil => exact .pure _
  | cons part parts ih =>
    refine .bind (maintains_lookup _ _) fun found => ?_
    split
    · exact .throw _
    · exact ih _

theorem maintains_resolve (path : String) : Maintains Coherent (resolve path : HextM D Nat) := maintains_resolveFrom _ _

theorem maintains_addToBlocks (name : Bytes) (child fileType : Nat) (blocks : List Nat) :
    Maintains Coherent (addToBlocks name child fileType blocks : HextM D Bool) := by
  induction blocks with
  | nil => exact .pure _
  | cons block blocks ih =>
    refine .bind (maintains_readBlock _) fun data => .bind .get fun s => ?_
    split
    · exact .throw _
    · exact .bind (maintains_stage _ _) fun _ => .pure _
    · exact ih

theorem maintains_extendDir (dir : Nat) (inode : Inode) (name : Bytes) (child fileType : Nat) :
    Maintains Coherent (extendDir dir inode name child fileType : HextM D Unit) := by
  refine .bind .get fun s => .bind (maintains_allocBlock _) fun block => .bind (maintains_stage _ _) fun _ => ?_
  refine .bind (maintains_blockListSplit _) fun lists => .bind (maintains_freeBlocks _) fun _ => ?_
  exact .bind (maintains_buildPointers _ _ _) fun r => .bind .get fun s => maintains_writeInode _ _

theorem maintains_addEntry (dir : Nat) (name : String) (child fileType : Nat) :
    Maintains Coherent (addEntry dir name child fileType : HextM D Unit) :=
  .bind (maintains_readInode _) fun _ => .bind (maintains_blockList _ _) fun _ =>
    .bind (maintains_addToBlocks _ _ _ _) fun _ => .ite (.pure _) (maintains_extendDir _ _ _ _ _)

theorem maintains_removeFromBlocks (name : Bytes) (blocks : List Nat) :
    Maintains Coherent (removeFromBlocks name blocks : HextM D Unit) := by
  induction blocks with
  | nil => exact .throw _
  | cons block blocks ih =>
    refine .bind (maintains_readBlock _) fun data => .bind .get fun s => ?_
    split
    · exact .throw _
    · exact maintains_stage _ _
    · exact ih

theorem maintains_removeEntry (dir : Nat) (name : String) : Maintains Coherent (removeEntry dir name : HextM D Unit) :=
  .bind (maintains_readInode _) fun _ => .bind (maintains_blockList _ _) fun _ => maintains_removeFromBlocks _ _

theorem maintains_initDirectory (ino parent : Nat) : Maintains Coherent (initDirectory ino parent : HextM D Unit) :=
  .bind (maintains_readInode _) fun _ => .bind .get fun _ => .bind (maintains_allocBlock _) fun _ =>
    .bind (maintains_stage _ _) fun _ => maintains_writeInode _ _

section

variable (parent : Nat)

include parent

theorem maintains_addLink : Maintains Coherent (addLink parent : HextM D Unit) :=
  .bind (maintains_readInode _) fun _ => maintains_writeInode _ _

theorem maintains_create (name : String) (mode : UInt16) (uid gid : UInt32) :
    Maintains Coherent (create parent name mode uid gid : HextM D Nat) := by
  refine .ite (.throw _) (.bind (maintains_readInode _) fun parentInode => .ite ?_ (.throw _))
  refine .bind (maintains_lookup _ _) fun found => ?_
  split
  · exact .throw _
  · refine .bind .get fun s => .bind (maintains_allocInode _ _) fun ino => .bind (maintains_writeInode _ _) fun _ => .ite ?_ ?_
    · refine .bind (maintains_initDirectory _ _) fun _ => .bind (maintains_addLink _) fun _ => ?_
      exact .bind (maintains_addEntry _ _ _ _) fun _ => .pure _
    · exact .bind (maintains_addEntry _ _ _ _) fun _ => .pure _

theorem maintains_dropInode (name : String) (ino : Nat) (inode : Inode) :
    Maintains Coherent (dropInode parent name ino inode : HextM D Unit) :=
  .bind (maintains_removeEntry _ _) fun _ => .bind (maintains_blockList _ _) fun _ => .bind (maintains_freeBlocks _) fun _ =>
    .bind .get fun _ => .bind (maintains_writeInode _ _) fun _ => maintains_freeInode _ _

theorem maintains_dropLink : Maintains Coherent (dropLink parent : HextM D Unit) :=
  .bind (maintains_readInode _) fun _ => maintains_writeInode _ _

theorem maintains_unlink (name : String) : Maintains Coherent (unlink parent name : HextM D Unit) := by
  refine .bind (maintains_lookup _ _) fun found => ?_
  split
  · exact .throw _
  · refine .ite (.throw _) (.bind (maintains_readInode _) fun inode => .ite ?_ (maintains_dropInode _ _ _ _))
    refine .bind (maintains_readDir _) fun entries => .ite ?_ (.throw _)
    exact .bind (maintains_dropLink _) fun _ => maintains_dropInode _ _ _ _

end

theorem maintains_removeTree (fuel parent : Nat) (name : String) :
    Maintains Coherent (removeTree fuel parent name : HextM D Unit) := by
  induction fuel generalizing parent name with
  | zero => exact .throw _
  | succ fuel ih =>
    refine .bind (maintains_lookup _ _) fun found => ?_
    split
    · exact .throw _
    · refine .bind (maintains_readInode _) fun inode => .ite ?_ (maintains_unlink _ _)
      refine .bind (maintains_readDir _) fun entries => .bind (.forM (fun child => ih _ _) _) fun _ => ?_
      exact maintains_unlink _ _

/-! ### The journal -/

section

variable {I : Hext D → Prop} (hwrite : ∀ block buf, Maintains I (writeRaw block buf))
include hwrite

omit [Storage D] in
theorem maintains_writeLog (position : Nat) (blocks : List Bytes) : Maintains I (writeLog position blocks) := by
  induction blocks generalizing position with
  | nil => exact .pure _
  | cons block blocks ih => exact .bind .get fun s => .bind (hwrite _ _) fun _ => ih _

omit [Storage D] in
theorem maintains_writeHome (entries : List (Nat × Bytes)) : Maintains I (writeHome entries) := by
  induction entries with
  | nil => exact .pure _
  | cons entry entries ih => exact .bind (hwrite _ _) fun _ => ih

omit [Storage D] in
theorem maintains_writeTransaction (hflush : Maintains I flushDevice)
    (hseq : Maintains I (modify fun s => { s with nextSeq := (s.nextSeq + 1) % 2 ^ 64 } : HextM D PUnit))
    (entries : List (Nat × Bytes)) : Maintains I (writeTransaction entries) := by
  refine .bind .get fun s => .bind (maintains_writeLog hwrite _ _) fun _ => .bind hflush fun _ => ?_
  refine .bind (hwrite _ _) fun _ => .bind hflush fun _ => ?_
  refine .bind (maintains_writeHome hwrite _) fun _ => .bind hflush fun _ => .bind hseq fun _ => ?_
  exact .bind (.bind .get fun _ => hwrite _ _) fun _ => hflush

end

theorem maintains_writeJournalHeader : Maintains Coherent (writeJournalHeader : HextM D Unit) :=
  .bind .get fun _ => maintains_writeRaw _ _

theorem maintains_readTargets (position : Nat) (targets : List Nat) (writes : List (Nat × Bytes)) :
    Maintains Coherent (readTargets position targets writes : HextM D (Option (Nat × List (Nat × Bytes)))) := by
  induction targets generalizing position writes with
  | nil => exact .pure _
  | cons target targets ih => exact .bind .get fun s => .ite (.pure _) (.bind (maintains_readBlock _) fun data => ih _ _)

theorem maintains_scanJournal (seq fuel position : Nat) (writes : List (Nat × Bytes)) :
    Maintains Coherent (scanJournal seq fuel position writes : HextM D Found) := by
  induction fuel generalizing position writes with
  | zero => exact .pure _
  | succ fuel ih =>
    refine .bind .get fun s => .ite (.pure _) (.bind (maintains_readBlock _) fun desc => .ite ?_ ?_)
    · exact .ite (.pure _) (.pure _)
    · refine .ite (.pure _) (.ite (.pure _) (.ite (.pure _) (.bind (maintains_readTargets _ _ _) fun found => ?_)))
      split
      · exact .pure _
      · exact ih _ _

theorem maintains_replay : Maintains Coherent (replay : HextM D Unit) := by
  refine .bind .get fun s => .bind (maintains_readBlock _) fun header => .ite (.throw _) ?_
  refine .bind (maintains_change (fun _ => rfl) (fun _ => rfl) fun _ => rfl) fun _ => ?_
  refine .bind (maintains_scanJournal _ _ _ _) fun found => ?_
  split
  · exact .pure _
  · refine .bind (maintains_writeHome maintains_writeRaw _) fun _ => .bind maintains_flushDevice fun _ => ?_
    refine .bind (maintains_change (fun _ => rfl) (fun _ => rfl) fun _ => rfl) fun _ => ?_
    refine .bind maintains_writeJournalHeader fun _ => .bind maintains_flushDevice fun _ => ?_
    refine .bind (maintains_change (fun _ => rfl) (fun _ => rfl) fun _ => rfl) fun _ => ?_
    exact .bind (maintains_read _ _) fun sb => maintains_change (fun _ => rfl) (fun _ => rfl) fun _ => rfl

/-! ### Commit -/

theorem maintains_stageChunks (block : Nat) (parts : List Bytes) :
    Maintains Coherent (stageChunks block parts : HextM D Unit) := by
  induction parts generalizing block with
  | nil => exact .pure _
  | cons part parts ih =>
    exact .bind (maintains_readBlock _) fun data => .bind (maintains_stage _ _) fun _ => ih _

omit [BlockDevice D] [Storage D] in
theorem stampCounters_eq (s : Hext D) : ∃ sb, s.stampCounters = { s with sb := sb } := ⟨_, rfl⟩

theorem maintains_stampCounters : Maintains Coherent (modify stampCounters : HextM D PUnit) := by
  refine .modify fun s hs => ?_
  obtain ⟨sb, hsb⟩ := s.stampCounters_eq
  rw [hsb]
  exact hs.congr rfl rfl rfl

theorem maintains_stageSuperblockAndGroups : Maintains Coherent (stageSuperblockAndGroups : HextM D Unit) := by
  refine .bind maintains_stampCounters fun _ => .bind .get fun s => ?_
  exact .bind (maintains_readBlock _) fun block => .bind (maintains_stage _ _) fun _ => maintains_stageChunks _ _

theorem maintains_writeTransactions (fuel : Nat) (entries : List (Nat × Bytes)) :
    Maintains Coherent (writeTransactions fuel entries : HextM D Unit) := by
  induction fuel generalizing entries with
  | zero => exact .pure _
  | succ fuel ih =>
    cases entries with
    | nil => exact .pure _
    | cons entry entries =>
      rw [writeTransactions]
      refine .bind .get fun s => .ite (.throw _) (.bind ?_ fun _ => ih _)
      exact maintains_writeTransaction maintains_writeRaw maintains_flushDevice
        (maintains_change (fun _ => rfl) (fun _ => rfl) fun _ => rfl) _

theorem maintains_commit : Maintains Coherent (commit : HextM D Unit) := by
  have hchange : ∀ {g : Hext D → Hext D}, (∀ s, (g s).dev = s.dev) → (∀ s, (g s).clean = s.clean) →
      (∀ s, (g s).bs = s.bs) → Maintains Coherent (modify g : HextM D PUnit) := maintains_change
  refine .bind .get fun s => .ite ?_ (hchange (fun _ => rfl) (fun _ => rfl) fun _ => rfl)
  refine .bind maintains_stageSuperblockAndGroups fun _ => .bind maintains_flushDevice fun _ => .bind .get fun s => ?_
  refine .bind (hchange (fun _ => rfl) (fun _ => rfl) fun _ => rfl) fun _ => ?_
  exact .bind (maintains_writeTransactions _ _) fun _ => hchange (fun _ => rfl) (fun _ => rfl) fun _ => rfl

/-! ### Mount -/

theorem maintains_readBlocks (block count : Nat) : Maintains Coherent (readBlocks block count : HextM D Bytes) := by
  induction count generalizing block with
  | zero => exact .pure _
  | succ count ih => exact .bind (maintains_readBlock _) fun data => .bind (ih _) fun rest => .pure _

theorem maintains_loadGroups (groupsCount : Nat) : Maintains Coherent (loadGroups groupsCount : HextM D Unit) :=
  .bind .get fun _ => .bind (maintains_readBlocks _ _) fun _ =>
    maintains_change (fun _ => rfl) (fun _ => rfl) fun _ => rfl

omit [BlockDevice D] [Storage D] in
theorem stampMount_eq (s : Hext D) (now : Nat) : ∃ sb, s.stampMount now = { s with sb := sb } := ⟨_, rfl⟩

theorem maintains_stampMount : Maintains Coherent (modify (fun s => s.stampMount s.now) : HextM D PUnit) := by
  refine .modify fun s hs => ?_
  obtain ⟨sb, hsb⟩ := s.stampMount_eq s.now
  rw [hsb]
  exact hs.congr rfl rfl rfl

/-- Nothing is kept of a device of which only the superblock has been read. -/
theorem mount_coherent (dev : D) (now : Nat) :
    Post mountBlank (blank dev now) (fun _ s => Coherent s) (fun _ _ => True) := by
  have hsuper : Post (onDevice (BlockDevice.read 2 1024)) (blank dev now) (fun _ s => s.clean = ∅) (fun _ _ => True) := by
    refine (post_onDevice (Storage.read_post dev 2 1024)).mono ?_ fun _ _ _ => trivial
    rintro buf s ⟨d, rfl, -⟩
    rfl
  refine Post.bind hsuper (fun _ _ _ => trivial) fun sb s hclean => ?_
  split
  · exact Post.throw trivial
  extract_lets log bs blocksCount firstDataBlock blocksPerGroup inodesPerGroup groupsCount
  split
  · exact Post.throw trivial
  refine Post.get ?_
  split
  · exact Post.throw trivial
  refine Post.change ?_
  have hrest : Maintains Coherent (do
      loadGroups groupsCount
      let journalInode ← readInode (get32 sb (hextOffset + 8))
      let journal ← blockList journalInode false
      modify (fun s => { s with journal })
      if journal.length < 8 then throw .corrupt
      else do
        replay
        let s ← get
        if s.replayed then do
          loadGroups groupsCount
          modify (fun s => s.stampMount s.now)
        else modify (fun s => s.stampMount s.now) : HextM D Unit) := by
    refine .bind (maintains_loadGroups _) fun _ => .bind (maintains_readInode _) fun inode => ?_
    refine .bind (maintains_blockList _ _) fun journal => ?_
    refine .bind (maintains_change (fun _ => rfl) (fun _ => rfl) fun _ => rfl) fun _ => .ite (.throw _) ?_
    refine .bind maintains_replay fun _ => .bind .get fun s => .ite ?_ maintains_stampMount
    exact .bind (maintains_loadGroups _) fun _ => maintains_stampMount
  refine (hrest _ ⟨mul_pos (by decide) (Nat.pow_pos (by decide)), ?_, fun b d hd => ?_⟩).mono (fun _ _ h => h)
    fun _ _ _ => trivial
  · show 1024 * 2 ^ log % 512 = 0
    rw [show 1024 * 2 ^ log = 512 * (2 * 2 ^ log) by omega]
    exact mul_mod_right _ _
  · rw [hclean] at hd
    cases hd

/-! ### Format -/

theorem maintains_flushMetadataDirect : Maintains Coherent (flushMetadataDirect : HextM D Unit) :=
  .bind maintains_stageSuperblockAndGroups fun _ => .bind .get fun _ =>
    .bind (maintains_change (fun _ => rfl) (fun _ => rfl) fun _ => rfl) fun _ => maintains_writeHome maintains_writeRaw _

theorem maintains_zeroTable (fuel block count : Nat) : Maintains Coherent (zeroTable fuel block count : HextM D Unit) := by
  induction fuel generalizing block count with
  | zero => exact .pure _
  | succ fuel ih =>
    exact .ite (.pure _) (.bind .get fun s => .bind (maintains_writeRaw _ _) fun _ => ih _ _)

theorem maintains_formatGroup (p : Shape) (g : Nat) : Maintains Coherent (formatGroup p g : HextM D Unit) :=
  .bind (maintains_change (fun _ => rfl) (fun _ => rfl) fun _ => rfl) fun _ => .bind (maintains_writeRaw _ _) fun _ =>
    .bind (maintains_writeRaw _ _) fun _ => maintains_zeroTable _ _ _

theorem maintains_writeBackup (gdtBlocks g : Nat) : Maintains Coherent (writeBackup gdtBlocks g : HextM D Unit) :=
  .bind .get fun _ => .bind (maintains_writeRaw _ _) fun _ => .forM (fun _ => maintains_writeRaw _ _) _

theorem maintains_writeBackups (gdtBlocks : Nat) : Maintains Coherent (writeBackups gdtBlocks : HextM D Unit) :=
  .bind .get fun _ => .forM (fun _ => .ite (maintains_writeBackup _ _) (.pure _)) _

theorem maintains_formatRoot (now : Nat) : Maintains Coherent (formatRoot now : HextM D Unit) :=
  .bind (maintains_writeInode _ _) fun _ => .bind (maintains_setGroup _ _) fun _ => maintains_initDirectory _ _

theorem maintains_formatJournal (p : Shape) (now : Nat) : Maintains Coherent (formatJournal p now : HextM D Unit) := by
  refine .bind (maintains_allocBlocks _ _) fun blocks => .bind (maintains_writeRaw _ _) fun _ => ?_
  refine .bind (maintains_buildPointers _ _ _) fun r => .bind (maintains_writeInode _ _) fun _ => ?_
  exact maintains_change (fun _ => rfl) (fun _ => rfl) fun _ => rfl

theorem maintains_formatVolume (p : Shape) (o : FormatOptions) : Maintains Coherent (formatVolume p o : HextM D Unit) := by
  refine .bind (.forM (maintains_formatGroup p) _) fun _ => ?_
  refine .bind (maintains_change (fun _ => rfl) (fun _ => rfl) fun _ => rfl) fun _ => ?_
  refine .bind (.forM (fun ino => maintains_markInodeUsed ino false) _) fun _ => ?_
  refine .bind (maintains_formatRoot _) fun _ => .bind (maintains_formatJournal _ _) fun _ => ?_
  refine .bind (maintains_create _ _ _ _ _) fun _ => .bind maintains_flushMetadataDirect fun _ => ?_
  refine .bind (maintains_writeBackups _) fun _ => ?_
  exact .bind (maintains_change (fun _ => rfl) (fun _ => rfl) fun _ => rfl) fun _ => maintains_flushDevice

theorem Shape.bs_ofSize {total : Nat} {p : Shape} (h : ofSize total = .ok p) : p.bs = 1024 ∨ p.bs = 4096 := by
  unfold ofSize at h
  split at h
  · cases h
  extract_lets bs first blocks perGroup perBlock groups gdtBlocks inodes inodes' inodes'' q at h
  have hbs : bs = 1024 ∨ bs = 4096 := by
    by_cases hsmall : total ≤ 512 * 1024 * 1024
    · exact .inl (if_pos hsmall)
    · exact .inr (if_neg hsmall)
  split at h
  · split at h
    · cases h
    · injection h with hp
      exact hp ▸ hbs
  · injection h with hp
    exact hp ▸ hbs

/-- Nothing is kept of a device that is about to be formatted. -/
theorem unformatted_coherent (dev : D) {p : Shape} (hbs : p.bs = 1024 ∨ p.bs = 4096) (now : Nat) :
    Coherent (unformatted dev p now) := by
  have hsize : (unformatted dev p now).bs = p.bs := rfl
  refine ⟨?_, ?_, fun b d hd => ?_⟩
  · rw [hsize]
    rcases hbs with h | h
    all_goals
      rw [h]
      decide
  · rw [hsize]
    rcases hbs with h | h
    all_goals rw [h]
    all_goals rfl
  · cases hd

/-! ### Runs -/

/-- What can be asked of a volume. -/
inductive Op
  | setTime (now : Nat)
  | readInode (ino : Nat)
  | readFile (ino : Nat)
  | fileBlocks (ino : Nat)
  | readRange (blocks : List Nat) (size offset want : Nat)
  | writeFile (ino : Nat) (content : Bytes)
  | setAttributes (ino : Nat) (mode : UInt16) (uid gid : UInt32)
  | readDir (ino : Nat)
  | lookup (dir : Nat) (name : String)
  | resolve (path : String)
  | create (parent : Nat) (name : String) (mode : UInt16) (uid gid : UInt32)
  | unlink (parent : Nat) (name : String)
  | removeTree (fuel parent : Nat) (name : String)
  | commit
  | flush

namespace Op

/-- One request; its answer is left out. -/
def run : Op → HextM D Unit
  | setTime now => modify fun s => { s with now }
  | readInode ino => Hext.readInode ino >>= fun _ => pure ()
  | readFile ino => Hext.readFile ino >>= fun _ => pure ()
  | fileBlocks ino => Hext.fileBlocks ino >>= fun _ => pure ()
  | readRange blocks size offset want => Hext.readRange blocks size offset want >>= fun _ => pure ()
  | writeFile ino content => Hext.writeFile ino content
  | setAttributes ino mode uid gid => Hext.setAttributes ino mode uid gid
  | readDir ino => Hext.readDir ino >>= fun _ => pure ()
  | lookup dir name => Hext.lookup dir name >>= fun _ => pure ()
  | resolve path => Hext.resolve path >>= fun _ => pure ()
  | create parent name mode uid gid => Hext.create parent name mode uid gid >>= fun _ => pure ()
  | unlink parent name => Hext.unlink parent name
  | removeTree fuel parent name => Hext.removeTree fuel parent name
  | commit => Hext.commit
  | flush => flushDevice

/-- The volume after a request, whether it was answered or failed. -/
def after (op : Op) (s : Hext D) : Hext D :=
  match op.run s with
  | .ok _ s' => s'
  | .error _ s' => s'

end Op

/-- A volume comes from a device that is formatted or mounted. -/
inductive Start (D : Type)
  | format (dev : D) (o : FormatOptions)
  | mount (dev : D) (now : Nat)

/-- The volume a start gives, if it succeeds. -/
def Start.volume : Start D → Option (Hext D)
  | .format dev o =>
    match Hext.format dev o with
    | .ok (.ok _ s) => some s
    | _ => none
  | .mount dev now =>
    match Hext.mount dev now with
    | .ok _ s => some s
    | .error _ _ => none

/-- The volume after a sequence of requests. -/
def reached (start : Start D) (ops : List Op) : Option (Hext D) :=
  start.volume.map fun s => ops.foldl (fun s op => op.after s) s

/-- Every request keeps the copies right. -/
theorem maintains_run (op : Op) : Maintains Coherent (op.run : HextM D Unit) := by
  cases op with
  | setTime now => exact maintains_change (fun _ => rfl) (fun _ => rfl) fun _ => rfl
  | readInode ino => exact .bind (maintains_readInode _) fun _ => .pure _
  | readFile ino => exact .bind (maintains_readFile _) fun _ => .pure _
  | fileBlocks ino => exact .bind (maintains_fileBlocks _) fun _ => .pure _
  | readRange blocks size offset want => exact .bind (maintains_readRange _ _ _ _) fun _ => .pure _
  | writeFile ino content => exact maintains_writeFile _ _
  | setAttributes ino mode uid gid => exact maintains_setAttributes _ _ _ _
  | readDir ino => exact .bind (maintains_readDir _) fun _ => .pure _
  | lookup dir name => exact .bind (maintains_lookup _ _) fun _ => .pure _
  | resolve path => exact .bind (maintains_resolve _) fun _ => .pure _
  | create parent name mode uid gid => exact .bind (maintains_create _ _ _ _ _) fun _ => .pure _
  | unlink parent name => exact maintains_unlink _ _
  | removeTree fuel parent name => exact maintains_removeTree _ _ _
  | commit => exact maintains_commit
  | flush => exact maintains_flushDevice

theorem Coherent.after {s : Hext D} (h : Coherent s) (op : Op) : Coherent (op.after s) := by
  have hrun := maintains_run op s h
  unfold Post at hrun
  unfold Op.after
  cases hop : op.run s with
  | ok a s' => rw [hop] at hrun; exact hrun
  | error e s' => rw [hop] at hrun; exact hrun

theorem Start.coherent {start : Start D} {s : Hext D} (h : start.volume = some s) : Coherent s := by
  cases start with
  | format dev o =>
    cases hshape : Shape.ofSize (BlockDevice.sectors dev * sectorSize) with
    | error e =>
      simp only [Start.volume, Hext.format, hshape, Except.map] at h
      cases h
    | ok p =>
      have hrun := maintains_formatVolume p o _ (unformatted_coherent dev (Shape.bs_ofSize hshape) o.now)
      simp only [Start.volume, Hext.format, hshape, Except.map] at h
      cases hvol : formatVolume p o (unformatted dev p o.now) with
      | ok a s' =>
        simp only [hvol] at h
        cases h
        exact hrun.ok hvol
      | error e s' =>
        simp only [hvol] at h
        cases h
  | mount dev now =>
    simp only [Start.volume, Hext.mount] at h
    cases hvol : mountBlank (blank dev now) with
    | ok a s' =>
      simp only [hvol] at h
      cases h
      exact (mount_coherent dev now).ok hvol
    | error e s' =>
      simp only [hvol] at h
      cases h

theorem coherent_foldl {s : Hext D} (h : Coherent s) (ops : List Op) :
    Coherent (ops.foldl (fun s op => op.after s) s) := by
  induction ops generalizing s with
  | nil => exact h
  | cons op ops ih => exact ih (h.after op)

/-- However a volume was opened and whatever has been asked of it, with whatever failures of the
    device, a clean copy is what the device holds, and a block is read as it was staged or as the
    device holds it. -/
theorem reached_coherent (start : Start D) (ops : List Op) :
    match reached start ops with
    | none => True
    | some s =>
      (∀ b d, s.clean[b]? = some d → d = s.contents b) ∧
      ∀ b, Post (readBlock b) s (fun data _ => data = (s.cache[b]?).getD (s.contents b)) (fun _ _ => True) := by
  unfold reached
  cases hstart : start.volume with
  | none => trivial
  | some s =>
    have hs := coherent_foldl (Start.coherent hstart) ops
    exact ⟨hs.clean, fun b => (readBlock_contents hs b).mono (fun _ _ h => h.1) fun _ _ _ => trivial⟩

end Hext

end HamixOS.HextFs
