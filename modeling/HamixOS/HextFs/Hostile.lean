import HamixOS.HextFs.Coherence
import HamixOS.HextFs.Guarded

namespace HamixOS.HextFs

open Lib Guarded List Hext Nat Storage

/-!
# Hostile images

Nothing on the device can be trusted, so that what keeps a mount from panicking are the lengths alone:
a block that is read has the length of a block, and a vector the length it was built with.  `Held c`
collects the fields that reading never changes and those lengths; every request keeps it and is `Safe`,
provided the group of every inode number it may meet is in the table.
-/

variable {D : Type} [BlockDevice D] [Storage D]

/-- `s` has the layout of `c`, and its blocks have the length of blocks. -/
structure Held (c s : Hext D) : Prop where
  bs : s.bs = c.bs
  groups : s.groups = c.groups
  inodesPerGroup : s.inodesPerGroup = c.inodesPerGroup
  firstDataBlock : s.firstDataBlock = c.firstDataBlock
  blocksCount : s.blocksCount = c.blocksCount
  inodesCount : s.inodesCount = c.inodesCount
  journal : s.journal = c.journal
  room : 1024 ≤ c.bs
  narrow : c.blocksCount < 2 ^ 32
  super : s.sb.length = 1024
  cache : ∀ (b : Nat) (d : Bytes), s.cache[b]? = some d → d.length = c.bs
  clean : ∀ (b : Nat) (d : Bytes), s.clean[b]? = some d → d.length = c.bs

/-- The group of an inode number that the volume accepts is in the table. -/
def Tabled (c : Hext D) (ino : Nat) : Prop := ino ≤ c.inodesCount → ino ≤ c.groups.length * c.inodesPerGroup

variable {c s : Hext D}

namespace Held

omit [BlockDevice D] [Storage D] in
/-- A change of the device alone. -/
theorem device (h : Held c s) (d : D) : Held c { s with dev := d } :=
  ⟨h.bs, h.groups, h.inodesPerGroup, h.firstDataBlock, h.blocksCount, h.inodesCount, h.journal, h.room, h.narrow,
    h.super, h.cache, h.clean⟩

/-! ### The device -/

section

variable (h : Held c s)

include h

omit [BlockDevice D] [Storage D] in
theorem onDevice {α : Type} {call : EStateM Error D α} {Q : α → Prop}
    (hcall : Post call s.dev (fun a _ => Q a) (fun _ _ => True)) :
    Post (Hext.onDevice call) s (fun a s' => Held c s' ∧ Q a) (fun _ s' => Held c s') := by
  refine (post_onDevice hcall).mono ?_ ?_
  · rintro a s' ⟨d, rfl, ha⟩
    exact ⟨h.device d, ha⟩
  · rintro x s' ⟨d, rfl, -⟩
    exact h.device d

theorem read (sector len : Nat) :
    Post (Hext.onDevice (BlockDevice.read sector len)) s (fun buf s' => Held c s' ∧ buf.length = len)
      (fun _ s' => Held c s') := by
  refine h.onDevice ((read_post s.dev sector len).mono ?_ fun _ _ _ => trivial)
  rintro buf d ⟨rfl, -⟩
  rw [length_map, length_range]

theorem flush : Safe (Held c) (Checked.lift flushDevice) s (fun _ => True) :=
  Safe.lift (h.onDevice ((flush_post s.dev).mono (fun _ _ _ => trivial) fun _ _ _ => trivial))

theorem readRaw (block len : Nat) :
    Post (Hext.readRaw block len) s (fun buf s' => Held c s' ∧ buf.length = len) (fun _ s' => Held c s') :=
  Post.get (h.read _ len)

end

section

variable (h : Held c s)

include h

omit [BlockDevice D] [Storage D] in
theorem keepClean {block : Nat} {buf : Bytes} (hbuf : buf.length = c.bs) :
    Held c (s.keepClean block buf) := by
  refine ⟨h.bs, h.groups, h.inodesPerGroup, h.firstDataBlock, h.blocksCount, h.inodesCount, h.journal, h.room,
    h.narrow, h.super, h.cache, fun b d hd => ?_⟩
  unfold Hext.keepClean at hd
  rw [Std.TreeMap.getElem?_insert] at hd
  split_ifs at hd with hb hfull
  · cases hd
    exact hbuf
  · cases hd
  · exact h.clean b d hd

/-- A block that is read is one of the volume and has the length of a block. -/
theorem readBlock (block : Nat) :
    Post (Hext.readBlock block) s (fun data s' => Held c s' ∧ data.length = c.bs ∧ block < c.blocksCount)
      (fun _ s' => Held c s') := by
  refine Post.get ?_
  split_ifs with hlt
  · exact Post.throw h
  · rw [h.blocksCount, not_le] at hlt
    cases hcache : s.cache[block]? with
    | some data => exact Post.pure ⟨h, h.cache block data hcache, hlt⟩
    | none =>
      cases hclean : s.clean[block]? with
      | some data => exact Post.pure ⟨h, h.clean block data hclean, hlt⟩
      | none =>
        refine Post.bind (h.readRaw block s.bs) (fun _ _ hs => hs) ?_
        rintro buf s₁ ⟨hs₁, hbuf⟩
        rw [h.bs] at hbuf
        exact Post.change (Post.pure ⟨hs₁.keepClean hbuf, hbuf, hlt⟩)

theorem safe_readBlock (block : Nat) :
    Safe (Held c) (Guarded.readBlock block) s (fun data => data.length = c.bs ∧ block < c.blocksCount) :=
  Safe.lift (h.readBlock block)

/-- Storing a block of the volume; the range of the clean copies it covers does not wrap around. -/
theorem safe_writeRaw {block : Nat} {buf : Bytes} (hbuf : buf.length = c.bs)
    (hblock : block < c.blocksCount) : Safe (Held c) (Guarded.writeRaw block buf) s (fun _ => True) := by
  refine Safe.get ?_
  have hcount : divCeil buf.length s.bs = 1 := by
    have hpos := h.room
    have hmul := divCeil_mul (n := 1) (d := c.bs) (by omega)
    rw [one_mul] at hmul
    rw [h.bs, hbuf, hmul]
  have hnarrow := h.narrow
  rw [hcount, if_neg]
  · refine Safe.lift (Post.change (Post.get (Held.onDevice (Q := fun _ => True) ?_ ?_)))
    · exact ⟨h.bs, h.groups, h.inodesPerGroup, h.firstDataBlock, h.blocksCount, h.inodesCount, h.journal, h.room,
        h.narrow, h.super, h.cache, fun b d hd => h.clean b d (getElem?_dropClean hd).1⟩
    · exact (write_post _ _ buf).mono (fun _ _ _ => trivial) fun _ _ _ => trivial
  · rintro ⟨-, hwrap⟩
    have hone : max (1 % 2 ^ 32) 1 = 1 := by decide
    rw [hone] at hwrap
    omega

end

/-! ### Inodes -/

variable {ino : Nat}

omit [BlockDevice D] [Storage D] in
theorem safe_inodeLocation (h : Held c s) (hino : Tabled c ino) :
    Safe (Held c) (Guarded.inodeLocation ino) s (fun at_ => at_.2 + inodeSize ≤ c.bs) := by
  refine Safe.get (Safe.ite (fun _ => Safe.fail h) fun hok => ?_)
  rw [not_or, h.inodesCount, not_lt] at hok
  have hle := hino hok.2
  refine Safe.minus (by omega) (Safe.index ?_ fun group _ => Safe.pure h ?_)
  · rw [h.groups, h.inodesPerGroup]
    refine Nat.div_lt_of_lt_mul ?_
    rw [mul_comm]
    omega
  · rw [h.bs]
    have hroom := h.room
    have hper : 0 < c.bs / inodeSize := Nat.div_pos (by unfold inodeSize; omega) (by decide)
    have hlt := mod_lt ((ino - 1) % s.inodesPerGroup) hper
    have hfit : (((ino - 1) % s.inodesPerGroup) % (c.bs / inodeSize) + 1) * inodeSize ≤ c.bs / inodeSize * inodeSize :=
      Nat.mul_le_mul_right _ hlt
    rw [add_mul, one_mul] at hfit
    exact hfit.trans (div_mul_le_self _ _)

omit [BlockDevice D] [Storage D] in
theorem safe_decode {b : Bytes} (h : Held c s) (hb : b.length = inodeSize) :
    Safe (Held c) (Guarded.decode b) s (fun inode => inode.block.length = 15) := by
  have hwords : ∀ w ∈ inodeWords, w.1 + w.2 ≤ inodeSize := by decide
  refine Safe.bind (Safe.mapM (P := fun _ => True) (fun w hw s' hs' => ?_) h) fun _ s' hs' _ => Safe.pure hs' ?_
  · unfold Checked.word
    rw [if_pos (by rw [hb]; exact hwords w hw)]
    exact Safe.pure hs' trivial
  · unfold Inode.decode
    rw [length_map, length_range]

theorem safe_readInode (h : Held c s) (hino : Tabled c ino) :
    Safe (Held c) (Guarded.readInode ino) s (fun inode => inode.block.length = 15) := by
  refine Safe.bind (h.safe_inodeLocation hino) ?_
  rintro ⟨block, offset⟩ s₁ hs₁ hfit
  refine Safe.bind (hs₁.safe_readBlock block) fun data s₂ hs₂ hdata => ?_
  have hend : offset + inodeSize ≤ data.length := by
    rw [hdata.1]
    exact hfit
  refine Safe.cut (le_add_right _ _) hend (hs₂.safe_decode ?_)
  rw [length_slice (by omega)]
  omega

/-! ### Block lists -/

omit [BlockDevice D] [Storage D] in
theorem safe_collectDirect {inode : Inode} (hinode : inode.block.length = 15) (limit : Nat) (h : Held c s)
    {slots : List Nat} (hslots : ∀ i ∈ slots, i < 15) (data : List Nat) :
    Safe (Held c) (Guarded.collectDirect inode limit slots data) s (fun _ => True) := by
  induction slots generalizing data with
  | nil => exact Safe.pure h trivial
  | cons i slots ih =>
    refine Safe.ite (fun _ => Safe.pure h trivial) fun _ => ?_
    refine Safe.index (by rw [hinode]; exact hslots i mem_cons_self) fun block _ => ?_
    refine Safe.ite (fun _ => Safe.pure h trivial) fun _ => ?_
    exact ih (fun i hi => hslots i (mem_cons_of_mem _ hi)) _

/-- The walk over a tree is a recursion on its depth, whatever the pointers are. -/
theorem collectTree (h : Held c s) (limit depth block : Nat) (acc : List Nat × List Nat) :
    Post (Hext.collectTree limit depth block acc) s (fun _ s' => Held c s' ∧ True) (fun _ s' => Held c s') := by
  induction depth generalizing s block acc with
  | zero =>
    refine Post.get ?_
    split_ifs
    · exact Post.pure ⟨h, trivial⟩
    · exact Post.throw h
    · exact Post.pure ⟨h, trivial⟩
  | succ depth ih =>
    refine Post.get ?_
    split_ifs
    · exact Post.pure ⟨h, trivial⟩
    · exact Post.throw h
    · refine Post.bind (Post.bind (h.readBlock block) (fun _ _ hs => hs) fun data s₁ hs₁ =>
        Post.pure (Q := fun _ s' => Held c s') hs₁.1) (fun _ _ hs => hs) fun ptrs s₁ hs₁ => ?_
      have hfold : Maintains (Held c) ((ptrs.takeWhile (· ≠ 0)).foldlM
          (fun acc p => Hext.collectTree (D := D) limit depth p acc) (acc.1, acc.2 ++ [block])) :=
        Maintains.foldlM (fun acc p s' hs' => (ih hs' p acc).mono (fun _ _ hq => hq.1) fun _ _ he => he) _ _
      exact (hfold s₁ hs₁).mono (fun _ _ hs => ⟨hs, trivial⟩) fun _ _ hs => hs

theorem safe_collectSlots {inode : Inode} (hinode : inode.block.length = 15) (limit : Nat) (h : Held c s)
    {slots : List (Nat × Nat)} (hslots : ∀ p ∈ slots, p.1 < 15) (acc : List Nat × List Nat) :
    Safe (Held c) (Guarded.collectSlots inode limit slots acc) s (fun _ => True) := by
  induction slots generalizing s acc with
  | nil => exact Safe.pure h trivial
  | cons p slots ih =>
    obtain ⟨slot, depth⟩ := p
    refine Safe.ite (fun _ => Safe.pure h trivial) fun _ => ?_
    refine Safe.index (by rw [hinode]; exact hslots _ mem_cons_self) fun root _ => ?_
    refine Safe.bind (Safe.lift (h.collectTree limit depth root acc)) fun acc' s₁ hs₁ _ => ?_
    exact ih hs₁ (fun p hp => hslots p (mem_cons_of_mem _ hp)) acc'

theorem safe_blockList {inode : Inode} (hinode : inode.block.length = 15) (h : Held c s) :
    Safe (Held c) (Guarded.blockList inode) s (fun _ => True) := by
  have hdirect : ∀ i ∈ List.range 12, i < 15 := by decide
  have hslots : ∀ p ∈ pointerSlots, p.1 < 15 := by decide
  refine Safe.bind (Q := fun _ => True) (Safe.get ?_) fun _ s₁ hs₁ _ => Safe.pure hs₁ trivial
  refine Safe.bind (safe_collectDirect hinode _ h hdirect []) fun direct s₁ hs₁ _ => ?_
  exact Safe.bind (safe_collectSlots hinode _ hs₁ hslots _) fun _ s₂ hs₂ _ => Safe.pure hs₂ trivial

/-! ### Directories -/

omit [BlockDevice D] [Storage D] in
/-- A record is at least eight bytes long, so that the loop over a block ends. -/
theorem safe_dirEntriesFrom {data : Bytes} (hdata : data.length = c.bs) (h : Held c s) {fuel offset : Nat}
    (hle : offset ≤ c.bs) (hfuel : c.bs < offset + 8 * fuel) (out : List DirEntry) :
    Safe (Held c) (Guarded.dirEntriesFrom c.bs data fuel offset out) s (fun _ => True) := by
  induction fuel generalizing offset out with
  | zero => omega
  | succ fuel ih =>
    refine Safe.ite (fun _ => Safe.pure h trivial) fun hin => ?_
    refine Safe.word (by omega) (Safe.word (by omega) (Safe.index (by omega) fun nameLen _ => ?_))
    refine Safe.ite (fun _ => Safe.fail h) fun hrec => ?_
    have hnext : ∀ out, Safe (Held c) (Guarded.dirEntriesFrom c.bs data fuel (offset + getLE 2 data (offset + 4)) out) s
        (fun _ => True) := fun out => ih (by omega) (by omega) out
    refine Safe.ite (fun hname => ?_) fun _ => hnext _
    refine Safe.cut (by omega) (by omega) (Safe.ite (fun _ => ?_) fun _ => hnext _)
    exact Safe.index (by omega) fun fileType _ => hnext _

section

variable (h : Held c s)

include h

theorem safe_readDirBlocks (blocks : List Nat) (out : List DirEntry) :
    Safe (Held c) (Guarded.readDirBlocks blocks out) s (fun _ => True) := by
  induction blocks generalizing s out with
  | nil => exact Safe.pure h trivial
  | cons block blocks ih =>
    refine Safe.bind (h.safe_readBlock block) fun data s₁ hs₁ hdata => Safe.get ?_
    have hroom := h.room
    rw [hs₁.bs]
    refine Safe.bind (hs₁.safe_dirEntriesFrom hdata.1 (zero_le _) (by omega) out) fun out' s₂ hs₂ _ => ?_
    exact ih hs₂ out'

theorem safe_readDir (hino : Tabled c ino) :
    Safe (Held c) (Guarded.readDir ino) s (fun _ => True) := by
  refine Safe.bind (h.safe_readInode hino) fun inode s₁ hs₁ hinode => ?_
  refine Safe.ite (fun _ => ?_) fun _ => Safe.fail hs₁
  exact Safe.bind (hs₁.safe_blockList hinode) fun blocks s₂ hs₂ _ => hs₂.safe_readDirBlocks blocks []

theorem safe_lookup {dir : Nat} (hdir : Tabled c dir) (name : String) :
    Safe (Held c) (Guarded.lookup dir name) s (fun _ => True) :=
  Safe.bind (h.safe_readDir hdir) fun _ _ hs₁ _ => Safe.pure hs₁ trivial

/-- A path may lead through any inode number at all. -/
theorem safe_resolveFrom (hall : ∀ ino, Tabled c ino) (ino : Nat) (parts : List String) :
    Safe (Held c) (Guarded.resolveFrom ino parts) s (fun _ => True) := by
  induction parts generalizing s ino with
  | nil => exact Safe.pure h trivial
  | cons part parts ih =>
    refine Safe.bind (h.safe_lookup (hall ino) part) fun found s₁ hs₁ _ => ?_
    cases found with
    | none => exact Safe.fail hs₁
    | some child => exact ih hs₁ child

end

/-! ### Files -/

omit [BlockDevice D] [Storage D] in
variable {blocks : List Nat}

section

variable (h : Held c s)

include h

/-- A run ends with the blocks asked for. -/
theorem safe_extendRun {last i : Nat} (hlast : last ≤ blocks.length)
    {fuel run : Nat} (hrun : 1 ≤ run) (hle : i + run ≤ last) (hfuel : last < i + run + fuel) :
    Safe (Held c) (Guarded.extendRun blocks last i fuel run) s (fun n => 1 ≤ n ∧ i + n ≤ last) := by
  induction fuel generalizing run with
  | zero => omega
  | succ fuel ih =>
    refine Safe.get (Safe.ite (fun hlt => ?_) fun _ => Safe.pure h ⟨hrun, hle⟩)
    refine Safe.index (by omega) fun next _ => Safe.index (by omega) fun start _ => ?_
    exact Safe.ite (fun _ => ih (by omega) hlt (by omega)) fun _ => Safe.pure h ⟨hrun, hle⟩

theorem safe_readRuns {fuel i : Nat} (hle : i ≤ blocks.length)
    (hfuel : blocks.length < i + fuel) {out : Bytes} (hout : out.length = blocks.length * c.bs) :
    Safe (Held c) (Guarded.readRuns blocks fuel i out) s (fun _ => True) := by
  induction fuel generalizing s i out with
  | zero => omega
  | succ fuel ih =>
    refine Safe.ite (fun _ => Safe.pure h trivial) fun hlt => Safe.get ?_
    refine Safe.bind (h.safe_extendRun le_rfl le_rfl (by omega) (by omega)) ?_
    rintro run s₁ hs₁ ⟨hpos, hrun⟩
    refine Safe.index (by omega) fun start _ => ?_
    have hend : (i + run) * c.bs ≤ blocks.length * c.bs := mul_le_mul_right _ hrun
    have hone : (i + 1) * c.bs ≤ blocks.length * c.bs := mul_le_mul_right _ (by omega)
    have hdiff : ∀ n, (i + n) * c.bs - i * c.bs = n * c.bs := fun n => by rw [add_mul]; omega
    have hstart : ∀ n, i * c.bs ≤ (i + n) * c.bs := fun n => mul_le_mul_right _ (by omega)
    rw [h.bs]
    cases hcache : s.cache[start]? with
    | some cached =>
      refine Safe.overwrite (hstart 1) (by omega) ?_ fun out' hout' => ih hs₁ (by omega) (by omega) (by omega)
      rw [h.cache start cached hcache, hdiff, one_mul]
    | none =>
      have hback := hstart run
      refine Safe.cut hback (by omega) ?_
      refine Safe.bind (Safe.lift (hs₁.readRaw start _)) fun buf s₂ hs₂ hbuf => ?_
      rw [length_slice (by omega)] at hbuf
      exact Safe.overwrite hback (by omega) hbuf fun out' hout' => ih hs₂ hrun (by omega) (by omega)

theorem safe_readFile (hino : Tabled c ino) :
    Safe (Held c) (Guarded.readFile ino) s (fun _ => True) := by
  refine Safe.bind (h.safe_readInode hino) fun inode s₁ hs₁ hinode => ?_
  refine Safe.ite (fun _ => Safe.fail hs₁) fun _ => ?_
  refine Safe.bind (hs₁.safe_blockList hinode) fun blocks s₂ hs₂ _ => Safe.get ?_
  rw [hs₂.bs]
  refine Safe.bind (hs₂.safe_readRuns (zero_le _) (by omega) (length_zeros _)) fun _ s₃ hs₃ _ => ?_
  exact Safe.pure hs₃ trivial

theorem safe_fileBlocks (hino : Tabled c ino) :
    Safe (Held c) (Guarded.fileBlocks ino) s (fun _ => True) := by
  refine Safe.bind (h.safe_readInode hino) fun inode s₁ hs₁ hinode => ?_
  refine Safe.ite (fun _ => Safe.fail hs₁) fun _ => ?_
  exact Safe.bind (hs₁.safe_blockList hinode) fun blocks s₂ hs₂ _ => Safe.pure hs₂ trivial

theorem safe_rangeRuns {first last fuel i : Nat} (hlast : last ≤ blocks.length)
    (hfirst : first ≤ i) (hle : i ≤ last) (hfuel : last < i + fuel) {scratch : Bytes}
    (hscratch : scratch.length = (last - first) * c.bs) :
    Safe (Held c) (Guarded.rangeRuns blocks first last fuel i scratch) s
      (fun scratch' => scratch'.length = scratch.length) := by
  induction fuel generalizing s i scratch with
  | zero => omega
  | succ fuel ih =>
    refine Safe.ite (fun _ => Safe.pure h rfl) fun hlt => Safe.get (Safe.index (by omega) fun start _ => ?_)
    have hend : ∀ n, i + n ≤ last → (i - first) * c.bs + n * c.bs ≤ scratch.length := by
      intro n hn
      rw [hscratch, ← add_mul]
      exact mul_le_mul_right _ (by omega)
    have hone := hend 1 (by omega)
    rw [h.bs]
    cases hcache : s.cache[start]? with
    | some cached =>
      refine Safe.minus hfirst (Safe.overwrite (le_add_right _ _) (by omega) ?_ fun scratch' hs' => ?_)
      · rw [h.cache start cached hcache]
        omega
      · exact (ih h (by omega) (by omega) (by omega) (hs'.trans hscratch)).mono fun _ hl => hl.trans hs'
    | none =>
      refine Safe.bind (h.safe_extendRun hlast le_rfl (by omega) (by omega)) ?_
      rintro run s₁ hs₁ ⟨hpos, hrun⟩
      have hall := hend run hrun
      refine Safe.minus hfirst (Safe.ite (fun _ => ?_) fun _ => ih hs₁ (by omega) hrun (by omega) hscratch)
      refine Safe.cut (le_add_right _ _) hall ?_
      refine Safe.bind (Safe.lift (hs₁.readRaw start _)) fun buf s₂ hs₂ hbuf => ?_
      rw [length_slice (by omega)] at hbuf
      refine Safe.overwrite (le_add_right _ _) hall hbuf fun scratch' hs' => ?_
      exact (ih hs₂ (by omega) hrun (by omega) (hs'.trans hscratch)).mono fun _ hl => hl.trans hs'

/-- A range is cut out of the blocks it touches, whatever the block list and the size are. -/
theorem safe_readRange (blocks : List Nat) (size offset want : Nat) :
    Safe (Held c) (Guarded.readRange blocks size offset want) s (fun _ => True) := by
  refine Safe.ite (fun _ => Safe.pure h trivial) fun hin => Safe.get (Safe.minus (by omega) ?_)
  have hroom := h.room
  rw [h.bs]
  refine Safe.ite (fun _ => Safe.pure h trivial) fun hlt => ?_
  refine Safe.minus (by omega) ?_
  refine Safe.bind (h.safe_rangeRuns (min_le_right _ _) le_rfl (by omega) (by omega) (length_zeros _)) ?_
  intro scratch s₁ hs₁ hscratch
  rw [length_zeros] at hscratch
  have hskip := div_mul_le_self offset c.bs
  have hmod := div_add_mod offset c.bs
  have hlow := mod_lt offset (show c.bs > 0 by omega)
  have hcomm := mul_comm c.bs (offset / c.bs)
  have hblock : 1 * c.bs ≤ scratch.length := by
    rw [hscratch]
    exact mul_le_mul_right _ (by omega)
  refine Safe.minus hskip (Safe.minus (by omega) ?_)
  refine Safe.cut (le_add_right _ _) (by omega) ?_
  have hpiece : ∀ n, n ≤ want → n ≤ scratch.length - (offset - offset / c.bs * c.bs) → Safe (Held c)
      (Checked.overwrite (zeros want) 0 n (slice scratch (offset - offset / c.bs * c.bs) n) : GuardM D Bytes) s₁
      (fun _ => True) := by
    intro n hn hfit
    unfold Checked.overwrite
    rw [if_pos ⟨zero_le _, by rw [length_zeros]; exact hn, by rw [length_slice (by omega)]; rfl⟩]
    exact Safe.pure hs₁ trivial
  rw [Nat.add_sub_cancel_left]
  exact hpiece _ (by omega) (by omega)

end

/-! ### Requests -/

/-- Where no inode number leads outside the table, no request panics. -/
theorem safe_serve (h : Held c s) (hall : ∀ ino, Tabled c ino) (r : Request) :
    Safe (Held c) r.serve s (fun _ => True) := by
  have hdone : ∀ {α : Type} {m : GuardM D α} {Q : α → Prop}, Safe (Held c) m s Q →
      Safe (Held c) (do let _ ← m) s (fun _ => True) :=
    fun hm => Safe.bind hm fun _ _ hs _ => Safe.pure hs trivial
  cases r with
  | readInode ino => exact hdone (h.safe_readInode (hall ino))
  | readDir ino => exact hdone (h.safe_readDir (hall ino))
  | lookup dir name => exact hdone (h.safe_lookup (hall dir) name)
  | resolve path => exact hdone (h.safe_resolveFrom hall _ _)
  | readFile ino => exact hdone (h.safe_readFile (hall ino))
  | fileBlocks ino => exact hdone (h.safe_fileBlocks (hall ino))
  | readRange blocks size offset want => exact hdone (h.safe_readRange blocks size offset want)

theorem not_crashes (h : Held c s) (hall : ∀ ino, Tabled c ino) (rs : List Request) : crashes rs s = false := by
  induction rs generalizing s with
  | nil => rfl
  | cons r rs ih =>
    have hsafe := h.safe_serve hall r
    unfold crashes
    cases hr : r.serve s with
    | ok a s' => exact ih (hsafe.state_ok hr).1
    | error x s' =>
      have hx := hsafe.not_panics
      rw [hr] at hx
      rw [Bool.or_eq_false_iff]
      exact ⟨hx, ih (hsafe.state_error hr)⟩

/-! ### Group descriptors -/

/-- Blocks that are read one after another are blocks of the volume. -/
theorem safe_readBlocks (h : Held c s) (block count : Nat) :
    Safe (Held c) (Guarded.readBlocks block count) s
      (fun data => data.length = count * c.bs ∧ ∀ i < count, (block + i) % 2 ^ 32 < c.blocksCount) := by
  induction count generalizing s block with
  | zero => exact Safe.pure h ⟨(zero_mul _).symm, fun i hi => absurd hi (not_lt_zero i)⟩
  | succ count ih =>
    refine Safe.bind (h.safe_readBlock _) ?_
    rintro data s₁ hs₁ ⟨hdata, hblock⟩
    refine Safe.bind (ih hs₁ (block + 1)) ?_
    rintro rest s₂ hs₂ ⟨hrest, hblocks⟩
    refine Safe.pure hs₂ ⟨?_, fun i hi => ?_⟩
    · rw [length_append, hdata, hrest, succ_mul, add_comm]
    · cases i with
      | zero => exact hblock
      | succ i =>
        have hi' := hblocks i (by omega)
        rwa [add_right_comm] at hi'

omit [BlockDevice D] [Storage D] in
theorem safe_decodeGroup (h : Held c s) {gdt : Bytes} {o : Nat} (ho : o + 32 ≤ gdt.length) :
    Safe (Held c) (Guarded.decodeGroup gdt o) s (fun _ => True) := by
  refine Safe.word (by omega) (Safe.word (by omega) (Safe.word (by omega) ?_))
  exact Safe.word (by omega) (Safe.word (by omega) (Safe.word (by omega) (Safe.pure h trivial)))

/-- The table that is loaded has the groups asked for, and came from blocks of the volume. -/
theorem loadGroups (h : Held c s) (n : Nat) :
    Post (Guarded.loadGroups n) s
      (fun _ s' => (∀ i < divCeil (n * 32) c.bs, (c.firstDataBlock + 1 + i) % 2 ^ 32 < c.blocksCount) ∧
        ∃ groups : List Group, groups.length = n ∧ Held { c with groups } s')
      (fun x _ => x.panics = false) := by
  refine Post.get ?_
  rw [h.bs, h.firstDataBlock]
  refine Post.bind (h.safe_readBlocks _ _) (fun _ _ hx => hx.2) ?_
  rintro gdt s₁ ⟨hs₁, hlen, hblocks⟩
  have hroom := h.room
  have hfit := le_divCeil_mul (n := n * 32) (d := c.bs) (by omega)
  refine Post.bind (Safe.mapM (P := fun _ => True) (fun g hg s' hs' => ?_) hs₁) (fun _ _ hx => hx.2) ?_
  · have hlt := mem_range.mp hg
    exact hs'.safe_decodeGroup (by omega)
  · rintro groups s₂ ⟨hs₂, hcount, -⟩
    rw [length_range] at hcount
    exact Post.change_last ⟨hblocks, groups, hcount, hs₂.bs, rfl, hs₂.inodesPerGroup, hs₂.firstDataBlock,
      hs₂.blocksCount, hs₂.inodesCount, hs₂.journal, hs₂.room, hs₂.narrow, hs₂.super, hs₂.cache, hs₂.clean⟩

/-! ### The journal -/

/-- Blocks that the journal may bring home. -/
def Writes (c : Hext D) (writes : List (Nat × Bytes)) : Prop :=
  ∀ w ∈ writes, w.1 < c.blocksCount ∧ w.2.length = c.bs

variable {writes : List (Nat × Bytes)}

omit [BlockDevice D] [Storage D] in
theorem Writes.append (hw : Writes c writes) {target : Nat} {data : Bytes}
    (ht : target < c.blocksCount) (hd : data.length = c.bs) : Writes c (writes ++ [(target, data)]) := by
  intro w hmem
  rcases mem_append.mp hmem with hold | hnew
  · exact hw w hold
  · rw [mem_singleton.mp hnew]
    exact ⟨ht, hd⟩

section

variable (h : Held c s)

include h

theorem safe_writeJournalHeader {block : Nat} (hblock : c.journal[0]? = some block)
    (hlt : block < c.blocksCount) : Safe (Held c) Guarded.writeJournalHeader s (fun _ => True) := by
  have hroom := h.room
  have hzero : (zeros s.bs).length = c.bs := by rw [length_zeros, h.bs]
  refine Safe.get (Safe.store (by omega) fun b₁ h₁ => Safe.store (by omega) fun b₂ h₂ => ?_)
  refine Safe.store (by omega) fun b₃ h₃ => Safe.cut (zero_le _) (by omega) ?_
  refine Safe.store (by omega) fun b₄ h₄ => Safe.index ?_ fun found hfound => ?_
  · rw [h.journal]
    exact (List.getElem?_eq_some_iff.mp hblock).1
  · rw [h.journal, hblock, Option.some.injEq] at hfound
    subst hfound
    exact h.safe_writeRaw (by omega) hlt

theorem safe_readTargets {position : Nat} (hpos : position ≤ c.journal.length) (targets : List Nat)
    (hw : Writes c writes) :
    Safe (Held c) (Guarded.readTargets position targets writes) s
      (fun r => ∀ p ws, r = some (p, ws) → position ≤ p ∧ p ≤ c.journal.length ∧ Writes c ws) := by
  induction targets generalizing s position writes with
  | nil =>
    refine Safe.pure h fun p ws hr => ?_
    cases hr
    exact ⟨le_refl _, hpos, hw⟩
  | cons target targets ih =>
    refine Safe.get (Safe.ite (fun _ => Safe.pure h fun p ws hr => nomatch hr) fun hok => ?_)
    rw [not_or, h.journal, h.blocksCount, not_le, not_le] at hok
    refine Safe.index (by rw [h.journal]; exact hok.1) fun block _ => ?_
    refine Safe.bind (h.safe_readBlock block) fun data s₁ hs₁ hdata => ?_
    refine (ih hs₁ hok.1 (hw.append hok.2 hdata.1)).mono fun r hr p ws hrp => ?_
    have hnext := hr p ws hrp
    exact ⟨by omega, hnext.2⟩

/-- Every turn of the scan moves on in the journal, so that it ends. -/
theorem safe_scanJournal (seq : Nat) {fuel position : Nat} (hpos : position ≤ c.journal.length)
    (hfuel : c.journal.length < position + fuel) (hw : Writes c writes) :
    Safe (Held c) (Guarded.scanJournal seq fuel position writes) s (fun r => ∀ ws, r = some ws → Writes c ws) := by
  induction fuel generalizing s position writes with
  | zero => omega
  | succ fuel ih =>
    have hnone : ∀ {s' : Hext D}, Held c s' →
        Safe (Held c) (pure none : GuardM D Found) s' (fun r => ∀ ws, r = some ws → Writes c ws) :=
      fun hs' => Safe.pure hs' fun ws hr => nomatch hr
    have hroom := h.room
    refine Safe.get (Safe.ite (fun _ => hnone h) fun hin => ?_)
    rw [h.journal, not_le] at hin
    refine Safe.index (by rw [h.journal]; exact hin) fun block _ => ?_
    refine Safe.bind (h.safe_readBlock block) ?_
    rintro desc s₁ hs₁ ⟨hdesc, -⟩
    refine Safe.word (by omega) (Safe.word (by omega) (Safe.word (by omega) ?_))
    refine Safe.word (by omega) (Safe.word (by omega) (Safe.ite (fun _ => ?_) fun _ => ?_))
    · -- a commit block: its checksum covers bytes that every block has
      refine Safe.cut (zero_le _) (by omega) (Safe.ite (fun _ => hnone hs₁) fun _ => ?_)
      refine Safe.pure hs₁ fun ws hr => ?_
      cases hr
      exact hw
    · refine Safe.ite (fun _ => hnone hs₁) fun _ => ?_
      rw [h.bs]
      refine Safe.minus (by omega) (Safe.cut (zero_le _) (by omega) ?_)
      -- a descriptor: the count is checked against the block before the targets are read
      refine Safe.ite (fun _ => hnone hs₁) fun hcount => ?_
      rw [not_or, not_lt] at hcount
      have hfit : 24 + getLE 4 desc 12 * 4 ≤ desc.length := by omega
      refine Safe.bind (Safe.mapM (P := fun _ => True) (fun i hi s' hs' => ?_) hs₁) fun targets s₂ hs₂ _ => ?_
      · have hlt := mem_range.mp hi
        unfold Guarded.word32 Checked.word
        rw [if_pos (by omega)]
        exact Safe.pure hs' trivial
      · refine Safe.cut (le_add_right _ _) hfit (Safe.ite (fun _ => hnone hs₂) fun _ => ?_)
        refine Safe.bind (hs₂.safe_readTargets hin targets hw) fun r s₃ hs₃ hr => ?_
        cases r with
        | none => exact hnone hs₃
        | some found =>
          obtain ⟨p, ws⟩ := found
          obtain ⟨hp, hple, hws⟩ := hr p ws rfl
          exact ih hs₃ hple (by omega) hws

theorem safe_writeHome (hw : Writes c writes) :
    Safe (Held c) (Guarded.writeHome writes) s (fun _ => True) := by
  induction writes generalizing s with
  | nil => exact Safe.pure h trivial
  | cons w writes ih =>
    have hhead := hw w mem_cons_self
    refine Safe.bind (h.safe_writeRaw hhead.2 hhead.1) fun _ s₁ hs₁ _ => ?_
    exact ih hs₁ fun w' hw' => hw w' (mem_cons_of_mem _ hw')

theorem safe_replay (hjournal : 8 ≤ c.journal.length) :
    Safe (Held c) Guarded.replay s (fun _ => True) := by
  have hroom := h.room
  refine Safe.get (Safe.index (by rw [h.journal]; omega) fun first hfirst => ?_)
  rw [h.journal] at hfirst
  refine Safe.bind (h.safe_readBlock first) ?_
  rintro header s₁ hs₁ ⟨hheader, hlt⟩
  refine Safe.word (by omega) (Safe.cut (zero_le _) (by omega) (Safe.word (by omega) ?_))
  refine Safe.ite (fun _ => Safe.fail hs₁) fun _ => Safe.word (by omega) ?_
  have hnext : ∀ {s' : Hext D} (n : Nat) (r : Bool), Held c s' → Held c { s' with nextSeq := n, replayed := r } :=
    fun n r hs' => ⟨hs'.bs, hs'.groups, hs'.inodesPerGroup, hs'.firstDataBlock, hs'.blocksCount, hs'.inodesCount,
      hs'.journal, hs'.room, hs'.narrow, hs'.super, hs'.cache, hs'.clean⟩
  refine Safe.bind (Safe.modify (hnext _ _ hs₁)) fun _ s₂ hs₂ _ => ?_
  rw [h.journal]
  refine Safe.bind (hs₂.safe_scanJournal _ (by omega) (by omega) fun w hw => nomatch hw) fun r s₃ hs₃ hr => ?_
  cases r with
  | none => exact Safe.pure hs₃ trivial
  | some writes =>
    refine Safe.bind (hs₃.safe_writeHome (hr writes rfl)) fun _ s₄ hs₄ _ => ?_
    refine Safe.bind hs₄.flush fun _ s₅ hs₅ _ => ?_
    refine Safe.bind (Safe.modify (hnext _ _ hs₅)) fun _ s₆ hs₆ _ => ?_
    refine Safe.bind (hs₆.safe_writeJournalHeader hfirst hlt) fun _ s₇ hs₇ _ => ?_
    refine Safe.bind hs₇.flush fun _ s₈ hs₈ _ => ?_
    refine Safe.bind (Safe.modify (hnext _ _ hs₈)) fun _ s₉ hs₉ _ => ?_
    refine Safe.bind (Safe.lift (hs₉.read 2 1024)) fun sb s' hs' hsb => ?_
    exact Safe.modify ⟨hs'.bs, hs'.groups, hs'.inodesPerGroup, hs'.firstDataBlock, hs'.blocksCount, hs'.inodesCount,
      hs'.journal, hs'.room, hs'.narrow, hsb, hs'.cache, hs'.clean⟩

end

omit [BlockDevice D] [Storage D] in
theorem safe_stampMount (h : Held c s) : Safe (Held c) Guarded.stampMount s (fun _ => True) := by
  have hsb := h.super
  have hoff : hextOffset = 768 := rfl
  refine Safe.get (Safe.word (by omega) (Safe.store (by omega) fun b₁ h₁ => Safe.word (by omega) ?_))
  refine Safe.store (by omega) fun b₂ h₂ => Safe.store (by omega) fun b₃ h₃ => ?_
  exact Safe.modify ⟨h.bs, h.groups, h.inodesPerGroup, h.firstDataBlock, h.blocksCount, h.inodesCount, h.journal, h.room,
    h.narrow, h₃.trans (h₂.trans (h₁.trans hsb)), h.cache, h.clean⟩

/-! ### Mounting -/

/-- After the layout is known, mounting can only panic at the journal's inode number. -/
theorem mountVolume (h : Held c s) {n ino : Nat}
    (hino : (∀ i < divCeil (n * 32) c.bs, (c.firstDataBlock + 1 + i) % 2 ^ 32 < c.blocksCount) →
      ino ≤ c.inodesCount → ino ≤ n * c.inodesPerGroup) :
    Post (Guarded.mountVolume n ino) s
      (fun _ s' => s'.inodesCount = c.inodesCount ∧ s'.inodesPerGroup = c.inodesPerGroup ∧ s'.groups.length = n ∧
        ∃ c', Held c' s')
      (fun x _ => x.panics = false) := by
  refine Post.bind (h.loadGroups n) (fun _ _ hx => hx) ?_
  rintro _ s₁ ⟨hblocks, groups, hlen, hs₁⟩
  refine Post.bind (hs₁.safe_readInode (show Tabled _ ino from fun hle => ?_)) (fun _ _ hx => hx.2) ?_
  · rw [hlen]
    exact hino hblocks hle
  -- the block list of any inode is safe to read; that the journal has eight blocks is checked
  rintro inode s₂ ⟨hs₂, hinode⟩
  refine Post.bind (hs₂.safe_blockList hinode) (fun _ _ hx => hx.2) ?_
  rintro journal s₃ ⟨hs₃, -⟩
  refine Post.change ?_
  split_ifs with hshort
  · exact Post.throw rfl
  have hs₄ : Held { c with groups, journal } { s₃ with journal } :=
    ⟨hs₃.bs, hs₃.groups, hs₃.inodesPerGroup, hs₃.firstDataBlock, hs₃.blocksCount, hs₃.inodesCount, rfl, hs₃.room,
      hs₃.narrow, hs₃.super, hs₃.cache, hs₃.clean⟩
  refine Post.bind (hs₄.safe_replay (not_lt.mp hshort)) (fun _ _ hx => hx.2) ?_
  rintro _ s₅ ⟨hs₅, -⟩
  have hstamp : ∀ {gs : List Group} {s' : Hext D}, gs.length = n → Held { c with groups := gs, journal } s' →
      Post Guarded.stampMount s' (fun _ s' => s'.inodesCount = c.inodesCount ∧ s'.inodesPerGroup = c.inodesPerGroup ∧
        s'.groups.length = n ∧ ∃ c', Held c' s') (fun x _ => x.panics = false) := by
    intro gs s' hgs hs'
    refine Post.mono hs'.safe_stampMount (fun _ s'' hs => ?_) fun _ _ hx => hx.2
    exact ⟨hs.1.inodesCount, hs.1.inodesPerGroup, by rw [hs.1.groups]; exact hgs, _, hs.1⟩
  -- a replay may have changed the descriptors, and they are read again
  refine Post.get ?_
  split_ifs with hreplayed
  · refine Post.bind (hs₅.loadGroups n) (fun _ _ hx => hx) ?_
    rintro _ s₆ ⟨-, gs, hgs, hs₆⟩
    exact hstamp hgs hs₆
  · exact hstamp hlen hs₅

end Held

end HamixOS.HextFs
