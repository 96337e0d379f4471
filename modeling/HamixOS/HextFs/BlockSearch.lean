import HamixOS.HextFs.Coherence

namespace HamixOS.HextFs.Hext

open Lib Option Hext Storage Nat

/-!
# The search for a free block, in any state

`alloc_block` looks at the bitmaps only of groups whose descriptor counts free blocks.  What it hands out
is therefore right in every state a volume can reach, whatever image it was mounted from and whatever
failed before; that it finds nothing means that no group *that counts one* has a block to hand out.
-/

variable {D : Type} [BlockDevice D] [Storage D]

section Search

variable (s : Hext D)

/-- A block as the volume has it: staged, or as it stands on the device. -/
def sees (b : Nat) : Bytes := (s.cache[b]?).getD (s.contents b)

/-- The first block of a group. -/
def groupBase (g : Nat) : Nat := s.firstDataBlock + g * s.blocksPerGroup

/-- Bit `bit` of group `g` stands for a block that may be handed out. -/
structure Available (g bit : Nat) : Prop where
  group_lt : g < s.groups.length
  bit_lt : bit < s.blocksPerGroup
  clear : bitAt (s.sees (s.group g).blockBitmap) bit = false
  block : s.groupBase g + bit < s.blocksCount
  unfreed : s.groupBase g + bit ∉ s.freed

/-- The bitmap of a group fits a block, and block numbers fit 32 bits. -/
structure Sized : Prop where
  bitmap : s.blocksPerGroup ≤ 8 * s.bs
  blocks : s.firstDataBlock + s.groups.length * s.blocksPerGroup ≤ 2 ^ 32

/-- `s'` is `s` after blocks have been read. -/
structure Peeked (s' : Hext D) : Prop where
  coherent : Coherent s'
  frame : ∃ dev clean, s' = { s with dev, clean } ∧ Storage.byte dev = Storage.byte s.dev

/-- A bitmap cannot be read. -/
def Unread (x : Error) : Prop :=
  ∃ g < s.groups.length, ∃ s₁ s₂, Peeked s s₁ ∧ readBlock (s.group g).blockBitmap s₁ = .error x s₂

/-- `s'` is `s` after bit `bit` of group `g` was taken: the bit is set and the count of the group is one
less, and nothing else of bitmaps and counts has changed. -/
structure Taken (s' : Hext D) (g bit : Nat) : Prop where
  available : s.Available g bit
  counted : (s.group g).freeBlocks ≠ 0
  groups : s'.groups = s.groups.modify g (fun x => { x with freeBlocks := x.freeBlocks - 1 })
  cache : s'.cache = s.cache.insert (s.group g).blockBitmap (setBit (s.sees (s.group g).blockBitmap) bit)
  contents : s'.contents = s.contents
  freed : s'.freed = s.freed

end Search

instance (s : Hext D) (g bit : Nat) : Decidable (s.Available g bit) :=
  decidable_of_iff (g < s.groups.length ∧ bit < s.blocksPerGroup ∧ bitAt (s.sees (s.group g).blockBitmap) bit = false ∧
      s.groupBase g + bit < s.blocksCount ∧ s.groupBase g + bit ∉ s.freed)
    ⟨fun ⟨h1, h2, h3, h4, h5⟩ => ⟨h1, h2, h3, h4, h5⟩, fun h => ⟨h.1, h.2, h.3, h.4, h.5⟩⟩

omit [BlockDevice D] [Storage D] in
instance (s : Hext D) : Decidable s.Sized :=
  decidable_of_iff (s.blocksPerGroup ≤ 8 * s.bs ∧ s.firstDataBlock + s.groups.length * s.blocksPerGroup ≤ 2 ^ 32)
    ⟨fun ⟨h1, h2⟩ => ⟨h1, h2⟩, fun h => ⟨h.1, h.2⟩⟩

variable {s s₁ : Hext D}

/-- Reading a block changes nothing but the device's bookkeeping and the clean copies. -/
theorem readBlock_frame (s : Hext D) (b : Nat) :
    Post (readBlock b) s (fun _ s' => ∃ dev clean, s' = { s with dev, clean } ∧ byte dev = byte s.dev)
      (fun _ _ => True) := by
  refine Post.get ?_
  split_ifs
  · exact Post.throw trivial
  · cases s.cache[b]? with
    | some data => exact Post.pure ⟨s.dev, s.clean, rfl, rfl⟩
    | none =>
      cases s.clean[b]? with
      | some data => exact Post.pure ⟨s.dev, s.clean, rfl, rfl⟩
      | none =>
        have hraw : Post (readRaw b s.bs) s
            (fun _ s' => ∃ dev, s' = { s with dev } ∧ byte dev = byte s.dev) (fun _ _ => True) := by
          refine Post.get ((post_onDevice (read_post s.dev _ s.bs)).mono ?_ fun _ _ _ => trivial)
          rintro buf s' ⟨d, rfl, -, hbyte⟩
          exact ⟨d, rfl, hbyte⟩
        refine Post.bind hraw (fun _ _ _ => trivial) ?_
        rintro buf s' ⟨dev, rfl, hbyte⟩
        exact Post.change (Post.pure ⟨dev, _, rfl, hbyte⟩)

theorem Peeked.contents (h : Peeked s s₁) (b : Nat) : s₁.contents b = s.contents b := by
  obtain ⟨dev, clean, rfl, hbyte⟩ := h.frame
  unfold Hext.contents
  rw [hbyte]

/-- A block that is read is the one the volume has. -/
theorem Peeked.readBlock (h : Peeked s s₁) (b : Nat) :
    Post (readBlock b) s₁ (fun data s₂ => data = s.sees b ∧ Peeked s s₂) (fun _ _ => True) := by
  refine ((readBlock_contents h.coherent b).and (readBlock_frame s₁ b)).mono ?_ fun _ _ _ => trivial
  rintro data s₂ ⟨⟨hdata, hcoherent, -⟩, dev', clean', rfl, hbyte'⟩
  have hcontents := h.contents b
  obtain ⟨dev, clean, rfl, hbyte⟩ := h.frame
  refine ⟨?_, hcoherent, dev', clean', rfl, hbyte'.trans hbyte⟩
  rw [hdata, hcontents]
  rfl

/-- So is the bitmap of a group, unless it cannot be read. -/
theorem Peeked.readBitmap (h : Peeked s s₁) {g : Nat} (hg : g < s.groups.length) :
    Post (Hext.readBlock (s.group g).blockBitmap) s₁
      (fun data s₂ => data = s.sees (s.group g).blockBitmap ∧ Peeked s s₂) (fun x _ => s.Unread x) := by
  have hread := h.readBlock (s.group g).blockBitmap
  unfold Post at hread ⊢
  cases hrun : Hext.readBlock (s.group g).blockBitmap s₁ with
  | ok data s₂ =>
    rw [hrun] at hread
    exact hread
  | error x s₂ => exact ⟨g, hg, s₁, s₂, h, hrun⟩

/-- If the group counts free blocks, it has none to hand out. -/
def Barren (s : Hext D) (g : Nat) : Prop := (s.group g).freeBlocks ≠ 0 → ∀ bit, ¬ s.Available g bit

/-- The search in the groups that are left: what it takes was available, and it gives up where none of
those that count a free block has one. -/
theorem Peeked.allocBlockIn (h : Peeked s s₁) (goal : Nat) (steps : List Nat) (hlen : 0 < s.groups.length) :
    Post (allocBlockIn goal steps) s₁
      (fun b s' => ∃ g bit, b = s.groupBase g + bit ∧ Taken s s' g bit)
      (fun x _ => (x = .noSpace ∧ ∀ step ∈ steps, Barren s ((goal + step) % s.groups.length)) ∨ s.Unread x) := by
  induction steps generalizing s₁ with
  | nil => exact Post.throw (.inl ⟨rfl, fun step hstep => nomatch hstep⟩)
  | cons step steps ih =>
    -- where this group gives nothing the search goes on, and it will have passed one group more
    have hrest : ∀ {s₂ : Hext D}, Peeked s s₂ → Barren s ((goal + step) % s.groups.length) →
        Post (allocBlockIn goal steps) s₂ (fun b s' => ∃ g bit, b = s.groupBase g + bit ∧ Taken s s' g bit)
          (fun x _ => (x = .noSpace ∧ ∀ t ∈ step :: steps, Barren s ((goal + t) % s.groups.length)) ∨ s.Unread x) := by
      intro s₂ hs₂ hbarren
      refine (ih hs₂).mono (fun _ _ ht => ht) ?_
      rintro x s' (⟨rfl, hall⟩ | hx)
      · exact .inl ⟨rfl, List.forall_mem_cons.mpr ⟨hbarren, hall⟩⟩
      · exact .inr hx
    have hg : (goal + step) % s.groups.length < s.groups.length := mod_lt _ hlen
    have hbitmap := h.readBitmap hg
    have hpeek := h
    obtain ⟨dev, clean, rfl, hbyte⟩ := h.frame
    rw [allocBlockIn]
    refine Post.get ?_
    have hgroup : ∀ g, Hext.group { s with dev, clean } g = s.group g := fun _ => rfl
    have hmayUse : ∀ base, mayUse { s with dev, clean } base = s.mayUse base := fun _ => rfl
    have hbase : ∀ g, s.firstDataBlock + g * s.blocksPerGroup = s.groupBase g := fun _ => rfl
    simp only [hgroup, hmayUse, hbase]
    generalize (goal + step) % s.groups.length = g at hg hrest hbitmap ⊢
    by_cases hzero : (s.group g).freeBlocks = 0
    · rw [if_pos hzero]
      exact hrest hpeek fun hcount => absurd hzero hcount
    rw [if_neg hzero]
    refine Post.bind hbitmap (fun _ _ hx => .inr hx) ?_
    rintro bitmap s₂ ⟨rfl, hs₂⟩
    -- the group of the goal is searched from the hint on, and then from its beginning
    generalize hstart : (if step = 0 then min s.hint s.blocksPerGroup else 0) = start
    have hle : start ≤ s.blocksPerGroup := by
      rw [← hstart]
      split_ifs <;> omega
    cases hfind : (findClear (s.mayUse (s.groupBase g)) (s.sees (s.group g).blockBitmap) s.blocksPerGroup
        s.blocksPerGroup start).or
        (findClear (s.mayUse (s.groupBase g)) (s.sees (s.group g).blockBitmap) start start 0) with
    | some bit =>
      obtain ⟨hlt, hclear, hmay⟩ := findClear_wrap_some hle hfind
      simp only [mayUse, Bool.and_eq_true, decide_eq_true_eq] at hmay
      obtain ⟨dev', clean', rfl, hbyte'⟩ := hs₂.frame
      refine ⟨g, bit, rfl, ⟨hg, hlt, hclear, hmay.1, hmay.2⟩, hzero, rfl, rfl, ?_, rfl⟩
      funext b
      unfold Hext.contents
      exact List.map_congr_left fun i _ => congrFun hbyte' _
    | none =>
      refine hrest hs₂ fun _ bit ha => ?_
      have hmay := findClear_wrap_none hfind ha.bit_lt ha.clear
      simp only [mayUse, Bool.and_eq_false_iff, decide_eq_false_iff_not, not_not] at hmay
      rcases hmay with hout | hin
      · exact hout ha.block
      · exact ha.unfreed hin

/-- The groups tried are all groups that count a free block. -/
theorem Coherent.allocBlock (h : Coherent s) (goal : Nat) :
    Post (allocBlock goal) s
      (fun b s' => ∃ g bit, b = s.groupBase g + bit ∧ Taken s s' g bit)
      (fun x _ => (x = .noSpace ∧ ∀ g bit, s.Available g bit → (s.group g).freeBlocks = 0) ∨ s.Unread x) := by
  refine Post.get ?_
  rcases Nat.eq_zero_or_pos s.groups.length with hnone | hlen
  · rw [hnone]
    refine Post.throw (.inl ⟨rfl, fun g bit ha => ?_⟩)
    have hlt := ha.group_lt
    omega
  · have hpeek : Peeked s s := ⟨h, s.dev, s.clean, rfl, rfl⟩
    refine (hpeek.allocBlockIn goal _ hlen).mono (fun _ _ ht => ht) ?_
    rintro x s' (⟨rfl, hall⟩ | hx)
    · refine .inl ⟨rfl, fun g bit ha => ?_⟩
      obtain ⟨step, hstep, heq⟩ := Sys.exists_step goal ha.group_lt
      by_contra hcount
      rw [← heq] at ha hcount
      exact hall step hstep hcount bit ha
    · exact .inr hx

/-- In every state reached, whatever the image and whatever failed: a block that is taken was free and not
waiting for a commit, its bit alone is set and the count of its group alone is one less, and was not zero;
and unless a bitmap cannot be read, none is found exactly when no group that counts one has one. -/
theorem reached_allocBlock (start : Start D) (ops : List Op) (goal : Nat) :
    match reached start ops with
    | none => True
    | some s => s.Sized →
      Post (Hext.allocBlock goal) s
        (fun b s' => ∃ g bit, b = s.groupBase g + bit ∧ b < 2 ^ 32 ∧ bit < 8 * s.bs ∧ Taken s s' g bit)
        (fun x _ => x = .noSpace ∨ s.Unread x) ∧
      ((∀ x, ¬ s.Unread x) → (outcome (Hext.allocBlock goal) s = .error .noSpace ↔
        ∀ g bit, s.Available g bit → (s.group g).freeBlocks = 0)) := by
  unfold reached
  cases hstart : start.volume with
  | none => trivial
  | some s₀ =>
    have hs := coherent_foldl (Start.coherent hstart) ops
    dsimp only [Option.map_some]
    generalize ops.foldl (fun s op => op.after s) s₀ = s at hs ⊢
    intro hsized
    have halloc := hs.allocBlock goal
    refine ⟨halloc.mono ?_ ?_, fun hread => ?_⟩
    · rintro b s' ⟨g, bit, rfl, htaken⟩
      have hg := htaken.available.group_lt
      have hbit := htaken.available.bit_lt
      refine ⟨g, bit, rfl, ?_, lt_of_lt_of_le hbit hsized.bitmap, htaken⟩
      have hmul := Nat.mul_le_mul_right s.blocksPerGroup hg
      have hblocks := hsized.blocks
      rw [Nat.succ_mul] at hmul
      unfold groupBase
      omega
    · rintro x s' (⟨hx, -⟩ | hx)
      · exact .inl hx
      · exact .inr hx
    · unfold outcome
      cases hrun : Hext.allocBlock goal s with
      | ok b s' =>
        obtain ⟨g, bit, -, htaken⟩ := halloc.ok hrun
        refine iff_of_false (fun h => nomatch h) fun hall => ?_
        exact htaken.counted (hall g bit htaken.available)
      | error x s' =>
        rcases halloc.error hrun with ⟨rfl, hall⟩ | hx
        · exact iff_of_true rfl hall
        · exact absurd hx (hread x)

/-! ### A small image -/

/-- A superblock for one group of eight inodes in eight blocks of 1024 bytes. -/
def smallSuper : Bytes :=
  let sb := put32 (put32 (zeros 1024) 0 8) 4 8
  let sb := put32 (put32 (put32 sb 20 1) 32 8192) 40 8
  let sb := put16 (put16 sb 56 ext2Magic) 88 inodeSize
  put32 (put32 sb hextOffset hextMagic) (hextOffset + 8) journalIno

/-- A journal of eight blocks that are all block 6. -/
def smallJournal : Inode := { size := 8192, block := List.replicate 8 6 ++ List.replicate 7 0 }

/-- An image whose only group has free blocks and counts `free` of them: the superblock, the descriptor, two
empty bitmaps, the inodes, the header of the journal, and a block of zeros. -/
def smallImage (free : Nat) : Bytes :=
  zeros 1024 ++ smallSuper ++ put16 (put32 (put32 (put32 (zeros 1024) 0 3) 4 4) 8 5) 12 free ++ zeros 2048 ++
    splice (zeros 1024) 512 smallJournal.encode ++ headerBlock 1024 1 ++ zeros 1024

/-- The volume on it. -/
def smallStart (free : Nat) : Start Disk := .mount { data := smallImage free } 0

set_option maxRecDepth 20000 in
/-- With a count of zero the search passes the group by, although its first block is free. -/
theorem allocBlock_misses : ∃ s, reached (smallStart 0) [] = some s ∧ s.Sized ∧ s.Available 0 0 ∧
    outcome (Hext.allocBlock 0) s = .error .noSpace := by
  have hrun : (reached (smallStart 0) []).any
      (fun s => decide (s.Sized ∧ s.Available 0 0 ∧ outcome (Hext.allocBlock 0) s = .error .noSpace)) = true := by
    decide +kernel
  cases hs : reached (smallStart 0) [] with
  | none =>
    rw [hs] at hrun
    cases hrun
  | some s =>
    rw [hs, Option.any_some, decide_eq_true_eq] at hrun
    exact ⟨s, rfl, hrun⟩

set_option maxRecDepth 20000 in
/-- With an honest count the volume is one that the theorem speaks about. -/
theorem reached_allocBlock_small : ∃ s, reached (smallStart 6) [] = some s ∧
    Post (Hext.allocBlock 0) s
      (fun b s' => ∃ g bit, b = s.groupBase g + bit ∧ b < 2 ^ 32 ∧ bit < 8 * s.bs ∧ Taken s s' g bit)
      (fun x _ => x = .noSpace ∨ s.Unread x) := by
  have hrun : (reached (smallStart 6) []).any (fun s => decide s.Sized) = true := by decide +kernel
  generalize smallStart 6 = start at hrun ⊢
  have htheorem := reached_allocBlock start [] 0
  cases hs : reached start [] with
  | none =>
    rw [hs] at hrun
    cases hrun
  | some s =>
    rw [hs, Option.any_some, decide_eq_true_eq] at hrun
    rw [hs] at htheorem
    exact ⟨s, rfl, (htheorem hrun).1⟩

end HamixOS.HextFs.Hext
