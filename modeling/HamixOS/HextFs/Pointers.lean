import HamixOS.Lib.Chunks
import HamixOS.HextFs.InodeTable

namespace HamixOS.HextFs

open Lib List

/-!
# The pointer trees of inodes

An inode names twelve blocks directly and the rest through trees of depth one, two and three.
`TreeRep` and `InodeRep` relate an inode to its list of data blocks and to its list of pointer
blocks; `Sys.blockListSplit` reads them off the disk, `Sys.buildPointers` builds them.
-/

/-- The numbers of a pointer block. -/
def words (b : Bytes) : List Nat := (List.range (b.length / 4)).map (fun i => get32 b (i * 4))

/-- The pointer slots of an inode beyond the direct ones, with the depth of their trees. -/
def pointerSlots : List (Nat × Nat) := [(12, 1), (13, 2), (14, 3)]

namespace Hext

variable {D : Type} [BlockDevice D]

/-- The pointers kept in a block. -/
def pointers (block : Nat) : HextM D (List Nat) := do
  let data ← readBlock block
  pure (words data)

/-- Append the data blocks and the pointer blocks of a tree to the two lists, up to `limit` data
blocks; a zero pointer ends a block. -/
def collectTree (limit : Nat) : (depth block : Nat) → List Nat × List Nat →
    HextM D (List Nat × List Nat)
  | 0, block, acc => do
    let s ← get
    if block = 0 ∨ limit ≤ acc.1.length then pure acc
    else if s.blocksCount ≤ block then throw .corrupt
    else pure (acc.1 ++ [block], acc.2)
  | depth + 1, block, acc => do
    let s ← get
    if block = 0 ∨ limit ≤ acc.1.length then pure acc
    else if s.blocksCount ≤ block then throw .corrupt
    else do
      let ptrs ← pointers block
      (ptrs.takeWhile (· ≠ 0)).foldlM (fun acc p => collectTree limit depth p acc)
        (acc.1, acc.2 ++ [block])

/-- Append the trees of the remaining slots. -/
def collectSlots (inode : Inode) (limit : Nat) : List (Nat × Nat) → List Nat × List Nat →
    HextM D (List Nat × List Nat)
  | [], acc => pure acc
  | (slot, depth) :: slots, acc =>
    if limit ≤ acc.1.length then pure acc
    else do
      let acc ← collectTree limit depth (inode.block.getD slot 0) acc
      collectSlots inode limit slots acc

/-- The data blocks and the pointer blocks of an inode. -/
def blockListSplit (inode : Inode) : HextM D (List Nat × List Nat) := do
  let s ← get
  let limit := divCeil inode.size s.bs
  let direct := ((inode.block.take 12).takeWhile (· ≠ 0)).take limit
  let (data, ptrs) ← collectSlots inode limit pointerSlots (direct, [])
  pure (data.take limit, ptrs)

/-- The data blocks of an inode, followed by its pointer blocks if asked for. -/
def blockList (inode : Inode) (withMeta : Bool) : HextM D (List Nat) := do
  let (data, ptrs) ← blockListSplit inode
  pure (if withMeta then data ++ ptrs else data)

/-- Put a pointer block on the device, or stage it. -/
def putTable (direct : Bool) (table : Nat) (data : Bytes) : HextM D Unit :=
  if direct then writeRaw table data else stage table data

/-- Build the tree with `below` levels under its root over a list of blocks; the root and the
number of pointer blocks. -/
def buildLevel (direct : Bool) : (below : Nat) → List Nat → HextM D (Nat × Nat)
  | 0, blocks => do
    let s ← get
    let table ← allocBlock (s.groupOfBlock (blocks.headD 0)).1
    putTable direct table (putWords (zeros s.bs) 0 blocks)
    pure (table, 1)
  | below + 1, blocks => do
    let s ← get
    let table ← allocBlock (s.groupOfBlock (blocks.headD 0)).1
    let kids ← (chunks ((s.bs / 4) ^ (below + 1)) blocks).mapM (fun c => buildLevel direct below c)
    putTable direct table (putWords (zeros s.bs) 0 (kids.map Prod.fst))
    pure (table, 1 + (kids.map Prod.snd).sum)

/-- Build the trees of the remaining slots over the remaining blocks. -/
def buildSlots (direct : Bool) : List (Nat × Nat) → (block rest : List Nat) → (used : Nat) →
    HextM D (List Nat × List Nat × Nat)
  | [], block, rest, used => pure (block, rest, used)
  | (slot, depth) :: slots, block, rest, used =>
    if rest.isEmpty then pure (block, rest, used)
    else do
      let s ← get
      let take := min rest.length ((s.bs / 4) ^ depth)
      let (root, n) ← buildLevel direct (depth - 1) (rest.take take)
      buildSlots direct slots (block.set slot root) (rest.drop take) (used + n)

/-- Point an inode at a list of blocks; the inode and the number of pointer blocks. -/
def buildPointers (inode : Inode) (blocks : List Nat) (direct : Bool) : HextM D (Inode × Nat) := do
  let head := blocks.take 12
  let block := head ++ List.replicate (15 - head.length) 0
  let (block, rest, used) ← buildSlots direct pointerSlots block (blocks.drop 12) 0
  if rest.isEmpty then pure ({ inode with block }, used) else throw .tooLarge

end Hext

open Hext

/-! ### Pointer blocks -/

theorem length_words (b : Bytes) : (words b).length = b.length / 4 := by
  simp [words]

/-- The pointers stored in a fresh block read back, followed by zeros. -/
theorem words_putWords {bs : Nat} {vs : List Nat} (hbs : 4 * vs.length ≤ bs) (h4 : bs % 4 = 0)
    (hlt : ∀ v ∈ vs, v < 2 ^ 32) :
    words (putWords (zeros bs) 0 vs) = vs ++ List.replicate (bs / 4 - vs.length) 0 := by
  have hlen : (putWords (zeros bs) 0 vs).length = bs := by
    rw [length_putWords (by simpa using hbs), length_zeros]
  apply ext_getElem
  · rw [length_words, hlen, length_append, length_replicate]
    omega
  · intro i h1 h2
    rw [length_words, hlen] at h1
    simp only [words, getElem_map, getElem_range, get32]
    by_cases hi : i < vs.length
    · have hfit : 0 + 4 * vs.length ≤ (zeros bs).length := by simpa using hbs
      have hget := getLE_putWords hfit hi
      rw [zero_add, mul_comm] at hget
      rw [hget, getElem_append_left hi]
      exact Nat.mod_eq_of_lt (hlt _ (getElem_mem hi))
    · rw [getLE_putWords_of_disjoint (by simpa using hbs) (by omega), getLE_zeros (by omega),
        getElem_append_right (by omega), getElem_replicate]

theorem takeWhile_append_zeros {vs : List Nat} (h : ∀ v ∈ vs, v ≠ 0) (n : Nat) :
    (vs ++ List.replicate n 0).takeWhile (· ≠ 0) = vs := by
  induction vs with
  | nil =>
    cases n with
    | zero => rfl
    | succ n => simp [replicate_succ]
  | cons v vs ih =>
    have hv : v ≠ 0 := h v (by simp)
    have hrest := ih (fun w hw => h w (by simp [hw]))
    rw [cons_append, takeWhile_cons_of_pos (by simpa using hv), hrest]

/-! ### Trees -/

/-- The tree of depth `d` with root `b`, over the block contents `R`: its data blocks `ds` and its
pointer blocks `ps`, in the order the code meets them. -/
def TreeRep (R : Nat → Bytes) : (d b : Nat) → (ds ps : List Nat) → Prop
  | 0, b, ds, ps => b ≠ 0 ∧ ds = [b] ∧ ps = []
  | d + 1, b, ds, ps => b ≠ 0 ∧ ∃ kids : List (Nat × List Nat × List Nat), kids ≠ [] ∧
      (∀ k ∈ kids, TreeRep R d k.1 k.2.1 k.2.2) ∧
      (words (R b)).takeWhile (· ≠ 0) = kids.map (fun k => k.1) ∧
      ds = (kids.map (fun k => k.2.1)).flatten ∧
      ps = b :: (kids.map (fun k => k.2.2)).flatten

variable {ds ps : List Nat}

theorem TreeRep.ne_nil {R : Nat → Bytes} {d b : Nat} (h : TreeRep R d b ds ps) :
    ds ≠ [] := by
  induction d generalizing b ds ps with
  | zero =>
    rw [h.2.1]
    simp
  | succ d ih =>
    obtain ⟨-, kids, hne, hkids, -, hds, -⟩ := h
    obtain ⟨k, ks, rfl⟩ := exists_cons_of_ne_nil hne
    have hk := ih (hkids k (by simp))
    rw [hds]
    simp [hk]

variable {R R' : Nat → Bytes}

/-- A tree depends only on the content of its pointer blocks. -/
theorem TreeRep.congr {d b : Nat}
    (h : TreeRep R d b ds ps) (heq : ∀ p ∈ ps, R' p = R p) : TreeRep R' d b ds ps := by
  induction d generalizing b ds ps with
  | zero => exact h
  | succ d ih =>
    obtain ⟨hb, kids, hne, hkids, hwords, hds, hps⟩ := h
    refine ⟨hb, kids, hne, ?_, ?_, hds, hps⟩
    · intro k hk
      apply ih (hkids k hk)
      intro p hp
      apply heq
      rw [hps]
      exact mem_cons_of_mem _ (mem_flatten.mpr ⟨k.2.2, mem_map.mpr ⟨k, hk, rfl⟩, hp⟩)
    · rw [heq b (by rw [hps]; simp)]
      exact hwords

/-- A tree without pointer blocks is a block. -/
theorem TreeRep.root_mem {R : Nat → Bytes} {d b : Nat}
    (h : TreeRep R (d + 1) b ds ps) : b ∈ ps := by
  obtain ⟨-, kids, -, -, -, -, hps⟩ := h
  rw [hps]
  simp

/-- The trees in the slots of an inode, over the data blocks `ds` beyond the direct ones. -/
def SlotsRep (R : Nat → Bytes) (block : List Nat) : List (Nat × Nat) → (ds ps : List Nat) → Prop
  | [], ds, ps => ds = [] ∧ ps = []
  | (slot, depth) :: slots, ds, ps => (ds = [] ∧ ps = []) ∨
      ∃ ds₁ ps₁ ds₂ ps₂, TreeRep R depth (block.getD slot 0) ds₁ ps₁ ∧
        SlotsRep R block slots ds₂ ps₂ ∧ ds = ds₁ ++ ds₂ ∧ ps = ps₁ ++ ps₂

theorem SlotsRep.congr {block : List Nat} {slots : List (Nat × Nat)}
    (h : SlotsRep R block slots ds ps) (heq : ∀ p ∈ ps, R' p = R p) :
    SlotsRep R' block slots ds ps := by
  induction slots generalizing ds ps with
  | nil => exact h
  | cons x slots ih =>
    rcases h with hnil | ⟨ds₁, ps₁, ds₂, ps₂, ht, hs, hds, hps⟩
    · exact .inl hnil
    · refine .inr ⟨ds₁, ps₁, ds₂, ps₂, ?_, ?_, hds, hps⟩
      · exact ht.congr (fun p hp => heq p (by rw [hps]; simp [hp]))
      · exact ih hs (fun p hp => heq p (by rw [hps]; simp [hp]))

/-- The data blocks `ds` and the pointer blocks `ps` of an inode. -/
structure InodeRep (R : Nat → Bytes) (bs : Nat) (n : Inode) (ds ps : List Nat) : Prop where
  size : ds.length = divCeil n.size bs
  nonzero : ∀ b ∈ ds, b ≠ 0
  direct : n.block.take (min 12 ds.length) = ds.take 12
  slots : SlotsRep R n.block pointerSlots (ds.drop 12) ps

variable {n : Inode}

theorem InodeRep.congr {bs : Nat}
    (h : InodeRep R bs n ds ps) (heq : ∀ p ∈ ps, R' p = R p) : InodeRep R' bs n ds ps :=
  ⟨h.size, h.nonzero, h.direct, h.slots.congr heq⟩

namespace Hext.Tame

variable {s : Hext Disk}

/-! ### Reading the trees -/

/-- The blocks of a tree that may be read. -/
theorem pointers (h : Tame s) {b : Nat} (hb : b < s.blocksCount) :
    Post (Hext.pointers b) s
      (fun ws s' => ws = words (s.blk b) ∧ Same s s' ∧ Tame s')
      (fun _ _ => False) := by
  refine Post.seq (readBlock_post h hb) ?_
  rintro d s1 ⟨rfl, hs1, ht1⟩
  exact Post.pure ⟨rfl, hs1, ht1⟩

theorem collectTree (h : Tame s) {limit d b : Nat} {acc : List Nat × List Nat}
    (hrep : TreeRep s.blk d b ds ps)
    (hds : ∀ p ∈ ds, p < s.blocksCount) (hps : ∀ p ∈ ps, p < s.blocksCount)
    (hlim : acc.1.length + ds.length ≤ limit) :
    Post (Hext.collectTree limit d b acc) s
      (fun r s' => r = (acc.1 ++ ds, acc.2 ++ ps) ∧ Same s s' ∧ Tame s') (fun _ _ => False) := by
  induction d generalizing s b ds ps acc with
  | zero =>
    obtain ⟨hb, rfl, rfl⟩ := hrep
    have hroom := hds b (by simp)
    have hlt : ¬ (b = 0 ∨ limit ≤ acc.1.length) := by
      simp only [length_singleton] at hlim
      omega
    have hin : ¬ s.blocksCount ≤ b := not_le.mpr hroom
    rw [Hext.collectTree]
    refine Post.get ?_
    rw [if_neg hlt, if_neg hin]
    exact Post.pure ⟨by simp, Same.refl s, h⟩
  | succ d ih =>
    have hne := hrep.ne_nil
    have hroom := hps b hrep.root_mem
    obtain ⟨hb, kids, -, hkids, hwords, rfl, rfl⟩ := hrep
    have hpos := length_pos_of_ne_nil hne
    have hlt : ¬ (b = 0 ∨ limit ≤ acc.1.length) := by omega
    have hin : ¬ s.blocksCount ≤ b := not_le.mpr hroom
    rw [Hext.collectTree]
    refine Post.get ?_
    rw [if_neg hlt, if_neg hin]
    refine Post.seq (h.pointers hroom) ?_
    rintro ws s1 ⟨rfl, hs1, ht1⟩
    rw [hwords]
    -- the children one after the other, each from the state the one before left
    suffices hfold : ∀ (ks : List (Nat × List Nat × List Nat)) (t : Hext Disk)
        (acc' : List Nat × List Nat), Same s t → Tame t →
        (∀ k ∈ ks, TreeRep s.blk d k.1 k.2.1 k.2.2) →
        (∀ p ∈ (ks.map (fun k => k.2.1)).flatten, p < s.blocksCount) →
        (∀ p ∈ (ks.map (fun k => k.2.2)).flatten, p < s.blocksCount) →
        acc'.1.length + ((ks.map (fun k => k.2.1)).flatten).length ≤ limit →
        Post ((ks.map (fun k => k.1)).foldlM (fun a p => Hext.collectTree limit d p a) acc') t
          (fun r s' => r = (acc'.1 ++ (ks.map (fun k => k.2.1)).flatten,
            acc'.2 ++ (ks.map (fun k => k.2.2)).flatten) ∧ Same s s' ∧ Tame s')
          (fun _ _ => False) by
      have hps' : ∀ p ∈ (kids.map (fun k => k.2.2)).flatten, p < s.blocksCount :=
        fun p hp => hps p (mem_cons_of_mem _ hp)
      refine (hfold kids s1 (acc.1, acc.2 ++ [b]) hs1 ht1 hkids hds hps' hlim).mono ?_
        (fun _ _ hf => hf)
      rintro r s' ⟨rfl, hs', ht'⟩
      exact ⟨by simp, hs', ht'⟩
    intro ks
    induction ks with
    | nil =>
      intro t acc' hst htame _ _ _ _
      exact Post.pure ⟨by simp, hst, htame⟩
    | cons k ks ihk =>
      intro t acc' hst htame hkids' hds' hps' hlim'
      simp only [map_cons, flatten_cons, mem_append, length_append] at hds' hps' hlim'
      rw [map_cons, foldlM_cons]
      have hk := hkids' k (by simp)
      rw [← hst.blk] at hk
      have hblocks := hst.blocksCount
      refine Post.seq (ih htame hk (fun p hp => hblocks ▸ hds' p (.inl hp))
        (fun p hp => hblocks ▸ hps' p (.inl hp)) (by omega)) ?_
      rintro r t' ⟨rfl, hst', htame'⟩
      refine (ihk t' _ (hst.trans hst') htame' (fun k' hk' => hkids' k' (by simp [hk']))
        (fun p hp => hds' p (.inr hp)) (fun p hp => hps' p (.inr hp)) ?_).mono ?_
        (fun _ _ hf => hf)
      · simp only [length_append]
        omega
      · rintro r s' ⟨rfl, hs', ht'⟩
        exact ⟨by simp, hs', ht'⟩

theorem collectSlots (h : Tame s) {limit : Nat} {slots : List (Nat × Nat)}
    {acc : List Nat × List Nat}
    (hrep : SlotsRep s.blk n.block slots ds ps)
    (hds : ∀ p ∈ ds, p < s.blocksCount) (hps : ∀ p ∈ ps, p < s.blocksCount)
    (hlim : acc.1.length + ds.length = limit) :
    Post (Hext.collectSlots n limit slots acc) s
      (fun r s' => r = (acc.1 ++ ds, acc.2 ++ ps) ∧ Same s s' ∧ Tame s') (fun _ _ => False) := by
  induction slots generalizing s ds ps acc with
  | nil =>
    obtain ⟨rfl, rfl⟩ := hrep
    exact Post.pure ⟨by simp, Same.refl s, h⟩
  | cons x slots ih =>
    obtain ⟨slot, depth⟩ := x
    rw [Hext.collectSlots]
    rcases hrep with ⟨rfl, rfl⟩ | ⟨ds₁, ps₁, ds₂, ps₂, ht, hs, rfl, rfl⟩
    · rw [if_pos (by simp at hlim; omega)]
      exact Post.pure ⟨by simp, Same.refl s, h⟩
    · have hpos := length_pos_of_ne_nil ht.ne_nil
      simp only [length_append, mem_append] at hlim hds hps
      rw [if_neg (by omega)]
      refine Post.seq (h.collectTree ht (fun p hp => hds p (.inl hp))
        (fun p hp => hps p (.inl hp)) (by omega)) ?_
      rintro r s1 ⟨rfl, hs1, ht1⟩
      rw [← hs1.blk] at hs
      have hblocks := hs1.blocksCount
      refine (ih ht1 hs (fun p hp => hblocks ▸ hds p (.inr hp))
        (fun p hp => hblocks ▸ hps p (.inr hp)) ?_).mono ?_ (fun _ _ hf => hf)
      · simp only [length_append]
        omega
      · rintro r s' ⟨rfl, hs', ht'⟩
        exact ⟨by simp, hs1.trans hs', ht'⟩

/-- The lists of an inode are read off the disk. -/
theorem blockListSplit (h : Tame s)
    (hrep : InodeRep s.blk s.bs n ds ps)
    (hds : ∀ p ∈ ds, p < s.blocksCount) (hps : ∀ p ∈ ps, p < s.blocksCount) :
    Post (Hext.blockListSplit n) s (fun r s' => r = (ds, ps) ∧ Same s s' ∧ Tame s')
      (fun _ _ => False) := by
  have hdirect : ((n.block.take 12).takeWhile (· ≠ 0)).take (divCeil n.size s.bs) = ds.take 12 := by
    rw [← hrep.size]
    have hnz : ∀ b ∈ ds.take 12, b ≠ 0 := fun b hb => hrep.nonzero b (mem_of_mem_take hb)
    have hd := hrep.direct
    -- the first pointers are the first data blocks, and none of them is zero
    have hsplit : n.block.take 12 = ds.take 12 ++ (n.block.take 12).drop (min 12 ds.length) := by
      rw [← hd]
      have htt : n.block.take (min 12 ds.length) = (n.block.take 12).take (min 12 ds.length) := by
        rw [take_take]
        congr 1
        omega
      rw [htt, take_append_drop]
    rw [hsplit, takeWhile_append_of_pos (by simpa using hnz)]
    by_cases hlen : ds.length ≤ 12
    · rw [take_append_of_le_length (by rw [length_take]; omega), take_of_length_le hlen, take_length]
    · have hfull : (n.block.take 12).drop (min 12 ds.length) = [] := by
        apply drop_eq_nil_of_le
        rw [length_take]
        omega
      rw [hfull, takeWhile_nil, List.append_nil, take_take, min_eq_right (by omega)]
  refine Post.get ?_
  simp only [hdirect]
  have hall : (ds.take 12).length + (ds.drop 12).length = divCeil n.size s.bs := by
    rw [← hrep.size, length_take, length_drop]
    omega
  refine Post.seq (h.collectSlots hrep.slots (fun p hp => hds p (mem_of_mem_drop hp)) hps
    hall) ?_
  · rintro r s1 ⟨rfl, hs1, ht1⟩
    refine Post.pure ⟨?_, hs1, ht1⟩
    simp only [take_append_drop, nil_append]
    rw [← hrep.size, take_length]

end Hext.Tame

namespace Sys

variable {e : Epoch} {s : Hext Disk}

/-- The lists of an inode of the volume. -/
theorem blockListSplit (h : Sys e s)
    (hrep : InodeRep (e.geometry.view s).data e.geometry.bs n ds ps)
    (hds : ∀ p ∈ ds, e.geometry.Room p) (hps : ∀ p ∈ ps, e.geometry.Room p) :
    Post (Hext.blockListSplit n) s (fun r s' => r = (ds, ps) ∧ Same s s' ∧ Sys e s')
      (fun _ _ => False) := by
  have hlt : ∀ p, e.geometry.Room p → p < s.blocksCount := by
    intro p hp
    rw [h.lays.blocks]
    exact hp.1.2
  have hrep' : InodeRep s.blk s.bs n ds ps := by
    rw [h.lays.bs]
    exact hrep.congr (fun p hp => (view_data _ _ (hps p hp)).symm)
  refine (h.tame.blockListSplit hrep' (fun p hp => hlt p (hds p hp))
    (fun p hp => hlt p (hps p hp))).mono ?_ (fun _ _ hf => hf)
  rintro r s1 ⟨rfl, hs1, ht1⟩
  exact ⟨rfl, hs1, h.same hs1 ht1⟩

theorem blockList (h : Sys e s) (withMeta : Bool)
    (hrep : InodeRep (e.geometry.view s).data e.geometry.bs n ds ps)
    (hds : ∀ p ∈ ds, e.geometry.Room p) (hps : ∀ p ∈ ps, e.geometry.Room p) :
    Post (Hext.blockList n withMeta) s
      (fun r s' => r = (if withMeta then ds ++ ps else ds) ∧ Same s s' ∧ Sys e s')
      (fun _ _ => False) := by
  refine Post.seq (h.blockListSplit hrep hds hps) ?_
  rintro r s1 ⟨rfl, hs1, hsys1⟩
  exact Post.pure ⟨rfl, hs1, hsys1⟩

end Sys

end HamixOS.HextFs
