import HamixOS.HextFs.System

namespace HamixOS.HextFs

open Lib Function List Nat

/-!
# Allocation of blocks

The block bitmaps, with what each operation does to the view of the volume:

* `Sys.allocBlock` — the block returned was free, lies in the room for files, and no kept block is
  ever returned; it fails only when every free block is on the `freed` list;
* `Sys.freeBlock` — a block of a file becomes free, and is handed out again at once only if no
  commit knows it.
-/

namespace Hext

variable {D : Type} [BlockDevice D]

/-- The group of a block and its bit there. -/
def groupOfBlock (s : Hext D) (block : Nat) : Nat × Nat :=
  ((block - s.firstDataBlock) / s.blocksPerGroup, (block - s.firstDataBlock) % s.blocksPerGroup)

/-- Whether the block of bit `bit` in the group that begins at `base` may be handed out. -/
def mayUse (s : Hext D) (base bit : Nat) : Bool :=
  decide (base + bit < s.blocksCount) && decide (base + bit ∉ s.freed)

/-- The search of `allocBlock` in the groups `goal + step` for the remaining steps.  The first
group is searched from the hint on and then from its beginning. -/
def allocBlockIn (goal : Nat) : List Nat → HextM D Nat
  | [] => throw .noSpace
  | step :: steps => do
    let s ← get
    let g := (goal + step) % s.groups.length
    if (s.group g).freeBlocks = 0 then allocBlockIn goal steps
    else do
      let bitmapBlock := (s.group g).blockBitmap
      let bitmap ← readBlock bitmapBlock
      let base := s.firstDataBlock + g * s.blocksPerGroup
      let start := if step = 0 then min s.hint s.blocksPerGroup else 0
      let high := findClear (s.mayUse base) bitmap s.blocksPerGroup s.blocksPerGroup start
      match high.or (findClear (s.mayUse base) bitmap start start 0) with
      | some bit => do
        stage bitmapBlock (setBit bitmap bit)
        modify (fun s => s.setGroup g (fun x => { x with freeBlocks := x.freeBlocks - 1 }))
        modify (fun s => { s with fresh := insert (base + bit) s.fresh, hint := bit + 1 })
        pure (base + bit)
      | none => allocBlockIn goal steps

/-- Take a free block, in group `goal` if it has one. -/
def allocBlock (goal : Nat) : HextM D Nat := do
  let s ← get
  allocBlockIn goal (List.range s.groups.length)

/-- Take `n` blocks. -/
def allocBlocks (goal : Nat) : Nat → HextM D (List Nat)
  | 0 => pure []
  | n + 1 => do
    let block ← allocBlock goal
    let rest ← allocBlocks goal n
    pure (block :: rest)

/-- Give a block back; its staged content is dropped. -/
def freeBlock (block : Nat) : HextM D Unit := do
  let s ← get
  if block < s.firstDataBlock ∨ s.blocksCount ≤ block then throw .corrupt
  else do
    let g := (s.groupOfBlock block).1
    let bit := (s.groupOfBlock block).2
    let bitmapBlock := (s.group g).blockBitmap
    let bitmap ← readBlock bitmapBlock
    if bitAt bitmap bit then do
      stage bitmapBlock (clearBit bitmap bit)
      modify (fun s => s.setGroup g (fun x => { x with freeBlocks := x.freeBlocks + 1 }))
      modify (fun s => if block ∈ s.fresh then { s with fresh := s.fresh.erase block }
        else { s with freed := insert block s.freed })
      modify (fun s => { s with cache := s.cache.erase block })
    else pure ()

/-- Give a list of blocks back. -/
def freeBlocks : List Nat → HextM D Unit
  | [] => pure ()
  | block :: blocks => do
    freeBlock block
    freeBlocks blocks

end Hext

open Hext

/-! ### One bit of a block bitmap -/

section BlockBit

variable {G : Geometry} {s s' : Hext Disk}

/-- The bitmaps of `s'` are those of `s` with the bit of block `b` set to `v`. -/
structure BlockBit (G : Geometry) (s s' : Hext Disk) (b : Nat) (v : Bool) : Prop where
  other : ∀ b', G.Meta b' → b' ≠ G.blockBitmap (G.groupOf b) → s'.blk b' = s.blk b'
  bits : ∀ r, bitAt (s'.blk (G.blockBitmap (G.groupOf b))) r
    = if r = G.bitOf b then v else bitAt (s.blk (G.blockBitmap (G.groupOf b))) r

variable {v : Bool}

theorem BlockBit.bitmap {b : Nat} (h : BlockBit G s s' b v) {g : Nat}
    (hg : g ≠ G.groupOf b) : s'.blk (G.blockBitmap g) = s.blk (G.blockBitmap g) :=
  h.other _ (G.blockBitmap_meta g) (fun heq => hg (Geometry.blockBitmap_inj.mp heq))

theorem BlockBit.inodeBitmap {b : Nat} (h : BlockBit G s s' b v) (g : Nat) :
    s'.blk (G.inodeBitmap g) = s.blk (G.inodeBitmap g) :=
  h.other _ (G.inodeBitmap_meta g) (G.blockBitmap_ne_inodeBitmap _ g).symm

theorem BlockBit.used {b : Nat} (h : BlockBit G s s' b v) (hb : G.InRange b) :
    (G.view s').used = update (G.view s).used b v := by
  funext b'
  by_cases hr : G.InRange b'
  · rw [view_used_eq G s' hr]
    by_cases hbb : b' = b
    · subst hbb
      rw [update_self, h.bits, if_pos rfl]
    · rw [update_of_ne hbb, view_used_eq G s hr]
      by_cases hg : G.groupOf b' = G.groupOf b
      · have hbit : G.bitOf b' ≠ G.bitOf b := by
          intro hbit
          apply hbb
          rw [← G.place_groupOf_bitOf hr.1, ← G.place_groupOf_bitOf hb.1, hg, hbit]
        rw [hg, h.bits, if_neg hbit]
      · rw [h.bitmap hg]
  · have hne : b' ≠ b := by
      rintro rfl
      exact hr hb
    simp [Geometry.view, hr, hne]

theorem BlockBit.iused {b : Nat} (h : BlockBit G s s' b v) :
    (G.view s').iused = (G.view s).iused :=
  view_iused_congr (fun g _ => h.inodeBitmap g)

theorem BlockBit.inode {b : Nat} (h : BlockBit G s s' b v) :
    (G.view s').inode = (G.view s).inode :=
  view_inode_congr (fun i _ => h.other _ (G.inoBlock_meta i) (G.blockBitmap_ne_inoBlock _ i).symm)

end BlockBit

namespace Sys

variable {e : Epoch} {s s' : Hext Disk}

variable {b : Nat}

/-- The bits of a bitmap lie in its bytes. -/
theorem bit_lt (h : Sys e s) (hb : b < e.geometry.blocks) {r : Nat}
    (hr : r < e.geometry.bpg) : r / 8 < (s.blk b).length := by
  rw [h.length_blk hb]
  rw [Geometry.bpg] at hr
  omega

/-- What a change of one bit of a block bitmap needs to keep the invariant. -/
theorem blockBit (h : Sys e s) {v : Bool} (hroom : e.geometry.Room b)
    (hbit : BlockBit e.geometry s s' b v) (ht : Tame s') (hl : e.geometry.Lays s')
    (hj : s'.journal = s.journal) (hq : s'.nextSeq = s.nextSeq) (hsb : s'.sb = s.sb)
    (hnow : s'.now = s.now) (hdev : s'.dev = s.dev)
    (hcached : ∀ b' d, s'.cache[b']? = some d → update (e.geometry.view s).used b v b' = true)
    {n : Nat} (hgroup : ∀ g, s'.group g = if g = e.geometry.groupOf b
      then { s.group (e.geometry.groupOf b) with freeBlocks := n } else s.group g)
    (hcount : n = clearCount (s'.blk (e.geometry.blockBitmap (e.geometry.groupOf b))) e.geometry.bpg)
    (hfresh : ∀ b' ∈ s'.fresh, update (e.geometry.view s).used b v b' = true ∧ ¬ e.kept b')
    (hkept : ∀ b', e.geometry.InRange b' → e.kept b' →
      (update (e.geometry.view s).used b v b' = true ∧ b' ∉ s'.fresh) ∨
      (update (e.geometry.view s).used b v b' = false ∧ b' ∈ s'.freed)) :
    Sys e s' := by
  have hused := hbit.used hroom.1
  refine ⟨ht, hl, hj.trans h.journal, hq.trans h.seq, hsb.trans h.sb, hnow ▸ h.now_lt, ?_, ?_, ?_,
    ?_, ?_, ?_, ?_, ?_, hdev ▸ h.wrote⟩
  · rw [hused]
    exact hcached
  · intro g hg r hr hle
    by_cases hgb : g = e.geometry.groupOf b
    · subst hgb
      rw [hbit.bits, if_neg]
      · exact h.padBlocks _ hg r hr hle
      · intro hrb
        rw [hrb, e.geometry.place_groupOf_bitOf hroom.1.1] at hle
        have := hroom.1.2
        omega
    · rw [hbit.bitmap hgb]
      exact h.padBlocks g hg r hr hle
  · intro g hg k hk hk'
    rw [hbit.inodeBitmap]
    exact h.padInodes g hg k hk hk'
  · intro g hg
    rw [hgroup]
    by_cases hgb : g = e.geometry.groupOf b
    · rw [if_pos hgb, hgb]
      exact hcount
    · rw [if_neg hgb, hbit.bitmap hgb]
      exact h.freeBlocks g hg
  · intro g hg
    rw [hgroup, hbit.inodeBitmap, ← h.freeInodes g hg]
    split
    · rename_i heq
      rw [heq]
    · rfl
  · intro b' hr hm
    have hne : b' ≠ b := by
      rintro rfl
      exact hroom.2 hm
    rw [hused, update_of_ne hne]
    exact h.metaUsed b' hr hm
  · rw [hused]
    exact hfresh
  · rw [hused]
    exact hkept

/-! ### Taking a block -/

/-- The state after block `place g bit` is taken, up to clean copies. -/
def took (s : Hext Disk) (G : Geometry) (b : Nat) : Hext Disk :=
  let g := G.groupOf b
  let s1 := s.staged (G.blockBitmap g) (setBit (s.blk (G.blockBitmap g)) (G.bitOf b))
  let s2 := s1.setGroup g (fun x => { x with freeBlocks := x.freeBlocks - 1 })
  { s2 with fresh := insert b s2.fresh, hint := G.bitOf b + 1 }

theorem took_blockBit (h : Sys e s) (hr : e.geometry.InRange b) :
    BlockBit e.geometry s (took s e.geometry b) b true := by
  have hg := e.geometry.groupOf_lt hr
  have hbb := e.geometry.blockBitmap_inRange hg
  constructor
  · intro b' _ hne
    show (s.staged _ _).blk b' = _
    rw [blk_staged, if_neg hne]
  · intro r
    show bitAt ((s.staged _ _).blk _) r = _
    rw [blk_staged, if_pos rfl, bitAt_setBit (h.bit_lt hbb.2 (e.geometry.bitOf_lt b))]
    by_cases hrb : r = e.geometry.bitOf b
    · simp [hrb]
    · simp [hrb]

theorem took_sys (h : Sys e s) (hr : e.geometry.InRange b)
    (hfree : (e.geometry.view s).used b = false) (hnot : b ∉ s.freed) :
    Sys e (took s e.geometry b) := by
  have hg := e.geometry.groupOf_lt hr
  have hbb := e.geometry.blockBitmap_inRange hg
  have hroom : e.geometry.Room b := by
    refine ⟨hr, fun hm => ?_⟩
    rw [h.metaUsed b hr hm] at hfree
    cases hfree
  have hlen : e.geometry.groupOf b < s.groups.length := by
    rw [h.lays.groups]
    exact hg
  have hbitfree : bitAt (s.blk (e.geometry.blockBitmap (e.geometry.groupOf b)))
      (e.geometry.bitOf b) = false := by
    rw [← view_used_eq _ s hr]
    exact hfree
  have hkept : ¬ e.kept b := by
    intro hk
    rcases h.kept b hr hk with ⟨hu, -⟩ | ⟨-, hf⟩
    · rw [hfree] at hu
      cases hu
    · exact hnot hf
  apply h.blockBit hroom (took_blockBit h hr)
  · have ht := h.tame.staged (b := e.geometry.blockBitmap (e.geometry.groupOf b))
      (d := setBit (s.blk (e.geometry.blockBitmap (e.geometry.groupOf b))) (e.geometry.bitOf b))
      (by rw [h.lays.blocks]; exact hbb.2) (by rw [length_setBit, h.length_blk hbb.2, h.lays.bs])
    exact ht.congr rfl rfl rfl rfl rfl
  · have hl : e.geometry.Lays (s.staged (e.geometry.blockBitmap (e.geometry.groupOf b))
        (setBit (s.blk (e.geometry.blockBitmap (e.geometry.groupOf b))) (e.geometry.bitOf b))) :=
      h.lays.congr rfl rfl rfl rfl rfl rfl rfl
    exact (hl.setGroup (f := fun x => { x with freeBlocks := x.freeBlocks - 1 }) hg
      (fun x => ⟨rfl, rfl, rfl⟩)).congr rfl rfl rfl rfl rfl rfl rfl
  · rfl
  · rfl
  · rfl
  · rfl
  · rfl
  · intro b' d hget
    by_cases hbb' : b' = b
    · rw [hbb', update_self]
    · rw [update_of_ne hbb']
      have hget' : (s.cache.insert (e.geometry.blockBitmap (e.geometry.groupOf b))
        (setBit (s.blk (e.geometry.blockBitmap (e.geometry.groupOf b)))
          (e.geometry.bitOf b)))[b']? = some d := hget
      rw [Std.TreeMap.getElem?_insert] at hget'
      by_cases hmap : e.geometry.blockBitmap (e.geometry.groupOf b) = b'
      · rw [← hmap]
        exact h.metaUsed _ hbb (e.geometry.blockBitmap_meta _)
      · rw [if_neg (by simpa using hmap)] at hget'
        exact h.cached b' d hget'
  · exact fun g => group_setGroup (s.staged _ _) _ hlen g
  · have hcount := clearCount_setBit (h.bit_lt hbb.2 (e.geometry.bitOf_lt b)) (e.geometry.bitOf_lt b) hbitfree
    have hold := h.freeBlocks _ hg
    show (s.group _).freeBlocks - 1 = clearCount ((s.staged _ _).blk _) _
    rw [blk_staged, if_pos rfl]
    omega
  · intro b' hb'
    rcases Finset.mem_insert.mp hb' with rfl | hold
    · exact ⟨update_self .., hkept⟩
    · obtain ⟨hu, hk⟩ := h.fresh b' hold
      refine ⟨?_, hk⟩
      by_cases hbb' : b' = b
      · rw [hbb', update_self]
      · rw [update_of_ne hbb']
        exact hu
  · intro b' hr' hk
    have hne : b' ≠ b := by
      rintro rfl
      exact hkept hk
    rw [update_of_ne hne]
    rcases h.kept b' hr' hk with ⟨hu, hf⟩ | ⟨hu, hf⟩
    · refine .inl ⟨hu, ?_⟩
      intro hmem
      rcases Finset.mem_insert.mp hmem with heq | hmem
      · exact hne heq
      · exact hf hmem
    · exact .inr ⟨hu, hf⟩

theorem took_view (h : Sys e s) (hr : e.geometry.InRange b) :
    e.geometry.view (took s e.geometry b) = { e.geometry.view s with
      used := update (e.geometry.view s).used b true } := by
  have hbit := took_blockBit h hr
  have hg := e.geometry.groupOf_lt hr
  have hlen : e.geometry.groupOf b < s.groups.length := by
    rw [h.lays.groups]
    exact hg
  apply View.ext
  · exact hbit.used hr
  · exact hbit.iused
  · exact hbit.inode
  · apply view_data_congr
    intro b' hroom
    show (s.staged _ _).blk b' = _
    rw [blk_staged, if_neg]
    rintro rfl
    exact hroom.2 (e.geometry.blockBitmap_meta _)
  · apply view_dirs_congr
    intro g _
    have hgroup := group_setGroup (s.staged (e.geometry.blockBitmap (e.geometry.groupOf b))
      (setBit (s.blk (e.geometry.blockBitmap (e.geometry.groupOf b))) (e.geometry.bitOf b)))
      (fun x => { x with freeBlocks := x.freeBlocks - 1 }) hlen g
    refine (congrArg Group.usedDirs hgroup).trans ?_
    split
    · rename_i heq
      rw [heq]
      rfl
    · rfl

/-- What taking block `b` does. -/
structure Takes (e : Epoch) (s : Hext Disk) (b : Nat) (s' : Hext Disk) : Prop where
  sys : Sys e s'
  room : e.geometry.Room b
  free : (e.geometry.view s).used b = false
  unkept : ¬ e.kept b
  view : e.geometry.view s' = { e.geometry.view s with
    used := Function.update (e.geometry.view s).used b true }
  dev : s'.dev = s.dev
  cache : ∀ b', e.geometry.Room b' → s'.cache[b']? = s.cache[b']?
  freed : s'.freed = s.freed
  unfreed : b ∉ s.freed

/-- Every block of group `g` is used or waits for the next commit. -/
def GroupFull (G : Geometry) (s : Hext Disk) (g : Nat) : Prop :=
  ∀ b, G.InRange b → G.groupOf b = g → (G.view s).used b = true ∨ b ∈ s.freed

theorem takes_took {s0 : Hext Disk} (hs : Same s0 s) (h : Sys e s)
    (hr : e.geometry.InRange b) (hfree : (e.geometry.view s).used b = false) (hnot : b ∉ s.freed) :
    Takes e s0 b (took s e.geometry b) := by
  have hv : e.geometry.view s = e.geometry.view s0 := view_same hs
  have hsys := took_sys h hr hfree hnot
  have hfresh : b ∈ (took s e.geometry b).fresh := Finset.mem_insert_self _ _
  have hroom : e.geometry.Room b := by
    refine ⟨hr, fun hm => ?_⟩
    rw [h.metaUsed b hr hm] at hfree
    cases hfree
  have htook := took_view h hr
  rw [hv] at htook hfree
  obtain ⟨c, rfl⟩ := hs
  refine ⟨hsys, hroom, hfree, (hsys.fresh b hfresh).2, htook, rfl, ?_, rfl, hnot⟩
  intro b' hb'
  show (s0.cache.insert _ _)[b']? = _
  rw [Std.TreeMap.getElem?_insert, if_neg]
  intro heq
  rw [Nat.compare_eq_eq] at heq
  exact hb'.2 (heq ▸ e.geometry.blockBitmap_meta _)

theorem allocBlockIn (h : Sys e s) (goal : Nat) (steps : List Nat) :
    Post (Hext.allocBlockIn goal steps) s (fun b s' => Takes e s b s')
      (fun x s' => x = .noSpace ∧ Same s s' ∧ Sys e s' ∧
        ∀ step ∈ steps, GroupFull e.geometry s ((goal + step) % e.geometry.groups)) := by
  induction steps generalizing s with
  | nil =>
    refine Post.throw ⟨rfl, Same.refl s, h, ?_⟩
    intro step hstep
    cases hstep
  | cons step steps ih =>
    set G := e.geometry with hG
    have hgpos := G.groups_pos
    have hg : (goal + step) % G.groups < G.groups := mod_lt _ hgpos
    have hbb := G.blockBitmap_inRange hg
    rw [Hext.allocBlockIn]
    refine Post.get ?_
    rw [h.lays.groups, ← hG]
    simp only []
    -- a group that is full or skipped leaves the search to the rest
    have hrest : ∀ {s1 : Hext Disk}, Same s s1 → Sys e s1 → GroupFull G s ((goal + step) % G.groups) →
        Post (Hext.allocBlockIn goal steps) s1 (fun b s' => Takes e s b s')
          (fun x s' => x = .noSpace ∧ Same s s' ∧ Sys e s' ∧
            ∀ t ∈ step :: steps, GroupFull G s ((goal + t) % G.groups)) := by
      intro s1 hs1 hsys1 hfull
      obtain ⟨c, rfl⟩ := hs1
      refine (ih hsys1).mono ?_ ?_
      · rintro b s' ⟨h1, h2, h3, h4, h5, h6, h7, h8, h9⟩
        exact ⟨h1, h2, h3, h4, h5, h6, h7, h8, h9⟩
      · rintro x s' ⟨rfl, hs', hsys', hall⟩
        refine ⟨rfl, Same.trans ⟨c, rfl⟩ hs', hsys', ?_⟩
        intro t ht
        rcases mem_cons.mp ht with rfl | ht
        · exact hfull
        · exact hall t ht
    by_cases hzero : (s.group ((goal + step) % G.groups)).freeBlocks = 0
    · rw [if_pos hzero]
      apply hrest (Same.refl s) h
      intro b hb hgb
      left
      have hcount := h.freeBlocks _ hg
      rw [hzero] at hcount
      rw [view_used_eq _ s hb, hgb]
      exact clearCount_eq_zero.mp hcount.symm _ (G.bitOf_lt b)
    · rw [if_neg hzero, h.lays.blockBitmap _ hg]
      refine Post.seq (h.readBlock hbb.2) ?_
      rintro bitmap s1 ⟨rfl, hs1, hsys1⟩
      rw [h.lays.bpg, h.lays.first]
      set g := (goal + step) % G.groups with hgdef
      set bm := s.blk (G.blockBitmap g) with hbm
      set start := (if step = 0 then min s.hint G.bpg else 0) with hstart
      have hstart_le : start ≤ G.bpg := by
        rw [hstart]
        split <;> omega
      cases hfind : (findClear (s.mayUse (G.first + g * G.bpg)) bm G.bpg G.bpg start).or
          (findClear (s.mayUse (G.first + g * G.bpg)) bm start start 0) with
      | some bit =>
        obtain ⟨hlt, hclear, hmay⟩ := findClear_wrap_some hstart_le hfind
        simp only [Hext.mayUse, Bool.and_eq_true, decide_eq_true_eq] at hmay
        obtain ⟨hblocks, hnotfreed⟩ := hmay
        rw [h.lays.blocks] at hblocks
        have hplace : G.first + g * G.bpg + bit = G.place g bit := rfl
        have hgo : G.groupOf (G.place g bit) = g := G.groupOf_place hlt
        have hbo : G.bitOf (G.place g bit) = bit := G.bitOf_place hlt
        have hr : G.InRange (G.place g bit) := ⟨G.first_le_place g bit, hblocks⟩
        have hfree : (G.view s).used (G.place g bit) = false := by
          rw [view_used_eq _ s hr, hgo, hbo]
          exact hclear
        have hfree1 : (G.view s1).used (G.place g bit) = false := by
          rw [view_same hs1]
          exact hfree
        have htakes := takes_took hs1 hsys1 hr hfree1 (by
          obtain ⟨c, rfl⟩ := hs1
          exact hnotfreed)
        have hbm1 : s1.blk (G.blockBitmap g) = bm := by rw [hs1.blk]
        have hstate : took s1 G (G.place g bit)
            = { (s1.staged (G.blockBitmap g) (setBit bm bit)).setGroup g
                (fun x => { x with freeBlocks := x.freeBlocks - 1 }) with
              fresh := insert (G.first + g * G.bpg + bit) s1.fresh, hint := bit + 1 } := by
          rw [took, hgo, hbo, hbm1, hplace]
          rfl
        show Takes e s (G.first + g * G.bpg + bit) _
        rw [← hG, hstate] at htakes
        exact htakes
      | none =>
        apply hrest hs1 hsys1
        intro b hb hgb
        by_cases hu : (G.view s).used b = true
        · exact .inl hu
        · right
          have hplace := G.place_groupOf_bitOf hb.1
          rw [hgb] at hplace
          have hclear : bitAt bm (G.bitOf b) = false := by
            rw [hbm, ← hgb, ← view_used_eq _ s hb]
            simpa using hu
          have hmay : s.mayUse (G.first + g * G.bpg) (G.bitOf b) = false :=
            findClear_wrap_none hfind (G.bitOf_lt b) hclear
          have hbase : G.first + g * G.bpg + G.bitOf b = b := hplace
          simp only [Hext.mayUse, hbase, h.lays.blocks, Bool.and_eq_false_iff,
            decide_eq_false_iff_not, not_not] at hmay
          rcases hmay with hout | hin
          · exact absurd hb.2 hout
          · exact hin

/-- The groups tried are all groups. -/
theorem exists_step (goal : Nat) {g n : Nat} (hg : g < n) : ∃ step ∈ List.range n, (goal + step) % n = g := by
  refine ⟨(g + (n - goal % n)) % n, mem_range.mpr (mod_lt _ (by omega)), ?_⟩
  have hlt : goal % n < n := mod_lt _ (by omega)
  rw [add_mod_mod, ← mod_add_mod, show goal % n + (g + (n - goal % n)) = g + n by omega,
    add_mod_right, mod_eq_of_lt hg]

/-- No block can be handed out before the next commit. -/
def Full (e : Epoch) (s : Hext Disk) : Prop :=
  ∀ b, e.geometry.InRange b → (e.geometry.view s).used b = true ∨ b ∈ s.freed

/-- Taking a block: a free one, never a kept one; it fails only when there is none. -/
theorem allocBlock (h : Sys e s) (goal : Nat) :
    Post (Hext.allocBlock goal) s (fun b s' => Takes e s b s')
      (fun x s' => x = .noSpace ∧ Same s s' ∧ Sys e s' ∧ Full e s) := by
  refine Post.get ?_
  refine (h.allocBlockIn goal _).mono (fun _ _ h => h) ?_
  rintro x s' ⟨rfl, hs, hsys, hall⟩
  refine ⟨rfl, hs, hsys, ?_⟩
  intro b hb
  rw [h.lays.groups] at hall
  obtain ⟨step, hstep, heq⟩ := exists_step goal (e.geometry.groupOf_lt hb)
  exact hall step hstep b hb heq.symm

/-! ### Giving a block back -/

/-- The bookkeeping of a block given back: what was taken since the last commit is simply free
again, what the last commit needs waits for the next one. -/
def recycled (s : Hext Disk) (b : Nat) : Hext Disk :=
  if b ∈ s.fresh then { s with fresh := s.fresh.erase b }
  else { s with freed := insert b s.freed }

/-- The state after block `b` is given back, up to clean copies. -/
def gave (s : Hext Disk) (G : Geometry) (b : Nat) : Hext Disk :=
  let g := G.groupOf b
  let s1 := s.staged (G.blockBitmap g) (clearBit (s.blk (G.blockBitmap g)) (G.bitOf b))
  let s2 := s1.setGroup g (fun x => { x with freeBlocks := x.freeBlocks + 1 })
  let s3 := recycled s2 b
  { s3 with cache := s3.cache.erase b }

/-- All fields of `recycled` but the two sets. -/
theorem recycled_eq (s : Hext Disk) (b : Nat) :
    recycled s b = { s with
      fresh := s.fresh.erase b, freed := if b ∈ s.fresh then s.freed else insert b s.freed } := by
  rw [recycled]
  split
  · rfl
  · rename_i hmem
    rw [Finset.erase_eq_of_notMem hmem]

theorem gave_eq (s : Hext Disk) (G : Geometry) (b : Nat) :
    gave s G b = { (s.setGroup (G.groupOf b) (fun x => { x with freeBlocks := x.freeBlocks + 1 })) with
      cache := (s.cache.insert (G.blockBitmap (G.groupOf b))
        (clearBit (s.blk (G.blockBitmap (G.groupOf b))) (G.bitOf b))).erase b
      fresh := s.fresh.erase b
      freed := if b ∈ s.fresh then s.freed else insert b s.freed } := by
  rw [gave]
  simp only [recycled_eq]
  rfl

theorem gave_cache (s : Hext Disk) (G : Geometry) (b b' : Nat) :
    (gave s G b).cache[b']? = if b' = b then none
      else if b' = G.blockBitmap (G.groupOf b)
        then some (clearBit (s.blk (G.blockBitmap (G.groupOf b))) (G.bitOf b))
      else s.cache[b']? := by
  rw [gave_eq]
  simp only [Std.TreeMap.getElem?_erase, Std.TreeMap.getElem?_insert]
  by_cases h1 : b' = b
  · simp [h1]
  · by_cases h2 : b' = G.blockBitmap (G.groupOf b)
    · subst h2
      simp [h1, Ne.symm h1]
    · simp [h1, h2, Ne.symm h1, Ne.symm h2]

theorem gave_blk (s : Hext Disk) (G : Geometry) {b b' : Nat} (hne : b' ≠ b) :
    (gave s G b).blk b' = if b' = G.blockBitmap (G.groupOf b)
      then clearBit (s.blk (G.blockBitmap (G.groupOf b))) (G.bitOf b) else s.blk b' := by
  have hdev : (gave s G b).dev = s.dev := by rw [gave_eq]; rfl
  have hbs : (gave s G b).bs = s.bs := by rw [gave_eq]; rfl
  rw [Hext.blk, gave_cache, if_neg hne, hdev, hbs]
  split
  · rfl
  · rfl

/-- What giving block `b` back does. -/
structure Gives (e : Epoch) (s : Hext Disk) (b : Nat) (s' : Hext Disk) : Prop where
  sys : Sys e s'
  view : ∃ d, e.geometry.view s' = { e.geometry.view s with
    used := Function.update (e.geometry.view s).used b false
    data := Function.update (e.geometry.view s).data b d }
  dev : s'.dev = s.dev
  cache : ∀ b', e.geometry.Room b' → b' ≠ b → s'.cache[b']? = s.cache[b']?

theorem gave_blockBit (h : Sys e s) (hroom : e.geometry.Room b) :
    BlockBit e.geometry s (gave s e.geometry b) b false := by
  have hg := e.geometry.groupOf_lt hroom.1
  have hbb := e.geometry.blockBitmap_inRange hg
  have hne : ∀ b', e.geometry.Meta b' → b' ≠ b := by
    rintro b' hm rfl
    exact hroom.2 hm
  constructor
  · intro b' hm hmap
    rw [gave_blk s _ (hne b' hm), if_neg hmap]
  · intro r
    rw [gave_blk s _ (hne _ (e.geometry.blockBitmap_meta _)), if_pos rfl,
      bitAt_clearBit (h.bit_lt hbb.2 (e.geometry.bitOf_lt b))]
    by_cases hrb : r = e.geometry.bitOf b
    · simp [hrb]
    · simp [hrb]

theorem gave_sys (h : Sys e s) (hroom : e.geometry.Room b)
    (hset : (e.geometry.view s).used b = true) : Sys e (gave s e.geometry b) := by
  have hg := e.geometry.groupOf_lt hroom.1
  have hbb := e.geometry.blockBitmap_inRange hg
  have hlen : e.geometry.groupOf b < s.groups.length := by
    rw [h.lays.groups]
    exact hg
  have hbitset : bitAt (s.blk (e.geometry.blockBitmap (e.geometry.groupOf b)))
      (e.geometry.bitOf b) = true := by
    rw [← view_used_eq _ s hroom.1]
    exact hset
  apply h.blockBit hroom (gave_blockBit h hroom)
  · rw [gave_eq]
    refine ⟨h.tame.bs_pos, h.tame.bs_sectors, h.tame.size, h.tame.faults, ?_, h.tame.clean⟩
    intro b' d hget
    show d.length = s.bs ∧ b' < s.blocksCount
    have hget' := gave_cache s e.geometry b b'
    rw [gave_eq] at hget'
    rw [hget'] at hget
    split at hget
    · cases hget
    · split at hget
      · rename_i heq
        have hd : clearBit (s.blk (e.geometry.blockBitmap (e.geometry.groupOf b)))
            (e.geometry.bitOf b) = d := Option.some.inj hget
        rw [← hd, length_clearBit, h.length_blk hbb.2, h.lays.bs, heq, h.lays.blocks]
        exact ⟨rfl, hbb.2⟩
      · exact h.tame.cache b' d hget
  · rw [gave_eq]
    exact (h.lays.setGroup (f := fun x => { x with freeBlocks := x.freeBlocks + 1 }) hg
      (fun x => ⟨rfl, rfl, rfl⟩)).congr rfl rfl rfl rfl rfl rfl rfl
  · rw [gave_eq]; rfl
  · rw [gave_eq]; rfl
  · rw [gave_eq]; rfl
  · rw [gave_eq]; rfl
  · rw [gave_eq]; rfl
  · intro b' d hget
    rw [gave_cache] at hget
    split at hget
    · cases hget
    · rename_i hne
      rw [update_of_ne hne]
      split at hget
      · rename_i heq
        rw [heq]
        exact h.metaUsed _ hbb (e.geometry.blockBitmap_meta _)
      · exact h.cached b' d hget
  · intro g
    rw [gave_eq]
    exact group_setGroup s _ hlen g
  · have hcount := clearCount_clearBit (h.bit_lt hbb.2 (e.geometry.bitOf_lt b)) (e.geometry.bitOf_lt b) hbitset
    have hne : e.geometry.blockBitmap (e.geometry.groupOf b) ≠ b := by
      intro heq
      exact hroom.2 (heq ▸ e.geometry.blockBitmap_meta _)
    rw [gave_blk s _ hne, if_pos rfl, hcount, ← h.freeBlocks _ hg]
  · intro b' hb'
    rw [gave_eq] at hb'
    obtain ⟨hne, hold⟩ := Finset.mem_erase.mp hb'
    rw [update_of_ne hne]
    exact h.fresh b' hold
  · intro b' hr' hk
    rw [gave_eq]
    show (_ ∧ b' ∉ s.fresh.erase b) ∨ (_ ∧ b' ∈ if b ∈ s.fresh then s.freed else insert b s.freed)
    by_cases hbb' : b' = b
    · subst hbb'
      rw [update_self]
      rcases h.kept b' hr' hk with ⟨-, hf⟩ | ⟨hu, -⟩
      · rw [if_neg hf]
        exact .inr ⟨rfl, Finset.mem_insert_self _ _⟩
      · rw [hset] at hu
        cases hu
    · rw [update_of_ne hbb']
      rcases h.kept b' hr' hk with ⟨hu, hf⟩ | ⟨hu, hf⟩
      · exact .inl ⟨hu, fun hmem => hf (Finset.mem_of_mem_erase hmem)⟩
      · refine .inr ⟨hu, ?_⟩
        split
        · exact hf
        · exact Finset.mem_insert_of_mem hf

theorem gives_gave {s0 : Hext Disk} (hs : Same s0 s) (h : Sys e s)
    (hroom : e.geometry.Room b) (hset : (e.geometry.view s).used b = true) :
    Gives e s0 b (gave s e.geometry b) := by
  have hv : e.geometry.view s = e.geometry.view s0 := view_same hs
  have hbit := gave_blockBit h hroom
  have hlen : e.geometry.groupOf b < s.groups.length := by
    rw [h.lays.groups]
    exact e.geometry.groupOf_lt hroom.1
  have hcache : s.cache = s0.cache := by
    obtain ⟨c, rfl⟩ := hs
    rfl
  have hdev : s.dev = s0.dev := by
    obtain ⟨c, rfl⟩ := hs
    rfl
  refine ⟨gave_sys h hroom hset, ⟨(gave s e.geometry b).blk b, ?_⟩, ?_, ?_⟩
  · rw [← hv]
    apply View.ext
    · exact hbit.used hroom.1
    · exact hbit.iused
    · exact hbit.inode
    · funext b'
      show _ = update (e.geometry.view s).data b _ b'
      by_cases hbb : b' = b
      · subst hbb
        rw [view_data _ _ hroom, update_self]
      · rw [update_of_ne hbb]
        by_cases hr : e.geometry.Room b'
        · rw [view_data _ _ hr, view_data _ _ hr, gave_blk s _ hbb, if_neg]
          rintro rfl
          exact hr.2 (e.geometry.blockBitmap_meta _)
        · simp [Geometry.view, hr]
    · apply view_dirs_congr
      intro g _
      have hgroup := group_setGroup s (fun x => { x with freeBlocks := x.freeBlocks + 1 }) hlen g
      rw [gave_eq]
      refine (congrArg Group.usedDirs hgroup).trans ?_
      split
      · rename_i heq
        rw [heq]
      · rfl
  · rw [gave_eq]
    exact hdev
  · intro b' hr hne
    rw [gave_cache, if_neg hne, if_neg, hcache]
    rintro rfl
    exact hr.2 (e.geometry.blockBitmap_meta _)

/-- Giving back a block of a file. -/
theorem freeBlock (h : Sys e s) (hroom : e.geometry.Room b) :
    Post (Hext.freeBlock b) s (fun _ s' => Gives e s b s') (fun _ _ => False) := by
  have hg := e.geometry.groupOf_lt hroom.1
  have hbb := e.geometry.blockBitmap_inRange hg
  refine Post.get ?_
  rw [if_neg (by rw [h.lays.first, h.lays.blocks]; have := hroom.1; unfold Geometry.InRange at this; omega)]
  have hgo : (s.groupOfBlock b).1 = e.geometry.groupOf b := by
    simp only [Hext.groupOfBlock, h.lays.first, h.lays.bpg]
    rfl
  have hbo : (s.groupOfBlock b).2 = e.geometry.bitOf b := by
    simp only [Hext.groupOfBlock, h.lays.first, h.lays.bpg]
    rfl
  simp only [hgo, hbo, h.lays.blockBitmap _ hg]
  refine Post.seq (h.readBlock hbb.2) ?_
  rintro bitmap s1 ⟨rfl, hs1, hsys1⟩
  have hused : (e.geometry.view s).used b
      = bitAt (s.blk (e.geometry.blockBitmap (e.geometry.groupOf b))) (e.geometry.bitOf b) :=
    view_used_eq _ s hroom.1
  cases hbit : bitAt (s.blk (e.geometry.blockBitmap (e.geometry.groupOf b))) (e.geometry.bitOf b) with
  | true =>
    have hset : (e.geometry.view s1).used b = true := by
      rw [view_same hs1, hused]
      exact hbit
    have hgives := gives_gave hs1 hsys1 hroom hset
    rw [gave, hs1.blk] at hgives
    exact hgives
  | false =>
    refine Post.pure ?_
    have hclear : (e.geometry.view s).used b = false := by rw [hused, hbit]
    refine ⟨hsys1, ⟨(e.geometry.view s).data b, ?_⟩, ?_, ?_⟩
    · rw [view_same hs1, update_eq_self, ← hclear, update_eq_self]
    · obtain ⟨c, rfl⟩ := hs1
      rfl
    · obtain ⟨c, rfl⟩ := hs1
      exact fun _ _ _ => rfl

/-- What giving a list of blocks back does. -/
structure Frees (e : Epoch) (s : Hext Disk) (l : List Nat) (s' : Hext Disk) : Prop where
  sys : Sys e s'
  used : ∀ b, (e.geometry.view s').used b = ((e.geometry.view s).used b && decide (b ∉ l))
  iused : (e.geometry.view s').iused = (e.geometry.view s).iused
  inode : (e.geometry.view s').inode = (e.geometry.view s).inode
  dirs : (e.geometry.view s').dirs = (e.geometry.view s).dirs
  data : ∀ b, b ∉ l → (e.geometry.view s').data b = (e.geometry.view s).data b
  nil : l = [] → s' = s

/-- Giving back a list of blocks of files. -/
theorem freeAll (h : Sys e s) {l : List Nat} (hroom : ∀ b ∈ l, e.geometry.Room b) :
    Post (Hext.freeBlocks l) s (fun _ s' => Frees e s l s') (fun _ _ => False) := by
  induction l generalizing s with
  | nil => exact Post.pure ⟨h, by simp, rfl, rfl, rfl, fun _ _ => rfl, fun _ => rfl⟩
  | cons b l ih =>
    refine Post.seq (h.freeBlock (hroom b mem_cons_self)) ?_
    intro _ s1 h1
    refine (ih h1.sys (fun b' hb' => hroom b' (mem_cons_of_mem _ hb'))).mono ?_ (fun _ _ hf => hf)
    intro _ s2 h2
    obtain ⟨d, hview⟩ := h1.view
    refine ⟨h2.sys, ?_, h2.iused.trans (by rw [hview]), h2.inode.trans (by rw [hview]),
      h2.dirs.trans (by rw [hview]), ?_, by simp⟩
    · intro b'
      rw [h2.used b', hview]
      by_cases hb : b' = b
      · simp [hb]
      · simp [hb]
    · intro b' hb'
      rw [mem_cons, not_or] at hb'
      rw [h2.data b' hb'.2, hview]
      exact update_of_ne hb'.1 _ _

end Sys

end HamixOS.HextFs
