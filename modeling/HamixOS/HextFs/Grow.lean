import HamixOS.HextFs.Pointers

namespace HamixOS.HextFs

open Lib Hext List Function Geometry Nat

/-!
# Steps that only take and fill new blocks

`Grows e s s' m` says that between `s` and `s'` exactly the blocks `m` were taken, that they were
free and no commit needs them, and that nothing else changed.  The relation composes
(`Grows.trans`); writing and staging a block of `m` keeps it (`Grows.write`, `Grows.stage`).  It
carries the first half of every operation that allocates, whether it succeeds or runs out of
space, and with it the construction of pointer trees: `Sys.buildPointers`.  `Trades` is the step of
an owner that gives back its pointer blocks for a new block and new pointer blocks.
-/

/-- Between `s` and `s'` the blocks `m` were taken and filled, and nothing else changed. -/
structure Grows (e : Epoch) (s s' : Hext Disk) (m : List Nat) : Prop where
  sys : Sys e s'
  room : ∀ b ∈ m, e.geometry.Room b
  free : ∀ b ∈ m, (e.geometry.view s).used b = false
  unkept : ∀ b ∈ m, ¬ e.kept b
  nodup : m.Nodup
  used : ∀ b, (e.geometry.view s').used b = ((e.geometry.view s).used b || decide (b ∈ m))
  iused : (e.geometry.view s').iused = (e.geometry.view s).iused
  inode : (e.geometry.view s').inode = (e.geometry.view s).inode
  dirs : (e.geometry.view s').dirs = (e.geometry.view s).dirs
  data : ∀ b, b ∉ m → (e.geometry.view s').data b = (e.geometry.view s).data b
  cache : ∀ b, e.geometry.Room b → b ∉ m → s'.cache[b]? = s.cache[b]?
  dev : ∀ b, b ∉ m → s'.dev.block e.geometry.bs b = s.dev.block e.geometry.bs b
  freed : s'.freed = s.freed
  unfreed : ∀ b ∈ m, b ∉ s.freed

namespace Grows

variable {e : Epoch} {s s' s'' : Hext Disk} {m m' : List Nat}

theorem of_same (h : Same s s') (hsys : Sys e s') : Grows e s s' [] := by
  have hv : e.geometry.view s' = e.geometry.view s := view_same h
  refine ⟨hsys, by simp, by simp, by simp, nodup_nil, ?_, ?_, ?_, ?_, ?_, ?_, ?_, ?_, by simp⟩
  · simp [hv]
  · rw [hv]
  · rw [hv]
  · rw [hv]
  · simp [hv]
  · obtain ⟨c, rfl⟩ := h
    exact fun _ _ _ => rfl
  · obtain ⟨c, rfl⟩ := h
    exact fun _ _ => rfl
  · obtain ⟨c, rfl⟩ := h
    rfl

theorem of_takes {b : Nat} (h : Sys.Takes e s b s') : Grows e s s' [b] := by
  refine ⟨h.sys, ?_, ?_, ?_, nodup_singleton b, ?_, ?_, ?_, ?_, ?_, ?_, ?_, h.freed,
    by simpa using h.unfreed⟩
  · simpa using h.room
  · simpa using h.free
  · simpa using h.unkept
  · intro b'
    rw [h.view]
    show update (e.geometry.view s).used b true b' = _
    by_cases hb : b' = b
    · simp [hb]
    · simp [hb]
  · rw [h.view]
  · rw [h.view]
  · rw [h.view]
  · intro b' _
    rw [h.view]
  · exact fun b' hr _ => h.cache b' hr
  · intro b' _
    rw [h.dev]

theorem trans (h : Grows e s s' m) (h' : Grows e s' s'' m') : Grows e s s'' (m ++ m') := by
  have hdisj : ∀ b ∈ m', b ∉ m := by
    intro b hb' hb
    have hused := h.used b
    rw [h'.free b hb'] at hused
    simp [hb] at hused
  refine ⟨h'.sys, ?_, ?_, ?_, ?_, ?_, ?_, ?_, ?_, ?_, ?_, ?_, ?_, ?_⟩
  · intro b hb
    rcases mem_append.mp hb with hb | hb
    · exact h.room b hb
    · exact h'.room b hb
  · intro b hb
    rcases mem_append.mp hb with hb | hb
    · exact h.free b hb
    · have hused := h.used b
      rw [h'.free b hb] at hused
      simp only [Bool.false_eq, Bool.or_eq_false_iff] at hused
      exact hused.1
  · intro b hb
    rcases mem_append.mp hb with hb | hb
    · exact h.unkept b hb
    · exact h'.unkept b hb
  · rw [nodup_append]
    refine ⟨h.nodup, h'.nodup, ?_⟩
    rintro a ha b hb rfl
    exact hdisj a hb ha
  · intro b
    rw [h'.used, h.used, Bool.or_assoc]
    simp [mem_append]
  · rw [h'.iused, h.iused]
  · rw [h'.inode, h.inode]
  · rw [h'.dirs, h.dirs]
  · intro b hb
    rw [mem_append, not_or] at hb
    rw [h'.data b hb.2, h.data b hb.1]
  · intro b hr hb
    rw [mem_append, not_or] at hb
    rw [h'.cache b hr hb.2, h.cache b hr hb.1]
  · intro b hb
    rw [mem_append, not_or] at hb
    rw [h'.dev b hb.2, h.dev b hb.1]
  · rw [h'.freed, h.freed]
  · intro b hb
    rcases mem_append.mp hb with hb | hb
    · exact h.unfreed b hb
    · rw [← h.freed]
      exact h'.unfreed b hb

/-- A block in use before is not among those taken. -/
theorem not_mem (h : Grows e s s' m) {b : Nat} (hb : (e.geometry.view s).used b = true) : b ∉ m := by
  intro hm
  rw [h.free b hm] at hb
  cases hb

theorem used_mem (h : Grows e s s' m) {b : Nat} (hb : b ∈ m) :
    (e.geometry.view s').used b = true := by
  rw [h.used]
  simp [hb]

end Grows

/-! ### Giving back and taking -/

/-- Between `s` and `s'` the blocks `ps` were given back, and `b` and the blocks `ps'` taken and filled. -/
structure Trades (e : Epoch) (s : Hext Disk) (ps : List Nat) (b : Nat) (ps' : List Nat) (s' : Hext Disk) : Prop where
  used : ∀ b', (e.geometry.view s').used b' =
    (((e.geometry.view s).used b' && decide (b' ∉ ps)) || decide (b' ∈ b :: ps'))
  room : ∀ b' ∈ b :: ps', e.geometry.Room b'
  free : ∀ b' ∈ b :: ps', (e.geometry.view s).used b' = false ∨ b' ∈ ps
  nodup : (b :: ps').Nodup
  iused : (e.geometry.view s').iused = (e.geometry.view s).iused
  inode : (e.geometry.view s').inode = (e.geometry.view s).inode
  dirs : (e.geometry.view s').dirs = (e.geometry.view s).dirs
  data : ∀ b', b' ∉ ps → b' ∉ b :: ps' → (e.geometry.view s').data b' = (e.geometry.view s).data b'

namespace Grows

variable {e : Epoch} {s s₁ s₂ s' : Hext Disk} {ps ps' : List Nat} {b : Nat}

/-- A block is taken, others are given back, and then more are taken. -/
theorem trades (hg : Grows e s s₁ [b]) (hf : Sys.Frees e s₁ ps s₂) (hp : Grows e s₂ s' ps') (hb : b ∉ ps) :
    Trades e s ps b ps' s' ∧ (e.geometry.view s').data b = (e.geometry.view s₁).data b := by
  have hused : ∀ b', (e.geometry.view s₂).used b' =
      (((e.geometry.view s).used b' || decide (b' = b)) && decide (b' ∉ ps)) := by
    intro b'
    rw [hf.used b', hg.used b']
    simp only [mem_singleton]
  have hnew : b ∉ ps' := by
    refine hp.not_mem ?_
    rw [hused]
    simp [hb]
  refine ⟨⟨?_, ?_, ?_, nodup_cons.mpr ⟨hnew, hp.nodup⟩, ?_, ?_, ?_, ?_⟩, ?_⟩
  · intro b'
    rw [hp.used b', hused]
    by_cases hbb : b' = b
    · simp [hbb, hb]
    · simp [hbb]
  · intro b' hb'
    rcases mem_cons.mp hb' with rfl | hmem
    · exact hg.room b' mem_cons_self
    · exact hp.room b' hmem
  · intro b' hb'
    rcases mem_cons.mp hb' with rfl | hmem
    · exact .inl (hg.free b' mem_cons_self)
    · have hfree := hp.free b' hmem
      rw [hused] at hfree
      by_cases hpp : b' ∈ ps
      · exact .inr hpp
      · left
        simp only [hpp, not_false_eq_true, decide_true, Bool.and_true, Bool.or_eq_false_iff] at hfree
        exact hfree.1
  · rw [hp.iused, hf.iused, hg.iused]
  · rw [hp.inode, hf.inode, hg.inode]
  · rw [hp.dirs, hf.dirs, hg.dirs]
  · intro b' hpp hnot
    rw [mem_cons, not_or] at hnot
    rw [hp.data b' hnot.2, hf.data b' hpp, hg.data b' fun hin => hnot.1 (mem_singleton.mp hin)]
  · rw [hp.data b hnew, hf.data b hb]

end Grows

/-! ### Writing new blocks -/

/-- The blocks `b, …, b + n - 1` filled from a buffer. -/
def fill (R : Nat → Bytes) (bs b n : Nat) (buf : Bytes) : Nat → Bytes := fun b' =>
  if b ≤ b' ∧ b' < b + n then slice buf ((b' - b) * bs) bs else R b'

namespace Sys

variable {e : Epoch} {s : Hext Disk}

/-- Writing blocks no commit needs, past the caches. -/
theorem writeFresh (h : Sys e s) {b n : Nat} {buf : Bytes} (hn : 0 < n)
    (hbuf : buf.length = n * e.geometry.bs) (hroom : ∀ k < n, e.geometry.Room (b + k))
    (hun : ∀ k < n, ¬ e.kept (b + k)) (hc : ∀ k < n, s.cache[b + k]? = none) :
    Post (writeRaw b buf) s (fun _ s' => Sys e s' ∧
        e.geometry.view s' = { e.geometry.view s with
          data := fill (e.geometry.view s).data e.geometry.bs b n buf } ∧
        s'.cache = s.cache ∧ s'.freed = s.freed ∧
        ∀ b', ¬ (b ≤ b' ∧ b' < b + n) → s'.dev.block e.geometry.bs b' = s.dev.block e.geometry.bs b')
      (fun _ _ => False) := by
  have hbs := h.lays.bs
  have hbuf' : buf.length = n * s.bs := by rw [hbs]; exact hbuf
  have hle : b + n ≤ s.blocksCount := by
    have := (hroom (n - 1) (by omega)).1.2
    rw [h.lays.blocks]
    omega
  refine (writeRaw_post h.tame hbuf' hle).mono ?_ (fun _ _ hf => hf)
  rintro - s' ⟨hs', ht⟩
  have hmeta : ∀ b', e.geometry.Meta b' → b' < b ∨ b + n ≤ b' := by
    intro b' hm
    by_contra hin
    apply (hroom (b' - b) (by omega)).2
    rw [show b + (b' - b) = b' by omega]
    exact hm
  have hblk : ∀ b', b' < b ∨ b + n ≤ b' → s'.blk b' = s.blk b' := by
    intro b' hout
    rw [hs'.blk, blk_stored h.tame hbuf' hle hout]
  have hbb : ∀ g, s'.blk (e.geometry.blockBitmap g) = s.blk (e.geometry.blockBitmap g) :=
    fun g => hblk _ (hmeta _ (e.geometry.blockBitmap_meta g))
  have hib : ∀ g, s'.blk (e.geometry.inodeBitmap g) = s.blk (e.geometry.inodeBitmap g) :=
    fun g => hblk _ (hmeta _ (e.geometry.inodeBitmap_meta g))
  have hused : (e.geometry.view s').used = (e.geometry.view s).used :=
    view_used_congr (fun g _ => hbb g)
  have hview : e.geometry.view s' = { e.geometry.view s with
      data := fill (e.geometry.view s).data e.geometry.bs b n buf } := by
    apply View.ext
    · exact hused
    · exact view_iused_congr (fun g _ => hib g)
    · exact view_inode_congr (fun i _ => hblk _ (hmeta _ (e.geometry.inoBlock_meta i)))
    · funext b'
      show _ = fill (e.geometry.view s).data e.geometry.bs b n buf b'
      rw [fill]
      by_cases hin : b ≤ b' ∧ b' < b + n
      · have hk : b' - b < n := by omega
        have hadd : b + (b' - b) = b' := by omega
        have hr : e.geometry.Room b' := hadd ▸ hroom (b' - b) hk
        have hget := blk_stored_inside h.tame hbuf' hle hk (hc (b' - b) hk)
        rw [hadd] at hget
        rw [if_pos hin, view_data _ _ hr, hs'.blk, hget, hbs]
      · rw [if_neg hin]
        by_cases hr : e.geometry.Room b'
        · rw [view_data _ _ hr, view_data _ _ hr, hblk b' (by omega)]
        · simp [view, hr]
    · obtain ⟨c, rfl⟩ := hs'
      exact view_dirs_congr (fun g _ => rfl)
  obtain ⟨c, rfl⟩ := hs'
  refine ⟨⟨ht, h.lays.congr rfl rfl rfl rfl rfl rfl rfl, h.journal, h.seq, h.sb, h.now_lt, ?_, ?_,
    ?_, ?_, ?_, ?_, ?_, ?_, ?_⟩, hview, rfl, rfl, ?_⟩
  · rw [hused]
    exact h.cached
  · intro g hg r hr hle'
    rw [hbb]
    exact h.padBlocks g hg r hr hle'
  · intro g hg k hk hk'
    rw [hib]
    exact h.padInodes g hg k hk hk'
  · intro g hg
    rw [hbb]
    exact h.freeBlocks g hg
  · intro g hg
    rw [hib]
    exact h.freeInodes g hg
  · rw [hused]
    exact h.metaUsed
  · rw [hused]
    exact h.fresh
  · rw [hused]
    exact h.kept
  · obtain ⟨t, htrace, hdata, havoid⟩ := h.wrote
    refine ⟨t ++ [.write (b * (s.bs / sectorSize)) buf], ?_, ?_, ?_⟩
    · show s.dev.trace ++ [_] = _
      rw [htrace, append_assoc]
    · show splice s.dev.data _ buf = _
      rw [foldl_append, ← hdata]
      rfl
    · intro io hio
      rcases mem_append.mp hio with hio | hio
      · exact havoid io hio
      · rw [mem_singleton] at hio
        refine ⟨b, n, buf, by rw [hio, hbs], hbuf, by rw [← h.lays.blocks]; exact hle, hun⟩
  · intro b' hout
    have hfull := h.tame.block_le hle
    rw [← hbuf'] at hfull
    rw [← hbs]
    exact block_store_of_outside (h.tame.sector_mul b) hbuf' hfull (by omega)

end Sys

namespace Grows

variable {e : Epoch} {s s' : Hext Disk} {m : List Nat}

/-- Writing new blocks that are not staged. -/
theorem write (h : Grows e s s' m) {b n : Nat} {buf : Bytes} (hn : 0 < n)
    (hbuf : buf.length = n * e.geometry.bs) (hm : ∀ k < n, b + k ∈ m)
    (hc : ∀ k < n, s'.cache[b + k]? = none) :
    Post (writeRaw b buf) s' (fun _ s'' => Grows e s s'' m ∧
        (e.geometry.view s'').data = fill (e.geometry.view s').data e.geometry.bs b n buf ∧
        s''.cache = s'.cache)
      (fun _ _ => False) := by
  refine (h.sys.writeFresh hn hbuf (fun k hk => h.room _ (hm k hk))
    (fun k hk => h.unkept _ (hm k hk)) hc).mono ?_ (fun _ _ hf => hf)
  rintro - s'' ⟨hsys, hview, hcache, hfreed, hdev⟩
  have hout : ∀ b', b' ∉ m → ¬ (b ≤ b' ∧ b' < b + n) := by
    intro b' hb' hin
    apply hb'
    rw [show b' = b + (b' - b) by omega]
    exact hm (b' - b) (by omega)
  refine ⟨⟨hsys, h.room, h.free, h.unkept, h.nodup, ?_, ?_, ?_, ?_, ?_, ?_, ?_, ?_, h.unfreed⟩, ?_, hcache⟩
  · intro b'
    rw [hview]
    exact h.used b'
  · rw [hview]
    exact h.iused
  · rw [hview]
    exact h.inode
  · rw [hview]
    exact h.dirs
  · intro b' hb'
    rw [hview]
    show fill _ _ _ _ _ b' = _
    rw [fill, if_neg (hout b' hb')]
    exact h.data b' hb'
  · intro b' hr hb'
    rw [hcache]
    exact h.cache b' hr hb'
  · intro b' hb'
    rw [hdev b' (hout b' hb')]
    exact h.dev b' hb'
  · rw [hfreed]
    exact h.freed
  · rw [hview]

/-- Staging a new block. -/
theorem stage (h : Grows e s s' m) {b : Nat} {d : Bytes} (hb : b ∈ m)
    (hd : d.length = e.geometry.bs) :
    Grows e s (s'.staged b d) m ∧ (e.geometry.view (s'.staged b d)).data
      = update (e.geometry.view s').data b d := by
  obtain ⟨hsys, hview⟩ := h.sys.stageData (h.room b hb) (h.used_mem hb) hd
  have hne : ∀ b', b' ∉ m → b' ≠ b := by
    rintro b' hb' rfl
    exact hb' hb
  refine ⟨⟨hsys, h.room, h.free, h.unkept, h.nodup, ?_, ?_, ?_, ?_, ?_, ?_, h.dev, h.freed, h.unfreed⟩, ?_⟩
  · intro b'
    rw [hview]
    exact h.used b'
  · rw [hview]
    exact h.iused
  · rw [hview]
    exact h.inode
  · rw [hview]
    exact h.dirs
  · intro b' hb'
    rw [hview]
    show update (e.geometry.view s').data b d b' = _
    rw [update_of_ne (hne b' hb')]
    exact h.data b' hb'
  · intro b' hr hb'
    show (s'.cache.insert b d)[b']? = _
    rw [Std.TreeMap.getElem?_insert, if_neg]
    · exact h.cache b' hr hb'
    · intro heq
      rw [Nat.compare_eq_eq] at heq
      exact hne b' hb' heq.symm
  · rw [hview]

/-- A block just taken is not staged. -/
theorem uncached {b : Nat} (hsys : Sys e s) (hb : (e.geometry.view s).used b = false) :
    s.cache[b]? = none := by
  cases hc : s.cache[b]? with
  | none => rfl
  | some d =>
    rw [hsys.cached b d hc] at hb
    cases hb

end Grows

/-! ### Taking and filling blocks -/

theorem Geometry.Room.ne_zero {G : Geometry} {b : Nat} (h : G.Room b) : b ≠ 0 := by
  rintro rfl
  apply h.2
  rcases G.shape with ⟨-, hf⟩ | ⟨-, hf⟩
  · left
    omega
  · right
    rw [bitOf, Nat.zero_sub, Nat.zero_mod, overhead]
    omega

theorem Geometry.Room.lt {G : Geometry} {b : Nat} (h : G.Room b) : b < 2 ^ 32 :=
  lt_trans h.1.2 G.blocks_lt

/-- Running out of space after some blocks were taken. -/
def Starved (e : Epoch) (s : Hext Disk) (x : Error) (s' : Hext Disk) : Prop :=
  x = .noSpace ∧ ∃ m, Grows e s s' m ∧ Sys.Full e s'

theorem Starved.of_grows {e : Epoch} {s s' s'' : Hext Disk} {m : List Nat} {x : Error}
    (h : Grows e s s' m) (h' : Starved e s' x s'') : Starved e s x s'' := by
  obtain ⟨rfl, m', hg, hfull⟩ := h'
  exact ⟨rfl, m ++ m', h.trans hg, hfull⟩

namespace Sys

variable {e : Epoch} {s s' : Hext Disk}

/-- Taking a block, as a step that grows. -/
theorem growBlock (h : Sys e s) (goal : Nat) :
    Post (Hext.allocBlock goal) s
      (fun b s' => Grows e s s' [b] ∧ s'.cache[b]? = none ∧
        (e.geometry.view s').data = (e.geometry.view s).data ∧ s'.dev = s.dev ∧
        ∀ b', e.geometry.Room b' → s'.cache[b']? = s.cache[b']?)
      (Starved e s) := by
  refine (h.allocBlock goal).mono ?_ ?_
  · intro b s' ht
    refine ⟨Grows.of_takes ht, ?_, by rw [ht.view], ht.dev, ht.cache⟩
    rw [ht.cache b ht.room]
    exact Grows.uncached h ht.free
  · rintro x s' ⟨rfl, hs, hsys, hfull⟩
    refine ⟨rfl, [], Grows.of_same hs hsys, ?_⟩
    intro b hb
    rw [view_same hs]
    obtain ⟨c, rfl⟩ := hs
    exact hfull b hb

end Sys

theorem fill_one {R : Nat → Bytes} {bs b : Nat} {d : Bytes} (hd : d.length = bs) :
    fill R bs b 1 d = update R b d := by
  funext b'
  rw [fill]
  by_cases hb : b' = b
  · rw [if_pos (by omega), hb, update_self, Nat.sub_self, Nat.zero_mul]
    exact slice_all (by omega)
  · rw [if_neg (by omega), update_of_ne hb]

/-- Filling a new pointer block, on the device or in the cache. -/
theorem Grows.putTable {e : Epoch} {s s' : Hext Disk} {m : List Nat} (h : Grows e s s' m)
    (direct : Bool) {t : Nat} {d : Bytes} (ht : t ∈ m) (hd : d.length = e.geometry.bs)
    (hc : s'.cache[t]? = none) :
    Post (putTable direct t d) s' (fun _ s'' => Grows e s s'' m ∧
        (e.geometry.view s'').data = update (e.geometry.view s').data t d)
      (fun _ _ => False) := by
  cases direct with
  | true =>
    have hone : d.length = 1 * e.geometry.bs := by rw [hd, one_mul]
    refine (h.write (b := t) (by omega) hone ?_ ?_).mono ?_
      (fun _ _ hf => hf)
    · intro k hk
      rw [show t + k = t by omega]
      exact ht
    · intro k hk
      rw [show t + k = t by omega]
      exact hc
    · rintro - s'' ⟨hg, hdata, -⟩
      exact ⟨hg, by rw [hdata, fill_one hd]⟩
  | false =>
    obtain ⟨hg, hdata⟩ := h.stage ht hd
    exact Post.of_ok (stage_run s' t d) ⟨hg, hdata⟩

end HamixOS.HextFs
