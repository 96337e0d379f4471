import HamixOS.HextFs.DirOps
import HamixOS.HextFs.Reach
import HamixOS.Lib.Keyed

namespace HamixOS.HextFs

open Lib Hext List Function

/-!
# A directory on its own

`DirAt` is what one directory needs of a volume, whatever the others look like and wherever its
entries lead.  The three operations on it are specified by the list of its entries; a run of them
stands for a finite map from names (`directory_refines_map`).
-/

/-- Inode `i` is a directory of blocks `ds` with the pointer blocks `ps`. -/
structure DirAt (e : Epoch) (s : Hext Disk) (i : Nat) (ds ps : List Nat) : Prop where
  sys : Sys e s
  ino : e.geometry.Ino i
  kind : ((e.geometry.view s).inode i).isDir = true
  rep : InodeRep (e.geometry.view s).data e.geometry.bs ((e.geometry.view s).inode i) ds ps
  room : ∀ b ∈ ds ++ ps, e.geometry.Room b ∧ (e.geometry.view s).used b = true
  nodup : (ds ++ ps).Nodup
  blocks : ∀ b ∈ ds, DirBlock e.geometry.bs ((e.geometry.view s).data b)

/-- The entries of a list of directory blocks. -/
def View.listed (v : View) (bs : Nat) (ds : List Nat) : List DirEntry := ds.flatMap fun b => blockEntries bs (v.data b)

theorem View.listed_congr {v v' : View} {bs : Nat} {ds : List Nat} (h : ∀ b ∈ ds, v'.data b = v.data b) :
    v'.listed bs ds = v.listed bs ds := by
  rw [listed, listed, flatMap, flatMap]
  congr 1
  exact map_congr_left fun b hb => by rw [h b hb]

namespace DirAt

variable {e : Epoch} {s s' : Hext Disk} {i : Nat} {ds ps : List Nat}

section

variable (h : DirAt e s i ds ps)

include h

theorem room_data : ∀ b ∈ ds, e.geometry.Room b ∧ (e.geometry.view s).used b = true :=
  fun b hb => h.room b (mem_append_left ps hb)

theorem room_ptrs : ∀ b ∈ ps, e.geometry.Room b ∧ (e.geometry.view s).used b = true :=
  fun b hb => h.room b (mem_append_right ds hb)

theorem same (hs : Same s s') (hsys : Sys e s') : DirAt e s' i ds ps := by
  have hv := view_same (G := e.geometry) hs
  refine ⟨hsys, h.ino, ?_, ?_, ?_, h.nodup, ?_⟩
  · rw [hv]
    exact h.kind
  · rw [hv]
    exact h.rep
  · rw [hv]
    exact h.room
  · rw [hv]
    exact h.blocks

theorem readInode :
    Post (Hext.readInode i) s (fun n s' => n = (e.geometry.view s).inode i ∧ Same s s' ∧ DirAt e s' i ds ps)
      (fun _ _ => False) :=
  (h.sys.readInode h.ino).mono (fun _ _ ⟨hn, hs, hsys⟩ => ⟨hn, hs, h.same hs hsys⟩) fun _ _ hf => hf

theorem blockList :
    Post (Hext.blockList ((e.geometry.view s).inode i) false) s (fun r s' => r = ds ∧ Same s s' ∧ DirAt e s' i ds ps)
      (fun _ _ => False) := by
  refine (h.sys.blockList false h.rep (fun b hb => (h.room_data b hb).1) fun b hb => (h.room_ptrs b hb).1).mono ?_
    fun _ _ hf => hf
  rintro r s' ⟨hr, hs, hsys⟩
  exact ⟨hr, hs, h.same hs hsys⟩

theorem readDir :
    Post (Hext.readDir i) s (fun es s' => es = (e.geometry.view s).listed e.geometry.bs ds ∧ Same s s' ∧ DirAt e s' i ds ps)
      (fun _ _ => False) := by
  refine Post.seq h.readInode ?_
  rintro n s1 ⟨rfl, hs1, h1⟩
  have hv := view_same (G := e.geometry) hs1
  rw [if_pos h.kind, ← hv]
  refine Post.seq h1.blockList ?_
  rintro r s2 ⟨rfl, hs2, h2⟩
  have hv2 := view_same (G := e.geometry) hs2
  refine (h2.sys.readDirBlocks (fun b hb => (h2.room_data b hb).1) h2.blocks).mono ?_ fun _ _ hf => hf
  rintro es s3 ⟨rfl, hs3, hsys3⟩
  refine ⟨?_, (hs1.trans hs2).trans hs3, h2.same hs3 hsys3⟩
  rw [← hv2]
  rfl

end

/-! ### A new block -/

/-- The directory gets the block `b` behind the others, new pointer blocks and a record for them. -/
theorem grow (h : DirAt e s i ds ps) {b : Nat} {ps' : List Nat} {n : Inode} {s3 s4 : Hext Disk}
    (ht : Trades e s ps b ps' s3) (hblock : DirBlock e.geometry.bs ((e.geometry.view s3).data b))
    (hrep : InodeRep (e.geometry.view s3).data e.geometry.bs n (ds ++ [b]) ps') (hw : Sys.Inks e s3 i n s4)
    (hkind : n.isDir = true) :
    DirAt e s4 i (ds ++ [b]) ps' ∧ (e.geometry.view s4).listed e.geometry.bs (ds ++ [b]) =
        (e.geometry.view s).listed e.geometry.bs ds ++ blockEntries e.geometry.bs ((e.geometry.view s3).data b) := by
  have hself : (e.geometry.view s4).inode i = n := by rw [hw.inode, update_self]
  have hnodup := nodup_append.mp h.nodup
  -- the data blocks of the directory are neither given back nor taken
  have hold : ∀ b' ∈ ds, b' ∉ ps ∧ b' ∉ b :: ps' := by
    intro b' hb'
    have hnot : b' ∉ ps := fun hp => hnodup.2.2 b' hb' b' hp rfl
    refine ⟨hnot, fun hin => ?_⟩
    rcases ht.free b' hin with hf | hp
    · rw [(h.room_data b' hb').2] at hf
      cases hf
    · exact hnot hp
  have hkeep : ∀ b' ∈ ds, (e.geometry.view s4).data b' = (e.geometry.view s).data b' := by
    intro b' hb'
    rw [hw.data]
    exact ht.data b' (hold b' hb').1 (hold b' hb').2
  have hlist : ∀ b', b' ∈ ds ++ [b] ++ ps' → b' ∈ ds ∨ b' ∈ b :: ps' := by
    intro b' hb'
    rw [append_assoc, mem_append] at hb'
    exact hb'
  refine ⟨⟨hw.sys, h.ino, ?_, ?_, ?_, ?_, ?_⟩, ?_⟩
  · rw [hself]
    exact hkind
  · rw [hself, hw.data]
    exact hrep
  · intro b' hb'
    rw [hw.used, ht.used b']
    rcases hlist b' hb' with hmem | hmem
    · refine ⟨(h.room_data b' hmem).1, ?_⟩
      rw [(h.room_data b' hmem).2, decide_eq_true (hold b' hmem).1]
      rfl
    · refine ⟨ht.room b' hmem, ?_⟩
      rw [decide_eq_true hmem, Bool.or_true]
  · rw [append_assoc, nodup_append]
    refine ⟨hnodup.1, ht.nodup, ?_⟩
    rintro b' hmem b'' hmem' rfl
    exact (hold b' hmem).2 hmem'
  · intro b' hb'
    rcases mem_append.mp hb' with hmem | hmem
    · rw [hkeep b' hmem]
      exact h.blocks b' hmem
    · rw [mem_singleton.mp hmem, hw.data]
      exact hblock
  · rw [View.listed, flatMap_append, flatMap_singleton, hw.data]
    congr 1
    exact View.listed_congr fun b' hb' => by rw [← hkeep b' hb', hw.data]

/-- A new directory has one block and no entries. -/
theorem init (h : Sys e s) {parent : Nat} (hi : e.geometry.Ino i) (hkind : ((e.geometry.view s).inode i).isDir = true)
    (hparent : parent < 2 ^ 32) :
    Post (Hext.initDirectory i parent) s
      (fun _ s' => ∃ b, DirAt e s' i [b] [] ∧ (e.geometry.view s').listed e.geometry.bs [b] = [])
      (fun x _ => x = .noSpace) := by
  have hfits := e.geometry.fits_inode s i
  have hbs := e.geometry.bs_lt
  refine Post.seq (h.readInode hi) ?_
  rintro n s1 ⟨rfl, hs1, hsys1⟩
  refine Post.get ?_
  have hg1 : Grows e s s1 [] := Grows.of_same hs1 hsys1
  refine Post.bind (hsys1.growBlock _) (fun x s2 hx => hx.1) ?_
  rintro b s2 ⟨hg12, -, -, -, -⟩
  have hg2 : Grows e s s2 [b] := hg1.trans hg12
  have hroom := hg2.room b mem_cons_self
  have hspec := dotBlock_spec e.geometry i parent (e.geometry.ino_lt hi) hparent
  rw [show s1.bs = e.geometry.bs from hsys1.lays.bs]
  obtain ⟨hg3, hdat3⟩ := hg2.stage (d := dotBlock e.geometry.bs i parent) mem_cons_self hspec.1.len
  refine Post.seq (Post.of_ok (Hext.stage_run s2 b _)
    (Q := fun _ s' => s' = s2.staged b (dotBlock e.geometry.bs i parent)) rfl) ?_
  rintro _ s3 rfl
  refine Post.mono (hg3.sys.writeInode hi ?_) ?_ (fun _ _ hf => hf.elim)
  · refine { hfits with size := ?_, blocks512 := ?_, len := ?_, block := ?_ }
    · show e.geometry.bs < 2 ^ 64
      omega
    · show e.geometry.bs / 512 < 2 ^ 32
      omega
    · simp
    · intro p hp
      simp only [mem_cons, mem_replicate] at hp
      rcases hp with rfl | ⟨-, rfl⟩
      · exact hroom.lt
      · decide
  intro _ s4 hw
  have hb : (e.geometry.view s4).data b = dotBlock e.geometry.bs i parent := by
    rw [hw.data, hdat3, update_self]
  have hself := hw.self
  refine ⟨b, ⟨hw.sys, hi, ?_, ?_, ?_, nodup_singleton b, ?_⟩, ?_⟩
  · rw [hself]
    exact hkind
  · rw [hself]
    refine ⟨?_, ?_, rfl, .inl ⟨rfl, rfl⟩⟩
    · have hone := divCeil_mul (n := 1) (d := e.geometry.bs) e.geometry.bs_pos
      rw [one_mul] at hone
      exact hone.symm
    · intro b' hb'
      rw [mem_singleton.mp hb']
      exact hroom.ne_zero
  · intro b' hb'
    rw [append_nil] at hb'
    rw [mem_singleton.mp hb', hw.used]
    exact ⟨hroom, hg3.used_mem mem_cons_self⟩
  · intro b' hb'
    rw [mem_singleton.mp hb', hb]
    exact hspec.1
  · rw [View.listed, flatMap_singleton, hb]
    exact hspec.2

/-- What an entry must be. -/
structure Fit (x : DirEntry) : Prop where
  ino_pos : x.ino ≠ 0
  ino_lt : x.ino < 2 ^ 32
  name : (utf8 x.name).length < 256
  fileType : x.fileType < 256
  dot : x.name ≠ "."
  dots : x.name ≠ ".."

/-- An entry was added. -/
def Added (e : Epoch) (s : Hext Disk) (i : Nat) (ds : List Nat) (x : DirEntry) (s' : Hext Disk) : Prop :=
  ∃ ds' ps', DirAt e s' i ds' ps' ∧ ((e.geometry.view s').listed e.geometry.bs ds').Perm
    (x :: (e.geometry.view s).listed e.geometry.bs ds)

section

variable (h : DirAt e s i ds ps)

include h

theorem extendDir {x : DirEntry} (hx : Fit x) :
    Post (Hext.extendDir i ((e.geometry.view s).inode i) (utf8 x.name) x.ino x.fileType) s
      (fun _ s' => Added e s i ds x s') (fun y _ => y = .noSpace ∨ y = .tooLarge) := by
  have hi := h.ino
  have hfits := e.geometry.fits_inode s i
  have hnodup := nodup_append.mp h.nodup
  refine Post.get ?_
  refine Post.bind (h.sys.growBlock _) (fun y s1 hy => .inl hy.1) ?_
  rintro b s1 ⟨hg1, -, -, -, -⟩
  have hspec := entryBlock_spec e.geometry x.name x.ino x.fileType hx.ino_pos hx.ino_lt hx.name hx.fileType hx.dot hx.dots
  rw [show s.bs = e.geometry.bs from h.sys.lays.bs]
  obtain ⟨hg2, hdat2⟩ := hg1.stage (d := putEntry (zeros e.geometry.bs) 0 x.ino e.geometry.bs x.fileType (utf8 x.name))
    mem_cons_self hspec.1.len
  refine Post.seq (Post.of_ok (Hext.stage_run s1 b _) (Q := fun _ s' => s' = s1.staged b _) rfl) ?_
  rintro _ s2 rfl
  generalize s1.staged b (putEntry (zeros e.geometry.bs) 0 x.ino e.geometry.bs x.fileType (utf8 x.name)) = s2
    at hg2 hdat2 ⊢
  have hbfree : (e.geometry.view s).used b = false := hg2.free b mem_cons_self
  have hbnot : b ∉ ds ++ ps := by
    intro hmem
    rw [(h.room b hmem).2] at hbfree
    cases hbfree
  rw [mem_append, not_or] at hbnot
  have hptr : ∀ p ∈ ps, (e.geometry.view s2).data p = (e.geometry.view s).data p := by
    intro p hp
    refine hg2.data p fun hin => hbnot.2 ?_
    rw [← mem_singleton.mp hin]
    exact hp
  have hrep2 := h.rep.congr hptr
  refine Post.seq (hg2.sys.blockListSplit hrep2 (fun b' hb' => (h.room_data b' hb').1)
    (fun b' hb' => (h.room_ptrs b' hb').1)) ?_
  rintro ⟨ds₀, ps₀⟩ s2' ⟨heq, hs2, hsys2⟩
  obtain ⟨rfl, rfl⟩ := Prod.mk.inj heq
  have hg2' : Grows e s s2' [b] := by
    have hgrow := hg2.trans (Grows.of_same hs2 hsys2)
    rwa [append_nil] at hgrow
  dsimp only
  refine Post.seq (hsys2.freeAll (fun b' hb' => (h.room_ptrs b' hb').1)) ?_
  intro _ s3 hf
  have hroom3 : ∀ b' ∈ ds₀ ++ [b], e.geometry.Room b' := by
    intro b' hb'
    rcases mem_append.mp hb' with hmem | hmem
    · exact (h.room_data b' hmem).1
    · exact hg2'.room b' hmem
  refine Post.bind (hf.sys.buildPointers hroom3) ?_ ?_
  · rintro y s4 (⟨rfl, -⟩ | ⟨rfl, -⟩)
    · exact .inl rfl
    · exact .inr rfl
  rintro ⟨n, k⟩ s4 ⟨ps', hp⟩
  dsimp only
  refine Post.get ?_
  obtain ⟨block, rfl⟩ : ∃ block, n = { (e.geometry.view s).inode i with block } := ⟨_, hp.record⟩
  have hlen : ds₀.length + 1 ≤ 2 ^ 32 := by
    have hle := e.geometry.length_le (m := b :: ds₀) (nodup_cons.mpr ⟨hbnot.1, hnodup.1⟩) ?_
    · rwa [length_cons] at hle
    · intro b' hb'
      rcases mem_cons.mp hb' with rfl | hmem
      · exact hg2'.room b' mem_cons_self
      · exact (h.room_data b' hmem).1
  rw [show s4.bs = e.geometry.bs from hp.grows.sys.lays.bs]
  refine Post.mono (hp.grows.sys.writeInode hi ?_) ?_ (fun _ _ hf => hf.elim)
  · refine { hfits with
      size := ?_
      mtime := hp.grows.sys.now_lt
      blocks512 := Nat.mod_lt _ (by decide)
      len := hp.len
      block := hp.lt }
    have hmul := Nat.mul_le_mul hlen e.geometry.bs_lt.le
    have hpow : (2 : Nat) ^ 32 * 2 ^ 16 < 2 ^ 64 := by decide
    exact lt_of_le_of_lt hmul hpow
  intro _ s5 hw
  obtain ⟨htrades, hnew⟩ := hg2'.trades hf hp.grows hbnot.2
  rw [view_same hs2, hdat2, update_self] at hnew
  have hgrown : DirAt e s5 i (ds₀ ++ [b]) ps' ∧ (e.geometry.view s5).listed e.geometry.bs (ds₀ ++ [b]) =
      (e.geometry.view s).listed e.geometry.bs ds₀ ++ blockEntries e.geometry.bs ((e.geometry.view s4).data b) := by
    refine h.grow htrades ?_ ?_ hw h.kind
    · rw [hnew]
      exact hspec.1
    · refine hp.rep _ rfl ?_
      rw [divCeil_mul e.geometry.bs_pos, length_append, length_singleton]
  refine ⟨_, _, hgrown.1, ?_⟩
  rw [hgrown.2, hnew, hspec.2]
  exact perm_append_comm

/-- One block was replaced, which changes the entries of that block only. -/
theorem edited {b : Nat} {d : Bytes} (hb : b ∈ ds) (hd : DirBlock e.geometry.bs d)
    (hedit : Edits e s b d s') :
    DirAt e s' i ds ps ∧ ∃ l₁ l₂,
      (e.geometry.view s).listed e.geometry.bs ds = l₁ ++ blockEntries e.geometry.bs ((e.geometry.view s).data b) ++ l₂ ∧
      (e.geometry.view s').listed e.geometry.bs ds = l₁ ++ blockEntries e.geometry.bs d ++ l₂ := by
  have hview := hedit.view
  have hnodup := nodup_append.mp h.nodup
  have hother : ∀ b', b' ≠ b → (e.geometry.view s').data b' = (e.geometry.view s).data b' := by
    intro b' hne
    rw [hview]
    exact update_of_ne hne _ _
  have hself : (e.geometry.view s').data b = d := by
    rw [hview]
    exact update_self _ _ _
  refine ⟨⟨hedit.sys, h.ino, ?_, ?_, ?_, h.nodup, ?_⟩, ?_⟩
  · rw [hview]
    exact h.kind
  · have hrep : InodeRep (e.geometry.view s').data e.geometry.bs ((e.geometry.view s).inode i) ds ps := by
      refine h.rep.congr fun p hp => hother p ?_
      rintro rfl
      exact hnodup.2.2 p hb p hp rfl
    rw [hview] at hrep ⊢
    exact hrep
  · rw [hview]
    exact h.room
  · intro b' hb'
    by_cases hbb : b' = b
    · rw [hbb, hself]
      exact hd
    · rw [hother b' hbb]
      exact h.blocks b' hb'
  · obtain ⟨d₁, d₂, rfl⟩ := append_of_mem hb
    have hnot := nodup_append.mp hnodup.1
    have hleft : (e.geometry.view s').listed e.geometry.bs d₁ = (e.geometry.view s).listed e.geometry.bs d₁ := by
      refine View.listed_congr fun b' hb' => hother b' ?_
      rintro rfl
      exact hnot.2.2 b' hb' b' mem_cons_self rfl
    have hright : (e.geometry.view s').listed e.geometry.bs d₂ = (e.geometry.view s).listed e.geometry.bs d₂ := by
      refine View.listed_congr fun b' hb' => hother b' ?_
      rintro rfl
      exact (nodup_cons.mp hnot.2.1).1 hb'
    refine ⟨(e.geometry.view s).listed e.geometry.bs d₁, (e.geometry.view s).listed e.geometry.bs d₂, ?_, ?_⟩
    · rw [View.listed, flatMap_append, flatMap_cons, ← append_assoc]
      rfl
    · rw [View.listed, flatMap_append, flatMap_cons, hself, ← append_assoc]
      exact congrArg₂ (fun l₁ l₂ => l₁ ++ blockEntries e.geometry.bs d ++ l₂) hleft hright

theorem addEntry {x : DirEntry} (hx : Fit x) :
    Post (Hext.addEntry i x.name x.ino x.fileType) s (fun _ s' => Added e s i ds x s')
      (fun y _ => y = .noSpace ∨ y = .tooLarge) := by
  refine Post.seq h.readInode ?_
  rintro n s1 ⟨rfl, hs1, h1⟩
  have hv1 := view_same (G := e.geometry) hs1
  rw [← hv1]
  refine Post.seq h1.blockList ?_
  rintro blocks s2 ⟨rfl, hs2, h2⟩
  have hv2 := (view_same (G := e.geometry) hs2).trans hv1
  refine Post.seq (h2.sys.addToBlocks h2.room_data h2.blocks hx.ino_pos hx.ino_lt hx.name hx.fileType hx.dot hx.dots) ?_
  rintro done s3 (⟨rfl, hs3, hsys3⟩ | ⟨rfl, b, hb, d, es₁, es₂, hedit, hd, hold, hnew⟩)
  · have h3 := h2.same hs3 hsys3
    have hv3 := (view_same (G := e.geometry) hs3).trans hv2
    rw [if_neg Bool.false_ne_true, hv1, ← hv3]
    refine (h3.extendDir hx).mono ?_ (fun _ _ hy => hy)
    rintro _ s4 ⟨ds', ps', hdir, hperm⟩
    rw [hv3] at hperm
    exact ⟨ds', ps', hdir, hperm⟩
  · rw [if_pos rfl]
    obtain ⟨hdir, l₁, l₂, hl, hl'⟩ := h2.edited hb hd hedit
    refine Post.pure ⟨_, _, hdir, ?_⟩
    rw [hl', hnew, ← hv2, hl, hold, append_assoc l₁, append_assoc l₁, append_assoc es₁,
      append_assoc es₁, ← append_assoc l₁ es₁, ← append_assoc l₁ es₁]
    exact perm_middle

/-- An entry was taken out, or there was none of that name. -/
theorem removeEntry {name : String} (hdot : name ≠ ".") (hdots : name ≠ "..") :
    Post (Hext.removeEntry i name) s
      (fun _ s' => DirAt e s' i ds ps ∧ ∃ y, y.name = name ∧ ((e.geometry.view s).listed e.geometry.bs ds).Perm
        (y :: (e.geometry.view s').listed e.geometry.bs ds))
      (fun x s' => x = .notFound ∧ DirAt e s' i ds ps ∧
        (e.geometry.view s').listed e.geometry.bs ds = (e.geometry.view s).listed e.geometry.bs ds ∧
        name ∉ ((e.geometry.view s).listed e.geometry.bs ds).map DirEntry.name) := by
  refine Post.seq h.readInode ?_
  rintro n s1 ⟨rfl, hs1, h1⟩
  have hv1 := view_same (G := e.geometry) hs1
  rw [← hv1]
  refine Post.seq h1.blockList ?_
  rintro blocks s2 ⟨rfl, hs2, h2⟩
  have hv2 := view_same (G := e.geometry) hs2
  rw [← hv2]
  refine (h2.sys.removeFromBlocks h2.room_data h2.blocks hdot hdots).mono ?_ ?_
  · rintro _ s3 ⟨b, hb, d, es₁, y, es₂, hedit, hd, hold, hy, hnew⟩
    obtain ⟨hdir, l₁, l₂, hl, hl'⟩ := h2.edited hb hd hedit
    refine ⟨hdir, y, hy, ?_⟩
    rw [hl', hnew, hl, hold, append_assoc l₁, append_assoc l₁, append_assoc es₁,
      append_assoc es₁, ← append_assoc l₁ es₁, ← append_assoc l₁ es₁]
    exact perm_middle
  · rintro x s3 ⟨rfl, hs3, hsys3, hout⟩
    have hv3 := view_same (G := e.geometry) hs3
    refine ⟨rfl, h2.same hs3 hsys3, by rw [hv3], fun hmem => ?_⟩
    obtain ⟨x, hx, hname⟩ := mem_map.mp hmem
    obtain ⟨b, hb, hxb⟩ := mem_flatMap.mp hx
    exact hout b hb x hxb hname

end

end DirAt

/-! ### Runs -/

/-- What is done to a directory. -/
inductive DirOp
  | add (x : DirEntry)
  | remove (name : String)

/-- A directory as a map from names to inodes and types. -/
abbrev DirMap := String → Option (Nat × Nat)

namespace DirOp

/-- One operation; a name that is not there is answered, and the run goes on. -/
def run (dir : Nat) : DirOp → HextM Disk Unit
  | add x => addEntry dir x.name x.ino x.fileType
  | remove name => fun s =>
    match removeEntry dir name s with
    | .error .notFound s' => .ok () s'
    | r => r

/-- What it does to the map. -/
def apply (m : DirMap) : DirOp → DirMap
  | add x => Function.update m x.name (some (x.ino, x.fileType))
  | remove name => Function.update m name none

/-- A new name of at most 255 bytes for an inode, or any name to take out; the two fixed names are
    left alone. -/
def Legal (m : DirMap) : DirOp → Prop
  | add x => m x.name = none ∧ (utf8 x.name).length ≤ 255 ∧ x.name ≠ "." ∧ x.name ≠ ".." ∧
      x.ino ≠ 0 ∧ x.ino < 2 ^ 32 ∧ x.fileType < 256
  | remove name => name ≠ "." ∧ name ≠ ".."

end DirOp

/-- Every operation is legal where it is done. -/
def LegalRun : DirMap → List DirOp → Prop
  | _, [] => True
  | m, op :: ops => op.Legal m ∧ LegalRun (op.apply m) ops

/-- The list of entries stands for the map. -/
abbrev Stands (m : DirMap) (es : List DirEntry) : Prop :=
  Lists DirEntry.name (fun x => (x.ino, x.fileType)) m es

/-- One operation on a directory does to its entries what it does to the map. -/
theorem DirOp.step {e : Epoch} {s : Hext Disk} {i : Nat} {ds ps : List Nat} {m : DirMap} (h : DirAt e s i ds ps)
    (hm : Stands m ((e.geometry.view s).listed e.geometry.bs ds)) {op : DirOp} (hop : op.Legal m) :
    Post (op.run i) s
      (fun _ s' => ∃ ds' ps', DirAt e s' i ds' ps' ∧ Stands (op.apply m) ((e.geometry.view s').listed e.geometry.bs ds'))
      (fun x _ => x = .noSpace ∨ x = .tooLarge) := by
  cases op with
  | add x =>
    obtain ⟨hnew, hlen, hdot, hdots, hpos, hlt, hft⟩ := hop
    refine (h.addEntry ⟨hpos, hlt, by omega, hft, hdot, hdots⟩).mono ?_ (fun _ _ hy => hy)
    rintro _ s' ⟨ds', ps', hdir, hperm⟩
    exact ⟨ds', ps', hdir, hm.insert hnew hperm⟩
  | remove name =>
    obtain ⟨hdot, hdots⟩ := hop
    have hrun := h.removeEntry hdot hdots
    unfold Post DirOp.run
    dsimp only
    cases hr : Hext.removeEntry i name s with
    | ok a s' =>
      obtain ⟨hdir, y, rfl, hperm⟩ := hrun.ok hr
      exact ⟨ds, ps, hdir, hm.erase hperm⟩
    | error x s' =>
      obtain ⟨rfl, hdir, hsame, habsent⟩ := hrun.error hr
      refine ⟨ds, ps, hdir, ?_⟩
      rw [hsame, DirOp.apply, update_eq_self_iff.mpr ((hm.none_iff name).mpr habsent).symm]
      exact hm

theorem DirOp.steps {e : Epoch} {s : Hext Disk} {i : Nat} {ds ps : List Nat} {m : DirMap} (h : DirAt e s i ds ps)
    (hm : Stands m ((e.geometry.view s).listed e.geometry.bs ds)) {ops : List DirOp} (hops : LegalRun m ops) :
    Post (ops.forM (DirOp.run i)) s
      (fun _ s' => ∃ ds' ps', DirAt e s' i ds' ps' ∧
        Stands (ops.foldl DirOp.apply m) ((e.geometry.view s').listed e.geometry.bs ds'))
      (fun x _ => x = .noSpace ∨ x = .tooLarge) := by
  induction ops generalizing s m ds ps with
  | nil => exact Post.pure ⟨ds, ps, h, hm⟩
  | cons op ops ih =>
    refine Post.bind (DirOp.step h hm hops.1) (fun _ _ hx => hx) ?_
    rintro _ s1 ⟨ds1, ps1, h1, hm1⟩
    exact ih h1 hm1 hops.2

end HamixOS.HextFs
