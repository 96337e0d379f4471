import HamixOS.HextFs.Grow

namespace HamixOS.HextFs

open Lib Hext List Function Nat Grows

/-!
# Building pointer trees

`Sys.buildLevel` and `Sys.buildPointers`: the trees built over a list of blocks have exactly that
list as their data blocks, use new blocks only, and are what `Sys.blockListSplit` reads back.
-/

theorem Geometry.bs_mod_four (G : Geometry) : G.bs % 4 = 0 := by
  rcases G.shape with ⟨h, -⟩ | ⟨h, -⟩ <;> rw [h]

theorem Geometry.per_pos (G : Geometry) : 0 < G.bs / 4 := by
  rcases G.shape with ⟨h, -⟩ | ⟨h, -⟩ <;> rw [h] <;> omega

/-- The content of a pointer block. -/
theorem Geometry.table {G : Geometry} {vs : List Nat} (hlen : vs.length ≤ G.bs / 4)
    (hroom : ∀ v ∈ vs, G.Room v) :
    (putWords (zeros G.bs) 0 vs).length = G.bs ∧
      (words (putWords (zeros G.bs) 0 vs)).takeWhile (· ≠ 0) = vs := by
  constructor
  · rw [length_putWords (by rw [length_zeros]; omega), length_zeros]
  · rw [words_putWords (by omega) G.bs_mod_four (fun v hv => (hroom v hv).lt)]
    exact takeWhile_append_zeros (fun v hv => (hroom v hv).ne_zero) _

namespace Sys

variable {e : Epoch} {s : Hext Disk}

/-- A tree built over a list of blocks. -/
structure Built (e : Epoch) (s s' : Hext Disk) (depth : Nat) (blocks : List Nat) (root n : Nat)
    (ps : List Nat) : Prop where
  grows : Grows e s s' ps
  tree : TreeRep (e.geometry.view s').data depth root blocks ps
  count : n = ps.length

variable {direct : Bool}

/-- The children of a level: the trees over the parts of the list, in order. -/
theorem buildKids (h : Sys e s) {below : Nat} {cs : List (List Nat)}
    (hcs : ∀ c ∈ cs, c ≠ [] ∧ c.length ≤ (e.geometry.bs / 4) ^ (below + 1) ∧ ∀ b ∈ c, e.geometry.Room b)
    (hlevel : ∀ (t : Hext Disk), Sys e t → ∀ c ∈ cs, Post (Hext.buildLevel direct below c) t
      (fun r t' => ∃ ps, Built e t t' (below + 1) c r.1 r.2 ps) (Starved e t)) :
    Post (cs.mapM (fun c => Hext.buildLevel direct below c)) s
      (fun rs s' => ∃ kids : List (Nat × List Nat × List Nat),
        Grows e s s' (kids.map (fun k => k.2.2)).flatten ∧
        (∀ k ∈ kids, TreeRep (e.geometry.view s').data (below + 1) k.1 k.2.1 k.2.2) ∧
        rs.map Prod.fst = kids.map (fun k => k.1) ∧ kids.map (fun k => k.2.1) = cs ∧
        (rs.map Prod.snd).sum = (kids.map (fun k => k.2.2)).flatten.length)
      (Starved e s) := by
  induction cs generalizing s with
  | nil =>
    exact Post.pure ⟨[], of_same (Same.refl s) h, by simp, rfl, rfl, rfl⟩
  | cons c cs ih =>
    rw [mapM_cons]
    refine Post.bind (hlevel s h c (by simp)) (fun _ _ hx => hx) ?_
    rintro r s1 ⟨ps, hb⟩
    refine Post.bind (ih hb.grows.sys (fun c' hc' => hcs c' (by simp [hc']))
      (fun t ht c' hc' => hlevel t ht c' (by simp [hc']))) (fun x s' hx => hx.of_grows hb.grows) ?_
    rintro rs s2 ⟨kids, hg, htrees, hroots, hparts, hsum⟩
    refine Post.pure ⟨(r.1, c, ps) :: kids, ?_, ?_, ?_, ?_, ?_⟩
    · simpa using hb.grows.trans hg
    · intro k hk
      rcases mem_cons.mp hk with rfl | hk
      · -- the blocks of the first tree were taken before the others
        refine hb.tree.congr ?_
        intro p hp
        exact hg.data p (hg.not_mem (hb.grows.used_mem hp))
      · exact htrees k hk
    · simp [hroots]
    · simp [hparts]
    · simp [hsum, hb.count]

variable {blocks : List Nat}

theorem buildLevel (h : Sys e s) {below : Nat}
    (hne : blocks ≠ []) (hlen : blocks.length ≤ (e.geometry.bs / 4) ^ (below + 1))
    (hroom : ∀ b ∈ blocks, e.geometry.Room b) :
    Post (Hext.buildLevel direct below blocks) s
      (fun r s' => ∃ ps, Built e s s' (below + 1) blocks r.1 r.2 ps) (Starved e s) := by
  induction below generalizing s blocks with
  | zero =>
    rw [zero_add, pow_one] at hlen
    obtain ⟨htlen, htwords⟩ := e.geometry.table hlen hroom
    rw [Hext.buildLevel]
    refine Post.get ?_
    refine Post.bind (h.growBlock _) (fun _ _ hx => hx) ?_
    rintro t s1 ⟨hg1, hc1, -, -, -⟩
    rw [h.lays.bs]
    refine Post.seq (hg1.putTable direct (by simp) htlen hc1) ?_
    rintro - s2 ⟨hg2, hdata⟩
    have ht : e.geometry.Room t := hg1.room t (by simp)
    refine Post.pure ⟨[t], hg2, ?_, rfl⟩
    refine ⟨ht.ne_zero, blocks.map (fun b => (b, [b], [])), by simpa using hne, ?_, ?_, ?_, ?_⟩
    · intro k hk
      obtain ⟨b, hb, rfl⟩ := mem_map.mp hk
      exact ⟨(hroom b hb).ne_zero, rfl, rfl⟩
    · rw [hdata, update_self, htwords, map_map]
      exact (map_id blocks).symm
    · rw [map_map]
      show blocks = (blocks.map (fun b => [b])).flatten
      rw [← flatMap_def]
      exact (flatMap_singleton' blocks).symm
    · simp
  | succ below ih =>
    have hper := e.geometry.per_pos
    have hspan : 0 < (e.geometry.bs / 4) ^ (below + 1) := Nat.pow_pos hper
    have hcs : ∀ c ∈ chunks ((e.geometry.bs / 4) ^ (below + 1)) blocks, c ≠ [] ∧
        c.length ≤ (e.geometry.bs / 4) ^ (below + 1) ∧ ∀ b ∈ c, e.geometry.Room b := by
      intro c hc
      obtain ⟨h1, h2, h3⟩ := mem_chunks hspan hc
      exact ⟨h1, h2, fun b hb => hroom b (h3 b hb)⟩
    rw [Hext.buildLevel]
    refine Post.get ?_
    refine Post.bind (h.growBlock _) (fun _ _ hx => hx) ?_
    rintro t s1 ⟨hg1, hc1, -, -, -⟩
    rw [h.lays.bs]
    refine Post.bind (hg1.sys.buildKids hcs (fun u hu c hc => ih hu (hcs c hc).1 (hcs c hc).2.1
      (hcs c hc).2.2)) (fun x s' hx => hx.of_grows hg1) ?_
    rintro rs s2 ⟨kids, hg2, htrees, hroots, hparts, hsum⟩
    have hg := hg1.trans hg2
    have ht : e.geometry.Room t := hg1.room t (by simp)
    have htm : t ∉ (kids.map (fun k => k.2.2)).flatten := by
      have hnd := hg.nodup
      rw [singleton_append, nodup_cons] at hnd
      exact hnd.1
    have hc2 : s2.cache[t]? = none := by
      rw [hg2.cache t ht htm]
      exact hc1
    have hklen : (rs.map Prod.fst).length ≤ e.geometry.bs / 4 := by
      have hcount : (chunks ((e.geometry.bs / 4) ^ (below + 1)) blocks).length
          ≤ e.geometry.bs / 4 := by
        apply length_chunks_le
        rw [← Nat.pow_succ']
        exact hlen
      rw [hroots, length_map, ← hparts, length_map] at *
      exact hcount
    have hkroom : ∀ v ∈ rs.map Prod.fst, e.geometry.Room v := by
      intro v hv
      rw [hroots] at hv
      obtain ⟨k, hk, rfl⟩ := mem_map.mp hv
      apply hg2.room
      exact mem_flatten.mpr ⟨k.2.2, mem_map.mpr ⟨k, hk, rfl⟩, (htrees k hk).root_mem⟩
    obtain ⟨htlen, htwords⟩ := e.geometry.table hklen hkroom
    refine Post.seq (hg.putTable direct (by simp) htlen hc2) ?_
    rintro - s3 ⟨hg3, hdata⟩
    refine Post.pure ⟨[t] ++ (kids.map (fun k => k.2.2)).flatten, hg3, ?_, ?_⟩
    · refine ⟨ht.ne_zero, kids, ?_, ?_, ?_, ?_, rfl⟩
      · intro hnil
        rw [hnil] at hparts
        exact chunks_ne_nil hne hparts.symm
      · intro k hk
        refine (htrees k hk).congr ?_
        intro p hp
        rw [hdata, update_of_ne]
        rintro rfl
        exact htm (mem_flatten.mpr ⟨k.2.2, mem_map.mpr ⟨k, hk, rfl⟩, hp⟩)
      · rw [hdata, update_self, htwords, hroots]
      · rw [hparts, flatten_chunks hspan]
    · show 1 + (rs.map Prod.snd).sum = _
      rw [hsum, length_append, length_singleton]

/-- Building stopped: out of space, or more blocks than an inode can name. -/
def BuildFails (e : Epoch) (s : Hext Disk) (x : Error) (s' : Hext Disk) : Prop :=
  Starved e s x s' ∨ (x = .tooLarge ∧ ∃ m, Grows e s s' m)

theorem buildSlots (h : Sys e s) {slots : List (Nat × Nat)} {block rest : List Nat}
    {used : Nat} (hnd : (slots.map Prod.fst).Nodup) (hdepth : ∀ x ∈ slots, 1 ≤ x.2)
    (hslot : ∀ x ∈ slots, x.1 < block.length) (hroom : ∀ b ∈ rest, e.geometry.Room b) :
    Post (Hext.buildSlots direct slots block rest used) s
      (fun r s' => ∃ ps, Grows e s s' ps ∧ r.2.2 = used + ps.length ∧
        r.1.length = block.length ∧ (∀ b ∈ r.1, b ∈ block ∨ b < 2 ^ 32) ∧
        (∀ j, j ∉ slots.map Prod.fst → r.1[j]? = block[j]?) ∧
        r.2.1 = rest.drop (slots.map fun x => (e.geometry.bs / 4) ^ x.2).sum ∧
        (r.2.1 = [] → SlotsRep (e.geometry.view s').data r.1 slots rest ps))
      (Starved e s) := by
  induction slots generalizing s block rest used with
  | nil =>
    refine Post.pure ⟨[], of_same (Same.refl s) h, rfl, rfl, fun b hb => .inl hb, fun _ _ => rfl, rfl, ?_⟩
    intro hnil
    exact ⟨hnil, rfl⟩
  | cons x slots ih =>
    obtain ⟨slot, depth⟩ := x
    rw [Hext.buildSlots]
    by_cases hempty : rest.isEmpty = true
    · rw [if_pos hempty]
      refine Post.pure ⟨[], of_same (Same.refl s) h, rfl, rfl, fun b hb => .inl hb, fun _ _ => rfl, ?_, ?_⟩
      · rw [isEmpty_iff.mp hempty]
        exact drop_nil.symm
      · intro hnil
        exact .inl ⟨hnil, rfl⟩
    · rw [if_neg hempty]
      refine Post.get ?_
      rw [h.lays.bs]
      have hne : rest ≠ [] := by
        intro hnil
        rw [hnil] at hempty
        exact hempty rfl
      have hd : 1 ≤ depth := hdepth (slot, depth) (by simp)
      have hcap : 0 < (e.geometry.bs / 4) ^ depth := Nat.pow_pos e.geometry.per_pos
      have hpos := length_pos_of_ne_nil hne
      set take := min rest.length ((e.geometry.bs / 4) ^ depth) with htake
      have htne : rest.take take ≠ [] := by
        intro hnil
        have hlen := congrArg length hnil
        simp only [length_take, length_nil] at hlen
        omega
      have htlen : (rest.take take).length ≤ (e.geometry.bs / 4) ^ (depth - 1 + 1) := by
        rw [length_take, Nat.sub_add_cancel hd]
        omega
      refine Post.bind (h.buildLevel htne htlen (fun b hb => hroom b (mem_of_mem_take hb)))
        (fun _ _ hx => hx) ?_
      rintro ⟨root, n⟩ s1 ⟨ps₁, hb⟩
      have htree := hb.tree
      rw [Nat.sub_add_cancel hd] at htree
      obtain ⟨hnot, hnd'⟩ := nodup_cons.mp hnd
      refine (ih hb.grows.sys hnd' (fun y hy => hdepth y (by simp [hy]))
        (fun y hy => by rw [length_set]; exact hslot y (by simp [hy]))
        (fun b hb' => hroom b (mem_of_mem_drop hb'))).mono ?_
        (fun x s' hx => hx.of_grows hb.grows)
      rintro ⟨block', rest', used'⟩ s2 ⟨ps₂, hg, hused, hlen, hmem, hother, hleft, hslots⟩
      have hroot : e.geometry.Room root := by
        apply hb.grows.room
        have hdd : depth = depth - 1 + 1 := by omega
        rw [hdd] at htree
        exact htree.root_mem
      refine ⟨ps₁ ++ ps₂, hb.grows.trans hg, ?_, ?_, ?_, ?_, ?_, ?_⟩
      · have hc := hb.count
        simp only [length_append] at hused hc ⊢
        omega
      · rw [hlen, length_set]
      · intro b hb'
        rcases hmem b hb' with hin | hlt
        · rcases mem_or_eq_of_mem_set hin with hin | rfl
          · exact .inl hin
          · exact .inr hroot.lt
        · exact .inr hlt
      · intro j hj
        simp only [map_cons, mem_cons, not_or] at hj
        rw [hother j hj.2, getElem?_set_ne (Ne.symm hj.1)]
      · rw [hleft, drop_drop, map_cons, sum_cons]
        dsimp only
        by_cases hle : rest.length ≤ (e.geometry.bs / 4) ^ depth
        · -- the slot takes all that is left
          rw [drop_eq_nil_of_le (by omega), drop_eq_nil_of_le (by omega)]
        · rw [show take = (e.geometry.bs / 4) ^ depth by omega]
      · intro hnil
        right
        refine ⟨rest.take take, ps₁, rest.drop take, ps₂, ?_, hslots hnil,
          (take_append_drop take rest).symm, rfl⟩
        have hget : block'.getD slot 0 = root := by
          have hs := hslot (slot, depth) (by simp)
          rw [getD_eq_getElem?_getD, hother slot hnot, getElem?_set_self hs]
          rfl
        rw [hget]
        refine htree.congr ?_
        intro p hp
        exact hg.data p (hg.not_mem (hb.grows.used_mem hp))

/-- What `buildPointers` returns for a list of blocks. -/
structure Pointed (e : Epoch) (s : Hext Disk) (n : Inode) (blocks : List Nat) (n' : Inode)
    (count : Nat) (s' : Hext Disk) (ps : List Nat) : Prop where
  grows : Grows e s s' ps
  record : n' = { n with block := n'.block }
  len : n'.block.length = 15
  lt : ∀ b ∈ n'.block, b < 2 ^ 32
  count : count = ps.length
  rep : ∀ n'' : Inode, n''.block = n'.block → blocks.length = divCeil n''.size e.geometry.bs →
    InodeRep (e.geometry.view s').data e.geometry.bs n'' blocks ps

/-- It succeeds for as many blocks as the slots can take, and is too large only for more. -/
theorem buildPointers_spec (h : Sys e s) {n : Inode}
    (hroom : ∀ b ∈ blocks, e.geometry.Room b) :
    Post (Hext.buildPointers n blocks direct) s
      (fun r s' => (∃ ps, Pointed e s n blocks r.1 r.2 s' ps) ∧
        (blocks.drop 12).length ≤ (pointerSlots.map fun x => (e.geometry.bs / 4) ^ x.2).sum)
      (fun x s' => BuildFails e s x s' ∧
        (x = .tooLarge → (pointerSlots.map fun x => (e.geometry.bs / 4) ^ x.2).sum < (blocks.drop 12).length)) := by
  have hlen : (blocks.take 12 ++ replicate (15 - (blocks.take 12).length) 0).length = 15 := by
    simp only [length_append, length_take, length_replicate]
    omega
  have hslot : ∀ x ∈ pointerSlots,
      x.1 < (blocks.take 12 ++ replicate (15 - (blocks.take 12).length) 0).length := by
    rw [hlen]
    decide
  have hnd : (pointerSlots.map Prod.fst).Nodup := by decide
  refine Post.bind (h.buildSlots hnd (by decide) hslot
    (fun b hb => hroom b (mem_of_mem_drop hb))) (fun x s' hx => ⟨.inl hx, fun heq => ?_⟩) ?_
  · rw [hx.1] at heq
    cases heq
  · rintro ⟨block', rest', used'⟩ s1 ⟨ps, hg, hused, hblen, hmem, hother, hleft, hslots⟩
    simp only []
    by_cases hempty : rest'.isEmpty = true
    · rw [if_pos hempty]
      have hnil : rest' = [] := isEmpty_iff.mp hempty
      refine Post.pure ⟨⟨ps, hg, rfl, by rw [← hlen]; exact hblen, ?_, ?_, ?_⟩,
        drop_eq_nil_iff.mp (hleft.symm.trans hnil)⟩
      · intro b hb
        rcases hmem b hb with hin | hlt
        · rcases mem_append.mp hin with hin | hin
          · exact (hroom b (mem_of_mem_take hin)).lt
          · rw [eq_of_mem_replicate hin]
            omega
        · exact hlt
      · simpa using hused
      · intro n'' hblock hsize
        refine ⟨hsize, fun b hb => (hroom b hb).ne_zero, ?_, ?_⟩
        · -- the slots of the trees lie behind the direct pointers
          rw [hblock]
          apply ext_getElem?
          intro j
          rw [getElem?_take, getElem?_take]
          by_cases hj : j < 12
          · have hjs : j ∉ pointerSlots.map Prod.fst := by
              intro hin
              simp only [pointerSlots, map_cons, map_nil, mem_cons, not_mem_nil, or_false] at hin
              omega
            rw [if_pos hj]
            by_cases hjl : j < blocks.length
            · rw [if_pos (by omega)]
              have hval : block'[j]? = _ := hother j hjs
              show block'[j]? = blocks[j]?
              rw [hval, getElem?_append_left (by rw [length_take]; omega), getElem?_take, if_pos hj]
            · rw [if_neg (by omega), getElem?_eq_none (by omega)]
          · rw [if_neg (by omega), if_neg hj]
        · rw [hblock]
          exact hslots hnil
    · rw [if_neg hempty]
      -- blocks are left that none of the three slots took
      refine Post.throw ⟨.inr ⟨rfl, ps, hg⟩, fun _ => Nat.lt_of_not_le fun hle => hempty ?_⟩
      exact isEmpty_iff.mpr (hleft.trans (drop_eq_nil_of_le hle))

theorem buildPointers (h : Sys e s) {n : Inode}
    (hroom : ∀ b ∈ blocks, e.geometry.Room b) :
    Post (Hext.buildPointers n blocks direct) s
      (fun r s' => ∃ ps, Pointed e s n blocks r.1 r.2 s' ps) (BuildFails e s) :=
  (h.buildPointers_spec hroom).mono (fun _ _ hr => hr.1) fun _ _ hx => hx.1

end Sys

end HamixOS.HextFs
