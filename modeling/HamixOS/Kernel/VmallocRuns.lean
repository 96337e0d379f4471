import HamixOS.Kernel.VmallocBlocks

namespace HamixOS.Kernel.Vmalloc

open Lib List Option Bool Nat Block

/-!
# Runs of the vmalloc area

* `Inv.alloc`, `Inv.free`, `Inv.grow` — what a call does to the blocks and the ranges, whether it succeeds or not;
* `run_sound` — in every state of every run the ranges are apart, each block has exactly its first pages mapped, a failed
  `grow` changes nothing, and no other CPU has old entries of a range that is handed out.
-/

variable {A : Area} {s s₁ : State} {cpu start pages : Nat} {retired : Retired} {live rest : List Block} {b : Block} {env : Env}

structure Inv (A : Area) (s : State) (retired : Retired) (live : List Block) : Prop where
  space : Space A s retired (live.map Block.span)
  blocks : Blocks s.table s.memory live

/-- The state with the same blocks and ranges. -/
structure Same (s s' : State) : Prop where
  table : s'.table = s.table
  memory : s'.memory = s.memory
  epoch : s'.epoch = s.epoch

namespace Inv

/-- Nothing is mapped above the bump pointer. -/
theorem none_above (h : Inv A s retired live) {a : Nat} (ha : A.base + s.next ≤ a) : s.table a = none := by
  rw [← not_isSome_iff_eq_none, h.blocks.mapped_iff]
  rintro ⟨b, hb, hpage⟩
  have hin := h.space.ranges.inside b.span (mem_append_left _ (mem_map_of_mem hb))
  have hpage := hpage.inside (h.blocks.shape b hb).2.2.1
  omega

theorem apart_of_taken (ht : Taken A s s₁ retired (live.map span) start pages) (hb : b ∈ live) :
    Apart (start, pages * pageSize) b.span :=
  (pairwise_cons.mp ht.space.ranges.apart).1 _ (mem_append_left _ (mem_map_of_mem hb))

/-- Nothing is mapped in a range that is taken. -/
theorem none_of_taken (h : Inv A s retired live)
    (ht : Taken A s s₁ retired (live.map span) start pages ∨ Wrapped A s s₁ start pages) {p : Nat} (hp : p < pages) :
    s.table (pageAt start p) = none := by
  rcases ht with ht | hw
  · refine h.blocks.none_of_apart (r := (start, pages * pageSize)) ?_ fun b hb => apart_of_taken ht hb
    unfold pageAt pageSize
    omega
  · refine h.none_above ?_
    rw [hw.start_eq]
    exact le_add_right _ _

/-- A range that was taken is given back. -/
theorem undo (h : Inv A s retired live) (hmaps : SameMaps s s₁)
    (ht : Taken A s s₁ retired (live.map span) start pages ∨ Wrapped A s s₁ start pages) (cpu : Nat) :
    Inv A (giveBack A { s₁ with table := s.table } cpu start pages 0) retired live ∧
      Same s (giveBack A { s₁ with table := s.table } cpu start pages 0) := by
  rcases ht with ht | hw
  · have hspace : Space A { s₁ with table := s.table } retired ((start, pages * pageSize) :: live.map span) :=
      ht.space.congr rfl rfl rfl rfl rfl rfl
    obtain ⟨hback, hsame⟩ := giveBack_spec hspace ht.page cpu 0
      fun a hlo hhi d hon => .inl (ht.settled a hlo hhi d hon)
    refine ⟨⟨hback, ?_⟩, hsame.table, hsame.memory.trans hmaps.memory, hsame.epoch.trans hmaps.epoch⟩
    rw [hsame.table, hsame.memory.trans hmaps.memory]
    exact h.blocks
  · have hback := giveBack_take h.space hw cpu (t := { s₁ with table := s.table }) (by rw [hw.state_eq])
    rw [hback]
    exact ⟨h, rfl, rfl, rfl⟩

end Inv

theorem memory_setMemory_self (s : State) (phys : Nat) (c : Contents) : (setMemory s phys c).memory phys = c :=
  Function.update_self ..

theorem memory_setMemory_of_ne (s : State) {phys f : Nat} (c : Contents) (h : f ≠ phys) :
    (setMemory s phys c).memory f = s.memory f :=
  Function.update_of_ne h ..

theorem pagesFor_pos (bytes : Nat) : 0 < pagesFor bytes := succ_pos _

theorem reserveFor_spec (pages : Nat) : pages < reserveFor pages ∧ 1 < reserveFor pages := by
  unfold reserveFor minSlackPages
  omega

/-- A range that wraps round has room for more pages than there are frames. -/
theorem wrapped_pages (h : Space A s retired (live.map span)) (hw : Wrapped A s s₁ start (reserveFor pages)) :
    2 ^ 42 < pages := by
  have hfits := A.fits
  have hnext := h.next_le
  have hwraps := hw.wraps
  unfold reserveFor minSlackPages pageSize at hwraps
  omega

/-- A block in front of the others. -/
theorem perm_erase (hb : b ∈ live) : live.Perm (b :: live.erase b) := perm_cons_erase hb

namespace Inv

theorem of_perm (h : Inv A s retired live) (hperm : live.Perm rest) : Inv A s retired rest :=
  ⟨h.space.of_perm (hperm.map _), h.blocks.of_perm hperm⟩

theorem alloc (h : Inv A s retired live) (henv : env.Fresh s.table) (cpu bytes : Nat) :
    (∃ s', Vmalloc.alloc A env s cpu bytes = (none, s') ∧ Inv A s' retired live ∧ Same s s') ∨
      ∃ b n s', Vmalloc.alloc A env s cpu bytes = (some (b.pointer, n), s') ∧ Inv A s' retired (b :: live) ∧
        s'.epoch = s.epoch := by
  obtain ⟨hlt, hreserved⟩ := reserveFor_spec (pagesFor bytes)
  unfold Vmalloc.alloc
  by_cases hready : ¬ s.ready
  · rw [if_pos hready]
    exact .inl ⟨s, rfl, h, rfl, rfl, rfl⟩
  rw [if_neg hready]
  dsimp only
  cases ht : take A s cpu (reserveFor (pagesFor bytes)) with
  | none => exact .inl ⟨s, rfl, h, rfl, rfl, rfl⟩
  | some r =>
    obtain ⟨start, s₁⟩ := r
    dsimp only
    obtain ⟨hmaps, htaken⟩ := take_spec h.space (by omega) ht
    rw [hmaps.table]
    have hnone : ∀ p, 0 ≤ p → p < pagesFor bytes → s.table (pageAt start p) = none :=
      fun p _ hp => h.none_of_taken htaken (by omega)
    by_cases hmap : (mapFresh env start 0 (pagesFor bytes) s.table).1 = true
    · rw [if_neg (not_not.mpr hmap)]
      have hfilled := mapFresh_done (zero_le _) hmap
      generalize (mapFresh env start 0 (pagesFor bytes) s.table).2 = table' at hfilled
      have htaken : Taken A s s₁ retired (live.map span) start (reserveFor (pagesFor bytes)) := by
        refine htaken.resolve_right fun hw => ?_
        have hlen := hfilled.length_le henv
        have hwide := wrapped_pages h.space hw
        omega
      refine .inr ⟨⟨start, pagesFor bytes, reserveFor (pagesFor bytes)⟩, _, _, rfl, ⟨?_, ?_⟩, hmaps.epoch⟩
      · exact htaken.space.congr rfl rfl rfl rfl rfl rfl
      · obtain ⟨f, hgrant, hf⟩ := hfilled.at_page 0 le_rfl (pagesFor_pos bytes)
        have hstart : table' start = some f := by simpa [pageAt] using hf
        refine h.blocks.install (g := fun p => env.grant (pageAt start p)) (fun b₂ hb₂ => hb₂)
          ⟨htaken.page, pagesFor_pos bytes, le_of_lt hlt, hreserved⟩ (fun p hp => ?_)
          (fun p q f _ _ hp hq => pageAt_inj (henv.once _ _ _ hp hq)) (fun p f _ hg _ _ a _ => henv.unused _ _ hg a)
          (fun p hp => ?_) (fun b₂ hb₂ a hpage => ?_) (fun a ha hrest => ?_) (fun f' hf' => ?_) fun f' hf' => ?_
        · obtain ⟨f, hgrant, -⟩ := hfilled.at_page p (zero_le _) hp
          exact ⟨f, hgrant, henv.lt _ _ hgrant⟩
        · obtain ⟨f, hgrant, hf⟩ := hfilled.at_page p (zero_le _) hp
          exact hf.trans hgrant.symm
        · have hnot : ¬ Block.HasPage ⟨start, pagesFor bytes, reserveFor (pagesFor bytes)⟩ a := fun hpage' =>
            hpage'.apart (le_of_lt hlt) (h.blocks.shape b₂ hb₂).2.2.1 (apart_of_taken htaken hb₂) hpage
          exact ⟨hnot, hfilled.other a fun p _ hp heq => hnot ⟨p, hp, heq⟩⟩
        · refine (hfilled.other a fun p _ hp heq => ha ⟨p, hp, heq⟩).trans ?_
          rw [← not_isSome_iff_eq_none, h.blocks.mapped_iff]
          rintro ⟨b₂, hb₂, hpage⟩
          exact hrest b₂ hb₂ hpage
        · obtain rfl := some.inj (hgrant.symm.trans hf')
          rw [hstart, getD_some]
          exact memory_setMemory_self _ _ _ ▸ ⟨rfl, rfl, rfl⟩
        · rw [hstart, getD_some, ← hmaps.memory]
          exact memory_setMemory_of_ne _ _ fun heq => hf' (heq ▸ hgrant)
    · rw [if_pos hmap, mapFresh_failed (eq_false_iff.mpr hmap) hnone]
      obtain ⟨hinv, hsame⟩ := h.undo hmaps htaken cpu
      exact .inl ⟨_, rfl, hinv, hsame⟩

/-- The pages of a block lose their frames, and its range is retired. -/
theorem retire (h : Inv A s retired (b :: rest)) (cpu : Nat) {phys : Nat} (hphys : s.table b.start = some phys) (c : Contents) :
    Inv A (Vmalloc.retire A { setMemory s phys c with table := unmapRange b.start 0 b.mapped s.table } cpu b.start b.reserved)
      (retireAt retired (s.epoch + 1) cpu b.start (b.reserved * pageSize)) rest := by
  have hapart : ∀ b₂ ∈ rest, Apart b.span b₂.span := fun b₂ hb₂ =>
    (pairwise_cons.mp h.space.ranges.apart).1 _ (mem_append_left _ (mem_map_of_mem hb₂))
  have hspace : Space A { setMemory s phys c with table := unmapRange b.start 0 b.mapped s.table } retired
      (b.span :: rest.map span) := h.space.congr rfl rfl rfl rfl rfl rfl
  obtain ⟨htable, hmemory, -⟩ := sameMaps_retire A { setMemory s phys c with
    table := unmapRange b.start 0 b.mapped s.table } cpu b.start b.reserved
  refine ⟨retire_spec hspace (h.blocks.shape b (mem_cons_self ..)).1 cpu, ?_⟩
  refine h.blocks.remove hapart (fun a ha => ?_) (fun a ha => ?_) fun f hf => ?_
  · obtain ⟨p, hp, rfl⟩ := ha
    exact (congrFun htable _).trans (unmapRange_at (zero_le _) hp _)
  · exact (congrFun htable a).trans (unmapRange_other fun p _ hp heq => ha ⟨p, hp, heq⟩)
  · refine (congrFun hmemory f).trans (memory_setMemory_of_ne _ _ fun heq => hf ?_)
    rw [heq, hphys]

/-- A block is freed. -/
theorem free (h : Inv A s retired (b :: rest)) (cpu : Nat) :
    Inv A (Vmalloc.free A s cpu b.pointer).2 (retireAt retired (s.epoch + 1) cpu b.start (b.reserved * pageSize)) rest ∧
      (Vmalloc.free A s cpu b.pointer).2.epoch = s.epoch + 1 := by
  obtain ⟨phys, hphys, hheader, hmapped, hreserved⟩ := header_live h.space h.blocks (mem_cons_self ..)
  unfold Vmalloc.free
  rw [hheader]
  dsimp only
  rw [show b.pointer - pageSize = b.start from Nat.add_sub_cancel .., hmapped, hreserved]
  exact ⟨h.retire cpu hphys _, (sameMaps_retire A _ cpu b.start b.reserved).2.2⟩

/-- The frames of a block that grows: those it has, and new ones. -/
structure Carried (env : Env) (table : Table) (b : Block) (place pages : Nat) (g : Nat → Option Nat) : Prop where
  old : ∀ p < b.mapped, g p = table (pageAt b.start p)
  new : ∀ p, b.mapped ≤ p → p < pages → ∃ f, env.grant (pageAt place p) = some f ∧ g p = some f

section

variable {place : Nat} {g : Nat → Option Nat}

section

variable (h : Inv A s retired (b :: rest))

include h

section

variable (henv : env.Fresh s.table)

include henv

theorem Carried.some (hg : Carried env s.table b place pages g)
    {p : Nat} (hp : p < pages) : ∃ f, g p = some f ∧ f < 2 ^ 40 := by
  by_cases hlt : p < b.mapped
  · obtain ⟨f, hf⟩ := isSome_iff_exists.mp
      ((h.blocks.mapped_iff (pageAt b.start p)).mpr ⟨b, mem_cons_self .., p, hlt, rfl⟩)
    exact ⟨f, (hg.old p hlt).trans hf, h.blocks.frames _ _ hf⟩
  · obtain ⟨f, hgrant, hf⟩ := hg.new p (by omega) hp
    exact ⟨f, hf, henv.lt _ _ hgrant⟩

theorem Carried.inj (hg : Carried env s.table b place pages g)
    {p q f : Nat} (hp : p < pages) (hq : q < pages) (hgp : g p = Option.some f) (hgq : g q = Option.some f) : p = q := by
  by_cases hlt : p < b.mapped
  · rw [hg.old p hlt] at hgp
    by_cases hlt' : q < b.mapped
    · rw [hg.old q hlt'] at hgq
      exact pageAt_inj (h.blocks.inj _ _ f hgp hgq)
    · obtain ⟨f', hgrant, hf'⟩ := hg.new q (by omega) hq
      obtain rfl := some.inj (hgq.symm.trans hf')
      exact absurd hgp (henv.unused _ _ hgrant _)
  · obtain ⟨f', hgrant, hf'⟩ := hg.new p (by omega) hp
    obtain rfl := some.inj (hgp.symm.trans hf')
    by_cases hlt' : q < b.mapped
    · rw [hg.old q hlt'] at hgq
      exact absurd hgq (henv.unused _ _ hgrant _)
    · obtain ⟨f'', hgrant', hf''⟩ := hg.new q (by omega) hq
      obtain rfl := some.inj (hgq.symm.trans hf'')
      exact pageAt_inj (henv.once _ _ _ hgrant hgrant')

theorem Carried.own (hg : Carried env s.table b place pages g)
    {p f : Nat} (hp : p < pages) (hgp : g p = Option.some f) {b₂ : Block} (hb₂ : b₂ ∈ rest) {a : Nat} (ha : b₂.HasPage a) :
    s.table a ≠ Option.some f := by
  intro hf
  have hapart : Apart b.span b₂.span :=
    (pairwise_cons.mp h.space.ranges.apart).1 _ (mem_append_left _ (mem_map_of_mem hb₂))
  by_cases hlt : p < b.mapped
  · rw [hg.old p hlt] at hgp
    have heq := h.blocks.inj _ _ f hgp hf
    refine Block.HasPage.apart ⟨p, hlt, heq.symm⟩ (h.blocks.shape b (mem_cons_self ..)).2.2.1
      (h.blocks.shape b₂ (mem_cons_of_mem _ hb₂)).2.2.1 hapart ha
  · obtain ⟨f', hgrant, hf'⟩ := hg.new p (by omega) hp
    obtain rfl := some.inj (hgp.symm.trans hf')
    exact henv.unused _ _ hgrant _ hf

end

end

end

section

variable (h : Inv A s retired (b :: rest))

include h

/-- A block is grown in its range, or not. -/
theorem grow_inPlace (henv : env.Fresh s.table) (hlo : b.mapped < pages)
    (hhi : pages ≤ b.reserved) {phys : Nat} (hphys : s.table b.start = some phys) {c : Contents}
    (hc : c.magic = magic ∧ c.mapped = pages ∧ c.reserved = b.reserved) :
    ((mapFresh env b.start b.mapped pages s.table).1 = false ∧ (mapFresh env b.start b.mapped pages s.table).2 = s.table) ∨
      ((mapFresh env b.start b.mapped pages s.table).1 = true ∧
        Inv A (setMemory { s with table := (mapFresh env b.start b.mapped pages s.table).2 } phys c) retired
          (⟨b.start, pages, b.reserved⟩ :: rest)) := by
  obtain ⟨hpage, hpos, hle, hres⟩ := h.blocks.shape b (mem_cons_self ..)
  have hapart : ∀ b₂ ∈ rest, Apart b.span b₂.span := fun b₂ hb₂ =>
    (pairwise_cons.mp h.space.ranges.apart).1 _ (mem_append_left _ (mem_map_of_mem hb₂))
  by_cases hmap : (mapFresh env b.start b.mapped pages s.table).1 = true
  · refine .inr ⟨hmap, h.space.congr rfl rfl rfl rfl rfl rfl, ?_⟩
    have hfilled := mapFresh_done (le_of_lt hlo) hmap
    generalize (mapFresh env b.start b.mapped pages s.table).2 = table' at hfilled
    have hg : Carried env s.table b b.start pages fun p => table' (pageAt b.start p) :=
      ⟨fun p hp => hfilled.other _ fun q hq _ heq => by have := pageAt_inj heq; omega, hfilled.at_page⟩
    have hstart : table' b.start = some phys := by
      have hzero := hg.old 0 hpos
      rw [show pageAt b.start 0 = b.start by simp [pageAt]] at hzero
      exact hzero.trans hphys
    -- the pages of the other blocks are not of this one
    have hnot : ∀ b₂ ∈ rest, ∀ a, b₂.HasPage a → ¬ Block.HasPage ⟨b.start, pages, b.reserved⟩ a := fun b₂ hb₂ a ha ha' =>
      ha'.apart hhi (h.blocks.shape b₂ (mem_cons_of_mem _ hb₂)).2.2.1 (hapart b₂ hb₂) ha
    refine h.blocks.install (fun b₂ hb₂ => mem_cons_of_mem _ hb₂) ⟨hpage, lt_trans hpos hlo, hhi, hres⟩
      (fun p hp => hg.some h henv hp) (fun p q f hp hq => hg.inj h henv hp hq)
      (fun p f hp hgp b₂ hb₂ a ha => hg.own h henv hp hgp hb₂ ha) (fun p _ => rfl)
      (fun b₂ hb₂ a ha => ⟨hnot b₂ hb₂ a ha, hfilled.other a fun p _ hp heq => hnot b₂ hb₂ a ha ⟨p, hp, heq⟩⟩)
      (fun a ha hrest => ?_) (fun f hf => ?_) fun f hf => ?_
    · refine (hfilled.other a fun p _ hp heq => ha ⟨p, hp, heq⟩).trans ?_
      rw [← not_isSome_iff_eq_none, h.blocks.mapped_iff]
      rintro ⟨b₂, hb₂, p, hp, heq⟩
      rcases mem_cons.mp hb₂ with rfl | hb₂
      · exact ha ⟨p, lt_trans hp hlo, heq⟩
      · exact hrest b₂ hb₂ ⟨p, hp, heq⟩
    · have hf : table' b.start = some f := by simpa [pageAt] using hf
      obtain rfl := some.inj (hstart.symm.trans hf)
      rw [memory_setMemory_self]
      exact hc
    · refine memory_setMemory_of_ne _ _ fun heq => hf ?_
      rw [heq]
      simpa [pageAt] using hstart
  · exact .inl ⟨eq_false_iff.mpr hmap, mapFresh_failed (eq_false_iff.mpr hmap) fun p hp hp' =>
      h.blocks.none_past hapart hp (by omega)⟩

/-- The pages of a block and of a range that is taken are apart. -/
theorem pageAt_ne {target wider : Nat}
    (ht : Taken A s s₁ retired ((b :: rest).map span) target wider ∨ Wrapped A s s₁ target wider) {p q : Nat}
    (hp : p < b.mapped) (hq : q < wider) : pageAt b.start p ≠ pageAt target q := by
  intro heq
  have hsome := (h.blocks.mapped_iff (pageAt b.start p)).mpr ⟨b, mem_cons_self .., p, hp, rfl⟩
  rw [heq, h.none_of_taken ht hq] at hsome
  cases hsome

/-- A block is moved to a range that was taken for it. -/
theorem grow_moved (cpu : Nat) (henv : env.Fresh s.table) (hmaps : SameMaps s s₁)
    {target wider : Nat}
    (ht : Taken A s s₁ retired ((b :: rest).map span) target wider) (hlo : b.mapped < pages) (hhi : pages ≤ wider)
    {table₁ table₂ : Table} (hmoved : ∀ p < b.mapped, table₁ (pageAt target p) = s.table (pageAt b.start p))
    (hother : ∀ a, (∀ p < b.mapped, a ≠ pageAt target p) → table₁ a = s.table a)
    (hfilled : Filled env target b.mapped pages table₁ table₂) {phys : Nat} (hphys : s.table b.start = some phys)
    {c : Contents} (hc : c.magic = magic ∧ c.mapped = pages ∧ c.reserved = wider) :
    unmapRange b.start 0 b.mapped table₂ target = some phys ∧
      Inv A (setMemory (Vmalloc.retire A { s₁ with table := unmapRange b.start 0 b.mapped table₂ } cpu b.start b.reserved) phys c)
        (retireAt retired (s.epoch + 1) cpu b.start (b.reserved * pageSize)) (⟨target, pages, wider⟩ :: rest) := by
  obtain ⟨hpage, hpos, hle, hres⟩ := h.blocks.shape b (mem_cons_self ..)
  have hne : ∀ p q, p < b.mapped → q < pages → pageAt b.start p ≠ pageAt target q := fun p q hp hq =>
    h.pageAt_ne (.inl ht) hp (by omega)
  -- the table away from the old pages
  have hkept : ∀ a, (∀ p < b.mapped, a ≠ pageAt b.start p) → unmapRange b.start 0 b.mapped table₂ a = table₂ a := fun a ha =>
    unmapRange_other fun p _ hp => ha p hp
  have hg : Carried env s.table b target pages fun p => unmapRange b.start 0 b.mapped table₂ (pageAt target p) := by
    refine ⟨fun p hp => ?_, fun p hp hp' => ?_⟩
    · show unmapRange b.start 0 b.mapped table₂ (pageAt target p) = _
      rw [hkept _ fun q hq => (hne q p hq (by omega)).symm,
        hfilled.other _ fun q hq _ heq => by have := pageAt_inj heq; omega, hmoved p hp]
    · obtain ⟨f, hgrant, hf⟩ := hfilled.at_page p hp hp'
      exact ⟨f, hgrant, (hkept _ fun q hq => (hne q p hq hp').symm).trans hf⟩
  have hzero : pageAt target 0 = target := by simp [pageAt]
  have hstart : unmapRange b.start 0 b.mapped table₂ target = some phys := by
    have hold := hg.old 0 hpos
    rw [show pageAt b.start 0 = b.start by simp [pageAt], hphys] at hold
    rw [← hzero]
    exact hold
  refine ⟨hstart, ?_, ?_⟩
  · have hspace : Space A { s₁ with table := unmapRange b.start 0 b.mapped table₂ } retired
        ((b.start, b.reserved * pageSize) :: (target, wider * pageSize) :: rest.map span) :=
      (ht.space.of_perm (List.Perm.swap ..)).congr rfl rfl rfl rfl rfl rfl
    have hretired := retire_spec hspace hpage cpu
    rw [← hmaps.epoch]
    exact hretired.congr rfl rfl rfl rfl rfl rfl
  · obtain ⟨htable, hmemory, -⟩ := sameMaps_retire A { s₁ with table := unmapRange b.start 0 b.mapped table₂ } cpu b.start
      b.reserved
    have hapart : ∀ b₂ ∈ rest, Apart b.span b₂.span := fun b₂ hb₂ =>
      (pairwise_cons.mp h.space.ranges.apart).1 _ (mem_append_left _ (mem_map_of_mem hb₂))
    have hshape : ∀ b₂ ∈ rest, b₂.mapped ≤ b₂.reserved := fun b₂ hb₂ =>
      (h.blocks.shape b₂ (mem_cons_of_mem _ hb₂)).2.2.1
    have hnew : ∀ b₂ ∈ rest, ∀ a, b₂.HasPage a → ¬ Block.HasPage ⟨target, pages, wider⟩ a := fun b₂ hb₂ a ha ha' =>
      ha'.apart hhi (hshape b₂ hb₂) (apart_of_taken ht (mem_cons_of_mem _ hb₂)) ha
    have hold : ∀ b₂ ∈ rest, ∀ a, b₂.HasPage a → ¬ b.HasPage a := fun b₂ hb₂ a ha ha' =>
      ha'.apart hle (hshape b₂ hb₂) (hapart b₂ hb₂) ha
    -- the table away from both
    have haway : ∀ a, ¬ Block.HasPage ⟨target, pages, wider⟩ a → table₂ a = s.table a := fun a ha =>
      (hfilled.other a fun p _ hp heq => ha ⟨p, hp, heq⟩).trans (hother a fun p hp heq => ha ⟨p, lt_trans hp hlo, heq⟩)
    refine h.blocks.install (g := fun p => unmapRange b.start 0 b.mapped table₂ (pageAt target p))
      (fun b₂ hb₂ => mem_cons_of_mem _ hb₂) ⟨ht.page, lt_trans hpos hlo, hhi, by dsimp only; omega⟩
      (fun p hp => hg.some h henv hp) (fun p q f hp hq => hg.inj h henv hp hq)
      (fun p f hp hgp b₂ hb₂ a ha => hg.own h henv hp hgp hb₂ ha) (fun p _ => congrFun htable _)
      (fun b₂ hb₂ a ha => ⟨hnew b₂ hb₂ a ha, ?_⟩) (fun a ha hrest => ?_) (fun f hf => ?_) fun f hf => ?_
    · refine (congrFun htable a).trans ((hkept a fun p hp heq => hold b₂ hb₂ a ha ⟨p, hp, heq⟩).trans ?_)
      exact haway a (hnew b₂ hb₂ a ha)
    · refine (congrFun htable a).trans ?_
      by_cases hb : b.HasPage a
      · obtain ⟨p, hp, rfl⟩ := hb
        exact unmapRange_at (zero_le _) hp _
      · refine (hkept a fun p hp heq => hb ⟨p, hp, heq⟩).trans ((haway a ha).trans ?_)
        rw [← not_isSome_iff_eq_none, h.blocks.mapped_iff]
        rintro ⟨b₂, hb₂, hpage₂⟩
        rcases mem_cons.mp hb₂ with rfl | hb₂
        · exact hb hpage₂
        · exact hrest b₂ hb₂ hpage₂
    · have hf : unmapRange b.start 0 b.mapped table₂ target = some f := by rwa [hzero] at hf
      obtain rfl := some.inj (hstart.symm.trans hf)
      rw [memory_setMemory_self]
      exact hc
    · refine (memory_setMemory_of_ne _ _ fun heq => hf ?_).trans ((congrFun hmemory f).trans (congrFun hmaps.memory f))
      rw [heq, hzero]
      exact hstart

/-- A block that has no room in its range is moved, or stays as it is. -/
theorem growMoved (henv : env.Fresh s.table) (cpu : Nat) (hlo : b.mapped < pages) :
    (∃ s', Vmalloc.growMoved A env s cpu b.start b.mapped b.reserved pages = (none, s') ∧ Inv A s' retired (b :: rest) ∧
        Same s s') ∨
      ∃ b' n s', Vmalloc.growMoved A env s cpu b.start b.mapped b.reserved pages = (some (Block.pointer b', n), s') ∧
        Inv A s' (retireAt retired (s.epoch + 1) cpu b.start (b.reserved * pageSize)) (b' :: rest) ∧
        s'.epoch = s.epoch + 1 := by
  obtain ⟨hwide, -⟩ := reserveFor_spec pages
  unfold Vmalloc.growMoved
  dsimp only
  cases ht : take A s cpu (reserveFor pages) with
  | none => exact .inl ⟨s, rfl, h, rfl, rfl, rfl⟩
  | some r =>
    obtain ⟨target, s₁⟩ := r
    dsimp only
    obtain ⟨hmaps, htaken⟩ := take_spec h.space (by omega) ht
    rw [hmaps.table]
    have hnone : ∀ p, p < pages → s.table (pageAt target p) = none := fun p hp => h.none_of_taken htaken (by omega)
    have hloop := moveLoop_spec env b.start target b.mapped 0 s.table
      (fun p _ hp => (h.blocks.mapped_iff _).mpr ⟨b, mem_cons_self .., p, by omega, rfl⟩)
      fun p q hp hq => h.pageAt_ne htaken (by omega) (by omega)
    rcases hloop with ⟨table₁, heq, hmoved, hother⟩ | ⟨page, table₁, heq, -, hpage, hother⟩
    · rw [heq]
      dsimp only
      have hpast : ∀ p, b.mapped ≤ p → p < pages → table₁ (pageAt target p) = none := fun p hp hp' =>
        (hother _ fun q _ hq heq => by have := pageAt_inj heq; omega).trans (hnone p hp')
      by_cases hmap : (mapFresh env target b.mapped pages table₁).1 = true
      · rw [if_neg (not_not.mpr hmap)]
        have hfilled := mapFresh_done (le_of_lt hlo) hmap
        generalize (mapFresh env target b.mapped pages table₁).2 = table₂ at hfilled
        have htaken : Taken A s s₁ retired ((b :: rest).map span) target (reserveFor pages) := by
          refine htaken.resolve_right fun hw => ?_
          have hlen := hfilled.length_le henv
          have hwide := wrapped_pages h.space hw
          have hframes := h.blocks.mapped_le (mem_cons_self ..)
          omega
        have hmoved : ∀ p < b.mapped, table₁ (pageAt target p) = s.table (pageAt b.start p) := fun p hp =>
          hmoved p (zero_le _) (by omega)
        have hother : ∀ a, (∀ p < b.mapped, a ≠ pageAt target p) → table₁ a = s.table a := fun a ha =>
          hother a fun p _ hp => ha p (by omega)
        obtain ⟨htable, hmemory, hepoch⟩ := sameMaps_retire A { s₁ with table := unmapRange b.start 0 b.mapped table₂ } cpu
          b.start b.reserved
        obtain ⟨phys, hphys, hmagic, -⟩ := h.blocks.headed b (mem_cons_self ..)
        obtain ⟨hstart, hinv⟩ := h.grow_moved cpu (c := ⟨magic, pages, reserveFor pages, (s.memory phys).rest⟩) henv hmaps
          htaken hlo (le_of_lt hwide) hmoved hother hfilled hphys ⟨rfl, rfl, rfl⟩
        have hframe : ((Vmalloc.retire A { s₁ with table := unmapRange b.start 0 b.mapped table₂ } cpu b.start
            b.reserved).table target).getD 0 = phys := by
          rw [htable]
          exact congrArg (·.getD 0) hstart
        have hcontents : (Vmalloc.retire A { s₁ with table := unmapRange b.start 0 b.mapped table₂ } cpu b.start
            b.reserved).memory phys = s.memory phys := by
          rw [hmemory]
          exact congrFun hmaps.memory phys
        rw [hframe, hcontents, hmagic]
        exact .inr ⟨⟨target, pages, reserveFor pages⟩, _, _, rfl, hinv, hepoch.trans (by rw [← hmaps.epoch])⟩
      · rw [if_pos hmap, mapFresh_failed (eq_false_iff.mpr hmap) hpast,
          unmapRange_undo (fun p _ hp => hnone p (by omega)) fun a ha => hother a fun p hlo hhi => ha p hlo (by omega)]
        obtain ⟨hinv, hsame⟩ := h.undo hmaps htaken cpu
        exact .inl ⟨_, rfl, hinv, hsame⟩
    · rw [heq]
      dsimp only
      rw [unmapRange_undo (fun p _ hp => hnone p (by omega)) fun a ha => hother a ha]
      obtain ⟨hinv, hsame⟩ := h.undo hmaps htaken cpu
      exact .inl ⟨_, rfl, hinv, hsame⟩

theorem grow (henv : env.Fresh s.table) (cpu bytes : Nat) :
    (∃ s', Vmalloc.grow A env s cpu b.pointer bytes = (none, s') ∧ Inv A s' retired (b :: rest) ∧ Same s s') ∨
      ∃ b' n s', Vmalloc.grow A env s cpu b.pointer bytes = (some (Block.pointer b', n), s') ∧
        ((Inv A s' retired (b' :: rest) ∧ s'.epoch = s.epoch) ∨
          (Inv A s' (retireAt retired (s.epoch + 1) cpu b.start (b.reserved * pageSize)) (b' :: rest) ∧
            s'.epoch = s.epoch + 1)) := by
  obtain ⟨phys, hphys, hheader, hmapped, hreserved⟩ := header_live h.space h.blocks (mem_cons_self ..)
  have hmagic : (s.memory phys).magic = magic := by
    obtain ⟨f, hf, hmagic, -⟩ := h.blocks.headed b (mem_cons_self ..)
    obtain rfl := some.inj (hphys.symm.trans hf)
    exact hmagic
  unfold Vmalloc.grow
  rw [hheader]
  dsimp only
  rw [show b.pointer - pageSize = b.start from Nat.add_sub_cancel .., hmapped, hreserved]
  by_cases hfew : pagesFor bytes ≤ b.mapped
  · rw [if_pos hfew]
    exact .inr ⟨b, 0, s, rfl, .inl ⟨h, rfl⟩⟩
  rw [if_neg hfew]
  by_cases hroom : pagesFor bytes ≤ b.reserved
  · rw [if_pos hroom]
    rcases h.grow_inPlace (c := ⟨(s.memory phys).magic, pagesFor bytes, b.reserved, (s.memory phys).rest⟩) henv
      (Nat.lt_of_not_le hfew) hroom hphys ⟨hmagic, rfl, rfl⟩ with ⟨hmap, htable⟩ | ⟨hmap, hinv⟩
    · rw [if_pos (eq_false_iff.mp hmap), htable]
      exact .inl ⟨s, rfl, h, rfl, rfl, rfl⟩
    · rw [if_neg (not_not.mpr hmap)]
      exact .inr ⟨⟨b.start, pagesFor bytes, b.reserved⟩, _, _, rfl, .inl ⟨hinv, rfl⟩⟩
  · rw [if_neg hroom]
    rcases h.growMoved henv cpu (Nat.lt_of_not_le hfew) with hnone | ⟨b', n, s', heq, hinv, hepoch⟩
    · exact .inl hnone
    · exact .inr ⟨b', n, s', heq, .inr ⟨hinv, hepoch⟩⟩

end

end Inv

/-! ### Runs -/

/-- A state with the blocks that are live, and the epochs and CPUs of the retirements. -/
structure Run where
  state : State
  live : List Block
  retired : Retired

inductive Event where
  | alloc (cpu : Nat) (env : Env) (bytes : Nat)
  | free (cpu : Nat) (b : Block)
  | grow (cpu : Nat) (env : Env) (b : Block) (bytes : Nat)
  | tick (cpu : Nat)
  | online (cpu : Nat)
  | store (b : Block) (page : Nat) (contents : Contents)

/-- The block that a pointer is of, by its header. -/
def blockAt (A : Area) (s : State) (pointer : Nat) : Block :=
  let head := (header A s pointer).map (·.2)
  ⟨pointer - pageSize, (head.map Contents.mapped).getD 0, (head.map Contents.reserved).getD 0⟩

/-- The epochs of the retirements after a call that retires the range of a block, if the epoch went on. -/
def retiredAfter (r : Run) (s' : State) (cpu : Nat) (b : Block) : Retired :=
  if s'.epoch = r.state.epoch then r.retired else retireAt r.retired s'.epoch cpu b.start (b.reserved * pageSize)

def next (A : Area) (r : Run) : Event → Run
  | .alloc cpu env bytes =>
    let result := alloc A env r.state cpu bytes
    { r with state := result.2, live := (result.1.map fun p => blockAt A result.2 p.1).toList ++ r.live }
  | .free cpu b =>
    let s' := (free A r.state cpu b.pointer).2
    ⟨s', r.live.erase b, retiredAfter r s' cpu b⟩
  | .grow cpu env b bytes =>
    let result := grow A env r.state cpu b.pointer bytes
    match result.1 with
    | none => { r with state := result.2 }
    | some p => ⟨result.2, blockAt A result.2 p.1 :: r.live.erase b, retiredAfter r result.2 cpu b⟩
  | .tick cpu => { r with state := tick r.state cpu }
  | .online cpu =>
    { r with state := { flush r.state cpu with online := Function.update r.state.online cpu true } }
  | .store b page contents =>
    { r with state := setMemory r.state ((r.state.table (pageAt b.start page)).getD 0) contents }

def step (A : Area) (r : Run) (e : Event) : Option Run := some (next A r e)

/-- The calls of a run are about live blocks, and the frames they are given are unused; a program writes to the pages of
its blocks after the header's. -/
def Admitted (A : Area) (r : Run) : Event → Prop
  | .alloc _ env _ => env.Fresh r.state.table
  | .free _ b => b ∈ r.live
  | .grow _ env b _ => b ∈ r.live ∧ env.Fresh r.state.table
  | .tick _ => True
  | .online cpu => cpu < A.maxCpus
  | .store b page _ => b ∈ r.live ∧ 0 < page ∧ page < b.mapped

/-- An empty area, with some CPUs up. -/
structure Init (A : Area) (r : Run) : Prop where
  next : r.state.next = 0
  holes : r.state.holes = []
  epoch : r.state.epoch = 0
  seen : ∀ d, r.state.seen d = 0
  flushed : ∀ d, r.state.flushed d = 0
  cpus : ∀ d, r.state.online d = true → d < A.maxCpus
  table : ∀ a, r.state.table a = none
  live : r.live = []
  retired : ∀ a, r.retired a = (0, 0)

theorem inv_init {r : Run} (h : Init A r) : Inv A r.state r.retired r.live := by
  have hsettled : ∀ a d, Settled r.state r.retired d a := fun a d => by
    left
    rw [h.retired]
    exact zero_le _
  have hspans : r.live.map Block.span ++ r.state.holes.map Hole.span = [] := by
    rw [h.live, h.holes]
    rfl
  refine ⟨⟨?_, ?_, ?_, ?_, ?_, fun a => ?_, fun d => ?_, fun d => ?_, h.cpus, ?_, fun a _ d _ => hsettled a d⟩, ?_⟩
  · rw [h.next]
    exact zero_le _
  · rw [h.next]
    exact zero_mod _
  · rw [hspans]
    exact .nil _ _
  · rw [h.holes]
    nofun
  · rw [hspans]
    nofun
  · rw [h.retired]
    exact zero_le _
  · rw [h.seen]
    exact zero_le _
  · rw [h.flushed]
    exact zero_le _
  · rw [h.holes]
    nofun
  · rw [h.live]
    refine ⟨nofun, nofun, fun a => ?_, fun a a' f ha => ?_, fun a f ha => ?_⟩
    · rw [h.table]
      exact ⟨nofun, fun ⟨_, hb, _⟩ => nomatch hb⟩
    · rw [h.table] at ha
      cases ha
    · rw [h.table] at ha
      cases ha

theorem blockAt_pointer (h : Inv A s retired live) (hb : b ∈ live) : blockAt A s b.pointer = b := by
  obtain ⟨phys, -, hheader, hmapped, hreserved⟩ := header_live h.space h.blocks hb
  unfold blockAt
  rw [hheader]
  show Block.mk (b.pointer - pageSize) (s.memory phys).mapped (s.memory phys).reserved = b
  rw [hmapped, hreserved, Block.pointer, Nat.add_sub_cancel]

theorem inv_next {r : Run} (h : Inv A r.state r.retired r.live) {e : Event} (hok : Admitted A r e) :
    Inv A (next A r e).state (next A r e).retired (next A r e).live := by
  cases e with
  | alloc cpu env bytes =>
    rcases h.alloc hok cpu bytes with ⟨s', heq, hinv, -⟩ | ⟨b, n, s', heq, hinv, -⟩
    · simp only [next, heq]
      exact hinv
    · simp only [next, heq]
      show Inv A s' r.retired (blockAt A s' b.pointer :: r.live)
      rw [blockAt_pointer hinv (mem_cons_self ..)]
      exact hinv
  | free cpu b =>
    obtain ⟨hinv, hepoch⟩ := (h.of_perm (perm_erase hok)).free cpu
    simp only [next, retiredAfter, hepoch]
    rw [if_neg (succ_ne_self _)]
    exact hinv
  | grow cpu env b bytes =>
    obtain ⟨hb, henv⟩ := hok
    rcases (h.of_perm (perm_erase hb)).grow henv cpu bytes with ⟨s', heq, hinv, -⟩ | ⟨b', n, s', heq, ⟨hinv, hepoch⟩ | ⟨hinv, hepoch⟩⟩
    · simp only [next, heq]
      exact hinv.of_perm (perm_erase hb).symm
    · simp only [next, heq, retiredAfter, hepoch]
      rw [if_pos trivial, blockAt_pointer hinv (mem_cons_self ..)]
      exact hinv
    · simp only [next, heq, retiredAfter, hepoch]
      rw [if_neg (succ_ne_self _), blockAt_pointer hinv (mem_cons_self ..)]
      exact hinv
  | tick cpu =>
    refine ⟨h.space.tick cpu, ?_⟩
    simp only [next, tick]
    split <;> exact h.blocks
  | online cpu => exact ⟨h.space.online hok, h.blocks⟩
  | store b page contents =>
    obtain ⟨hb, hpos, hlt⟩ := hok
    obtain ⟨f, hf⟩ := isSome_iff_exists.mp ((h.blocks.mapped_iff _).mpr ⟨b, hb, page, hlt, rfl⟩)
    refine ⟨h.space.congr rfl rfl rfl rfl rfl rfl, { h.blocks with headed := fun b₂ hb₂ => ?_ }⟩
    obtain ⟨phys, hphys, hheader⟩ := h.blocks.headed b₂ hb₂
    refine ⟨phys, hphys, ?_⟩
    -- no page but the first has a header
    have hne : phys ≠ f := by
      rintro rfl
      have hstart := h.blocks.inj _ _ _ hphys hf
      have hfirst := hasPage_start (h.blocks.shape b₂ hb₂).2.1
      rcases mem_cons.mp ((perm_erase hb).mem_iff.mp hb₂) with rfl | hrest
      · have := pageAt_inj (show pageAt b₂.start 0 = pageAt b₂.start page by rw [← hstart]; simp [pageAt])
        omega
      · have hinv := h.of_perm (perm_erase hb)
        have hapart := (pairwise_cons.mp hinv.space.ranges.apart).1 _
          (mem_append_left _ (mem_map_of_mem hrest))
        rw [hstart] at hfirst
        exact Block.HasPage.apart ⟨page, hlt, rfl⟩ (h.blocks.shape b hb).2.2.1 (h.blocks.shape b₂ hb₂).2.2.1 hapart hfirst
    simp only [next]
    rw [hf, getD_some, memory_setMemory_of_ne _ _ hne]
    exact hheader

theorem reach_inv {r : Run} (h : Reach (Init A) (step A) (Admitted A) r) : Inv A r.state r.retired r.live := by
  refine h.invariant (I := fun r => Inv A r.state r.retired r.live) (fun r hr => inv_init hr) fun r e r' hr hok hs => ?_
  cases hs
  exact inv_next hr hok

/-- What holds of the area between two calls. -/
structure Sound (A : Area) (r : Run) : Prop where
  /-- The ranges of the blocks and the holes are apart and below the bump pointer. -/
  ranges : Ranges A.base (A.base + r.state.next) (r.live.map Block.span ++ r.state.holes.map Hole.span)
  room : r.state.next ≤ A.size
  /-- Each block has the header with its pages. -/
  headers : ∀ b ∈ r.live, blockAt A r.state b.pointer = b
  /-- Of its range, exactly its first pages are mapped. -/
  mapped : ∀ b ∈ r.live, ∀ a, b.start ≤ a → a < b.start + b.reserved * pageSize →
    ((r.state.table a).isSome = true ↔ b.HasPage a)
  /-- No two pages have one frame. -/
  distinct : ∀ a a' f, r.state.table a = some f → r.state.table a' = some f → a = a'

theorem Inv.sound {r : Run} (h : Inv A r.state r.retired r.live) : Sound A r where
  ranges := h.space.ranges
  room := h.space.next_le
  headers := fun b hb => blockAt_pointer h hb
  mapped := by
    intro b hb a hlo hhi
    rw [h.blocks.mapped_iff]
    refine ⟨fun ⟨b₂, hb₂, hpage⟩ => ?_, fun hpage => ⟨b, hb, hpage⟩⟩
    rcases mem_cons.mp ((perm_erase hb).mem_iff.mp hb₂) with rfl | hrest
    · exact hpage
    · have hapart := (pairwise_cons.mp (h.of_perm (perm_erase hb)).space.ranges.apart).1 _
        (mem_append_left _ (mem_map_of_mem hrest))
      exact absurd (hpage.inside (h.blocks.shape b₂ hb₂).2.2.1) (hapart.not_mem ⟨hlo, hhi⟩)
  distinct := h.blocks.inj

/-- In every run: the area is sound, a `grow` that fails changes no page and no contents, and of a range that is handed out
no other CPU has entries from before it was retired, for it flushed its TLB since or retired the range itself. -/
theorem run_sound {r : Run} (h : Reach (Init A) (step A) (Admitted A) r) :
    Sound A r ∧
      (∀ cpu env bytes, ∀ b ∈ r.live, env.Fresh r.state.table → (grow A env r.state cpu b.pointer bytes).1 = none →
        (grow A env r.state cpu b.pointer bytes).2.table = r.state.table ∧
          (grow A env r.state cpu b.pointer bytes).2.memory = r.state.memory) ∧
      ∀ cpu pages start s', take A r.state cpu pages = some (start, s') →
        ∀ a, start ≤ a → a < start + pages * pageSize → ∀ d, r.state.online d = true → d ≠ cpu →
          (r.retired a).1 ≤ r.state.flushed d ∨ d = (r.retired a).2 := by
  have hinv := reach_inv h
  refine ⟨hinv.sound, fun cpu env bytes b hb henv hfail => ?_, fun cpu pages start s' ht a hlo hhi d hon hne =>
    take_settled hinv.space ht hlo hhi hon hne⟩
  rcases (hinv.of_perm (perm_erase hb)).grow henv cpu bytes with ⟨s', heq, -, hsame⟩ | ⟨b', n, s', heq, -⟩
  · rw [heq]
    exact ⟨hsame.table, hsame.memory⟩
  · rw [heq] at hfail
    cases hfail

/-! ### A failed call forgets an epoch -/

/-- An empty area with two CPUs. -/
def twoCpus : Run :=
  ⟨⟨true, 0, [], 0, fun _ => 0, fun d => d < 2, fun _ => 0, fun _ => none, fun _ => ⟨(0, 0), 0, 0, []⟩⟩, [], fun _ => (0, 0)⟩

theorem init_twoCpus : Init .x86_64 twoCpus where
  next := rfl
  holes := rfl
  epoch := rfl
  seen := fun _ => rfl
  flushed := fun _ => rfl
  cpus := by
    intro d hd
    have hd : d < 2 := of_decide_eq_true hd
    exact lt_trans hd (by decide)
  table := fun _ => rfl
  live := rfl
  retired := fun _ => rfl

/-- One frame, for the first page. -/
def oneFrame : Env := ⟨fun v => if v = 2 ^ 40 then some 7 else none, fun _ => true⟩

def noFrames : Env := ⟨fun _ => none, fun _ => true⟩

theorem noFrames_fresh (table : Table) : noFrames.Fresh table := ⟨nofun, nofun, nofun⟩

theorem oneFrame_grant {v f : Nat} (h : oneFrame.grant v = some f) : v = 2 ^ 40 ∧ f = 7 := by
  by_cases hv : v = 2 ^ 40
  · exact ⟨hv, (some.inj ((if_pos hv).symm.trans h)).symm⟩
  · exact nomatch (if_neg hv).symm.trans h

theorem oneFrame_fresh {table : Table} (h : ∀ a, table a = none) : oneFrame.Fresh table where
  unused := by
    intro v f _ a
    rw [h]
    exact nofun
  once := fun v v' f hv hv' => (oneFrame_grant hv).1.trans (oneFrame_grant hv').1.symm
  lt := by
    intro v f hv
    rw [(oneFrame_grant hv).2]
    decide

/-- CPU 1 frees a block, CPU 0 sees it, and CPU 1 takes the range for a block that it finds no frames for. -/
def forgetful : List Event :=
  [.alloc 1 oneFrame 0, .free 1 ⟨2 ^ 40, 1, 17⟩, .tick 0, .alloc 1 noFrames 0]

def forgetfulRun : Run := forgetful.foldl (next .x86_64) twoCpus

theorem forgetful_reached : Reach (Init .x86_64) (step .x86_64) (Admitted .x86_64) forgetfulRun := by
  refine Reach.admitted (.start init_twoCpus) forgetful ?_ rfl
  refine .cons (oneFrame_fresh fun _ => rfl) rfl (.cons ?_ rfl (.cons trivial rfl (.cons (noFrames_fresh _) rfl trivial)))
  show _ ∈ (next .x86_64 twoCpus (.alloc 1 oneFrame 0)).live
  decide

theorem run_sound_forgetful : Sound .x86_64 forgetfulRun := (run_sound forgetful_reached).1

/-- The range goes back with epoch 0, and CPU 0 is given it though CPU 1 has not seen the epoch it was retired in. -/
theorem epoch_forgotten : ¬ ∀ r, Reach (Init .x86_64) (step .x86_64) (Admitted .x86_64) r →
    ∀ cpu pages start s', take .x86_64 r.state cpu pages = some (start, s') →
      ∀ a, start ≤ a → a < start + pages * pageSize → ∀ d, r.state.online d = true → d ≠ cpu →
        (r.retired a).1 ≤ r.state.seen d := by
  intro hall
  have htaken : (take .x86_64 forgetfulRun.state 0 17).map (·.1) = some (2 ^ 40) := by decide
  obtain ⟨⟨start, s'⟩, ht, hstart⟩ := map_eq_some_iff.mp htaken
  obtain rfl : start = 2 ^ 40 := hstart
  have hseen := hall _ forgetful_reached 0 17 _ s' ht (2 ^ 40) le_rfl (by decide) 1 (by decide) (by decide)
  exact absurd hseen (by decide)

end HamixOS.Kernel.Vmalloc
