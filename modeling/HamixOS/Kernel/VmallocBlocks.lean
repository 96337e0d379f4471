import HamixOS.Kernel.VmallocSpace
import Mathlib.Order.Interval.Finset.Nat

namespace HamixOS.Kernel.Vmalloc

open Lib List Function Option Finset

/-!
# The blocks of the vmalloc area

* `mapFresh_failed`, `mapFresh_done`, `moveLoop_spec` — what the loops over pages do to the mapping;
* `Blocks` — each live block has exactly its first pages mapped, to frames of its own;
* `alloc_spec`, `free_spec`, `grow_spec` — what an operation does to the blocks and to the ranges.
-/

variable {A : Area} {s s' : State} {cpu start pages : Nat}

/-- A mapping of addresses to frames. -/
abbrev Table := Nat → Option Nat

/-! ### Loops over pages -/

theorem pageAt_inj {start p q : Nat} (h : pageAt start p = pageAt start q) : p = q := by
  unfold pageAt pageSize at h
  omega

/-- The table with frames for the pages from `first` to `last`. -/
structure Filled (env : Env) (start first last : Nat) (table table' : Table) : Prop where
  at_page : ∀ p, first ≤ p → p < last → ∃ f, env.grant (pageAt start p) = some f ∧ table' (pageAt start p) = some f
  other : ∀ a, (∀ p, first ≤ p → p < last → a ≠ pageAt start p) → table' a = table a

variable {env : Env}

theorem mapLoop_done {n first : Nat} {table table' : Table}
    (h : mapLoop env start (range' first n) table = (none, table')) : Filled env start first (first + n) table table' := by
  induction n generalizing first table with
  | zero =>
    cases h
    exact ⟨fun p hlo hhi => by omega, fun _ _ => rfl⟩
  | succ n ih =>
    rw [range'_succ] at h
    unfold mapLoop at h
    split at h
    · cases h
    · rename_i phys hgrant
      split at h
      · obtain ⟨hat, hother⟩ := ih h
        refine ⟨fun p hlo hhi => ?_, fun a ha => ?_⟩
        · by_cases hp : p = first
          · subst hp
            refine ⟨phys, hgrant, ?_⟩
            rw [hother _ fun q hq _ heq => by have := pageAt_inj heq; omega, update_self]
          · exact hat p (by omega) (by omega)
        · rw [hother a fun p hlo hhi => ha p (by omega) (by omega),
            update_of_ne (ha first le_rfl (by omega))]
      · cases h

theorem mapLoop_stopped {n first page : Nat} {table table' : Table}
    (h : mapLoop env start (range' first n) table = (some page, table')) :
    first ≤ page ∧ page < first + n ∧ Filled env start first page table table' := by
  induction n generalizing first table with
  | zero => cases h
  | succ n ih =>
    rw [range'_succ] at h
    unfold mapLoop at h
    have hstop : ∀ {t : Table}, (some first, table) = (some page, t) →
        first ≤ page ∧ page < first + (n + 1) ∧ Filled env start first page table t := by
      intro t heq
      obtain ⟨hpage, rfl⟩ := Prod.mk.inj heq
      obtain rfl := some.inj hpage
      exact ⟨le_refl _, by omega, fun p hlo hhi => by omega, fun _ _ => rfl⟩
    split at h
    · exact hstop h
    · rename_i phys hgrant
      split at h
      · obtain ⟨hlo, hhi, hat, hother⟩ := ih h
        refine ⟨by omega, by omega, fun p hp hp' => ?_, fun a ha => ?_⟩
        · by_cases hfirst : p = first
          · subst hfirst
            refine ⟨phys, hgrant, ?_⟩
            rw [hother _ fun q hq _ heq => by have := pageAt_inj heq; omega, update_self]
          · exact hat p (by omega) hp'
        · rw [hother a fun p hp hp' => ha p (by omega) hp', update_of_ne (ha first le_rfl (by omega))]
      · exact hstop h

theorem foldl_unmap (start n first : Nat) (table : Table) :
    (∀ p, first ≤ p → p < first + n → (range' first n).foldl
      (fun table page => update table (pageAt start page) none) table (pageAt start p) = none) ∧
    ∀ a, (∀ p, first ≤ p → p < first + n → a ≠ pageAt start p) → (range' first n).foldl
      (fun table page => update table (pageAt start page) none) table a = table a := by
  induction n generalizing first table with
  | zero => exact ⟨fun p hlo hhi => by omega, fun _ _ => rfl⟩
  | succ n ih =>
    rw [range'_succ, foldl_cons]
    obtain ⟨hat, hother⟩ := ih (first + 1) (update table (pageAt start first) none)
    refine ⟨fun p hlo hhi => ?_, fun a ha => ?_⟩
    · by_cases hp : p = first
      · subst hp
        rw [hother _ fun q hq _ heq => by have := pageAt_inj heq; omega, update_self]
      · exact hat p (by omega) (by omega)
    · rw [hother a fun p hlo hhi => ha p (by omega) (by omega), update_of_ne (ha first le_rfl (by omega))]

theorem unmapRange_at {first last p : Nat} (hlo : first ≤ p) (hhi : p < last) (table : Table) :
    unmapRange start first last table (pageAt start p) = none :=
  (foldl_unmap start (last - first) first table).1 p hlo (by omega)

theorem unmapRange_other {first last a : Nat} {table : Table} (h : ∀ p, first ≤ p → p < last → a ≠ pageAt start p) :
    unmapRange start first last table a = table a :=
  (foldl_unmap start (last - first) first table).2 a fun p hlo hhi => h p hlo (by omega)

variable {first last : Nat}

/-- Pages that had no frames have none again when they are unmapped. -/
theorem unmapRange_undo {table table' : Table}
    (hnone : ∀ p, first ≤ p → p < last → table (pageAt start p) = none)
    (hother : ∀ a, (∀ p, first ≤ p → p < last → a ≠ pageAt start p) → table' a = table a) :
    unmapRange start first last table' = table := by
  funext a
  by_cases ha : ∃ p, first ≤ p ∧ p < last ∧ a = pageAt start p
  · obtain ⟨p, hlo, hhi, rfl⟩ := ha
    rw [unmapRange_at hlo hhi, hnone p hlo hhi]
  · have hne : ∀ p, first ≤ p → p < last → a ≠ pageAt start p := fun p hlo hhi heq => ha ⟨p, hlo, hhi, heq⟩
    rw [unmapRange_other hne, hother a hne]

/-- A failure leaves the table as it was. -/
theorem mapFresh_failed {table : Table}
    (h : (mapFresh env start first last table).1 = false)
    (hnone : ∀ p, first ≤ p → p < last → table (pageAt start p) = none) :
    (mapFresh env start first last table).2 = table := by
  unfold mapFresh at h ⊢
  split at h
  · cases h
  · rename_i page table' hloop
    obtain ⟨hlo, hhi, hfilled⟩ := mapLoop_stopped hloop
    exact unmapRange_undo (fun p hp hp' => hnone p hp (by omega)) hfilled.other

theorem mapFresh_done {table : Table} (hle : first ≤ last)
    (h : (mapFresh env start first last table).1 = true) :
    Filled env start first last table (mapFresh env start first last table).2 := by
  unfold mapFresh at h ⊢
  split at h
  · rename_i table' hloop
    have hfilled := mapLoop_done hloop
    rwa [show first + (last - first) = last by omega] at hfilled
  · cases h

/-- What the loop of `grow` leaves: the old frames at the new place too, as far as it came. -/
theorem moveLoop_spec (env : Env) (start target n first : Nat) (table : Table)
    (hmapped : ∀ p, first ≤ p → p < first + n → (table (pageAt start p)).isSome)
    (hapart : ∀ p q, p < first + n → q < first + n → pageAt start p ≠ pageAt target q) :
    (∃ table', moveLoop env start target (range' first n) table = .done table' ∧
      (∀ p, first ≤ p → p < first + n → table' (pageAt target p) = table (pageAt start p)) ∧
      ∀ a, (∀ p, first ≤ p → p < first + n → a ≠ pageAt target p) → table' a = table a) ∨
    ∃ page table', moveLoop env start target (range' first n) table = .full page table' ∧ first ≤ page ∧
      page < first + n ∧ ∀ a, (∀ p, first ≤ p → p < page → a ≠ pageAt target p) → table' a = table a := by
  induction n generalizing first table with
  | zero => exact .inl ⟨table, rfl, fun p hlo hhi => by omega, fun _ _ => rfl⟩
  | succ n ih =>
    obtain ⟨phys, hphys⟩ := isSome_iff_exists.mp (hmapped first le_rfl (by omega))
    rw [range'_succ]
    unfold moveLoop
    rw [hphys]
    dsimp only
    by_cases hroom : env.room (pageAt target first) = true
    · rw [if_pos hroom]
      have hsame : ∀ p, p < first + (n + 1) →
          update table (pageAt target first) (some phys) (pageAt start p) = table (pageAt start p) :=
        fun p hp => update_of_ne (hapart p first hp (by omega)) _ _
      have hrec := ih (first + 1) (update table (pageAt target first) (some phys))
        (fun p hlo hhi => by rw [hsame p (by omega)]; exact hmapped p (by omega) (by omega))
        (fun p q hp hq => hapart p q (by omega) (by omega))
      rcases hrec with ⟨table', hloop, hat, hother⟩ | ⟨page, table', hloop, hlo, hhi, hother⟩
      · refine .inl ⟨table', hloop, fun p hlo hhi => ?_, fun a ha => ?_⟩
        · by_cases hp : p = first
          · subst hp
            rw [hother _ fun q hq _ heq => by have := pageAt_inj heq; omega, update_self, hphys]
          · rw [hat p (by omega) (by omega), hsame p (by omega)]
        · rw [hother a fun p hlo hhi => ha p (by omega) (by omega),
            update_of_ne (ha first le_rfl (by omega))]
      · refine .inr ⟨page, table', hloop, by omega, by omega, fun a ha => ?_⟩
        rw [hother a fun p hp hp' => ha p (by omega) hp', update_of_ne (ha first le_rfl (by omega))]
    · rw [if_neg hroom]
      exact .inr ⟨first, table, rfl, le_refl _, by omega, fun _ _ => rfl⟩

/-! ### Frames -/

/-- The frames that one call may be given: none in use, and no two the same. -/
structure Env.Fresh (env : Env) (table : Table) : Prop where
  unused : ∀ v f, env.grant v = some f → ∀ a, table a ≠ some f
  once : ∀ v v' f, env.grant v = some f → env.grant v' = some f → v = v'
  lt : ∀ v f, env.grant v = some f → f < 2 ^ 40

/-- There are not so many frames. -/
theorem pigeonhole (f : Nat → Option Nat)
    (hsome : ∀ p, first ≤ p → p < last → ∃ x, f p = some x ∧ x < 2 ^ 40)
    (hinj : ∀ p q x, first ≤ p → p < last → first ≤ q → q < last → f p = some x → f q = some x → p = q) :
    last - first ≤ 2 ^ 40 := by
  have hmaps : ∀ p ∈ Finset.Ico first last, (f p).getD 0 ∈ Finset.range (2 ^ 40) := by
    intro p hp
    obtain ⟨hlo, hhi⟩ := mem_Ico.mp hp
    obtain ⟨x, hx, hlt⟩ := hsome p hlo hhi
    rw [hx]
    exact Finset.mem_range.mpr hlt
  have hon : Set.InjOn (fun p => (f p).getD 0) (Finset.Ico first last) := by
    intro p hp q hq heq
    obtain ⟨hlo, hhi⟩ := mem_Ico.mp hp
    obtain ⟨hlo', hhi'⟩ := mem_Ico.mp hq
    obtain ⟨x, hx, -⟩ := hsome p hlo hhi
    obtain ⟨y, hy, -⟩ := hsome q hlo' hhi'
    have heq : (f p).getD 0 = (f q).getD 0 := heq
    rw [hx, hy] at heq
    have heq : x = y := heq
    subst heq
    exact hinj p q x hlo hhi hlo' hhi' hx hy
  have hcard := card_le_card_of_injOn _ hmaps hon
  rwa [Nat.card_Ico, card_range] at hcard

theorem Filled.length_le {table table' table₀ : Table} (hfresh : env.Fresh table₀)
    (h : Filled env start first last table table') : last - first ≤ 2 ^ 40 := by
  refine pigeonhole (fun p => env.grant (pageAt start p)) (fun p hlo hhi => ?_) fun p q x _ _ _ _ hp hq => ?_
  · obtain ⟨f, hf, -⟩ := h.at_page p hlo hhi
    exact ⟨f, hf, hfresh.lt _ _ hf⟩
  · exact pageAt_inj (hfresh.once _ _ _ hp hq)

/-! ### Blocks -/

/-- A live block, as its header has it. -/
structure Block where
  start : Nat
  mapped : Nat
  reserved : Nat
  deriving DecidableEq

def Block.span (b : Block) : Nat × Nat := (b.start, b.reserved * pageSize)

def Block.pointer (b : Block) : Nat := b.start + pageSize

/-- A page of the block that has a frame. -/
def Block.HasPage (b : Block) (a : Nat) : Prop := ∃ p < b.mapped, a = pageAt b.start p

structure Blocks (table : Table) (memory : Nat → Contents) (live : List Block) : Prop where
  shape : ∀ b ∈ live, b.start % pageSize = 0 ∧ 0 < b.mapped ∧ b.mapped ≤ b.reserved ∧ 1 < b.reserved
  headed : ∀ b ∈ live, ∃ phys, table b.start = some phys ∧ (memory phys).magic = magic ∧
    (memory phys).mapped = b.mapped ∧ (memory phys).reserved = b.reserved
  mapped_iff : ∀ a, (table a).isSome = true ↔ ∃ b ∈ live, b.HasPage a
  inj : ∀ a a' f, table a = some f → table a' = some f → a = a'
  frames : ∀ a f, table a = some f → f < 2 ^ 40

namespace Block

theorem hasPage_start {b : Block} (h : 0 < b.mapped) : b.HasPage b.start := by
  refine ⟨0, h, ?_⟩
  simp [pageAt]

/-- The pages of a block are in its range. -/
theorem HasPage.inside {b : Block} {a : Nat} (h : b.HasPage a) (hle : b.mapped ≤ b.reserved) :
    b.span.1 ≤ a ∧ a < b.span.1 + b.span.2 := by
  obtain ⟨p, hp, rfl⟩ := h
  unfold span pageAt pageSize
  omega

theorem HasPage.apart {b b' : Block} {a : Nat} (h : b.HasPage a) (hle : b.mapped ≤ b.reserved)
    (hle' : b'.mapped ≤ b'.reserved) (hapart : Apart b.span b'.span) : ¬ b'.HasPage a :=
  fun h' => hapart.not_mem (h.inside hle) (h'.inside hle')

end Block

namespace Blocks

variable {table table' : Table} {memory : Nat → Contents} {live : List Block} {b : Block}

theorem of_perm (h : Blocks table memory live) {live' : List Block} (hperm : live.Perm live') : Blocks table memory live' where
  shape := fun b hb => h.shape b (hperm.mem_iff.mpr hb)
  headed := fun b hb => h.headed b (hperm.mem_iff.mpr hb)
  mapped_iff := by
    intro a
    rw [h.mapped_iff]
    exact ⟨fun ⟨b, hb, hp⟩ => ⟨b, hperm.mem_iff.mp hb, hp⟩, fun ⟨b, hb, hp⟩ => ⟨b, hperm.mem_iff.mpr hb, hp⟩⟩
  inj := h.inj
  frames := h.frames

/-- A page outside the ranges of the blocks has no frame. -/
theorem none_of_apart (h : Blocks table memory live) {a : Nat} {r : Nat × Nat} (hin : r.1 ≤ a ∧ a < r.1 + r.2)
    (hapart : ∀ b ∈ live, Apart r b.span) : table a = none := by
  rw [← not_isSome_iff_eq_none, h.mapped_iff]
  rintro ⟨b, hb, hp⟩
  exact (hapart b hb).not_mem hin (hp.inside (h.shape b hb).2.2.1)

/-- A page of a block past those that have frames has none. -/
theorem none_past (h : Blocks table memory (b :: live)) (hapart : ∀ b' ∈ live, Apart b.span b'.span) {p : Nat}
    (hlo : b.mapped ≤ p) (hhi : p < b.reserved) : table (pageAt b.start p) = none := by
  rw [← not_isSome_iff_eq_none, h.mapped_iff]
  rintro ⟨b', hb', hp⟩
  rcases mem_cons.mp hb' with rfl | hb'
  · obtain ⟨q, hq, heq⟩ := hp
    have := pageAt_inj heq
    omega
  · refine (hapart b' hb').not_mem ?_ (hp.inside (h.shape b' (mem_cons_of_mem _ hb')).2.2.1)
    unfold Block.span pageAt pageSize
    omega

/-- No block has more pages than there are frames. -/
theorem mapped_le (h : Blocks table memory live) (hb : b ∈ live) : b.mapped ≤ 2 ^ 40 := by
  have hle : b.mapped - 0 ≤ 2 ^ 40 := pigeonhole (fun p => table (pageAt b.start p)) (fun p _ hhi => ?_)
    fun p q x _ _ _ _ hp hq => pageAt_inj (h.inj _ _ _ hp hq)
  · omega
  · obtain ⟨f, hf⟩ := isSome_iff_exists.mp ((h.mapped_iff _).mpr ⟨b, hb, p, hhi, rfl⟩)
    exact ⟨f, hf, h.frames _ _ hf⟩

end Blocks

namespace Blocks

variable {table table' : Table} {memory memory' : Nat → Contents} {live rest : List Block} {b : Block}

/-- A block is put in, with the frames `g` for its pages, and the other ones stay. -/
theorem install (h : Blocks table memory live) (hsub : ∀ b₂ ∈ rest, b₂ ∈ live)
    (hshape : b.start % pageSize = 0 ∧ 0 < b.mapped ∧ b.mapped ≤ b.reserved ∧ 1 < b.reserved) {g : Nat → Option Nat}
    (hsome : ∀ p < b.mapped, ∃ f, g p = some f ∧ f < 2 ^ 40)
    (hinj : ∀ p q f, p < b.mapped → q < b.mapped → g p = some f → g q = some f → p = q)
    (hown : ∀ p f, p < b.mapped → g p = some f → ∀ b₂ ∈ rest, ∀ a, b₂.HasPage a → table a ≠ some f)
    (hat : ∀ p < b.mapped, table' (pageAt b.start p) = g p)
    (hkeep : ∀ b₂ ∈ rest, ∀ a, b₂.HasPage a → ¬ b.HasPage a ∧ table' a = table a)
    (hnone : ∀ a, ¬ b.HasPage a → (∀ b₂ ∈ rest, ¬ b₂.HasPage a) → table' a = none)
    (hhead : ∀ f, g 0 = some f → (memory' f).magic = magic ∧ (memory' f).mapped = b.mapped ∧ (memory' f).reserved = b.reserved)
    (hmemory : ∀ f, g 0 ≠ some f → memory' f = memory f) : Blocks table' memory' (b :: rest) := by
  -- every frame of the new table is one of the block or of a page that stays
  have hcases : ∀ {a f}, table' a = some f → (∃ p < b.mapped, a = pageAt b.start p ∧ g p = some f) ∨
      ∃ b₂ ∈ rest, b₂.HasPage a ∧ table a = some f := by
    intro a f ha
    by_cases hpage : b.HasPage a
    · obtain ⟨p, hp, rfl⟩ := hpage
      exact .inl ⟨p, hp, rfl, (hat p hp).symm.trans ha⟩
    · by_cases hrest : ∃ b₂ ∈ rest, b₂.HasPage a
      · obtain ⟨b₂, hb₂, hpage₂⟩ := hrest
        exact .inr ⟨b₂, hb₂, hpage₂, ((hkeep b₂ hb₂ a hpage₂).2).symm.trans ha⟩
      · rw [hnone a hpage fun b₂ hb₂ hpage₂ => hrest ⟨b₂, hb₂, hpage₂⟩] at ha
        cases ha
  refine ⟨fun b₂ hb₂ => ?_, fun b₂ hb₂ => ?_, fun a => ⟨fun ha => ?_, ?_⟩, fun a a' f ha ha' => ?_, fun a f ha => ?_⟩
  · rcases mem_cons.mp hb₂ with rfl | hb₂
    · exact hshape
    · exact h.shape b₂ (hsub b₂ hb₂)
  · rcases mem_cons.mp hb₂ with rfl | hb₂
    · obtain ⟨f, hf, -⟩ := hsome 0 hshape.2.1
      have hstart := hat 0 hshape.2.1
      rw [show pageAt b₂.start 0 = b₂.start by simp [pageAt]] at hstart
      exact ⟨f, hstart.trans hf, hhead f hf⟩
    · obtain ⟨f, hf, hheader⟩ := h.headed b₂ (hsub b₂ hb₂)
      have hpage := Block.hasPage_start (h.shape b₂ (hsub b₂ hb₂)).2.1
      have hne : g 0 ≠ some f := fun heq => hown 0 f hshape.2.1 heq b₂ hb₂ _ hpage hf
      rw [← hmemory f hne] at hheader
      exact ⟨f, (hkeep b₂ hb₂ _ hpage).2.trans hf, hheader⟩
  · obtain ⟨f, hf⟩ := isSome_iff_exists.mp ha
    rcases hcases hf with ⟨p, hp, heq, -⟩ | ⟨b₂, hb₂, hpage, -⟩
    · exact ⟨b, mem_cons_self .., p, hp, heq⟩
    · exact ⟨b₂, mem_cons_of_mem _ hb₂, hpage⟩
  · rintro ⟨b₂, hb₂, hpage⟩
    rcases mem_cons.mp hb₂ with rfl | hb₂
    · obtain ⟨p, hp, rfl⟩ := hpage
      obtain ⟨f, hf, -⟩ := hsome p hp
      rw [hat p hp, hf]
      rfl
    · rw [(hkeep b₂ hb₂ a hpage).2]
      exact (h.mapped_iff a).mpr ⟨b₂, hsub b₂ hb₂, hpage⟩
  · rcases hcases ha with ⟨p, hp, rfl, hg⟩ | ⟨b₂, hb₂, hpage, ht⟩
    · rcases hcases ha' with ⟨q, hq, rfl, hg'⟩ | ⟨b₂', hb₂', hpage', ht'⟩
      · rw [hinj p q f hp hq hg hg']
      · exact absurd ht' (hown p f hp hg b₂' hb₂' _ hpage')
    · rcases hcases ha' with ⟨q, hq, rfl, hg'⟩ | ⟨b₂', hb₂', hpage', ht'⟩
      · exact absurd ht (hown q f hq hg' b₂ hb₂ _ hpage)
      · exact h.inj a a' f ht ht'
  · rcases hcases ha with ⟨p, hp, -, hg⟩ | ⟨b₂, hb₂, hpage, ht⟩
    · obtain ⟨f', hf', hlt⟩ := hsome p hp
      obtain rfl := some.inj (hg.symm.trans hf')
      exact hlt
    · exact h.frames a f ht

/-- A block is taken out. -/
theorem remove (h : Blocks table memory (b :: rest)) (hapart : ∀ b₂ ∈ rest, Apart b.span b₂.span)
    (hat : ∀ a, b.HasPage a → table' a = none) (hother : ∀ a, ¬ b.HasPage a → table' a = table a)
    (hmemory : ∀ f, table b.start ≠ some f → memory' f = memory f) : Blocks table' memory' rest := by
  have hsub : ∀ b₂ ∈ rest, b₂ ∈ b :: rest := fun b₂ hb₂ => mem_cons_of_mem _ hb₂
  have hb := mem_cons_self (a := b) (l := rest)
  have hnot : ∀ b₂ ∈ rest, ∀ a, b₂.HasPage a → ¬ b.HasPage a := fun b₂ hb₂ a hpage hpage' =>
    hpage'.apart (h.shape b hb).2.2.1 (h.shape b₂ (hsub b₂ hb₂)).2.2.1 (hapart b₂ hb₂) hpage
  have hcases : ∀ {a f}, table' a = some f → table a = some f := by
    intro a f ha
    by_cases hpage : b.HasPage a
    · rw [hat a hpage] at ha
      cases ha
    · rwa [hother a hpage] at ha
  refine ⟨fun b₂ hb₂ => h.shape b₂ (hsub b₂ hb₂), fun b₂ hb₂ => ?_, fun a => ⟨fun ha => ?_, ?_⟩,
    fun a a' f ha ha' => h.inj a a' f (hcases ha) (hcases ha'), fun a f ha => h.frames a f (hcases ha)⟩
  · obtain ⟨f, hf, hheader⟩ := h.headed b₂ (hsub b₂ hb₂)
    have hpage := Block.hasPage_start (h.shape b₂ (hsub b₂ hb₂)).2.1
    have hne : table b.start ≠ some f := by
      intro heq
      have hstart := h.inj _ _ f heq hf
      rw [← hstart] at hpage
      exact hnot b₂ hb₂ _ hpage (Block.hasPage_start (h.shape b hb).2.1)
    rw [← hmemory f hne] at hheader
    exact ⟨f, (hother _ (hnot b₂ hb₂ _ hpage)).trans hf, hheader⟩
  · obtain ⟨f, hf⟩ := isSome_iff_exists.mp ha
    obtain ⟨b₂, hb₂, hpage⟩ := (h.mapped_iff a).mp (isSome_iff_exists.mpr ⟨f, hcases hf⟩)
    rcases mem_cons.mp hb₂ with rfl | hb₂
    · rw [hat a hpage] at hf
      cases hf
    · exact ⟨b₂, hb₂, hpage⟩
  · rintro ⟨b₂, hb₂, hpage⟩
    rw [hother a (hnot b₂ hb₂ a hpage)]
    exact (h.mapped_iff a).mpr ⟨b₂, hsub b₂ hb₂, hpage⟩

end Blocks

/-- The header of a live block. -/
theorem header_live {retired : Retired} {live : List Block} (hspace : Space A s retired (live.map Block.span))
    (hblocks : Blocks s.table s.memory live) {b : Block} (hb : b ∈ live) :
    ∃ phys, s.table b.start = some phys ∧ header A s b.pointer = some (phys, s.memory phys) ∧
      (s.memory phys).mapped = b.mapped ∧ (s.memory phys).reserved = b.reserved := by
  obtain ⟨hpage, -, -, hreserved⟩ := hblocks.shape b hb
  obtain ⟨phys, hphys, hmagic, hmapped, hres⟩ := hblocks.headed b hb
  have hin := hspace.ranges.inside b.span (mem_append_left _ (mem_map_of_mem hb))
  have hnext := hspace.next_le
  have hcontains : contains A b.pointer = true ∧ b.pointer % pageSize = 0 := by
    unfold Block.span Block.pointer contains pageSize at *
    dsimp only at hin
    exact ⟨decide_eq_true (by omega), by omega⟩
  refine ⟨phys, hphys, ?_, hmapped, hres⟩
  unfold header
  rw [if_pos hcontains, Block.pointer, Nat.add_sub_cancel, hphys]
  exact if_pos hmagic

end HamixOS.Kernel.Vmalloc
