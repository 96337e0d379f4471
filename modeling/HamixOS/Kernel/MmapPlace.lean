import HamixOS.Lib.Machine
import HamixOS.Kernel.Mmap

namespace HamixOS.Kernel

namespace Mmap

open Lib List Option Vm

/-!
# Mappings are placed on vacant pages

`Inv` says that no page is mapped where a mapping without `MAP_FIXED` can be placed: in a free
range, from the bump pointer on, and from the bump pointer of the shared area on.

* `Inv.reuse`, `Inv.bump`, `Inv.claim`, `Inv.release` — what the parts of the calls keep;
* `placed_vacant` — in every run whose `munmap` calls leave no live page in the guard page they
  free, a mapping is placed on vacant pages and no other page changes;
* `munmap_frees_live_page` — a run with such a `munmap` call.
-/

variable {L : Layout} {v w : Vm}

/-- A page that a mapping can be placed on. -/
def Reserved (L : Layout) (v : Vm) (p : Nat) : Prop :=
  (Covers v.free p ∧ p < L.shmBase) ∨ (v.next ≤ p ∧ p < L.shmBase) ∨ (v.shmNext ≤ p ∧ p < L.fbBase)

structure Inv (L : Layout) (v : Vm) : Prop where
  next_lo : L.mmapBase ≤ v.next
  next_hi : v.next ≤ L.shmBase + 1
  ranges : Ranges L.mmapBase v.next v.free
  shm_lo : L.shmBase ≤ v.shmNext
  vacant : ∀ p, Reserved L v p → v.page p = none

/-- The pages `start`, …, `start + n - 1`. -/
def Within (start n p : Nat) : Prop := start ≤ p ∧ p < start + n

instance (start n p : Nat) : Decidable (Within start n p) := inferInstanceAs (Decidable (_ ∧ _))

theorem page_mapRange (start n : Nat) (what : Nat → Page) (p : Nat) :
    (v.mapRange start n what).page p = if Within start n p then some (what p) else v.page p := rfl

theorem page_unmapRange (start n p : Nat) :
    (v.unmapRange start n).page p = if Within start n p then none else v.page p := rfl

namespace Inv

section

variable (h : Inv L v)

include h

/-- Fewer pages are reserved, and those that are stay vacant. -/
theorem shrink (hlo : L.mmapBase ≤ w.next) (hhi : w.next ≤ L.shmBase + 1)
    (hranges : Ranges L.mmapBase w.next w.free) (hshm : L.shmBase ≤ w.shmNext)
    (hres : ∀ p, Reserved L w p → Reserved L v p ∧ (v.page p = none → w.page p = none)) : Inv L w where
  next_lo := hlo
  next_hi := hhi
  ranges := hranges
  shm_lo := hshm
  vacant := by
    intro p hp
    obtain ⟨hold, hpage⟩ := hres p hp
    exact hpage (h.vacant p hold)

/-- Pages that are not reserved change, or pages become vacant. -/
theorem repage (hfree : w.free = v.free) (hnext : w.next = v.next) (hshm : w.shmNext = v.shmNext)
    (hpage : ∀ p, Reserved L v p → v.page p = none → w.page p = none) : Inv L w := by
  have hres : ∀ p, Reserved L w p ↔ Reserved L v p := by
    intro p
    unfold Reserved
    rw [hfree, hnext, hshm]
  refine h.shrink (by rw [hnext]; exact h.next_lo) (by rw [hnext]; exact h.next_hi) ?_ (by rw [hshm]; exact h.shm_lo) ?_
  · rw [hfree, hnext]
    exact h.ranges
  · exact fun p hp => ⟨(hres p).mp hp, hpage p ((hres p).mp hp)⟩

theorem unmapRange (start n : Nat) : Inv L (v.unmapRange start n) := by
  refine h.repage rfl rfl rfl ?_
  intro p _ hp
  rw [page_unmapRange, hp]
  exact ite_self _

/-- A range of the list is in the mmap area, but for a guard page behind it. -/
theorem range_inside {r : Nat × Nat} (hr : r ∈ v.free) : L.mmapBase ≤ r.1 ∧ r.1 + r.2 ≤ L.shmBase + 1 :=
  ⟨(h.ranges.inside r hr).1, le_trans (h.ranges.inside r hr).2 h.next_hi⟩

theorem vacant_range {r : Nat × Nat} (hr : r ∈ v.free) {size : Nat} (hsize : size + 1 ≤ r.2) {p : Nat}
    (hp : Within r.1 size p) : v.page p = none := by
  have hin := h.range_inside hr
  unfold Within at hp
  exact h.vacant p (.inl ⟨⟨r, hr, hp.1, by omega⟩, by omega⟩)

/-- A mapping takes the front of a free range and a guard page. -/
theorem reuse {i size : Nat} (hi : i < v.free.length) {r : Nat × Nat} (hr : v.free.getD i (0, 0) = r)
    (hsize : size + 1 ≤ r.2) : Inv L (v.carve i r.1 r.2 (size + 1)) ∧
      ∀ p, Reserved L (v.carve i r.1 r.2 (size + 1)) p → ¬ Within r.1 size p := by
  have hmem : r ∈ v.free := (perm_cons_eraseIdx hi (0, 0)).mem_iff.mpr (by rw [hr]; exact mem_cons_self ..)
  have hin := h.ranges.inside r hmem
  obtain ⟨hranges, hcovers⟩ := h.ranges.carve hi hr hsize
  refine ⟨h.shrink (w := v.carve i r.1 r.2 (size + 1)) h.next_lo h.next_hi hranges h.shm_lo ?_, ?_⟩
  · rintro p (⟨hc, hlt⟩ | hp)
    · exact ⟨.inl ⟨(hcovers p hc).1, hlt⟩, id⟩
    · exact ⟨.inr hp, id⟩
  · have hhi := h.next_hi
    have hshm := h.shm_lo
    rintro p (⟨hc, hlt⟩ | ⟨hn, hlt⟩ | ⟨hn, hlt⟩) hw
    · exact (hcovers p hc).2 ⟨hw.1, by have := hw.2; omega⟩
    · have hnext : v.next ≤ p := hn
      have := hw.2
      omega
    · have hnext : v.shmNext ≤ p := hn
      have := hw.2
      omega

/-- A mapping is placed at the bump pointer. -/
theorem bump {size : Nat} (hroom : ¬ L.shmBase ≤ v.next + size) :
    Inv L { v with next := v.next + size + 1 } ∧
      ∀ p, Reserved L { v with next := v.next + size + 1 } p → ¬ Within v.next size p := by
  have hlo := h.next_lo
  have hshm := h.shm_lo
  refine ⟨h.shrink (by show L.mmapBase ≤ v.next + size + 1; omega) (by show v.next + size + 1 ≤ _; omega)
    (h.ranges.mono le_rfl (by show v.next ≤ v.next + size + 1; omega)) h.shm_lo ?_, ?_⟩
  · rintro p (hp | ⟨hn, hlt⟩ | hp)
    · exact ⟨.inl hp, id⟩
    · have hn' : v.next + size + 1 ≤ p := hn
      exact ⟨.inr (.inl ⟨by omega, hlt⟩), id⟩
    · exact ⟨.inr (.inr hp), id⟩
  · rintro p (⟨⟨r, hr, hrp⟩, hlt⟩ | ⟨hn, hlt⟩ | ⟨hn, hlt⟩) hw
    · have hin := (h.ranges.inside r hr).2
      have := hw.1
      omega
    · have hn' : v.next + size + 1 ≤ p := hn
      have := hw.2
      omega
    · have hn' : v.shmNext ≤ p := hn
      have := hw.2
      omega

end

/-! ### Claiming a range -/

theorem keptOf_spec (start stop : Nat) (hle : start ≤ stop) (r : Nat × Nat) :
    (∀ q ∈ keptOf start stop r, r.1 ≤ q.1 ∧ q.1 + q.2 ≤ r.1 + r.2 ∧ (q.1 + q.2 ≤ start ∨ stop ≤ q.1)) ∧
      (keptOf start stop r).Pairwise Apart := by
  unfold keptOf
  split
  · next hout =>
    refine ⟨?_, pairwise_singleton _ _⟩
    intro q hq
    rw [mem_singleton.mp hq]
    exact ⟨le_refl _, le_refl _, hout⟩
  · next hmeet =>
    have hsub : ∀ q, q ∈ (if r.1 < start then [(r.1, start - r.1)] else []) ++
        (if stop < r.1 + r.2 then [(stop, r.1 + r.2 - stop)] else []) →
        (r.1 < start ∧ q = (r.1, start - r.1)) ∨ (stop < r.1 + r.2 ∧ q = (stop, r.1 + r.2 - stop)) := by
      intro q hq
      rcases mem_append.mp hq with hq | hq
      · rw [mem_ite_nil_right, mem_singleton] at hq
        exact .inl hq
      · rw [mem_ite_nil_right, mem_singleton] at hq
        exact .inr hq
    refine ⟨?_, ?_⟩
    · intro q hq
      rcases hsub q hq with ⟨hlt, rfl⟩ | ⟨hlt, rfl⟩
      · dsimp only
        omega
      · dsimp only
        omega
    · -- the piece before the claimed range ends where that begins
      split <;> split
      · refine pairwise_pair.mpr (.inl ?_)
        omega
      · exact pairwise_singleton _ _
      · exact pairwise_singleton _ _
      · exact .nil

/-- After a claim the pages of the range may be mapped. -/
theorem claim (h : Inv L v) {start n : Nat} (hroom : start + n ≤ L.shmBase)
    (hpage : ∀ p, ¬ Within start n p → w.page p = v.page p) (hshm : w.shmNext = v.shmNext)
    (hfree : w.free = (v.claimRange L start n).free) (hnext : w.next = (v.claimRange L start n).next) : Inv L w := by
  have hlo := h.next_lo
  have hhi := h.next_hi
  have hslo := h.shm_lo
  unfold claimRange at hfree hnext
  dsimp only at hfree hnext
  split at hfree
  · next hout =>
    -- the range lies below the area, or is empty
    rw [if_pos hout] at hnext
    have haway : ∀ p, Reserved L v p → ¬ Within start n p := by
      rintro p (⟨⟨r, hr, hrp⟩, hlt⟩ | ⟨hn, hlt⟩ | ⟨hn, hlt⟩) hw
      · have := (h.ranges.inside r hr).1
        have := hw.2
        have := hw.1
        omega
      · have := hw.2
        have := hw.1
        omega
      · have := hw.2
        omega
    exact h.repage hfree hnext hshm fun p hp hvac => (hpage p (haway p hp)).trans hvac
  · next hin =>
    rw [if_neg hin] at hnext
    dsimp only at hfree hnext
    have hmax : max v.next L.mmapBase = v.next := max_eq_left hlo
    rw [hmax] at hfree
    -- the pieces of the free ranges and the gap up to the claimed range
    have hpieces : Ranges L.mmapBase v.next (v.free.flatMap (keptOf start (start + n))) :=
      h.ranges.pieces (fun r q hq => ⟨((keptOf_spec _ _ (by omega) r).1 q hq).1, ((keptOf_spec _ _ (by omega) r).1 q hq).2.1⟩)
        fun r => (keptOf_spec _ _ (by omega) r).2
    have hkept : ∀ p, Covers (v.free.flatMap (keptOf start (start + n))) p → Covers v.free p ∧ ¬ Within start n p := by
      rintro p ⟨q, hq, hqp⟩
      obtain ⟨r, hr, hqr⟩ := mem_flatMap.mp hq
      obtain ⟨h1, h2, h3⟩ := (keptOf_spec start (start + n) (by omega) r).1 q hqr
      refine ⟨⟨r, hr, by omega⟩, fun hw => ?_⟩
      have := hw.1
      have := hw.2
      omega
    have hall : Ranges L.mmapBase w.next w.free ∧
        ∀ p, Covers w.free p → (Covers v.free p ∨ v.next ≤ p) ∧ ¬ Within start n p := by
      by_cases hpast : v.next < start + n
      · rw [if_pos hpast] at hnext
        by_cases hgap : v.next < start
        · rw [if_pos ⟨hpast, hgap⟩] at hfree
          have hpush : Ranges L.mmapBase w.next (v.free.flatMap (keptOf start (start + n)) ++ [(v.next, start - v.next)]) := by
            refine (hpieces.mono le_rfl (by omega)).push ⟨by dsimp only; omega, by dsimp only; omega⟩ ?_
            exact fun q hq => .inl (hpieces.inside q hq).2
          refine ⟨hfree ▸ hpush.sublist filter_sublist, ?_⟩
          rintro p ⟨q, hq, hqp⟩
          rw [hfree] at hq
          rcases mem_append.mp (mem_of_mem_filter hq) with hq | hq
          · have := hkept p ⟨q, hq, hqp⟩
            exact ⟨.inl this.1, this.2⟩
          · rw [mem_singleton.mp hq] at hqp
            dsimp only at hqp
            refine ⟨.inr hqp.1, fun hw => ?_⟩
            have := hw.1
            omega
        · rw [if_neg fun hc => hgap hc.2, List.append_nil] at hfree
          refine ⟨hfree ▸ (hpieces.mono le_rfl (by omega)).sublist filter_sublist, ?_⟩
          rintro p ⟨q, hq, hqp⟩
          rw [hfree] at hq
          have := hkept p ⟨q, mem_of_mem_filter hq, hqp⟩
          exact ⟨.inl this.1, this.2⟩
      · rw [if_neg hpast] at hnext
        rw [if_neg fun hc => hpast hc.1, List.append_nil] at hfree
        refine ⟨?_, ?_⟩
        · rw [hfree, hnext]
          exact hpieces.sublist filter_sublist
        · rintro p ⟨q, hq, hqp⟩
          rw [hfree] at hq
          have := hkept p ⟨q, mem_of_mem_filter hq, hqp⟩
          exact ⟨.inl this.1, this.2⟩
    have hnextge : v.next ≤ w.next ∧ start + n ≤ w.next ∧ w.next ≤ L.shmBase + 1 := by
      split at hnext <;> omega
    have hres : ∀ p, Reserved L w p → Reserved L v p ∧ ¬ Within start n p := by
      rintro p (⟨hc, hlt⟩ | ⟨hn, hlt⟩ | ⟨hn, hlt⟩)
      · obtain ⟨hold, haway⟩ := hall.2 p hc
        refine ⟨?_, haway⟩
        rcases hold with hold | hold
        · exact .inl ⟨hold, hlt⟩
        · exact .inr (.inl ⟨hold, hlt⟩)
      · refine ⟨.inr (.inl ⟨by omega, hlt⟩), fun hw => ?_⟩
        have := hw.2
        omega
      · rw [hshm] at hn
        refine ⟨.inr (.inr ⟨hn, hlt⟩), fun hw => ?_⟩
        have := hw.2
        omega
    refine h.shrink (by omega) hnextge.2.2 hall.1 (by omega) ?_
    intro p hp
    refine ⟨(hres p hp).1, fun hvac => ?_⟩
    rw [hpage p (hres p hp).2]
    exact hvac

end Inv

/-! ### Releasing a range -/

/-- What the loop of `release_mmap_range` makes of a range and the free ranges. -/
structure Absorbed (lo hi start stop : Nat) (free : List (Nat × Nat)) (a : (Nat × Nat) × List (Nat × Nat)) : Prop where
  start_le : a.1.1 ≤ start
  le_stop : stop ≤ a.1.2
  lo_le : min lo start ≤ a.1.1
  rest : Ranges lo hi a.2
  covers : ∀ p, Covers a.2 p → Covers free p
  merged : ∀ p, a.1.1 ≤ p → p < a.1.2 → Covers free p ∨ (start ≤ p ∧ p < stop)
  apart : ∀ r ∈ a.2, r.1 + r.2 < a.1.1 ∨ a.1.2 < r.1

theorem absorbed {lo hi : Nat} (fuel : Nat) : ∀ {start stop : Nat} {free : List (Nat × Nat)}, free.length ≤ fuel → start ≤ stop →
    Ranges lo hi free → Absorbed lo hi start stop free (Vm.absorb fuel start stop free) := by
  induction fuel with
  | zero =>
    intro start stop free hlen _ hr
    rw [length_eq_zero_iff.mp (Nat.le_zero.mp hlen)] at hr ⊢
    exact ⟨le_refl _, le_refl _, min_le_right _ _, hr, fun _ => id, fun p h1 h2 => .inr ⟨h1, h2⟩, nofun⟩
  | succ fuel ih =>
    intro start stop free hlen hle hr
    unfold Vm.absorb
    split
    · next hnone =>
      refine ⟨le_refl _, le_refl _, min_le_right _ _, hr, fun _ => id, fun p h1 h2 => .inr ⟨h1, h2⟩, ?_⟩
      intro r hmem
      have hno := findIdx?_eq_none_iff.mp hnone r hmem
      have hno : ¬ (start ≤ r.1 + r.2 ∧ r.1 ≤ stop) := of_decide_eq_false hno
      dsimp only
      omega
    · next i hi =>
      obtain ⟨hlt, htouch, -⟩ := findIdx?_eq_some_iff_getElem.mp hi
      have hget : free.getD i (0, 0) = free[i] := by
        rw [getD_eq_getElem?_getD, getElem?_eq_getElem hlt, getD_some]
      dsimp only
      rw [hget]
      generalize free[i] = r at htouch hget
      have htouch : start ≤ r.1 + r.2 ∧ r.1 ≤ stop := of_decide_eq_true htouch
      have hperm : free.Perm (r :: swapRemove free i) := by
        have hcons := perm_cons_eraseIdx hlt (0, 0)
        rw [hget] at hcons
        exact hcons.trans ((swapRemove_perm hlt).symm.cons r)
      have hrest := hr.of_perm hperm
      have hin := hrest.inside r (mem_cons_self ..)
      have hlen' : (swapRemove free i).length ≤ fuel := by
        have := hperm.length_eq
        rw [length_cons] at this
        omega
      have ha := ih hlen' (show min start r.1 ≤ max stop (r.1 + r.2) by omega) hrest.tail
      refine ⟨?_, ?_, ?_, ha.rest, ?_, ?_, ha.apart⟩
      · exact le_trans ha.start_le (min_le_left _ _)
      · exact le_trans (le_max_left _ _) ha.le_stop
      · exact le_trans (by omega) ha.lo_le
      · intro p hp
        obtain ⟨q, hq, hqp⟩ := ha.covers p hp
        exact covers_of_perm hperm.symm ⟨q, mem_cons_of_mem _ hq, hqp⟩
      · intro p h1 h2
        rcases ha.merged p h1 h2 with ⟨q, hq, hqp⟩ | hin'
        · exact .inl (covers_of_perm hperm.symm ⟨q, mem_cons_of_mem _ hq, hqp⟩)
        · -- the range and the one that touches it leave no gap
          by_cases hself : start ≤ p ∧ p < stop
          · exact .inr hself
          · exact .inl (covers_of_perm hperm.symm ⟨r, mem_cons_self .., by omega⟩)

namespace Inv

/-- A range is free again: its pages and the guard page behind it are vacant. -/
theorem release (h : Inv L v) {start n : Nat} (hlo : L.mmapBase ≤ start) (hroom : start + n ≤ L.shmBase)
    (hvac : ∀ p, start ≤ p → p < start + n + 1 → p < L.shmBase → v.page p = none) : Inv L (v.releaseMmapRange L start n) := by
  have ha := absorbed v.free.length le_rfl (show start ≤ start + n + 1 by omega) h.ranges
  unfold releaseMmapRange
  generalize Vm.absorb v.free.length start (start + n + 1) v.free = a at ha
  obtain ⟨⟨first, last⟩, rest⟩ := a
  have h1 := ha.start_le
  have h2 := ha.le_stop
  have h3 := ha.lo_le
  have hnlo := h.next_lo
  have hnhi := h.next_hi
  dsimp only at h1 h2 h3 ⊢
  have hmerged : ∀ p, first ≤ p → p < last → p < L.shmBase → v.page p = none := by
    intro p hp hp' hlt
    rcases ha.merged p hp hp' with hc | hself
    · exact h.vacant p (.inl ⟨hc, hlt⟩)
    · exact hvac p hself.1 hself.2 hlt
  have hfirst : L.mmapBase ≤ first := by omega
  by_cases hend : v.next ≤ last
  · rw [if_pos hend, max_eq_left hfirst]
    refine ⟨hfirst, by show first ≤ _; omega, ⟨?_, ha.rest.apart⟩, h.shm_lo, ?_⟩
    · -- what is left of the list lies below the range
      intro r hr
      have hin := ha.rest.inside r hr
      refine ⟨hin.1, ?_⟩
      show r.1 + r.2 ≤ first
      rcases ha.apart r hr with hbelow | habove
      · exact le_of_lt hbelow
      · dsimp only at habove
        omega
    · rintro p (⟨hc, hlt⟩ | ⟨hn, hlt⟩ | hs)
      · exact h.vacant p (.inl ⟨ha.covers p hc, hlt⟩)
      · by_cases hp : p < last
        · exact hmerged p hn hp hlt
        · exact h.vacant p (.inr (.inl ⟨by omega, hlt⟩))
      · exact h.vacant p (.inr (.inr hs))
  · rw [if_neg hend]
    refine ⟨hnlo, hnhi, ?_, h.shm_lo, ?_⟩
    · refine ha.rest.push ⟨hfirst, by dsimp only; omega⟩ ?_
      intro r hr
      rcases ha.apart r hr with hbelow | habove
      · exact .inl (le_of_lt hbelow)
      · refine .inr ?_
        dsimp only at habove ⊢
        omega
    · rintro p (⟨⟨r, hr, hrp⟩, hlt⟩ | hs)
      · rcases mem_append.mp hr with hr | hr
        · exact h.vacant p (.inl ⟨ha.covers p ⟨r, hr, hrp⟩, hlt⟩)
        · rw [mem_singleton.mp hr] at hrp
          dsimp only at hrp
          exact hmerged p hrp.1 (by omega) hlt
      · exact h.vacant p (.inr hs)

end Inv

/-! ### The calls -/

/-- A mapping was placed on vacant pages, and nothing else changed. -/
structure Placed (v w : Vm) (start n : Nat) : Prop where
  vacant : ∀ p, Within start n p → v.page p = none
  outside : ∀ p, ¬ Within start n p → w.page p = v.page p

namespace Inv

theorem mapRange (h : Inv L v) {start n : Nat} (what : Nat → Page) (haway : ∀ p, Reserved L v p → ¬ Within start n p) :
    Inv L (v.mapRange start n what) := by
  refine h.repage rfl rfl rfl ?_
  intro p hp hvac
  rw [page_mapRange, if_neg (haway p hp)]
  exact hvac

/-- What `findIdx?` finds is an element that passes the test. -/
theorem findIdx_spec {free : List (Nat × Nat)} {test : Nat × Nat → Bool} {i : Nat} (h : free.findIdx? test = some i) :
    i < free.length ∧ free.getD i (0, 0) ∈ free ∧ test (free.getD i (0, 0)) = true := by
  obtain ⟨hlt, htest, -⟩ := findIdx?_eq_some_iff_getElem.mp h
  have hget : free.getD i (0, 0) = free[i] := by
    rw [getD_eq_getElem?_getD, getElem?_eq_getElem hlt, getD_some]
  rw [hget]
  exact ⟨hlt, getElem_mem hlt, htest⟩

theorem sysMmap (h : Inv L v) (len : Nat) (ok : Bool) :
    Inv L (v.sysMmap L len ok).1 ∧
      ∀ base, (v.sysMmap L len ok).2 = .ok base → Placed v (v.sysMmap L len ok).1 base (pages len) := by
  unfold Vm.sysMmap
  split
  · exact ⟨h, nofun⟩
  · dsimp only
    split
    · next i hi =>
      obtain ⟨hlt, hmem, htest⟩ := findIdx_spec hi
      have hsize : pages len + 1 ≤ (v.free.getD i (0, 0)).2 := of_decide_eq_true htest
      generalize hr : v.free.getD i (0, 0) = r at hmem hsize
      obtain ⟨hinv, haway⟩ := h.reuse hlt hr hsize
      by_cases hok : ok = true
      · rw [if_pos hok]
        refine ⟨hinv.mapRange (fun _ => .anon) haway, ?_⟩
        intro base hbase
        cases hbase
        exact ⟨fun p hp => h.vacant_range hmem hsize hp, fun p hp => if_neg hp⟩
      · rw [if_neg hok]
        exact ⟨h.unmapRange _ _, nofun⟩
    · split
      · exact ⟨h, nofun⟩
      · next hroom =>
        obtain ⟨hinv, haway⟩ := h.bump hroom
        by_cases hok : ok = true
        · rw [if_pos hok]
          refine ⟨hinv.mapRange (fun _ => .anon) haway, ?_⟩
          intro base hbase
          cases hbase
          refine ⟨fun p hp => ?_, fun p hp => if_neg hp⟩
          have := hp.2
          exact h.vacant p (.inr (.inl ⟨hp.1, by omega⟩))
        · rw [if_neg hok]
          exact ⟨h.unmapRange _ _, nofun⟩

theorem findFree (h : Inv L v) {size base : Nat} (hf : v.findFree L size = some (base, w)) :
    Inv L w ∧ w.page = v.page ∧ (∀ p, Within base size p → v.page p = none) ∧ ∀ p, Reserved L w p → ¬ Within base size p := by
  unfold Vm.findFree at hf
  split at hf
  · next i hi =>
    obtain ⟨hlt, hmem, htest⟩ := findIdx_spec hi
    have hsize : size + 1 ≤ (v.free.getD i (0, 0)).2 := (of_decide_eq_true htest).1
    generalize hr : v.free.getD i (0, 0) = r at hmem hsize hf
    cases hf
    obtain ⟨hinv, haway⟩ := h.reuse hlt hr hsize
    exact ⟨hinv, rfl, fun p hp => h.vacant_range hmem hsize hp, haway⟩
  · dsimp only at hf
    rw [max_eq_left h.next_lo] at hf
    split at hf
    · cases hf
    · next hroom =>
      cases hf
      obtain ⟨hinv, haway⟩ := h.bump hroom
      refine ⟨hinv, rfl, fun p hp => ?_, haway⟩
      have := hp.2
      exact h.vacant p (.inr (.inl ⟨hp.1, by omega⟩))

theorem page_claimRange (v : Vm) (start n : Nat) : (v.claimRange L start n).page = v.page := by
  unfold claimRange
  dsimp only
  split <;> rfl

theorem shmNext_claimRange (v : Vm) (start n : Nat) : (v.claimRange L start n).shmNext = v.shmNext := by
  unfold claimRange
  dsimp only
  split <;> rfl

theorem mmap (h : Inv L v) (fixed : Option (Nat × Bool)) (len : Nat) (what : Nat → Page) (ok : Bool) :
    Inv L (v.mmap L fixed len what ok).1 ∧
      ∀ base, fixed = none → (v.mmap L fixed len what ok).2 = .ok base →
        Placed v (v.mmap L fixed len what ok).1 base (pages len) := by
  unfold Vm.mmap
  split
  · exact ⟨h, nofun⟩
  · dsimp only
    split
    · next addr noreplace =>
      refine ⟨?_, nofun⟩
      split
      · exact h
      · next hroom =>
        split
        · exact h
        · -- the range is unmapped, claimed and mapped again
          have hroom' : addr + pages len ≤ L.shmBase := by omega
          have hinv := h.unmapRange addr (pages len)
          generalize v.unmapRange addr (pages len) = u at hinv
          split
          · refine hinv.claim hroom' ?_ (shmNext_claimRange _ _ _) rfl rfl
            intro p hp
            rw [page_mapRange, if_neg hp, page_claimRange]
          · refine hinv.claim hroom' ?_ (shmNext_claimRange _ _ _) rfl rfl
            intro p hp
            rw [page_unmapRange, if_neg hp, page_claimRange]
    · split
      · exact ⟨h, fun _ _ => nofun⟩
      · next base w hf =>
        obtain ⟨hinv, hpage, hvac, haway⟩ := h.findFree hf
        by_cases hok : ok = true
        · rw [if_pos hok]
          refine ⟨hinv.mapRange what haway, ?_⟩
          intro b _ hb
          cases hb
          refine ⟨hvac, fun p hp => ?_⟩
          rw [page_mapRange, if_neg hp, hpage]
        · rw [if_neg hok]
          exact ⟨hinv.unmapRange _ _, fun _ _ => nofun⟩

/-- Segments inside a range are unmapped: nothing outside it changes. -/
theorem ipcUnmap (h : Inv L v) (start n : Nat) :
    Inv L (v.ipcUnmap start n).1 ∧ (v.ipcUnmap start n).1.next = v.next ∧
      (∀ p, v.page p = none → (v.ipcUnmap start n).1.page p = none) := by
  unfold Vm.ipcUnmap
  dsimp only
  generalize v.shm.filter (fun r => decide (start ≤ r.1 ∧ r.1 + r.2 ≤ start + n)) = gone
  generalize v.shm.filter (fun r => decide ¬ (start ≤ r.1 ∧ r.1 + r.2 ≤ start + n)) = left
  have hbegin : Inv L { v with shm := left } := h.repage rfl rfl rfl fun _ _ => id
  have hfold : ∀ (u : Vm), Inv L u → u.next = v.next → (∀ p, v.page p = none → u.page p = none) →
      Inv L (gone.foldl (fun w r => w.unmapRange r.1 r.2) u) ∧
        (gone.foldl (fun w r => w.unmapRange r.1 r.2) u).next = v.next ∧
          (∀ p, v.page p = none → (gone.foldl (fun w r => w.unmapRange r.1 r.2) u).page p = none) := by
    induction gone with
    | nil => exact fun u hu hn hp => ⟨hu, hn, hp⟩
    | cons r gone ih =>
      intro u hu hn hp
      refine ih (u.unmapRange r.1 r.2) (hu.unmapRange _ _) hn ?_
      intro p hvac
      rw [page_unmapRange, hp p hvac]
      exact ite_self _
  exact hfold _ hbegin rfl fun _ => id

theorem mmapShared (h : Inv L v) (fixed : Option (Nat × Bool)) (len : Nat) (what : Nat → Page) (room : Bool) (mapped : Nat)
    (hwhole : fixed = none → mapped = 0 ∨ pages len ≤ mapped) :
    Inv L (v.mmapShared L fixed len what room mapped).1 ∧
      ∀ base, fixed = none → (v.mmapShared L fixed len what room mapped).2 = .ok base →
        Placed v (v.mmapShared L fixed len what room mapped).1 base (pages len) := by
  unfold Vm.mmapShared
  split
  · exact ⟨h, nofun⟩
  · dsimp only
    split
    · next addr noreplace =>
      refine ⟨?_, nofun⟩
      split
      · exact h
      · next hroom =>
        split
        · exact h
        · have hroom' : addr + pages len ≤ L.shmBase := by omega
          generalize hu : (v.ipcUnmap addr (pages len)).1 = u
          have hinv : Inv L u := hu ▸ (h.ipcUnmap addr (pages len)).1
          unfold Vm.shmMapAt
          by_cases hhas : ¬ room
          · rw [if_pos hhas]
            exact hinv.claim hroom' (fun p _ => by rw [page_claimRange]) (shmNext_claimRange _ _ _) rfl rfl
          · rw [if_neg hhas]
            dsimp only [getD_some, isNone_some, isSome_some]
            rw [if_neg fun hc => Bool.false_ne_true hc.1, if_pos rfl]
            -- the frames are mapped inside the claimed range
            have houtside : ∀ p, ¬ Within addr (pages len) p →
                (((u.claimRange L addr (pages len)).unmapRange addr (pages len)).mapRange addr (min mapped (pages len)) what).page p =
                  u.page p := by
              intro p hp
              rw [page_mapRange, if_neg fun hc => hp ⟨hc.1, by have := hc.2; omega⟩, page_unmapRange, if_neg hp, page_claimRange]
            split
            · exact hinv.claim hroom' houtside (shmNext_claimRange _ _ _) rfl rfl
            · dsimp only
              refine hinv.claim hroom' ?_ ?_ rfl rfl
              · exact houtside
              · exact shmNext_claimRange _ _ _
    · unfold Vm.shmMapAt
      by_cases hhas : ¬ room
      · rw [if_pos hhas]
        exact ⟨h, fun _ _ => nofun⟩
      · rw [if_neg hhas]
        dsimp only [getD_none, isNone_none, isSome_none]
        have hnone : ¬ (false : Bool) = true := Bool.false_ne_true
        simp only [if_neg hnone, if_true, true_and]
        split
        · exact ⟨h, fun _ _ => nofun⟩
        · next hfits =>
          have hslo := h.shm_lo
          have hin : ∀ p, Within v.shmNext (pages len) p → Reserved L v p := by
            intro p hp
            have := hp.2
            exact .inr (.inr ⟨hp.1, by omega⟩)
          split
          · next hshort =>
            refine ⟨?_, fun _ _ => nofun⟩
            rcases hwhole rfl with h0 | hall
            · -- no frame was mapped
              refine h.repage rfl rfl rfl ?_
              intro p _ hvac
              rw [page_mapRange, if_neg, hvac]
              intro hc
              have := hc.1
              have := hc.2
              omega
            · omega
          · next hfull =>
            have hmin : min mapped (pages len) = pages len := by omega
            rw [hmin]
            refine ⟨?_, ?_⟩
            · refine h.shrink h.next_lo h.next_hi h.ranges ?_ ?_
              · show L.shmBase ≤ v.shmNext + pages len + 1
                omega
              · have hpage : ∀ p, ¬ Within v.shmNext (pages len) p → v.page p = none →
                    (v.mapRange v.shmNext (pages len) what).page p = none := by
                  intro p hp hvac
                  rw [page_mapRange, if_neg hp]
                  exact hvac
                rintro p (hp | hp | ⟨hn, hlt⟩)
                · refine ⟨.inl hp, hpage p fun hw => ?_⟩
                  have := hp.2
                  have := hw.1
                  omega
                · refine ⟨.inr (.inl hp), hpage p fun hw => ?_⟩
                  have := hp.2
                  have := hw.1
                  omega
                · have hn' : v.shmNext + pages len + 1 ≤ p := hn
                  refine ⟨.inr (.inr ⟨by omega, hlt⟩), hpage p fun hw => ?_⟩
                  have := hw.2
                  omega
            · intro base _ hb
              cases hb
              exact ⟨fun p hp => h.vacant p (hin p hp), fun p hp => if_neg hp⟩

theorem sysMunmap (h : Inv L v) (addr n : Nat)
    (hguard : L.mmapBase ≤ addr → addr + n < L.shmBase → addr < v.next → v.page (addr + n) = none) :
    Inv L (v.sysMunmap L addr n).1 := by
  unfold Vm.sysMunmap
  split
  · exact h
  · obtain ⟨hinv, hnext, hvac⟩ := h.ipcUnmap addr n
    generalize v.ipcUnmap addr n = u at hinv hnext hvac
    obtain ⟨u, shared⟩ := u
    dsimp only at hinv hnext hvac ⊢
    split
    · exact hinv
    · split
      · exact hinv
      · next harea =>
        split
        · next hbelow =>
          have hbelow' : addr < v.next := hnext ▸ hbelow
          refine (hinv.unmapRange addr n).release (by omega) (by omega) ?_
          intro p h1 h2 hlt
          rw [page_unmapRange]
          by_cases hp : Within addr n p
          · exact if_pos hp
          · -- the guard page behind the range
            have hpe : p = addr + n := by
              unfold Within at hp
              omega
            rw [if_neg hp, hpe]
            exact hvac _ (hguard (by omega) (by omega) hbelow')
        · exact hinv.unmapRange addr n

end Inv

/-! ### Runs -/

/-- The calls on one address space; the last arguments say how the page tables and the segment
    turned out. -/
inductive Call where
  | sysMmap (len : Nat) (ok : Bool)
  | mmap (fixed : Option (Nat × Bool)) (len : Nat) (what : Nat → Page) (ok : Bool)
  | mmapShared (fixed : Option (Nat × Bool)) (len : Nat) (what : Nat → Page) (room : Bool) (mapped : Nat)
  | munmap (addr n : Nat)

/-- The pages a mapping without `MAP_FIXED` asks for. -/
def Call.floating : Call → Option Nat
  | .sysMmap len _ => some (pages len)
  | .mmap none len _ _ => some (pages len)
  | .mmapShared none len _ _ _ => some (pages len)
  | _ => none

def Vm.run (L : Layout) (v : Vm) : Call → Vm × Except Errno Nat
  | .sysMmap len ok => v.sysMmap L len ok
  | .mmap fixed len what ok => v.mmap L fixed len what ok
  | .mmapShared fixed len what room mapped => v.mmapShared L fixed len what room mapped
  | .munmap addr n => v.sysMunmap L addr n

def step (L : Layout) (v : Vm) (c : Call) : Option Vm := some (v.run L c).1

/-- An address space after `exec`. -/
structure Initial (L : Layout) (v : Vm) : Prop where
  page : ∀ p, L.mmapBase ≤ p → p < L.fbBase → v.page p = none
  free : v.free = []
  next : v.next = L.mmapBase
  shmNext : v.shmNext = L.shmBase

/-- The guard page that `munmap` frees with a range is not mapped, and a shared mapping maps all
    of its frames or none. -/
def Calm (L : Layout) (v : Vm) : Call → Prop
  | .munmap addr n => L.mmapBase ≤ addr → addr + n < L.shmBase → addr < v.next → v.page (addr + n) = none
  | .mmapShared none len _ _ mapped => mapped = 0 ∨ pages len ≤ mapped
  | _ => True

theorem Initial.inv (h : Initial L v) : Inv L v where
  next_lo := le_of_eq h.next.symm
  next_hi := by
    rw [h.next]
    exact Nat.le_succ_of_le L.mmap_le
  ranges := by
    rw [h.free]
    exact .nil _ _
  shm_lo := le_of_eq h.shmNext.symm
  vacant := by
    have h1 := L.mmap_le
    have h2 := L.shm_le
    rintro p (⟨⟨r, hr, -⟩, -⟩ | ⟨hn, hlt⟩ | ⟨hn, hlt⟩)
    · rw [h.free] at hr
      cases hr
    · rw [h.next] at hn
      exact h.page p hn (by omega)
    · rw [h.shmNext] at hn
      exact h.page p (by omega) hlt

theorem Inv.run (h : Inv L v) {c : Call} (hcalm : Calm L v c) : Inv L (v.run L c).1 := by
  cases c with
  | sysMmap len ok => exact (h.sysMmap len ok).1
  | mmap fixed len what ok => exact (h.mmap fixed len what ok).1
  | mmapShared fixed len what room mapped =>
    refine (h.mmapShared fixed len what room mapped ?_).1
    rintro rfl
    exact hcalm
  | munmap addr n => exact h.sysMunmap addr n hcalm

theorem reach_inv (h : Reach (Initial L) (step L) (Calm L) v) : Inv L v := by
  refine h.invariant (fun _ hi => hi.inv) ?_
  intro s c s' hi hc hs
  cases hs
  exact hi.run hc

/-- In every calm run a mapping without `MAP_FIXED` is placed on vacant pages, and no other page
    changes. -/
theorem placed_vacant (h : Reach (Initial L) (step L) (Calm L) v) {c : Call} {n base : Nat} (hc : c.floating = some n)
    (hcalm : Calm L v c) (hok : (v.run L c).2 = .ok base) : Placed v (v.run L c).1 base n := by
  have hinv := reach_inv h
  cases c with
  | sysMmap len ok =>
    cases hc
    exact (hinv.sysMmap len ok).2 base hok
  | mmap fixed len what ok =>
    cases fixed with
    | some f => cases hc
    | none =>
      cases hc
      exact (hinv.mmap none len what ok).2 base rfl hok
  | mmapShared fixed len what room mapped =>
    cases fixed with
    | some f => cases hc
    | none =>
      cases hc
      exact (hinv.mmapShared none len what room mapped fun _ => hcalm).2 base rfl hok
  | munmap addr n => cases hc

/-! ### A page freed alive -/

/-- The areas of `arch/x86_64/paging.rs`. -/
def x86Layout : Layout where
  userBase := 0x8000000
  mmapBase := 0xA000000
  shmBase := 0xC000000
  fbBase := 0xE000000
  userEnd := 0x10000000
  base_le := by decide
  mmap_le := by decide
  shm_le := by decide
  fb_le := by decide

/-- An address space after `exec` with nothing in it. -/
def emptyVm : Vm := ⟨fun _ => none, [], 0xA000000, [], 0xC000000⟩

theorem initial_emptyVm : Initial x86Layout emptyVm := ⟨fun _ _ _ => rfl, rfl, rfl, rfl⟩

/-- Three pages are mapped, the last two are unmapped, and a page is mapped again. -/
theorem placed_vacant_again :
    Placed ((emptyVm.run x86Layout (.sysMmap 12288 true)).1.run x86Layout (.munmap 0xA000001 2)).1
      (((emptyVm.run x86Layout (.sysMmap 12288 true)).1.run x86Layout (.munmap 0xA000001 2)).1.run x86Layout
        (.sysMmap 4096 true)).1 0xA000001 1 :=
  placed_vacant (.next (.next (.start initial_emptyVm) (a := .sysMmap 12288 true) trivial rfl) (a := .munmap 0xA000001 2)
    (fun _ _ _ => rfl) rfl) (c := .sysMmap 4096 true) rfl trivial rfl

/-- Three pages are mapped, and the last and the first of them are unmapped one by one. -/
def holed : Vm :=
  (((emptyVm.run x86Layout (.sysMmap 12288 true)).1.run x86Layout (.munmap 0xA000002 1)).1.run x86Layout
    (.munmap 0xA000000 1)).1

/-- The middle page is still mapped when the next two pages are placed on it. -/
theorem munmap_frees_live_page :
    ¬ ∀ v, Reach (Initial x86Layout) (step x86Layout) (fun _ _ => True) v → ∀ (c : Call) (n base : Nat),
      c.floating = some n → (v.run x86Layout c).2 = .ok base → Placed v (v.run x86Layout c).1 base n := by
  intro hclaim
  have hreach : Reach (Initial x86Layout) (step x86Layout) (fun _ _ => True) holed :=
    .next (.next (.next (.start initial_emptyVm) (a := .sysMmap 12288 true) trivial rfl) (a := .munmap 0xA000002 1)
      trivial rfl) (a := .munmap 0xA000000 1) trivial rfl
  have hplaced := hclaim holed hreach (.sysMmap 8192 true) 2 0xA000000 rfl rfl
  have hlive : holed.page 0xA000001 = some .anon := rfl
  rw [hplaced.vacant 0xA000001 (by decide)] at hlive
  cases hlive

end Mmap

end HamixOS.Kernel
