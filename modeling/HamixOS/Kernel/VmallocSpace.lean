import HamixOS.Kernel.Vmalloc
import Mathlib.Data.List.MinMax

namespace HamixOS.Kernel.Vmalloc

open Lib List Function Option Nat Hole

/-!
# The ranges of the vmalloc area

`Space A s retired busy` says that the ranges `busy` and the holes lie apart below the bump pointer, and that a range
which is free was retired in an epoch that every CPU has flushed its TLB since, or has not yet been seen to.

* `take_spec` — a range that is handed out was apart from all others, and no other CPU has old entries of it;
* `giveBack_spec`, `retire_spec` — what is given back is free again, with the epoch it was retired in;
* `giveBack_take` — a request that wraps round the bump pointer is undone.
-/

variable {A : Area} {s s' : State} {cpu start pages : Nat}

def Hole.span (h : Hole) : Nat × Nat := (h.start, h.pages * pageSize)

/-- The epochs and the CPUs in which the addresses were retired last. -/
abbrev Retired := Nat → Nat × Nat

/-- The CPU has no entries of the address from before it was retired: it flushed its TLB since, or retired it itself. -/
def Settled (s : State) (retired : Retired) (d a : Nat) : Prop := (retired a).1 ≤ s.flushed d ∨ d = (retired a).2

structure Space (A : Area) (s : State) (retired : Retired) (busy : List (Nat × Nat)) : Prop where
  next_le : s.next ≤ A.size
  next_page : s.next % pageSize = 0
  ranges : Ranges A.base (A.base + s.next) (busy ++ s.holes.map Hole.span)
  pages : ∀ h ∈ s.holes, h.start % pageSize = 0
  pos : ∀ r ∈ busy ++ s.holes.map Hole.span, 0 < r.2
  past : ∀ a, (retired a).1 ≤ s.epoch
  seen_le : ∀ d, s.seen d ≤ s.flushed d
  flushed_le : ∀ d, s.flushed d ≤ s.epoch
  cpus : ∀ d, s.online d = true → d < A.maxCpus
  holes : ∀ h ∈ s.holes, ∀ a, h.start ≤ a → a < h.start + h.pages * pageSize → ∀ d, s.online d = true →
    Settled s retired d a ∨ (retired a).1 ≤ h.epoch
  above : ∀ a, A.base + s.next ≤ a → ∀ d, s.online d = true → Settled s retired d a

/-! ### Epochs -/

theorem foldl_min_le {P : Nat → Prop} [DecidablePred P] (f : Nat → Nat) (l : List Nat) (init : Nat) :
    l.foldl (fun m c => if P c then min m (f c) else m) init ≤ init ∧
      ∀ c ∈ l, P c → l.foldl (fun m c => if P c then min m (f c) else m) init ≤ f c := by
  induction l generalizing init with
  | nil => exact ⟨le_refl _, nofun⟩
  | cons x l ih =>
    obtain ⟨hle, hmem⟩ := ih (if P x then min init (f x) else init)
    rw [foldl_cons]
    constructor
    · refine le_trans hle ?_
      split <;> omega
    · intro c hc hP
      rcases mem_cons.mp hc with rfl | hc
      · refine le_trans hle ?_
        rw [if_pos hP]
        exact min_le_right _ _
      · exact hmem c hc hP

theorem settledEpoch_le_seen {d : Nat} (hlt : d < A.maxCpus) (hon : s.online d = true) (hne : d ≠ cpu) :
    settledEpoch A s cpu ≤ s.seen d :=
  (foldl_min_le s.seen _ _).2 d (mem_range.mpr hlt) ⟨hne, hon⟩

namespace Space

variable {retired : Retired} {busy : List (Nat × Nat)}

section

variable (h : Space A s retired busy)

include h

theorem of_perm {busy' : List (Nat × Nat)} (hperm : busy.Perm busy') : Space A s retired busy' :=
  { h with
    ranges := h.ranges.of_perm (hperm.append_right _)
    pos := fun r hr => h.pos r ((hperm.append_right _).mem_iff.mpr hr) }

/-- What is settled by the epoch. -/
theorem settled_of_epoch {d a : Nat} (hon : s.online d = true) (hne : d ≠ cpu)
    (hle : (retired a).1 ≤ settledEpoch A s cpu) : Settled s retired d a :=
  .inl (le_trans hle (le_trans (settledEpoch_le_seen (h.cpus d hon) hon hne) (h.seen_le d)))

/-- The parts of the state that the ranges do not depend on. -/
theorem congr (hnext : s'.next = s.next) (hholes : s'.holes = s.holes)
    (hepoch : s'.epoch = s.epoch) (hseen : s'.seen = s.seen) (hon : s'.online = s.online) (hflushed : s'.flushed = s.flushed) :
    Space A s' retired busy := by
  obtain ⟨ready, next, holes, epoch, seen, online, flushed, table, memory⟩ := s
  obtain ⟨ready', next', holes', epoch', seen', online', flushed', table', memory'⟩ := s'
  obtain rfl : next' = next := hnext
  obtain rfl : holes' = holes := hholes
  obtain rfl : epoch' = epoch := hepoch
  obtain rfl : seen' = seen := hseen
  obtain rfl : online' = online := hon
  obtain rfl : flushed' = flushed := hflushed
  exact ⟨h.next_le, h.next_page, h.ranges, h.pages, h.pos, h.past, h.seen_le, h.flushed_le, h.cpus, h.holes, h.above⟩

end

end Space

/-- A CPU that flushes its TLB. -/
def flush (s : State) (cpu : Nat) : State := { s with flushed := Function.update s.flushed cpu s.epoch }

theorem flushed_flush (s : State) (cpu : Nat) : (flush s cpu).flushed = update s.flushed cpu s.epoch := rfl

theorem flushed_flush_le {retired : Retired} {busy : List (Nat × Nat)} (h : Space A s retired busy) (cpu d : Nat) :
    s.flushed d ≤ (flush s cpu).flushed d ∧ (flush s cpu).flushed d ≤ s.epoch := by
  rw [flushed_flush]
  by_cases hd : d = cpu
  · subst hd
    rw [update_self]
    exact ⟨h.flushed_le d, le_refl _⟩
  · rw [update_of_ne hd]
    exact ⟨le_refl _, h.flushed_le d⟩

theorem Settled.flush {retired : Retired} {busy : List (Nat × Nat)} (h : Space A s retired busy) {d a : Nat}
    (hs : Settled s retired d a) : Settled (flush s cpu) retired d a :=
  hs.imp_left fun hle => le_trans hle (flushed_flush_le h cpu d).1

/-- The CPU that flushes has no old entries. -/
theorem settled_flush {retired : Retired} {busy : List (Nat × Nat)} (h : Space A s retired busy) (a : Nat) :
    Settled (flush s cpu) retired cpu a := by
  left
  rw [flushed_flush, update_self]
  exact h.past a

namespace Space

variable {retired : Retired} {busy : List (Nat × Nat)}

section

variable (h : Space A s retired busy)

include h

theorem flush (cpu : Nat) : Space A (flush s cpu) retired busy :=
  { h with
    seen_le := fun d => le_trans (h.seen_le d) (flushed_flush_le h cpu d).1
    flushed_le := fun d => (flushed_flush_le h cpu d).2
    holes := fun x hx a hlo hhi d hon => (h.holes x hx a hlo hhi d hon).imp_left (Settled.flush h)
    above := fun a ha d hon => Settled.flush h (h.above a ha d hon) }

theorem tick (cpu : Nat) : Space A (tick s cpu) retired busy := by
  unfold Vmalloc.tick
  split
  · refine { h.flush cpu with seen_le := fun d => ?_ }
    by_cases hd : d = cpu
    · subst hd
      simp
    · simp only [update_of_ne hd]
      exact h.seen_le d
  · exact h

/-- A CPU that comes up with an empty TLB. -/
theorem online (hlt : cpu < A.maxCpus) :
    Space A { Vmalloc.flush s cpu with online := update s.online cpu true } retired busy := by
  have hflush := h.flush cpu
  have hsettled : ∀ {d a : Nat}, update s.online cpu true d = true →
      (s.online d = true → Settled s retired d a) → Settled (Vmalloc.flush s cpu) retired d a := by
    intro d a hon hs
    by_cases hd : d = cpu
    · subst hd
      exact settled_flush h a
    · rw [update_of_ne hd] at hon
      exact Settled.flush h (hs hon)
  refine { hflush with cpus := fun d hon => ?_, holes := fun x hx a hlo hhi d hon => ?_, above := fun a ha d hon => ?_ }
  · by_cases hd : d = cpu
    · rw [hd]
      exact hlt
    · have hon : update s.online cpu true d = true := hon
      rw [update_of_ne hd] at hon
      exact h.cpus d hon
  · by_cases hepoch : (retired a).1 ≤ x.epoch
    · exact .inr hepoch
    · exact .inl (hsettled hon fun hon' => (h.holes x hx a hlo hhi d hon').resolve_right hepoch)
  · exact hsettled hon fun hon' => h.above a ha d hon'

end

end Space

/-! ### Taking and giving back -/

variable {holes : List Hole}

theorem findIdx?_fits {pages settled i : Nat} (h : holes.findIdx? (·.fits pages settled) = some i) :
    i < holes.length ∧ pages ≤ (holes.getD i default).pages ∧ (holes.getD i default).epoch ≤ settled := by
  obtain ⟨hi, hfits, -⟩ := findIdx?_eq_some_iff_getElem.mp h
  rw [getD_eq_getElem?_getD, getElem?_eq_getElem hi, getD_some]
  exact ⟨hi, of_decide_eq_true hfits⟩

/-- What is left of the holes after the front of one is taken. -/
def carved (holes : List Hole) (i pages : Nat) : List Hole :=
  if (holes.getD i default).pages = pages then swapRemove holes i
  else holes.set i { holes.getD i default with
    start := (holes.getD i default).start + pages * pageSize, pages := (holes.getD i default).pages - pages }

/-- The other holes, and what is left of the one. -/
theorem carved_perm {i : Nat} (hi : i < holes.length) (pages : Nat) :
    ∃ rest, holes.Perm (holes.getD i default :: rest) ∧
      ((holes.getD i default).pages = pages ∧ (carved holes i pages).Perm rest ∨
        (holes.getD i default).pages ≠ pages ∧ (carved holes i pages).Perm ({ holes.getD i default with
          start := (holes.getD i default).start + pages * pageSize,
          pages := (holes.getD i default).pages - pages } :: rest)) := by
  refine ⟨holes.eraseIdx i, perm_cons_eraseIdx hi default, ?_⟩
  unfold carved
  by_cases heq : (holes.getD i default).pages = pages
  · rw [if_pos heq]
    exact .inl ⟨heq, swapRemove_perm hi⟩
  · rw [if_neg heq]
    exact .inr ⟨heq, set_perm_cons_eraseIdx hi _⟩

namespace Space

variable {retired : Retired} {busy : List (Nat × Nat)}

theorem take_hole (h : Space A s retired busy) (cpu : Nat) {i : Nat} (hi : i < s.holes.length) (hpos : 0 < pages)
    (hpages : pages ≤ (s.holes.getD i default).pages) :
    Space A { Vmalloc.flush s cpu with holes := carved s.holes i pages } retired
      (((s.holes.getD i default).start, pages * pageSize) :: busy) := by
  have hmem : s.holes.getD i default ∈ s.holes := by
    rw [getD_eq_getElem?_getD, getElem?_eq_getElem hi]
    exact getElem_mem hi
  obtain ⟨rest, hperm, hcarved⟩ := carved_perm hi pages
  generalize s.holes.getD i default = hole at hperm hcarved hmem hpages ⊢
  have hbytes : pages * pageSize ≤ hole.pages * pageSize := mul_le_mul_right _ hpages
  have hused : 0 < pages * pageSize := mul_pos hpos (by decide)
  have hsub : ∀ x ∈ rest, x ∈ s.holes := fun x hx => hperm.mem_iff.mpr (mem_cons_of_mem _ hx)
  -- the hole in front of the other ranges
  have hfront : Ranges A.base (A.base + s.next) (hole.span :: (busy ++ rest.map Hole.span)) := by
    refine h.ranges.of_perm (((hperm.map Hole.span).append_left busy).trans ?_)
    exact perm_middle
  have hflush := h.flush cpu
  rcases hcarved with ⟨heq, hcarved⟩ | ⟨hne, hcarved⟩
  · have hspan : (hole.start, pages * pageSize) = hole.span := by rw [Hole.span, heq]
    refine { hflush with ranges := ?_, pages := fun x hx => ?_, pos := fun r hr => ?_, holes := fun x hx => ?_ }
    · rw [hspan]
      exact hfront.of_perm ((((hcarved.map Hole.span).symm).append_left busy).cons hole.span)
    · exact h.pages x (hsub x (hcarved.mem_iff.mp hx))
    · rcases mem_cons.mp hr with rfl | hr
      · exact hused
      · rcases mem_append.mp hr with hr | hr
        · exact h.pos r (mem_append_left _ hr)
        · obtain ⟨x, hx, rfl⟩ := mem_map.mp hr
          exact h.pos _ (mem_append_right _ (mem_map_of_mem (hsub x (hcarved.mem_iff.mp hx))))
    · exact hflush.holes x (hsub x (hcarved.mem_iff.mp hx))
  · have hlt : pages < hole.pages := by omega
    have hrest : 0 < (hole.pages - pages) * pageSize := mul_pos (by omega) (by decide)
    have hmul : (hole.pages - pages) * pageSize = hole.pages * pageSize - pages * pageSize := Nat.sub_mul _ _ _
    refine { hflush with ranges := ?_, pages := fun x hx => ?_, pos := fun r hr => ?_, holes := fun x hx => ?_ }
    · have hsplit := hfront.split (pages * pageSize) hbytes
      refine hsplit.of_perm (List.Perm.cons _ ?_)
      have hmap := (hcarved.map Hole.span).symm
      rw [map_cons, Hole.span, hmul] at hmap
      exact (perm_middle.symm).trans (hmap.append_left busy)
    · rcases mem_cons.mp (hcarved.mem_iff.mp hx) with rfl | hx
      · have hstart := h.pages hole hmem
        dsimp only
        unfold pageSize at hstart ⊢
        omega
      · exact h.pages x (hsub x hx)
    · rcases mem_cons.mp hr with rfl | hr
      · exact hused
      · rcases mem_append.mp hr with hr | hr
        · exact h.pos r (mem_append_left _ hr)
        · obtain ⟨x, hx, rfl⟩ := mem_map.mp hr
          rcases mem_cons.mp (hcarved.mem_iff.mp hx) with rfl | hx
          · exact hrest
          · exact h.pos _ (mem_append_right _ (mem_map_of_mem (hsub x hx)))
    · rcases mem_cons.mp (hcarved.mem_iff.mp hx) with rfl | hx
      · intro a hlo hhi
        dsimp only at hlo hhi
        exact hflush.holes hole hmem a (by omega) (by omega)
      · exact hflush.holes x (hsub x hx)

/-- A range from the bump pointer on. -/
theorem take_top (h : Space A s retired busy) (hpos : 0 < pages) (hle : s.next + pages * pageSize ≤ A.size) :
    Space A { s with next := s.next + pages * pageSize } retired ((A.base + s.next, pages * pageSize) :: busy) := by
  have hused : 0 < pages * pageSize := mul_pos hpos (by decide)
  refine { h with next_le := hle, next_page := ?_, ranges := ?_, pos := fun r hr => ?_, above := fun a ha => ?_ }
  · have hpage := h.next_page
    dsimp only
    unfold pageSize at hpage ⊢
    omega
  · show Ranges A.base (A.base + (s.next + pages * pageSize)) _
    rw [← add_assoc]
    exact h.ranges.add_top (le_add_right _ _) _
  · rcases mem_cons.mp hr with rfl | hr
    · exact hused
    · exact h.pos r hr
  · exact h.above a (by dsimp only at ha; omega)

end Space

/-- The parts of the state that only the space itself changes. -/
structure SameMaps (s s' : State) : Prop where
  ready : s'.ready = s.ready
  epoch : s'.epoch = s.epoch
  seen : s'.seen = s.seen
  online : s'.online = s.online
  table : s'.table = s.table
  memory : s'.memory = s.memory

/-- What `take` gives: a range that was free and is apart from all others, or one that wraps round. -/
structure Taken (A : Area) (s s' : State) (retired : Retired) (busy : List (Nat × Nat)) (start pages : Nat) : Prop where
  space : Space A s' retired ((start, pages * pageSize) :: busy)
  page : start % pageSize = 0
  settled : ∀ a, start ≤ a → a < start + pages * pageSize → ∀ d, s'.online d = true → Settled s' retired d a

structure Wrapped (A : Area) (s s' : State) (start pages : Nat) : Prop where
  start_eq : start = A.base + s.next
  bytes : pages * pageSize < 2 ^ 64
  wraps : 2 ^ 64 ≤ s.next + pages * pageSize
  state_eq : s' = { s with next := s.next + pages * pageSize - 2 ^ 64 }

section

variable {retired : Retired} {busy : List (Nat × Nat)}

/-- The other CPUs have no old entries of what is handed out. -/
theorem take_settled (h : Space A s retired busy) (ht : take A s cpu pages = some (start, s')) {a : Nat} (hlo : start ≤ a)
    (hhi : a < start + pages * pageSize) {d : Nat} (hon : s.online d = true) (hne : d ≠ cpu) : Settled s retired d a := by
  unfold take at ht
  split at ht
  · rename_i i hfind
    obtain ⟨hi, hpages, hepoch⟩ := findIdx?_fits hfind
    obtain ⟨rfl, -⟩ := Prod.mk.inj (some.inj ht)
    have hmem : s.holes.getD i default ∈ s.holes := by
      rw [getD_eq_getElem?_getD, getElem?_eq_getElem hi]
      exact getElem_mem hi
    have hbytes : pages * pageSize ≤ (s.holes.getD i default).pages * pageSize := mul_le_mul_right _ hpages
    rcases h.holes _ hmem a hlo (by omega) d hon with hs | hle
    · exact hs
    · exact h.settled_of_epoch hon hne (le_trans hle hepoch)
  · split_ifs at ht
    obtain ⟨rfl, -⟩ := Prod.mk.inj (some.inj ht)
    exact h.above a hlo d hon

theorem take_spec (h : Space A s retired busy) (hpos : 0 < pages) (ht : take A s cpu pages = some (start, s')) :
    SameMaps s s' ∧ (Taken A s s' retired busy start pages ∨ Wrapped A s s' start pages) := by
  have hother := fun {a} hlo hhi {d} hon hne => take_settled h ht (a := a) hlo hhi (d := d) hon hne
  have hsize := A.fits
  have hnext := h.next_le
  unfold take at ht
  split at ht
  · rename_i i hfind
    obtain ⟨hi, hpages, -⟩ := findIdx?_fits hfind
    obtain ⟨rfl, rfl⟩ := Prod.mk.inj (some.inj ht)
    have hmem : s.holes.getD i default ∈ s.holes := by
      rw [getD_eq_getElem?_getD, getElem?_eq_getElem hi]
      exact getElem_mem hi
    refine ⟨⟨rfl, rfl, rfl, rfl, rfl, rfl⟩, .inl ⟨h.take_hole cpu hi hpos hpages, h.pages _ hmem, ?_⟩⟩
    intro a hlo hhi d hon
    by_cases hd : d = cpu
    · subst hd
      exact settled_flush h a
    · exact Settled.flush h (hother hlo hhi hon hd)
  · split_ifs at ht with hmul hfull
    obtain ⟨rfl, rfl⟩ := Prod.mk.inj (some.inj ht)
    refine ⟨⟨rfl, rfl, rfl, rfl, rfl, rfl⟩, ?_⟩
    by_cases hwrap : 2 ^ 64 ≤ s.next + pages * pageSize
    · have hmod : (s.next + pages * pageSize) % 2 ^ 64 = s.next + pages * pageSize - 2 ^ 64 := by omega
      refine .inr ⟨rfl, by omega, hwrap, ?_⟩
      rw [hmod]
    · have hmod : (s.next + pages * pageSize) % 2 ^ 64 = s.next + pages * pageSize := mod_eq_of_lt (by omega)
      rw [hmod] at hfull ⊢
      refine .inl ⟨h.take_top hpos (by omega), ?_, fun a hlo _ d hon => h.above a hlo d hon⟩
      have hbase := A.base_page
      have hpage := h.next_page
      unfold pageSize at hbase hpage ⊢
      omega

theorem oldest_lt (hne : holes ≠ []) : oldest holes < holes.length := by
  refine findIdx_lt_length_of_exists ?_
  have hsome : List.argmin Hole.pages holes ≠ none := fun hnone => hne (argmin_eq_none.mp hnone)
  obtain ⟨x, hx⟩ := ne_none_iff_exists'.mp hsome
  refine ⟨x, argmin_mem hx, all_eq_true.mpr fun y hy => ?_⟩
  exact decide_eq_true (le_of_mem_argmin (f := Hole.pages) hy hx)

/-- The holes that stay in the quarantine when there is one more. -/
def kept (holes : List Hole) : List Hole :=
  if holes.length = quarantine then swapRemove holes (oldest holes) else holes

theorem kept_perm (holes : List Hole) : ∃ gone, holes.Perm (gone ++ kept holes) := by
  unfold kept
  split
  · rename_i hlen
    have hlt : oldest holes < holes.length := oldest_lt (by rintro rfl; cases hlen)
    exact ⟨[holes.getD (oldest holes) default],
      (perm_cons_eraseIdx hlt default).trans ((swapRemove_perm hlt).symm.cons _)⟩
  · exact ⟨[], List.Perm.refl _⟩

/-- A range joins the quarantine. -/
theorem Space.give_hole (h : Space A s retired ((start, pages * pageSize) :: busy)) (hpage : start % pageSize = 0) {epoch : Nat}
    (hepoch : ∀ a, start ≤ a → a < start + pages * pageSize → ∀ d, s.online d = true →
      Settled s retired d a ∨ (retired a).1 ≤ epoch) :
    Space A { s with holes := kept s.holes ++ [⟨start, pages, epoch⟩] } retired busy := by
  obtain ⟨gone, hperm⟩ := kept_perm s.holes
  have hsub : ∀ x ∈ kept s.holes, x ∈ s.holes := fun x hx => hperm.mem_iff.mpr (mem_append_right _ hx)
  have hcases : ∀ {P : Hole → Prop}, (∀ x ∈ s.holes, P x) → P ⟨start, pages, epoch⟩ →
      ∀ x ∈ kept s.holes ++ [⟨start, pages, epoch⟩], P x := by
    intro P hold hnew x hx
    rcases mem_append.mp hx with hx | hx
    · exact hold x (hsub x hx)
    · rw [mem_singleton.mp hx]
      exact hnew
  have hperm' : (busy ++ (kept s.holes ++ [Hole.mk start pages epoch]).map Hole.span).Perm
      ((start, pages * pageSize) :: (busy ++ (kept s.holes).map Hole.span)) := by
    rw [map_append, ← append_assoc]
    exact perm_append_singleton _ _
  have hall : Ranges A.base (A.base + s.next) (gone.map Hole.span ++ ((start, pages * pageSize) ::
      (busy ++ (kept s.holes).map Hole.span))) := by
    refine h.ranges.of_perm ?_
    have hmap := hperm.map Hole.span
    rw [map_append] at hmap
    refine (hmap.append_left _).trans ?_
    rw [← append_assoc]
    refine (perm_append_comm.append_right _).trans ?_
    rw [append_assoc]
    rfl
  refine { h with ranges := ?_, pages := hcases h.pages hpage, pos := fun r hr => ?_, holes := hcases h.holes hepoch }
  · exact (hall.sublist (sublist_append_right _ _)).of_perm hperm'.symm
  · rcases mem_cons.mp (hperm'.mem_iff.mp hr) with rfl | hr
    · exact h.pos _ (mem_cons_self ..)
    · rcases mem_append.mp hr with hr | hr
      · exact h.pos r (mem_cons_of_mem _ (mem_append_left _ hr))
      · obtain ⟨x, hx, rfl⟩ := mem_map.mp hr
        exact h.pos _ (mem_append_right _ (mem_map_of_mem (hsub x hx)))

/-- What is given back is free again, if the epoch covers its retirement. -/
theorem giveBack_spec (h : Space A s retired ((start, pages * pageSize) :: busy)) (hpage : start % pageSize = 0) (cpu epoch : Nat)
    (hepoch : ∀ a, start ≤ a → a < start + pages * pageSize → ∀ d, s.online d = true →
      Settled s retired d a ∨ ((retired a).1 ≤ epoch ∧ d ≠ cpu)) :
    Space A (giveBack A s cpu start pages epoch) retired busy ∧ SameMaps s (giveBack A s cpu start pages epoch) := by
  have hnext := h.next_le
  have hin := h.ranges.inside _ (mem_cons_self ..)
  dsimp only at hin
  unfold giveBack
  split
  · rename_i htop
    obtain ⟨hend, hsettled⟩ := htop
    have hend : start + pages * pageSize = A.base + s.next := by
      rw [← hend]
      exact (mod_eq_of_lt (by omega)).symm
    have hsub : (s.next + 2 ^ 64 - pages * pageSize % 2 ^ 64) % 2 ^ 64 = s.next - pages * pageSize := by
      rw [mod_eq_of_lt (show pages * pageSize < 2 ^ 64 by omega)]
      omega
    have hstart : A.base + (s.next - pages * pageSize) = start := by omega
    refine ⟨?_, ⟨rfl, rfl, rfl, rfl, rfl, rfl⟩⟩
    rw [hsub]
    refine { h with next_le := ?_, next_page := ?_, ranges := ?_, pos := fun r hr => ?_, above := fun a ha d hon => ?_ }
    · dsimp only
      omega
    · have hnp := h.next_page
      dsimp only
      unfold pageSize at hnp ⊢
      omega
    · show Ranges A.base (A.base + (s.next - pages * pageSize)) _
      rw [hstart]
      exact h.ranges.drop_top hend fun q hq => h.pos q (mem_cons_of_mem _ hq)
    · exact h.pos r (mem_cons_of_mem _ hr)
    · -- the addresses given back, and those above them
      by_cases habove : A.base + s.next ≤ a
      · exact h.above a habove d hon
      · have ha : A.base + (s.next - pages * pageSize) ≤ a := ha
        rcases hepoch a (by omega) (by omega) d hon with hs | ⟨hle, hne⟩
        · exact hs
        · exact h.settled_of_epoch hon hne (le_trans hle hsettled)
  · exact ⟨h.give_hole hpage fun a hlo hhi d hon => (hepoch a hlo hhi d hon).imp_right And.left,
      ⟨rfl, rfl, rfl, rfl, rfl, rfl⟩⟩

/-- The addresses of a range, retired. -/
def retireAt (retired : Retired) (epoch cpu start bytes : Nat) : Retired := fun a =>
  if start ≤ a ∧ a < start + bytes then (epoch, cpu) else retired a

theorem retire_spec (h : Space A s retired ((start, pages * pageSize) :: busy)) (hpage : start % pageSize = 0) (cpu : Nat) :
    Space A (retire A s cpu start pages) (retireAt retired (s.epoch + 1) cpu start (pages * pageSize)) busy := by
  have hin := h.ranges.inside _ (mem_cons_self ..)
  -- outside the range the epochs are the old ones
  have hout : ∀ {a}, ¬ (start ≤ a ∧ a < start + pages * pageSize) →
      retireAt retired (s.epoch + 1) cpu start (pages * pageSize) a = retired a := fun hn => if_neg hn
  have hinside : ∀ {a}, start ≤ a → a < start + pages * pageSize →
      retireAt retired (s.epoch + 1) cpu start (pages * pageSize) a = (s.epoch + 1, cpu) := fun hlo hhi => if_pos ⟨hlo, hhi⟩
  have hspace : Space A { s with epoch := s.epoch + 1 } (retireAt retired (s.epoch + 1) cpu start (pages * pageSize))
      ((start, pages * pageSize) :: busy) := by
    refine { h with
        past := fun a => ?_
        flushed_le := fun d => ?_
        holes := fun x hx a hlo hhi d hon => ?_
        above := fun a ha d hon => ?_ }
    · by_cases hr : start ≤ a ∧ a < start + pages * pageSize
      · rw [hinside hr.1 hr.2]
      · rw [hout hr]
        exact le_succ_of_le (h.past a)
    · exact le_succ_of_le (h.flushed_le d)
    · have hr : ¬ (start ≤ a ∧ a < start + pages * pageSize) := by
        have hapart := (pairwise_cons.mp h.ranges.apart).1 x.span
          (mem_append_right _ (mem_map_of_mem hx))
        exact fun hr => hapart.not_mem hr ⟨hlo, hhi⟩
      unfold Settled
      rw [hout hr]
      exact h.holes x hx a hlo hhi d hon
    · have ha : A.base + s.next ≤ a := ha
      have hr : ¬ (start ≤ a ∧ a < start + pages * pageSize) := by omega
      unfold Settled
      rw [hout hr]
      exact h.above a ha d hon
  refine (giveBack_spec hspace hpage cpu _ fun a hlo hhi d _ => ?_).1
  unfold Settled
  rw [hinside hlo hhi]
  by_cases hd : d = cpu
  · exact .inl (.inr hd)
  · exact .inr ⟨le_refl _, hd⟩

theorem sameMaps_retire (A : Area) (s : State) (cpu start pages : Nat) :
    (retire A s cpu start pages).table = s.table ∧ (retire A s cpu start pages).memory = s.memory ∧
      (retire A s cpu start pages).epoch = s.epoch + 1 := by
  unfold retire giveBack
  split
  · exact ⟨rfl, rfl, rfl⟩
  · exact ⟨rfl, rfl, rfl⟩

/-- A range that wraps round the bump pointer goes back to it. -/
theorem giveBack_take (h : Space A s retired busy) (hw : Wrapped A s s' start pages) (cpu : Nat) {t : State}
    (ht : t = { s with table := t.table, next := s'.next }) :
    giveBack A t cpu start pages 0 = { s with table := t.table } := by
  have hsize := A.fits
  have hnext := h.next_le
  obtain ⟨hstart, hbytes, hwraps, hstate⟩ := hw
  have hnext' : t.next = s.next + pages * pageSize - 2 ^ 64 := by
    rw [ht, hstate]
  unfold giveBack
  rw [if_pos ⟨by rw [hstart, hnext']; omega, zero_le _⟩, hnext', mod_eq_of_lt hbytes]
  have hback : (s.next + pages * pageSize - 2 ^ 64 + 2 ^ 64 - pages * pageSize) % 2 ^ 64 = s.next := by omega
  rw [hback, ht]

end

end HamixOS.Kernel.Vmalloc
