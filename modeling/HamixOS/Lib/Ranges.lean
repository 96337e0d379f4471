import Mathlib.Data.List.Perm.Basic
import Mathlib.Tactic.Ring

namespace HamixOS.Lib

open List

/-!
# Lists of ranges

A range `(start, n)` stands for the places `start`, …, `start + n - 1`.  `Ranges lo hi rs` says
that the ranges `rs` lie between `lo` and `hi` and that no two of them meet.

* `Ranges.of_perm`, `covers_of_perm` — the order of the list does not matter;
* `Ranges.carve` — the front of a range is taken;
* `Ranges.pieces` — each range is replaced by pieces of it;
* `Ranges.push` — a range is added that meets none;
* `Ranges.split`, `add_top`, `drop_top` — a range is cut in two, put on top of the others, or taken from there.
-/

/-- A place of one of the ranges. -/
def Covers (rs : List (Nat × Nat)) (p : Nat) : Prop := ∃ r ∈ rs, r.1 ≤ p ∧ p < r.1 + r.2

/-- Two ranges do not meet. -/
def Apart (r q : Nat × Nat) : Prop := r.1 + r.2 ≤ q.1 ∨ q.1 + q.2 ≤ r.1

structure Ranges (lo hi : Nat) (rs : List (Nat × Nat)) : Prop where
  inside : ∀ r ∈ rs, lo ≤ r.1 ∧ r.1 + r.2 ≤ hi
  apart : rs.Pairwise Apart

theorem Apart.symm {r q : Nat × Nat} (h : Apart r q) : Apart q r := h.elim .inr .inl

/-- A piece of a range is apart from what the range is apart from. -/
theorem Apart.mono {r q r' q' : Nat × Nat} (h : Apart r q) (hr : r.1 ≤ r'.1 ∧ r'.1 + r'.2 ≤ r.1 + r.2)
    (hq : q.1 ≤ q'.1 ∧ q'.1 + q'.2 ≤ q.1 + q.2) : Apart r' q' := by
  unfold Apart at h ⊢
  omega

theorem Apart.not_mem {r q : Nat × Nat} (h : Apart r q) {p : Nat} (hp : r.1 ≤ p ∧ p < r.1 + r.2) :
    ¬ (q.1 ≤ p ∧ p < q.1 + q.2) := by
  unfold Apart at h
  omega

theorem covers_of_perm {rs qs : List (Nat × Nat)} (h : rs.Perm qs) {p : Nat} (hp : Covers rs p) : Covers qs p := by
  obtain ⟨r, hr, hin⟩ := hp
  exact ⟨r, h.mem_iff.mp hr, hin⟩

/-! ### Taking elements out -/

/-- The last element takes the place of the one that goes. -/
def swapRemove {α : Type} (l : List α) (i : Nat) : List α :=
  match l.getLast? with
  | some last => (l.set i last).dropLast
  | none => l

theorem perm_cons_eraseIdx {α : Type} {l : List α} {i : Nat} (hi : i < l.length) (d : α) :
    l.Perm (l.getD i d :: l.eraseIdx i) := by
  have h := set_perm_cons_eraseIdx hi (l[i])
  rw [set_getElem_self] at h
  rw [getD_eq_getElem?_getD, getElem?_eq_getElem hi, Option.getD_some]
  exact h

theorem swapRemove_perm {α : Type} {l : List α} {i : Nat} (hi : i < l.length) : (swapRemove l i).Perm (l.eraseIdx i) := by
  have hne : l ≠ [] := ne_nil_of_length_pos (Nat.zero_lt_of_lt hi)
  have hsplit := (dropLast_append_getLast hne).symm
  generalize l.getLast hne = last at hsplit
  generalize l.dropLast = front at hsplit
  subst hsplit
  unfold swapRemove
  rw [getLast?_concat]
  dsimp only
  rw [length_append, length_singleton] at hi
  by_cases hlt : i < front.length
  · rw [set_append_left i last hlt, dropLast_concat, eraseIdx_append_of_lt_length hlt]
    exact (set_perm_cons_eraseIdx hlt last).trans (perm_append_singleton last _).symm
  · -- the last element itself goes
    have heq : i = front.length := by omega
    subst heq
    rw [set_append_right _ _ le_rfl, eraseIdx_append_of_length_le le_rfl, Nat.sub_self]
    simp

namespace Ranges

variable {lo hi : Nat} {rs qs : List (Nat × Nat)}

theorem nil (lo hi : Nat) : Ranges lo hi [] := ⟨nofun, .nil⟩

section

variable (h : Ranges lo hi rs)

include h

theorem of_perm (hperm : rs.Perm qs) : Ranges lo hi qs :=
  ⟨fun r hr => h.inside r (hperm.mem_iff.mpr hr), (hperm.pairwise_iff fun hab => hab.symm).mp h.apart⟩

theorem mono {lo' hi' : Nat} (hlo : lo' ≤ lo) (hhi : hi ≤ hi') : Ranges lo' hi' rs :=
  ⟨fun r hr => ⟨le_trans hlo (h.inside r hr).1, le_trans (h.inside r hr).2 hhi⟩, h.apart⟩

theorem sublist (hsub : qs.Sublist rs) : Ranges lo hi qs :=
  ⟨fun r hr => h.inside r (hsub.subset hr), h.apart.sublist hsub⟩

end

variable {r : Nat × Nat}

theorem tail (h : Ranges lo hi (r :: rs)) : Ranges lo hi rs :=
  ⟨fun q hq => h.inside q (mem_cons_of_mem _ hq), (pairwise_cons.mp h.apart).2⟩

/-- A range that meets none is added. -/
theorem push (h : Ranges lo hi rs) (hr : lo ≤ r.1 ∧ r.1 + r.2 ≤ hi) (hap : ∀ q ∈ rs, Apart q r) :
    Ranges lo hi (rs ++ [r]) where
  inside := by
    intro q hq
    rcases mem_append.mp hq with hq | hq
    · exact h.inside q hq
    · rw [mem_singleton.mp hq]
      exact hr
  apart := by
    rw [pairwise_append]
    refine ⟨h.apart, pairwise_singleton _ _, ?_⟩
    intro q hq x hx
    rw [mem_singleton.mp hx]
    exact hap q hq

/-- A range is cut in two. -/
theorem split (h : Ranges lo hi (r :: rs)) (used : Nat) (hused : used ≤ r.2) :
    Ranges lo hi ((r.1, used) :: (r.1 + used, r.2 - used) :: rs) := by
  obtain ⟨hapart, hrest⟩ := pairwise_cons.mp h.apart
  have hin := h.inside r (mem_cons_self ..)
  refine ⟨fun q hq => ?_, pairwise_cons.mpr ⟨fun q hq => ?_, pairwise_cons.mpr ⟨fun q hq => ?_, hrest⟩⟩⟩
  · rcases mem_cons.mp hq with rfl | hq
    · dsimp only
      omega
    · rcases mem_cons.mp hq with rfl | hq
      · dsimp only
        omega
      · exact h.inside q (mem_cons_of_mem _ hq)
  · rcases mem_cons.mp hq with rfl | hq
    · exact .inl le_rfl
    · refine (hapart q hq).mono ?_ ⟨le_refl _, le_refl _⟩
      omega
  · refine (hapart q hq).mono ?_ ⟨le_refl _, le_refl _⟩
    omega

/-- A range is put on top. -/
theorem add_top (h : Ranges lo hi rs) (hle : lo ≤ hi) (n : Nat) : Ranges lo (hi + n) ((hi, n) :: rs) := by
  refine ⟨fun q hq => ?_, pairwise_cons.mpr ⟨fun q hq => .inr (h.inside q hq).2, h.apart⟩⟩
  rcases mem_cons.mp hq with rfl | hq
  · exact ⟨hle, le_refl _⟩
  · have hin := h.inside q hq
    omega

/-- The range on top is taken away. -/
theorem drop_top (h : Ranges lo hi (r :: rs)) (htop : r.1 + r.2 = hi) (hpos : ∀ q ∈ rs, 0 < q.2) :
    Ranges lo r.1 rs := by
  obtain ⟨hapart, hrest⟩ := pairwise_cons.mp h.apart
  refine ⟨fun q hq => ?_, hrest⟩
  have hin := h.inside q (mem_cons_of_mem _ hq)
  have hp := hpos q hq
  have hq := hapart q hq
  unfold Apart at hq
  omega

/-- Each range is replaced by pieces of it that do not meet. -/
theorem pieces (h : Ranges lo hi rs) {f : Nat × Nat → List (Nat × Nat)}
    (hsub : ∀ r, ∀ q ∈ f r, r.1 ≤ q.1 ∧ q.1 + q.2 ≤ r.1 + r.2) (hap : ∀ r, (f r).Pairwise Apart) :
    Ranges lo hi (rs.flatMap f) where
  inside := by
    intro q hq
    obtain ⟨r, hr, hqr⟩ := mem_flatMap.mp hq
    have hin := h.inside r hr
    have hpiece := hsub r q hqr
    omega
  apart := by
    rw [pairwise_flatMap]
    refine ⟨fun r _ => hap r, ?_⟩
    refine h.apart.imp ?_
    intro r q hrq x hx y hy
    exact hrq.mono (hsub r x hx) (hsub q y hy)

/-- The front of a range is taken. -/
theorem carve (h : Ranges lo hi rs) {i : Nat} (hi' : i < rs.length) (hr : rs.getD i (0, 0) = r) {used : Nat}
    (hused : used ≤ r.2) :
    Ranges lo hi (if r.2 = used then rs.eraseIdx i else rs.set i (r.1 + used, r.2 - used)) ∧
      ∀ p, Covers (if r.2 = used then rs.eraseIdx i else rs.set i (r.1 + used, r.2 - used)) p →
        Covers rs p ∧ ¬ (r.1 ≤ p ∧ p < r.1 + used) := by
  have hperm := perm_cons_eraseIdx hi' (0, 0)
  rw [hr] at hperm
  have hcons := h.of_perm hperm
  obtain ⟨hapart, -⟩ := pairwise_cons.mp hcons.apart
  have hin := hcons.inside r (mem_cons_self ..)
  -- the other ranges do not meet what is taken
  have hother : ∀ p, Covers (rs.eraseIdx i) p → Covers rs p ∧ ¬ (r.1 ≤ p ∧ p < r.1 + used) := by
    rintro p ⟨q, hq, hqp⟩
    refine ⟨⟨q, mem_of_mem_eraseIdx hq, hqp⟩, fun hp => ?_⟩
    exact (hapart q hq).not_mem ⟨hp.1, by omega⟩ hqp
  split
  · exact ⟨hcons.tail, hother⟩
  · have hset := set_perm_cons_eraseIdx hi' (r.1 + used, r.2 - used)
    refine ⟨Ranges.of_perm ⟨?_, ?_⟩ hset.symm, ?_⟩
    · intro q hq
      rcases mem_cons.mp hq with rfl | hq
      · dsimp only
        omega
      · exact hcons.tail.inside q hq
    · refine pairwise_cons.mpr ⟨?_, hcons.tail.apart⟩
      intro q hq
      refine (hapart q hq).mono ?_ ⟨le_refl _, le_refl _⟩
      dsimp only
      omega
    · intro p hp
      obtain ⟨q, hq, hqp⟩ := covers_of_perm hset hp
      rcases mem_cons.mp hq with rfl | hq
      · dsimp only at hqp
        exact ⟨covers_of_perm hperm.symm ⟨r, mem_cons_self .., by omega⟩, by omega⟩
      · exact hother p ⟨q, hq, hqp⟩

end Ranges

end HamixOS.Lib
