import Mathlib.Data.List.Sort

namespace HamixOS.Lib.OrdSet

open List

/-!
# Ordered sets as sorted lists

A `BTreeSet` is kept as the list of its elements in increasing order, so that the
order in which the code iterates over a set is the order of the list:

* `OrdSet.insert r a l` puts `a` in its place, or leaves `l` alone when it is there;
* `OrdSet.remove a l` takes `a` out;
* `mem_insert` / `mem_remove` are the membership laws;
* `mem_takeWhile` / `mem_dropWhile` say what `pop_first` in a loop takes out and leaves.
-/

variable {α : Type} [DecidableEq α]

/-- Insert `a` into the list sorted by `r`; a second insertion changes nothing. -/
def insert (r : α → α → Prop) [DecidableRel r] (a : α) (l : List α) : List α :=
  if a ∈ l then l else l.orderedInsert r a

/-- Remove `a`. -/
def remove (a : α) (l : List α) : List α := l.filter (· ≠ a)

@[simp] theorem mem_insert (r : α → α → Prop) [DecidableRel r] (a b : α) (l : List α) :
    b ∈ insert r a l ↔ b = a ∨ b ∈ l := by
  unfold insert
  by_cases h : a ∈ l
  · rw [if_pos h]
    constructor
    · exact Or.inr
    · rintro (rfl | hb)
      · exact h
      · exact hb
  · rw [if_neg h, mem_orderedInsert]

@[simp] theorem mem_remove (a b : α) (l : List α) : b ∈ remove a l ↔ b ∈ l ∧ b ≠ a := by
  simp [remove]

variable {l : List α} {r : α → α → Prop}

theorem sorted_insert [DecidableRel r] [Std.Total r] [IsTrans α r] (a : α)
    (h : l.Pairwise r) : (insert r a l).Pairwise r := by
  unfold insert
  split_ifs
  · exact h
  · exact h.orderedInsert a l

theorem sorted_remove (a : α) (h : l.Pairwise r) :
    (remove a l).Pairwise r :=
  h.filter _

omit [DecidableEq α] in
/-- Popping a sorted list while a downward closed test holds takes out just the elements
    that pass it. -/
theorem mem_takeWhile {p : α → Bool} (hp : ∀ a b, r a b → p b = true → p a = true)
    (h : l.Pairwise r) (a : α) : a ∈ l.takeWhile p ↔ a ∈ l ∧ p a = true := by
  suffices heq : l.takeWhile p = l.filter p by rw [heq, mem_filter]
  induction l with
  | nil => rfl
  | cons x l ih =>
    obtain ⟨hx, hl⟩ := pairwise_cons.mp h
    by_cases hpx : p x = true
    · rw [takeWhile_cons_of_pos hpx, filter_cons_of_pos hpx, ih hl]
    · rw [takeWhile_cons_of_neg hpx, filter_cons_of_neg hpx, eq_comm, filter_eq_nil_iff]
      exact fun b hb hpb => hpx (hp x b (hx b hb) hpb)

omit [DecidableEq α] in
theorem mem_dropWhile {p : α → Bool} (hp : ∀ a b, r a b → p b = true → p a = true)
    (h : l.Pairwise r) (a : α) : a ∈ l.dropWhile p ↔ a ∈ l ∧ p a = false := by
  suffices heq : l.dropWhile p = l.filter fun a => !p a by rw [heq, mem_filter, Bool.not_eq_true']
  induction l with
  | nil => rfl
  | cons x l ih =>
    obtain ⟨hx, hl⟩ := pairwise_cons.mp h
    by_cases hpx : p x = true
    · rw [dropWhile_cons_of_pos hpx, filter_cons_of_neg (by simpa using hpx), ih hl]
    · rw [dropWhile_cons_of_neg hpx, eq_comm, filter_eq_self]
      intro b hb
      rcases mem_cons.mp hb with rfl | hb
      · simpa using hpx
      · simpa using mt (hp x b (hx b hb)) hpx

end HamixOS.Lib.OrdSet
