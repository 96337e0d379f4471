import Mathlib.Data.List.Basic

namespace HamixOS.Lib

open List Nat

/-!
# Lists in parts

`chunks n l` cuts `l` into parts of `n` elements, the last one possibly shorter.
-/

variable {α β : Type}

/-- The parts of `n` elements of a list; the fuel bounds their number. -/
def chunksFuel (n : Nat) : Nat → List α → List (List α)
  | 0, _ => []
  | _ + 1, [] => []
  | fuel + 1, x :: xs => (x :: xs).take n :: chunksFuel n fuel ((x :: xs).drop n)

/-- The parts of `n` elements of a list. -/
def chunks (n : Nat) (l : List α) : List (List α) := chunksFuel n l.length l

variable {l : List α}

theorem flatten_chunksFuel {n fuel : Nat} (hn : 0 < n) (hf : l.length ≤ fuel) :
    (chunksFuel n fuel l).flatten = l := by
  induction fuel generalizing l with
  | zero =>
    have hl : l = [] := length_eq_zero_iff.mp (by omega)
    rw [hl]
    rfl
  | succ fuel ih =>
    cases l with
    | nil => rfl
    | cons x xs =>
      have hdrop : ((x :: xs).drop n).length ≤ fuel := by
        simp only [length_drop, length_cons] at hf ⊢
        omega
      rw [chunksFuel, flatten_cons, ih hdrop, take_append_drop]

variable {n : Nat}

theorem flatten_chunks (hn : 0 < n) (l : List α) : (chunks n l).flatten = l :=
  flatten_chunksFuel hn (Nat.le_refl _)

theorem mem_chunksFuel {n fuel : Nat} {l c : List α} (hn : 0 < n) (h : c ∈ chunksFuel n fuel l) :
    c ≠ [] ∧ c.length ≤ n ∧ ∀ x ∈ c, x ∈ l := by
  induction fuel generalizing l with
  | zero => cases h
  | succ fuel ih =>
    cases l with
    | nil => cases h
    | cons x xs =>
      rcases mem_cons.mp h with rfl | hc
      · refine ⟨?_, ?_, ?_⟩
        · intro hnil
          have hlen := congrArg List.length hnil
          simp only [length_take, length_cons, length_nil] at hlen
          omega
        · rw [length_take]
          omega
        · intro y hy
          exact mem_of_mem_take hy
      · obtain ⟨h1, h2, h3⟩ := ih hc
        exact ⟨h1, h2, fun y hy => mem_of_mem_drop (h3 y hy)⟩

theorem mem_chunks {l c : List α} (hn : 0 < n) (h : c ∈ chunks n l) :
    c ≠ [] ∧ c.length ≤ n ∧ ∀ x ∈ c, x ∈ l :=
  mem_chunksFuel hn h

theorem length_chunksFuel_le {n fuel k : Nat} (h : l.length ≤ k * n) :
    (chunksFuel n fuel l).length ≤ k := by
  induction fuel generalizing l k with
  | zero => exact zero_le k
  | succ fuel ih =>
    cases l with
    | nil => exact zero_le k
    | cons x xs =>
      cases k with
      | zero => simp at h
      | succ k =>
        have hdrop : ((x :: xs).drop n).length ≤ k * n := by
          rw [succ_mul] at h
          rw [length_drop]
          omega
        rw [chunksFuel, length_cons]
        have := ih hdrop
        omega

theorem length_chunks_le {n k : Nat} (h : l.length ≤ k * n) : (chunks n l).length ≤ k :=
  length_chunksFuel_le h

theorem chunksFuel_eq {n fuel : Nat} (hn : 0 < n) (hf : l.length ≤ fuel) : chunksFuel n fuel l = chunks n l := by
  have hmore : ∀ fuel (l : List α), l.length ≤ fuel → chunksFuel n (fuel + 1) l = chunksFuel n fuel l := by
    intro fuel
    induction fuel with
    | zero =>
      intro l h
      rw [eq_nil_of_length_eq_zero (le_zero.mp h)]
      rfl
    | succ fuel ih =>
      intro l h
      cases l with
      | nil => rfl
      | cons x xs =>
        rw [chunksFuel, chunksFuel, ih]
        rw [length_drop]
        omega
  obtain ⟨k, rfl⟩ := Nat.exists_eq_add_of_le hf
  clear hf
  induction k with
  | zero => rfl
  | succ k ih => rw [← Nat.add_assoc, hmore _ l (Nat.le_add_right _ _), ih]

/-- A first part of `n` elements is a part of its own. -/
theorem chunks_cons (hn : 0 < n) (hl : l ≠ []) : chunks n l = l.take n :: chunks n (l.drop n) := by
  obtain ⟨x, xs, rfl⟩ := exists_cons_of_ne_nil hl
  rw [chunks, length_cons, chunksFuel, chunksFuel_eq hn]
  rw [length_drop, length_cons]
  omega

/-- Whole parts in front do not change how the rest is cut. -/
theorem chunks_append (hn : 0 < n) {a : List α} (ha : a.length % n = 0) (b : List α) :
    chunks n (a ++ b) = chunks n a ++ chunks n b := by
  induction hk : a.length using Nat.strongRecOn generalizing a with
  | _ k ih =>
    by_cases hnil : a = []
    · rw [hnil]
      rfl
    have hpos := length_pos_iff.mpr hnil
    have hle : n ≤ a.length := le_of_dvd hpos (dvd_of_mod_eq_zero ha)
    have hdrop : (a.drop n).length % n = 0 := by
      rw [length_drop, sub_mod_eq_zero_of_mod_eq (by rw [ha, mod_self])]
    rw [chunks_cons hn (by simp [hnil]), chunks_cons hn hnil, take_append_of_le_length hle,
      drop_append_of_le_length hle, ih _ (by rw [length_drop]; omega) hdrop rfl, cons_append]

theorem chunks_of_length (hn : 0 < n) (hl : l.length = n) : chunks n l = [l] := by
  rw [chunks_cons hn (by rw [← length_pos_iff]; omega), take_of_length_le (Nat.le_of_eq hl),
    drop_eq_nil_of_le (Nat.le_of_eq hl)]
  rfl

theorem chunks_ne_nil (h : l ≠ []) : chunks n l ≠ [] := by
  cases l with
  | nil => exact absurd rfl h
  | cons x xs =>
    intro hc
    cases hc

end HamixOS.Lib
