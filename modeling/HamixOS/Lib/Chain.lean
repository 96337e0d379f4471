import Mathlib.Logic.Function.Iterate
import Mathlib.Logic.Relation

namespace HamixOS.Lib

open Function Nat

/-!
# Chains of parents

`up` leads from a node to its parent, and `Ends up root i` says that the chain of parents of
`i` comes to `root`.

* `Ends.fresh` — a new node below an old one;
* `Ends.regraft` — a node is moved below another whose chain does not pass through it;
* `Ends.acyclic` — no node is above itself where links lead from parents to children.
-/

variable {ν : Type}

/-- The chain of parents of `i` comes to `root`. -/
def Ends (up : ν → ν) (root i : ν) : Prop := ∃ k, up^[k] i = root

namespace Ends

variable {up up' : ν → ν} {root i t p : ν}

theorem root_self (up : ν → ν) (root : ν) : Ends up root root := ⟨0, rfl⟩

theorem of_up (h : Ends up root (up i)) : Ends up root i := by
  obtain ⟨k, hk⟩ := h
  exact ⟨k + 1, hk⟩

/-- A chain that avoids a node does not see the node's parent change. -/
theorem iterate_update [DecidableEq ν] (hp : ∀ k, up^[k] p ≠ t) (q : ν) (k : Nat) :
    (update up t q)^[k] p = up^[k] p := by
  induction k with
  | zero => rfl
  | succ k ih => rw [iterate_succ_apply', iterate_succ_apply', ih, update_of_ne (hp k)]

/-- Every chain still ends after `t` is moved below `p`, whose chain avoids it. -/
theorem regraft [DecidableEq ν] (hp : ∀ k, up^[k] p ≠ t) (hend : Ends up root p) (hi : Ends up root i) :
    Ends (update up t p) root i := by
  have hp' : Ends (update up t p) root p := by
    obtain ⟨k, hk⟩ := hend
    exact ⟨k, (iterate_update hp p k).trans hk⟩
  obtain ⟨k, hk⟩ := hi
  induction k generalizing i with
  | zero =>
    rw [show i = root from hk]
    exact root_self _ root
  | succ k ih =>
    by_cases hit : i = t
    · refine of_up ?_
      rw [hit, update_self]
      exact hp'
    · refine of_up ?_
      rw [update_of_ne hit]
      exact ih hk

/-- A new node is put below an old one; the old chains do not meet it. -/
theorem fresh [DecidableEq ν] (old : ν → Prop) (hup : ∀ j, old j → old (up j)) (ht : ¬ old t) (hi : old i)
    (h : Ends up root i) : Ends (update up t p) root i := by
  have havoid : ∀ k, old (up^[k] i) := by
    intro k
    induction k with
    | zero => exact hi
    | succ k ih =>
      rw [iterate_succ_apply']
      exact hup _ ih
  have hne : ∀ k, up^[k] i ≠ t := by
    intro k hc
    rw [← hc] at ht
    exact ht (havoid k)
  obtain ⟨k, hk⟩ := h
  exact ⟨k, (iterate_update hne p k).trans hk⟩

/-- A chain that comes to the root and stays there does not come back to where it began. -/
theorem not_periodic (hroot : up root = root) (h : Ends up root i) (hne : i ≠ root) (k : Nat) :
    up^[k + 1] i ≠ i := by
  intro hper
  obtain ⟨n, hn⟩ := h
  have hstay : ∀ m, up^[m] root = root := fun m => iterate_fixed hroot m
  -- going round often enough passes the end of the chain
  have hround : ∀ m, up^[m * (k + 1)] i = i := by
    intro m
    induction m with
    | zero => rw [Nat.zero_mul, iterate_zero_apply]
    | succ m ih => rw [succ_mul, iterate_add_apply, hper, ih]
  have hle : n ≤ n * (k + 1) := Nat.le_mul_of_pos_right n (Nat.succ_pos k)
  have hend : up^[n * (k + 1)] i = root := by
    obtain ⟨d, hd⟩ := Nat.exists_eq_add_of_le hle
    rw [hd, Nat.add_comm, iterate_add_apply, hn, hstay]
  exact hne ((hround n).symm.trans hend)

/-- Links that lead from a parent to its child make no cycle. -/
theorem acyclic {link : ν → ν → Prop} (hroot : up root = root) (hlink : ∀ d c, link d c → up c = d ∧ c ≠ root)
    (h : Ends up root i) : ¬ Relation.TransGen link i i := by
  have hclimb : ∀ {a b}, Relation.TransGen link a b → (∃ k, up^[k + 1] b = a) ∧ b ≠ root := by
    intro a b hab
    induction hab with
    | single hl =>
      obtain ⟨hup, hne⟩ := hlink _ _ hl
      exact ⟨⟨0, hup⟩, hne⟩
    | tail _ hl ih =>
      obtain ⟨hup, hne⟩ := hlink _ _ hl
      obtain ⟨⟨k, hk⟩, -⟩ := ih
      refine ⟨⟨k + 1, ?_⟩, hne⟩
      rw [iterate_succ_apply, hup, hk]
  intro hcycle
  obtain ⟨⟨k, hk⟩, hne⟩ := hclimb hcycle
  exact h.not_periodic hroot hne k hk

end Ends

end HamixOS.Lib
