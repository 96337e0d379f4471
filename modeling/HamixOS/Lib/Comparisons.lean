import Mathlib.Data.List.Basic

namespace HamixOS.Lib

open List Nat

/-!
# Comparisons

Comparisons as functions to `Ordering`, and the search for an entry that no other one beats.

* `lexUpTo` — the lexicographic comparison of the first `n` places of two sequences;
* `lexUpTo_extend` — places that compare as equal add nothing to it;
* `best_spec` — the entry that a search keeps is not beaten by any other.
-/

section Lexicographic

variable {α : Type} (cmp : α → α → Ordering)

/-- The first place below `n` at which `f` and `g` differ decides. -/
def lexUpTo : Nat → (Nat → α) → (Nat → α) → Ordering
  | 0, _, _ => .eq
  | n + 1, f, g => (cmp (f 0) (g 0)).then (lexUpTo n (fun i => f (i + 1)) fun i => g (i + 1))

instance [Std.TransCmp cmp] (n : Nat) : Std.TransCmp (lexUpTo cmp n) := by
  induction n with
  | zero => exact { eq_swap := rfl, isLE_trans := fun _ _ => rfl }
  | succ n ih =>
    have hfirst : Std.TransCmp fun f g : Nat → α => cmp (f 0) (g 0) :=
      { eq_swap := Std.OrientedCmp.eq_swap, isLE_trans := Std.TransCmp.isLE_trans }
    have hrest : Std.TransCmp fun f g : Nat → α => lexUpTo cmp n (fun i => f (i + 1)) fun i => g (i + 1) :=
      { eq_swap := Std.OrientedCmp.eq_swap, isLE_trans := Std.TransCmp.isLE_trans }
    exact inferInstanceAs (Std.TransCmp (compareLex (fun f g : Nat → α => cmp (f 0) (g 0))
      fun f g => lexUpTo cmp n (fun i => f (i + 1)) fun i => g (i + 1)))

variable {cmp}

theorem lexUpTo_eq {n : Nat} {f g : Nat → α} (h : ∀ i < n, cmp (f i) (g i) = .eq) : lexUpTo cmp n f g = .eq := by
  induction n generalizing f g with
  | zero => rfl
  | succ n ih =>
    rw [lexUpTo, h 0 (succ_pos n), Ordering.eq_then]
    exact ih fun i hi => h (i + 1) (succ_lt_succ hi)

theorem lexUpTo_extend {n m : Nat} (hnm : n ≤ m) {f g : Nat → α} (h : ∀ i, n ≤ i → cmp (f i) (g i) = .eq) :
    lexUpTo cmp m f g = lexUpTo cmp n f g := by
  induction n generalizing m f g with
  | zero => exact lexUpTo_eq fun i _ => h i (zero_le i)
  | succ n ih =>
    obtain ⟨m, rfl⟩ : ∃ k, m = k + 1 := ⟨m - 1, by omega⟩
    rw [lexUpTo, lexUpTo, ih (le_of_succ_le_succ hnm) fun i hi => h (i + 1) (succ_le_succ hi)]

end Lexicographic

section Best

variable {α : Type} (beats : α → α → Bool)

/-- The search for the best entry: an entry is kept until one beats it. -/
def best (l : List α) : Option α := l.foldl (fun kept a => if kept.all (beats a) then some a else kept) none

variable {beats}

theorem mem_of_best {l : List α} {a : α} (h : best beats l = some a) : a ∈ l := by
  -- the entry kept so far is in the part that was seen
  have hkept : ∀ (l seen : List α) (kept : Option α), (∀ b ∈ kept, b ∈ seen) →
      ∀ b ∈ l.foldl (fun kept a => if kept.all (beats a) then some a else kept) kept, b ∈ seen ++ l := by
    intro l
    induction l with
    | nil => simp
    | cons d l ih =>
      intro seen kept hseen b hb
      rw [append_cons]
      refine ih (seen ++ [d]) _ (fun b hb => ?_) b hb
      dsimp only at hb
      split at hb
      · simp [Option.mem_some_iff.mp hb]
      · exact mem_append_left _ (hseen b hb)
  exact hkept l [] none (fun _ hb => (nomatch hb)) a h

theorem foldl_best {c : α → α → Ordering} [Std.TransCmp c] (hbeats : ∀ a b, beats a b = true ↔ c a b = .gt) (l : List α)
    (a : α) : ∃ b, l.foldl (fun kept a => if kept.all (beats a) then some a else kept) (some a) = some b ∧
      b ∈ a :: l ∧ ∀ d ∈ a :: l, (c d b).isLE := by
  induction l generalizing a with
  | nil => exact ⟨a, rfl, mem_singleton_self a, by simp [Std.ReflCmp.compare_self]⟩
  | cons d l ih =>
    rw [foldl_cons, Option.all_some]
    by_cases h : beats d a = true
    · rw [if_pos h]
      obtain ⟨b, hb, hmem, hle⟩ := ih d
      have had : (c a d).isLE := by
        rw [@Std.OrientedCmp.eq_swap _ c _ a d, (hbeats d a).mp h]
        rfl
      refine ⟨b, hb, mem_cons_of_mem a hmem, forall_mem_cons.mpr ⟨?_, hle⟩⟩
      exact Std.TransCmp.isLE_trans had (hle d mem_cons_self)
    · rw [if_neg h]
      obtain ⟨b, hb, hmem, hle⟩ := ih a
      have hda : (c d a).isLE := Ordering.isLE_iff_ne_gt.mpr (mt (hbeats d a).mpr h)
      have hab := hle a mem_cons_self
      refine ⟨b, hb, ?_, ?_⟩
      · rcases mem_cons.mp hmem with rfl | hmem
        · exact mem_cons_self
        · exact mem_cons_of_mem a (mem_cons_of_mem d hmem)
      · intro e he
        rcases mem_cons.mp he with rfl | he
        · exact hab
        rcases mem_cons.mp he with rfl | he
        · exact Std.TransCmp.isLE_trans hda hab
        · exact hle e (mem_cons_of_mem a he)

/-- Where an entry beats another iff it compares greater, the entry kept is one that no other beats. -/
theorem best_spec {c : α → α → Ordering} [Std.TransCmp c] (hbeats : ∀ a b, beats a b = true ↔ c a b = .gt) {l : List α}
    (hl : l ≠ []) : ∃ b, best beats l = some b ∧ b ∈ l ∧ ∀ d ∈ l, beats d b = false := by
  obtain ⟨a, l, rfl⟩ := exists_cons_of_ne_nil hl
  obtain ⟨b, hb, hmem, hle⟩ := foldl_best hbeats l a
  refine ⟨b, hb, hmem, fun d hd => ?_⟩
  rw [Bool.eq_false_iff]
  intro h
  have := hle d hd
  rw [(hbeats d b).mp h] at this
  cases this

end Best

end HamixOS.Lib
