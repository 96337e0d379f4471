import Mathlib.Tactic.Common

namespace HamixOS.Lib

open List

/-!
# Growing a set until nothing is pulled in

Items are looked at one after the other, each seen by the set as it stands; an item that is
pulled in adds its key, and the passes are repeated until one of them adds nothing.

* `Saturate.pass` — one pass, with a flag that says whether the set grew;
* `Saturate.run` — passes until none grows the set;
* `run_induct` — what insertions keep holds of the result;
* `run_closed` — no item outside the result is pulled in by it.
-/

namespace Saturate

variable {α κ : Type} [DecidableEq κ] (key : α → κ) (insert : κ → List κ → List κ) (pulled : List κ → α → Bool)

/-- One pass over the items. -/
def pass : List α → List κ × Bool → List κ × Bool
  | [], s => s
  | a :: items, s =>
    if key a ∉ s.1 ∧ pulled s.1 a then pass items (insert (key a) s.1, true) else pass items s

/-- Passes over `items` until one adds nothing, `fuel` of them at most. -/
def run (items : List α) : Nat → List κ → List κ
  | 0, s => s
  | fuel + 1, s =>
    let r := pass key insert pulled items (s, false)
    if r.2 then run items fuel r.1 else r.1

variable {key insert pulled}

variable {items : List α}

theorem pass_induct {P : List κ → Prop}
    (hstep : ∀ s, ∀ a ∈ items, P s → key a ∉ s → pulled s a = true → P (insert (key a) s))
    {s : List κ × Bool} (hs : P s.1) : P (pass key insert pulled items s).1 := by
  induction items generalizing s with
  | nil => exact hs
  | cons a items ih =>
    have htail : ∀ s, ∀ b ∈ items, P s → key b ∉ s → pulled s b = true → P (insert (key b) s) :=
      fun s b hb => hstep s b (mem_cons_of_mem _ hb)
    unfold pass
    split_ifs with h
    · exact ih htail (hstep _ a mem_cons_self hs h.1 h.2)
    · exact ih htail hs

/-- What holds at the start and is kept by every insertion holds of the result. -/
theorem run_induct {P : List κ → Prop}
    (hstep : ∀ s, ∀ a ∈ items, P s → key a ∉ s → pulled s a = true → P (insert (key a) s))
    (fuel : Nat) {s : List κ} (hs : P s) : P (run key insert pulled items fuel s) := by
  induction fuel generalizing s with
  | zero => exact hs
  | succ fuel ih =>
    have hpass : P (pass key insert pulled items (s, false)).1 := pass_induct hstep hs
    unfold run
    dsimp only
    split_ifs
    · exact ih hpass
    · exact hpass

/-- Once set, the flag stays. -/
theorem pass_grew (items : List α) (s : List κ) : (pass key insert pulled items (s, true)).2 = true := by
  induction items generalizing s with
  | nil => rfl
  | cons a items ih =>
    unfold pass
    split_ifs
    · exact ih _
    · exact ih s

/-- A pass that adds nothing leaves the set as it is, and finds no item that is pulled in. -/
theorem pass_quiet {s : List κ} (h : (pass key insert pulled items (s, false)).2 = false) :
    (pass key insert pulled items (s, false)).1 = s ∧ ∀ a ∈ items, key a ∉ s → pulled s a = false := by
  induction items with
  | nil => exact ⟨rfl, nofun⟩
  | cons a items ih =>
    unfold pass at h ⊢
    split_ifs at h ⊢ with ha
    · rw [pass_grew] at h
      cases h
    · obtain ⟨hs, hrest⟩ := ih h
      refine ⟨hs, fun b hb hkey => ?_⟩
      rcases mem_cons.mp hb with rfl | hb
      · by_contra hp
        exact ha ⟨hkey, by simpa using hp⟩
      · exact hrest b hb hkey

/-- The items whose key is not in the set yet. -/
def outside (key : α → κ) (items : List α) (s : List κ) : Nat := items.countP (fun a => key a ∉ s)

section Count

variable (hins : ∀ k (s : List κ) x, x ∈ insert k s ↔ x = k ∨ x ∈ s)
include hins

theorem outside_insert_le (items : List α) (k : κ) (s : List κ) :
    outside key items (insert k s) ≤ outside key items s := by
  refine countP_mono_left fun a _ ha => ?_
  simp only [hins, decide_eq_true_eq, not_or] at ha ⊢
  exact ha.2

theorem outside_insert_lt {a : α} (ha : a ∈ items) {s : List κ} (hs : key a ∉ s) :
    outside key items (insert (key a) s) < outside key items s := by
  induction items with
  | nil => cases ha
  | cons b items ih =>
    unfold outside
    rw [countP_cons, countP_cons]
    have hle := @outside_insert_le α κ _ key insert hins items (key a) s
    unfold outside at hle ih
    rcases mem_cons.mp ha with rfl | ha
    · rw [if_neg (by simp [hins]), if_pos (by simpa using hs)]
      omega
    · have := ih ha
      split_ifs with h1 h2
      · omega
      · simp only [hins, decide_eq_true_eq, not_or] at h1 h2
        exact absurd h1.2 h2
      · omega
      · omega

theorem outside_pass_le (all items : List α) (s : List κ × Bool) :
    outside key all (pass key insert pulled items s).1 ≤ outside key all s.1 :=
  pass_induct (P := fun t => outside key all t ≤ outside key all s.1)
    (fun t a _ ht _ _ => Nat.le_trans (outside_insert_le hins all (key a) t) ht) (Nat.le_refl _)

theorem outside_pass_lt {all items : List α} (hsub : ∀ a ∈ items, a ∈ all) {s : List κ}
    (h : (pass key insert pulled items (s, false)).2 = true) :
    outside key all (pass key insert pulled items (s, false)).1 < outside key all s := by
  induction items with
  | nil => cases h
  | cons a items ih =>
    unfold pass at h ⊢
    split_ifs at h ⊢ with ha
    · exact Nat.lt_of_le_of_lt (outside_pass_le hins all items _)
        (outside_insert_lt hins (hsub a mem_cons_self) ha.1)
    · exact ih (fun b hb => hsub b (mem_cons_of_mem _ hb)) h

/-- With fuel for as many passes as items are outside, the result pulls nothing in. -/
theorem run_closed {fuel : Nat} {s : List κ} (hf : outside key items s < fuel) :
    ∀ a ∈ items, key a ∉ run key insert pulled items fuel s →
      pulled (run key insert pulled items fuel s) a = false := by
  induction fuel generalizing s with
  | zero => omega
  | succ fuel ih =>
    unfold run
    dsimp only
    split_ifs with h
    · have := outside_pass_lt hins (fun a ha => ha) h
      exact ih (by omega)
    · obtain ⟨hs, hquiet⟩ := pass_quiet (by simpa using h)
      rw [hs]
      exact hquiet

end Count

end Saturate

end HamixOS.Lib
