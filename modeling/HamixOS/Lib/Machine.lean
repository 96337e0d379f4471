import Mathlib.Tactic.Ring

namespace HamixOS.Lib

open Option

/-!
# Labelled machines and their invariants

A machine is a partial step function `step : σ → ℓ → Option σ` over labels `ℓ`; a
label that is not enabled gives `none`.  `Reach init step ok` collects the states of
the runs that start in `init` and whose every step meets `ok`, a condition on the
state before the step and on its label.  `Reach.invariant` is the induction over a
run: what holds initially and is kept by each admitted step holds in every state.
-/

variable {σ ℓ : Type}

/-- The states of the runs from `init` whose steps all meet `ok`. -/
inductive Reach (init : σ → Prop) (step : σ → ℓ → Option σ) (ok : σ → ℓ → Prop) : σ → Prop
  | start {s : σ} : init s → Reach init step ok s
  | next {s s' : σ} {a : ℓ} : Reach init step ok s → ok s a → step s a = some s' →
      Reach init step ok s'

variable {init : σ → Prop} {ok : σ → ℓ → Prop} {step : σ → ℓ → Option σ}

/-- The run rule: an inductive invariant holds in every state reached. -/
theorem Reach.invariant {I : σ → Prop} (hinit : ∀ s, init s → I s)
    (hstep : ∀ s a s', I s → ok s a → step s a = some s' → I s')
    {s : σ} (h : Reach init step ok s) : I s := by
  induction h with
  | start hi => exact hinit _ hi
  | next _ hok hs ih => exact hstep _ _ _ ih hok hs

/-- Run a list of labels, stopping at the first one that is not enabled. -/
def runLabels (step : σ → ℓ → Option σ) : σ → List ℓ → Option σ
  | s, [] => some s
  | s, a :: as => (step s a).bind (fun s' => runLabels step s' as)

/-- What an admitted list of labels leads to is reached. -/
theorem Reach.run {s s' : σ} (h : Reach init step ok s) (as : List ℓ) (hok : ∀ s, ∀ a ∈ as, ok s a)
    (hrun : runLabels step s as = some s') : Reach init step ok s' := by
  induction as generalizing s with
  | nil =>
    cases hrun
    exact h
  | cons a as ih =>
    obtain ⟨m, hm, hrest⟩ := bind_eq_some_iff.mp hrun
    refine ih (Reach.next h (hok s a (by simp)) hm) ?_ hrest
    intro t b hb
    exact hok t b (by simp [hb])

/-- Every label of a list meets `ok` in the state it is taken in. -/
def Admits (step : σ → ℓ → Option σ) (ok : σ → ℓ → Prop) : σ → List ℓ → Prop
  | _, [] => True
  | s, a :: as => ok s a ∧ ∀ s', step s a = some s' → Admits step ok s' as

theorem Admits.cons {s s' : σ} {a : ℓ} {as : List ℓ} (ha : ok s a)
    (hs : step s a = some s') (h : Admits step ok s' as) : Admits step ok s (a :: as) := by
  refine ⟨ha, fun t ht => ?_⟩
  obtain rfl := some.inj (hs.symm.trans ht)
  exact h

/-- As `Reach.run`, with the condition judged label by label. -/
theorem Reach.admitted {s s' : σ} (h : Reach init step ok s) (as : List ℓ) (hok : Admits step ok s as)
    (hrun : runLabels step s as = some s') : Reach init step ok s' := by
  induction as generalizing s with
  | nil =>
    cases hrun
    exact h
  | cons a as ih =>
    obtain ⟨m, hm, hrest⟩ := bind_eq_some_iff.mp hrun
    exact ih (Reach.next h hok.1 hm) (hok.2 m hm) hrest

end HamixOS.Lib
