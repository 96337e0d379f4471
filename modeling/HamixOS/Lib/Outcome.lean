import Mathlib.Tactic.Common

namespace HamixOS.Lib

/-!
# Outcomes of stateful computations that may fail

`Post m s Q E` says what running `m` from `s` leads to: a value and a state in `Q`, or an
error and a state in `E`.  The state reached by a failing run is kept, as in the code.  The
rules follow the shape of a `do` block.
-/

variable {ε σ α β : Type}

/-- Running `m` from `s` ends in `Q`, or fails in `E`. -/
def Post (m : EStateM ε σ α) (s : σ) (Q : α → σ → Prop) (E : ε → σ → Prop) : Prop :=
  match m s with
  | .ok a s' => Q a s'
  | .error e s' => E e s'

/-- The value or the error of a run, without the state. -/
def outcome (m : EStateM ε σ α) (s : σ) : Except ε α :=
  match m s with
  | .ok a _ => .ok a
  | .error e _ => .error e

variable {m : EStateM ε σ α} {f : α → EStateM ε σ β} {s : σ}
  {Q Q' : α → σ → Prop} {R : β → σ → Prop} {E E' : ε → σ → Prop}

theorem Post.pure {a : α} (h : Q a s) : Post (Pure.pure a) s Q E := h

theorem Post.throw {e : ε} (h : E e s) : Post (MonadExcept.throw e : EStateM ε σ α) s Q E := h

theorem Post.mono (h : Post m s Q E) (hQ : ∀ a s', Q a s' → Q' a s')
    (hE : ∀ e s', E e s' → E' e s') : Post m s Q' E' := by
  simp only [Post] at h ⊢
  cases hm : m s with
  | ok a s' =>
    rw [hm] at h
    exact hQ a s' h
  | error e s' =>
    rw [hm] at h
    exact hE e s' h

/-- The rule for one step of a `do` block. -/
theorem Post.bind (h : Post m s Q E') (hE : ∀ e s', E' e s' → E e s')
    (hf : ∀ a s', Q a s' → Post (f a) s' R E) : Post (m >>= f) s R E := by
  simp only [Post, Bind.bind, EStateM.bind] at h ⊢
  cases hm : m s with
  | ok a s' =>
    rw [hm] at h
    exact hf a s' h
  | error e s' =>
    rw [hm] at h
    exact hE e s' h

/-- Two runs that begin alike and go on alike. -/
theorem run_bind_congr {m m' : EStateM ε σ α} {f g : α → EStateM ε σ β} {s : σ} (hm : m s = m' s)
    (h : ∀ a s', m' s = .ok a s' → f a s' = g a s') : (m >>= f) s = (m' >>= g) s := by
  show EStateM.bind m f s = EStateM.bind m' g s
  unfold EStateM.bind
  rw [hm]
  cases hrun : m' s with
  | ok a s' => exact h a s' hrun
  | error e s' => rfl

/-- A step that cannot fail. -/
theorem Post.seq (h : Post m s Q (fun _ _ => False))
    (hf : ∀ a s', Q a s' → Post (f a) s' R E) : Post (m >>= f) s R E :=
  h.bind (fun _ _ hfalse => hfalse.elim) hf

/-- Reading the state. -/
theorem Post.get {f : σ → EStateM ε σ β} (h : Post (f s) s R E) :
    Post (MonadState.get >>= f) s R E := h

/-- Changing the state. -/
theorem Post.change {g : σ → σ} {f : PUnit → EStateM ε σ β} (h : Post (f ⟨⟩) (g s) R E) :
    Post (modify g >>= f) s R E := h

theorem Post.change_last {g : σ → σ} {Q : PUnit → σ → Prop} (h : Q ⟨⟩ (g s)) :
    Post (modify g : EStateM ε σ PUnit) s Q E := h

theorem Post.and (h : Post m s Q E) (h' : Post m s Q' E') :
    Post m s (fun a s' => Q a s' ∧ Q' a s') (fun e s' => E e s' ∧ E' e s') := by
  simp only [Post] at h h' ⊢
  cases hm : m s with
  | ok a s' =>
    rw [hm] at h h'
    exact ⟨h, h'⟩
  | error e s' =>
    rw [hm] at h h'
    exact ⟨h, h'⟩

/-- What a run that returned leads to. -/
theorem Post.ok {a : α} {s' : σ} (h : Post m s Q E) (hm : m s = .ok a s') : Q a s' := by
  rw [Post, hm] at h
  exact h

/-- What a run that failed leads to. -/
theorem Post.error {e : ε} {s' : σ} (h : Post m s Q E) (hm : m s = .error e s') : E e s' := by
  rw [Post, hm] at h
  exact h

/-- A run that cannot fail returns. -/
theorem Post.total (h : Post m s Q (fun _ _ => False)) : ∃ a s', m s = .ok a s' ∧ Q a s' := by
  cases hm : m s with
  | ok a s' => exact ⟨a, s', rfl, h.ok hm⟩
  | error e s' => exact (h.error hm).elim

theorem Post.of_ok {a : α} {s' : σ} (hm : m s = .ok a s') (h : Q a s') : Post m s Q E := by
  rw [Post, hm]
  exact h

theorem Post.outcome {r : Except ε α} (h : Post m s (fun a _ => r = .ok a) (fun e _ => r = .error e)) :
    outcome m s = r := by
  rw [Lib.outcome]
  rw [Post] at h
  split at h <;> exact h.symm

end HamixOS.Lib
