import HamixOS.Lib.Outcome

namespace HamixOS.Lib

/-!
# Computations that keep an invariant

`Maintains I m` says that `m`, run from a state with `I`, leaves `I` behind, whether it returns or
fails.  The rules follow the shape of a `do` block, as those of `Post` do; no rule speaks about the
values.
-/

variable {ε σ α β : Type} {I : σ → Prop}

/-- `m` keeps `I`, also where it fails. -/
def Maintains (I : σ → Prop) (m : EStateM ε σ α) : Prop :=
  ∀ s, I s → Post m s (fun _ s' => I s') (fun _ s' => I s')

namespace Maintains

theorem pure (a : α) : Maintains I (Pure.pure a : EStateM ε σ α) := fun _ h => h

theorem throw (e : ε) : Maintains I (MonadExcept.throw e : EStateM ε σ α) := fun _ h => h

theorem get : Maintains I (MonadState.get : EStateM ε σ σ) := fun _ h => h

theorem modify {g : σ → σ} (hg : ∀ s, I s → I (g s)) : Maintains I (modify g : EStateM ε σ PUnit) := fun s h => hg s h

theorem bind {m : EStateM ε σ α} {f : α → EStateM ε σ β} (hm : Maintains I m) (hf : ∀ a, Maintains I (f a)) :
    Maintains I (m >>= f) := fun s h => Post.bind (hm s h) (fun _ _ he => he) fun a s' hs' => hf a s' hs'

theorem ite {c : Prop} [Decidable c] {m m' : EStateM ε σ α} (h : Maintains I m) (h' : Maintains I m') :
    Maintains I (if c then m else m') := by
  split_ifs
  · exact h
  · exact h'

theorem forM {f : α → EStateM ε σ PUnit} (hf : ∀ a, Maintains I (f a)) (l : List α) : Maintains I (l.forM f) := by
  induction l with
  | nil => exact pure _
  | cons a l ih => exact bind (hf a) fun _ => ih

theorem mapM {f : α → EStateM ε σ β} (hf : ∀ a, Maintains I (f a)) (l : List α) : Maintains I (l.mapM f) := by
  induction l with
  | nil => exact pure _
  | cons a l ih =>
    rw [List.mapM_cons]
    exact bind (hf a) fun b => bind ih fun bs => pure _

theorem foldlM {f : β → α → EStateM ε σ β} (hf : ∀ b a, Maintains I (f b a)) (l : List α) (b : β) :
    Maintains I (l.foldlM f b) := by
  induction l generalizing b with
  | nil => exact pure _
  | cons a l ih => exact bind (hf b a) fun b' => ih b'

end Maintains

end HamixOS.Lib
