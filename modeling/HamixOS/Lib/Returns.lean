import HamixOS.Lib.Checked

namespace HamixOS.Lib

/-!
# Computations that return

`plus w` adds numbers of `w` bits and stops where the sum does not fit.  `Returns I m s Q` says that `m`,
run from `s`, ends with a value in `Q` and a state in `I`: it neither panics nor stops with an error.  The
rules follow the shape of a `do` block, as those of `Safe` do.
-/

/-- The stop of a program whose only errors are sums that do not fit. -/
inductive Overflow where
  | overflow
  deriving DecidableEq, Repr

variable {ε σ α β : Type}

namespace Checked

/-- A sum of numbers of `w` bits. -/
def plus (w a b : Nat) : CheckedM Overflow σ Nat := if a + b < 2 ^ w then pure (a + b) else fail .overflow

/-- A first step whose run is known. -/
theorem post_step {m : CheckedM ε σ α} {f : α → CheckedM ε σ β} {s s' : σ} {a : α} {Q : β → σ → Prop}
    {E : Stop ε → σ → Prop} (hm : m s = .ok a s') (h : Post (f a) s' Q E) : Post (m >>= f) s Q E := by
  unfold Post
  rw [run_ok hm]
  exact h

theorem post_plus {w a b : Nat} {f : Nat → CheckedM Overflow σ β} {s : σ} {Q : β → σ → Prop}
    {E : Stop Overflow → σ → Prop} (hlt : a + b < 2 ^ w) (h : Post (f (a + b)) s Q E) : Post (plus w a b >>= f) s Q E := by
  unfold plus
  rw [if_pos hlt]
  exact h

end Checked

open Checked

/-- `m` ends with a value in `Q` and a state in `I`. -/
def Returns (I : σ → Prop) (m : CheckedM ε σ α) (s : σ) (Q : α → Prop) : Prop :=
  Post m s (fun a s' => I s' ∧ Q a) (fun _ _ => False)

namespace Returns

variable {I : σ → Prop} {m : CheckedM ε σ α} {f : α → CheckedM ε σ β} {s : σ} {Q Q' : α → Prop} {R : β → Prop}

theorem pure {a : α} (hs : I s) (h : Q a) : Returns I (Pure.pure a : CheckedM ε σ α) s Q := ⟨hs, h⟩

theorem mono (h : Returns I m s Q) (hQ : ∀ a, Q a → Q' a) : Returns I m s Q' :=
  Post.mono h (fun a _ ha => ⟨ha.1, hQ a ha.2⟩) fun _ _ hx => hx

/-- The rule for one step of a `do` block. -/
theorem bind (h : Returns I m s Q) (hf : ∀ a s', I s' → Q a → Returns I (f a) s' R) : Returns I (m >>= f) s R :=
  Post.bind h (fun _ _ hx => hx) fun a s' ha => hf a s' ha.1 ha.2

theorem step {a : α} {s' : σ} (hm : m s = .ok a s') (h : Returns I (f a) s' R) : Returns I (m >>= f) s R :=
  post_step hm h

theorem ite {c : Prop} [Decidable c] {m m' : CheckedM ε σ α} (h : c → Returns I m s Q)
    (h' : ¬ c → Returns I m' s Q) : Returns I (if c then m else m') s Q := by
  split_ifs with hc
  · exact h hc
  · exact h' hc

theorem mapM {f : α → CheckedM ε σ β} {P : β → Prop} {l : List α}
    (hf : ∀ a ∈ l, ∀ s, I s → Returns I (f a) s P) (hs : I s) :
    Returns I (l.mapM f) s (fun bs => bs.length = l.length ∧ ∀ b ∈ bs, P b) := post_mapM hf hs

/-! ### The operations that check -/

theorem index {xs : List α} {i : Nat} (hi : i < xs.length) (h : ∀ x, xs[i]? = some x → Returns I (f x) s R) :
    Returns I (Checked.index xs i >>= f) s R := post_index hi h

theorem cut {b : Bytes} {start stop : Nat} {f : Bytes → CheckedM ε σ β} (hle : start ≤ stop)
    (hstop : stop ≤ b.length) (h : Returns I (f (slice b start (stop - start))) s R) :
    Returns I (Checked.cut b start stop >>= f) s R := post_cut hle hstop h

theorem minus {a b : Nat} {f : Nat → CheckedM ε σ β} (hle : b ≤ a) (h : Returns I (f (a - b)) s R) :
    Returns I (Checked.minus a b >>= f) s R := post_minus hle h

theorem word {n o : Nat} {b : Bytes} {f : Nat → CheckedM ε σ β} (hle : o + n ≤ b.length)
    (h : Returns I (f (getLE n b o)) s R) : Returns I (Checked.word n b o >>= f) s R := post_word hle h

theorem plus {w a b : Nat} {f : Nat → CheckedM Overflow σ β} (hlt : a + b < 2 ^ w)
    (h : Returns I (f (a + b)) s R) : Returns I (Checked.plus w a b >>= f) s R := post_plus hlt h

/-- The run that `Returns` speaks of. -/
theorem run (h : Returns I m s Q) : ∃ a s', m s = .ok a s' ∧ I s' ∧ Q a := Post.total h

end Returns

end HamixOS.Lib
