import HamixOS.Lib.Bytes
import HamixOS.Lib.Outcome

namespace HamixOS.Lib

open List

/-!
# Computations that may panic

`Stop ε` is how a computation ends short of a value: with an error of its own, or with one of the
panics of the language, an index or a range outside its vector, a difference below zero, or a loop
that has not ended when its fuel has.  `index`, `cut`, `overwrite` and `minus` are the operations
that check.

`Safe I m s Q` says that `m`, run from `s`, keeps `I`, returns a value in `Q` if it returns, and
otherwise ends with an error: it never panics.  The rules follow the shape of a `do` block.
-/

/-- How a computation ends short of a value. -/
inductive Stop (ε : Type)
  | error (e : ε)
  | outOfRange
  | underflow
  | endless
deriving DecidableEq, Repr

variable {ε σ α β : Type}

namespace Stop

/-- Every way of stopping but an error. -/
def panics : Stop ε → Bool
  | error _ => false
  | outOfRange => true
  | underflow => true
  | endless => true

end Stop

/-- A stateful computation that may panic. -/
abbrev CheckedM (ε σ : Type) := EStateM (Stop ε) σ

namespace Checked

/-- A computation that does not panic. -/
def lift (m : EStateM ε σ α) : CheckedM ε σ α := fun s =>
  match m s with
  | .ok a s' => .ok a s'
  | .error e s' => .error (.error e) s'

/-- Stop with an error. -/
def fail (e : ε) : CheckedM ε σ α := throw (.error e)

/-- Entry `i` of a vector. -/
def index (xs : List α) (i : Nat) : CheckedM ε σ α :=
  match xs[i]? with
  | some x => pure x
  | none => throw .outOfRange

/-- The bytes from `start` up to `stop`. -/
def cut (b : Bytes) (start stop : Nat) : CheckedM ε σ Bytes :=
  if start ≤ stop ∧ stop ≤ b.length then pure (slice b start (stop - start)) else throw .outOfRange

/-- Copy `src` over the bytes from `start` up to `stop`, which are as many. -/
def overwrite (b : Bytes) (start stop : Nat) (src : Bytes) : CheckedM ε σ Bytes :=
  if start ≤ stop ∧ stop ≤ b.length ∧ src.length = stop - start then pure (splice b start src)
  else throw .outOfRange

/-- A difference of unsigned numbers. -/
def minus (a b : Nat) : CheckedM ε σ Nat := if b ≤ a then pure (a - b) else throw .underflow

/-- The little-endian number in `n` bytes from `o` on. -/
def word (n : Nat) (b : Bytes) (o : Nat) : CheckedM ε σ Nat :=
  if o + n ≤ b.length then pure (getLE n b o) else throw .outOfRange

/-- Store a little-endian number in `n` bytes from `o` on. -/
def store (n : Nat) (b : Bytes) (o v : Nat) : CheckedM ε σ Bytes := overwrite b o (o + n) (toLE n v)

theorem run_ok {m : CheckedM ε σ α} {f : α → CheckedM ε σ β} {s s' : σ} {a : α} (h : m s = .ok a s') :
    (m >>= f) s = f a s' := by
  show EStateM.bind m f s = _
  unfold EStateM.bind
  rw [h]

theorem run_error {m : CheckedM ε σ α} {f : α → CheckedM ε σ β} {s s' : σ} {x : Stop ε} (h : m s = .error x s') :
    (m >>= f) s = .error x s' := by
  show EStateM.bind m f s = _
  unfold EStateM.bind
  rw [h]

/-- A run that does not panic in its first step, and then not in what follows it. -/
theorem lift_seq {m : EStateM ε σ α} {m' : CheckedM ε σ α} {f : α → EStateM ε σ β} {g : α → CheckedM ε σ β}
    {x : EStateM ε σ β} {s : σ} (hx : x s = (m >>= f) s) (hm : m' s = lift m s)
    (h : ∀ a s', m s = .ok a s' → g a s' = lift (f a) s') : (m' >>= g) s = lift x s := by
  show EStateM.bind m' g s = _
  simp only [hm, lift, hx, Bind.bind, EStateM.bind]
  cases hrun : m s with
  | ok a s' => exact h a s' hrun
  | error e s' => rfl

variable {E : Stop ε → σ → Prop}

theorem post_word {n o : Nat} {b : Bytes} {f : Nat → CheckedM ε σ β} {s : σ} {Q : β → σ → Prop}
    (hle : o + n ≤ b.length) (h : Post (f (getLE n b o)) s Q E) : Post (word n b o >>= f) s Q E := by
  unfold word
  rw [if_pos hle]
  exact h

theorem post_minus {a b : Nat} {f : Nat → CheckedM ε σ β} {s : σ} {Q : β → σ → Prop}
    (hle : b ≤ a) (h : Post (f (a - b)) s Q E) : Post (minus a b >>= f) s Q E := by
  unfold minus
  rw [if_pos hle]
  exact h

theorem post_index {xs : List α} {i : Nat} {f : α → CheckedM ε σ β} {s : σ} {Q : β → σ → Prop}
    (hi : i < xs.length) (h : ∀ x, xs[i]? = some x → Post (f x) s Q E) : Post (index xs i >>= f) s Q E := by
  have hget := getElem?_eq_getElem hi
  unfold index
  rw [hget]
  exact h _ hget

theorem post_cut {b : Bytes} {start stop : Nat} {f : Bytes → CheckedM ε σ β} {s : σ} {Q : β → σ → Prop}
    (hle : start ≤ stop) (hstop : stop ≤ b.length)
    (h : Post (f (slice b start (stop - start))) s Q E) : Post (cut b start stop >>= f) s Q E := by
  unfold cut
  rw [if_pos ⟨hle, hstop⟩]
  exact h

/-- A step for every entry of a list keeps what each of them keeps. -/
theorem post_mapM {I : σ → Prop} {P : β → Prop} {f : α → CheckedM ε σ β} {l : List α} {s : σ}
    (hf : ∀ a ∈ l, ∀ s, I s → Post (f a) s (fun b s' => I s' ∧ P b) E) (hs : I s) :
    Post (l.mapM f) s (fun bs s' => I s' ∧ bs.length = l.length ∧ ∀ b ∈ bs, P b) E := by
  induction l generalizing s with
  | nil => exact Post.pure ⟨hs, rfl, fun b hb => nomatch hb⟩
  | cons a l ih =>
    rw [mapM_cons]
    refine Post.bind (hf a mem_cons_self s hs) (fun _ _ hx => hx) fun b s₁ hb => ?_
    refine Post.bind (ih (fun a ha => hf a (mem_cons_of_mem _ ha)) hb.1) (fun _ _ hx => hx) fun bs s₂ hbs => ?_
    exact Post.pure ⟨hbs.1, congrArg (· + 1) hbs.2.1, forall_mem_cons.mpr ⟨hb.2, hbs.2.2⟩⟩

/-- Whether a run ends in a panic. -/
def panics : EStateM.Result (Stop ε) σ α → Bool
  | .ok _ _ => false
  | .error x _ => x.panics

theorem panics_of_post {m : CheckedM ε σ α} {s : σ} {b : Bool} {Q : α → σ → Prop} (hQ : ∀ a s', Q a s' → b = false)
    (h : Post m s Q (fun x _ => x.panics = b)) : panics (m s) = b := by
  unfold Post at h
  cases hm : m s with
  | ok a s' =>
    rw [hm] at h
    exact (hQ a s' h).symm
  | error x s' =>
    rw [hm] at h
    exact h

end Checked

open Checked

/-- `m` keeps `I` and does not panic; what it returns is in `Q`. -/
def Safe (I : σ → Prop) (m : CheckedM ε σ α) (s : σ) (Q : α → Prop) : Prop :=
  Post m s (fun a s' => I s' ∧ Q a) (fun x s' => I s' ∧ x.panics = false)

namespace Safe

variable {I : σ → Prop} {m : CheckedM ε σ α} {f : α → CheckedM ε σ β} {s : σ} {Q Q' : α → Prop} {R : β → Prop}

theorem pure {a : α} (hs : I s) (h : Q a) : Safe I (Pure.pure a : CheckedM ε σ α) s Q := ⟨hs, h⟩

theorem fail {e : ε} (hs : I s) : Safe I (Checked.fail e : CheckedM ε σ α) s Q := ⟨hs, rfl⟩

theorem mono (h : Safe I m s Q) (hQ : ∀ a, Q a → Q' a) : Safe I m s Q' :=
  Post.mono h (fun a _ ha => ⟨ha.1, hQ a ha.2⟩) fun _ _ hx => hx

/-- The rule for one step of a `do` block. -/
theorem bind (h : Safe I m s Q) (hf : ∀ a s', I s' → Q a → Safe I (f a) s' R) : Safe I (m >>= f) s R :=
  Post.bind h (fun _ _ hx => hx) fun a s' ha => hf a s' ha.1 ha.2

theorem get {f : σ → CheckedM ε σ β} (h : Safe I (f s) s R) : Safe I (MonadState.get >>= f) s R := h

theorem modify {g : σ → σ} (h : I (g s)) : Safe I (modify g : CheckedM ε σ PUnit) s (fun _ => True) := ⟨h, trivial⟩

theorem ite {c : Prop} [Decidable c] {m m' : CheckedM ε σ α} (h : c → Safe I m s Q) (h' : ¬ c → Safe I m' s Q) :
    Safe I (if c then m else m') s Q := by
  split_ifs with hc
  · exact h hc
  · exact h' hc

/-- A computation that does not panic, after what is known of its run. -/
theorem lift {m : EStateM ε σ α} (h : Post m s (fun a s' => I s' ∧ Q a) (fun _ s' => I s')) :
    Safe I (Checked.lift m) s Q := by
  unfold Safe Post Checked.lift at *
  cases hm : m s with
  | ok a s' =>
    rw [hm] at h
    exact h
  | error e s' =>
    rw [hm] at h
    exact ⟨h, rfl⟩

theorem mapM {f : α → CheckedM ε σ β} {P : β → Prop} {l : List α}
    (hf : ∀ a ∈ l, ∀ s, I s → Safe I (f a) s P) (hs : I s) :
    Safe I (l.mapM f) s (fun bs => bs.length = l.length ∧ ∀ b ∈ bs, P b) := post_mapM hf hs

/-! ### The operations that check -/

theorem index {xs : List α} {i : Nat} (hi : i < xs.length) (h : ∀ x, xs[i]? = some x → Safe I (f x) s R) :
    Safe I (Checked.index xs i >>= f) s R := post_index hi h

theorem cut {b : Bytes} {start stop : Nat} {f : Bytes → CheckedM ε σ β} (hle : start ≤ stop)
    (hstop : stop ≤ b.length) (h : Safe I (f (slice b start (stop - start))) s R) :
    Safe I (Checked.cut b start stop >>= f) s R := post_cut hle hstop h

theorem overwrite {b src : Bytes} {start stop : Nat} {f : Bytes → CheckedM ε σ β} (hle : start ≤ stop)
    (hstop : stop ≤ b.length) (hsrc : src.length = stop - start)
    (h : ∀ b', b'.length = b.length → Safe I (f b') s R) : Safe I (Checked.overwrite b start stop src >>= f) s R := by
  unfold Checked.overwrite
  rw [if_pos ⟨hle, hstop, hsrc⟩]
  exact h _ (length_splice (by omega))

theorem minus {a b : Nat} {f : Nat → CheckedM ε σ β} (hle : b ≤ a) (h : Safe I (f (a - b)) s R) :
    Safe I (Checked.minus a b >>= f) s R := post_minus hle h

theorem word {n o : Nat} {b : Bytes} {f : Nat → CheckedM ε σ β} (hle : o + n ≤ b.length)
    (h : Safe I (f (getLE n b o)) s R) : Safe I (Checked.word n b o >>= f) s R := post_word hle h

theorem store {n o v : Nat} {b : Bytes} {f : Bytes → CheckedM ε σ β} (hle : o + n ≤ b.length)
    (h : ∀ b', b'.length = b.length → Safe I (f b') s R) : Safe I (Checked.store n b o v >>= f) s R :=
  overwrite (Nat.le_add_right _ _) hle (by rw [length_toLE]; omega) h

/-- What `Safe` says of the result. -/
theorem not_panics (h : Safe I m s Q) : Checked.panics (m s) = false := by
  unfold Safe Post at h
  cases hm : m s with
  | ok a s' => rfl
  | error x s' =>
    rw [hm] at h
    exact h.2

/-- The state after a safe computation, however it ends. -/
theorem state_ok (h : Safe I m s Q) {a : α} {s' : σ} (hm : m s = .ok a s') : I s' ∧ Q a := by
  exact h.ok hm

theorem state_error (h : Safe I m s Q) {x : Stop ε} {s' : σ} (hm : m s = .error x s') : I s' := by
  exact (h.error hm).1

end Safe

end HamixOS.Lib
