import HamixOS.Lib.OrdMap

namespace HamixOS.Lib

open List OrdMap Option Assoc

/-!
# Radix trees

A tree of tables of one height, as page tables are.  Each table lies in a frame of its own
and keeps the entries that are not empty, in the order of their indices:

* `Dir α` — one table with entries in `α`;
* `Table α n` — a tree with `n` levels of tables over those that hold the leaves;
* `Table.get` / `Table.set` — the leaf of a key, read and written along its path;
* `Table.held` — how often each frame is held, by the tables themselves and by the leaves.

The index of a key at a level is a parameter `ix`; two keys that agree on every level are
the same to the tree (`Same`).
-/

variable {α κ : Type}

/-- What `f` gives for an entry, and zero where there is none. -/
def orZero (f : α → Nat → Nat) : Option α → Nat → Nat
  | none, _ => 0
  | some a, x => f a x

@[simp] theorem orZero_none (f : α → Nat → Nat) (x : Nat) : orZero f none x = 0 := rfl

@[simp] theorem orZero_some (f : α → Nat → Nat) (a : α) (x : Nat) : orZero f (some a) x = f a x := rfl

/-- One for the frame `x`, zero for every other. -/
def one (x y : Nat) : Nat := if x = y then 1 else 0

@[simp] theorem one_self (x : Nat) : one x x = 1 := if_pos rfl

theorem one_of_ne {x y : Nat} (h : x ≠ y) : one x y = 0 := if_neg h

/-- A table: the frame it lies in and its entries that are not empty. -/
structure Dir (α : Type) where
  frame : Nat
  entries : List (Nat × α)
  sorted : entries.Pairwise (fun a b => a.1 < b.1)

namespace Dir

def empty (frame : Nat) : Dir α := ⟨frame, [], OrdMap.sorted_nil⟩

def get (d : Dir α) (i : Nat) : Option α := Assoc.get d.entries i

def put (d : Dir α) (i : Nat) (v : α) : Dir α :=
  ⟨d.frame, OrdMap.insertAt d.entries i v, OrdMap.sorted_insertAt d.sorted i v⟩

def erase (d : Dir α) (i : Nat) : Dir α :=
  ⟨d.frame, Assoc.erase d.entries i, OrdMap.sorted_erase d.sorted i⟩

/-- Write an entry, or clear it. -/
def putOpt (d : Dir α) (i : Nat) : Option α → Dir α
  | some v => d.put i v
  | none => d.erase i

/-- How often each frame is held: once for the table, and as `f` says for each entry. -/
def held (f : α → Nat → Nat) (d : Dir α) (x : Nat) : Nat :=
  one d.frame x + (d.entries.map (fun e => f e.2 x)).sum

theorem get_put (d : Dir α) (i j : Nat) (v : α) :
    (d.put i v).get j = if i = j then some v else d.get j :=
  get_insertAt d.entries i j v

theorem get_erase (d : Dir α) (i j : Nat) :
    (d.erase i).get j = if i = j then none else d.get j :=
  get_erase_list d.sorted i j

theorem get_putOpt (d : Dir α) (i j : Nat) (o : Option α) :
    (d.putOpt i o).get j = if i = j then o else d.get j := by
  cases o with
  | some v => exact get_put d i j v
  | none => exact get_erase d i j

section

variable (f : α → Nat → Nat)

include f

theorem sum_insertAt {l : List (Nat × α)}
    (h : l.Pairwise (fun a b => a.1 < b.1)) (i : Nat) (v : α) (x : Nat) :
    ((insertAt l i v).map (fun e => f e.2 x)).sum + orZero f (Assoc.get l i) x =
      (l.map (fun e => f e.2 x)).sum + f v x := by
  induction l with
  | nil => simp [insertAt]
  | cons e l ih =>
    obtain ⟨he, hl⟩ := pairwise_cons.mp h
    unfold insertAt
    split_ifs with hlt heq
    · -- nothing is at `i` yet, as every index of the list is greater
      have hnone : Assoc.get (e :: l) i = none := by
        refine get_none_of_lt fun y hy => ?_
        rcases mem_cons.mp hy with rfl | hy
        · exact hlt
        · exact lt_trans hlt (he y hy)
      rw [hnone, orZero_none, map_cons, sum_cons]
      show f v x + _ + 0 = _
      omega
    · rw [get_cons, if_pos heq, orZero_some]
      simp only [map_cons, sum_cons]
      omega
    · rw [get_cons, if_neg heq]
      simp only [map_cons, sum_cons]
      have := ih hl
      omega

theorem held_put (d : Dir α) (i : Nat) (v : α) (x : Nat) :
    (d.put i v).held f x + orZero f (d.get i) x = d.held f x + f v x := by
  have h := sum_insertAt f d.sorted i v x
  unfold held put get
  dsimp only
  omega

theorem held_erase (d : Dir α) (i x : Nat) :
    (d.erase i).held f x + orZero f (d.get i) x = d.held f x := by
  obtain ⟨frame, l, hs⟩ := d
  unfold held erase get
  dsimp only
  induction l with
  | nil => simp [Assoc.erase]
  | cons e l ih =>
    obtain ⟨he, hl⟩ := pairwise_cons.mp hs
    unfold Assoc.erase
    by_cases hei : e.1 = i
    · rw [if_pos hei, get_cons, if_pos hei, orZero_some]
      simp only [map_cons, sum_cons]
      omega
    · rw [if_neg hei, get_cons, if_neg hei]
      simp only [map_cons, sum_cons]
      have := ih hl
      omega

theorem held_putOpt (d : Dir α) (i : Nat) (o : Option α) (x : Nat) :
    (d.putOpt i o).held f x + orZero f (d.get i) x = d.held f x + orZero f o x := by
  cases o with
  | some v => exact held_put f d i v x
  | none => exact held_erase f d i x

end

end Dir

/-- A tree with `n` levels of tables above those that hold the leaves. -/
abbrev Table (α : Type) : Nat → Type
  | 0 => Dir α
  | n + 1 => Dir (Table α n)

namespace Table

/-- A table without entries. -/
def empty : (n : Nat) → (frame : Nat) → Table α n
  | 0, frame => (Dir.empty frame : Dir α)
  | n + 1, frame => (Dir.empty frame : Dir (Table α n))

section Walk

variable (ix : Nat → κ → Nat)

/-- The keys `p` and `q` take the same path through `n` levels. -/
def Same (n : Nat) (p q : κ) : Prop := ∀ m ≤ n, ix m p = ix m q

/-- The leaf of `p`. -/
def get : (n : Nat) → Table α n → κ → Option α
  | 0, d, p => Dir.get (α := α) d (ix 0 p)
  | n + 1, d, p => (Dir.get (α := Table α n) d (ix (n + 1) p)).bind (fun t => get n t p)

/-- The tables on the path of `p` all exist. -/
def walks : (n : Nat) → Table α n → κ → Bool
  | 0, _, _ => true
  | n + 1, d, p => (Dir.get (α := Table α n) d (ix (n + 1) p)).any (fun t => walks n t p)

/-- Write the leaf of `p`, if the tables on its path exist. -/
def set : (n : Nat) → Table α n → κ → Option α → Table α n
  | 0, d, p, o => Dir.putOpt (α := α) d (ix 0 p) o
  | n + 1, d, p, o =>
    match Dir.get (α := Table α n) d (ix (n + 1) p) with
    | none => d
    | some t => Dir.put (α := Table α n) d (ix (n + 1) p) (set n t p o)

/-- How often each frame is held by the tables and, as `f` says, by the leaves. -/
def held (f : α → Nat → Nat) : (n : Nat) → Table α n → Nat → Nat
  | 0, d => Dir.held (α := α) f d
  | n + 1, d => Dir.held (α := Table α n) (held f n) d

variable {ix} {n : Nat} {p q : κ}

theorem get_succ (d : Dir (Table α n)) (p : κ) :
    get ix (n + 1) d p = (d.get (ix (n + 1) p)).bind (fun t => get ix n t p) := rfl

theorem held_succ (f : α → Nat → Nat) (d : Dir (Table α n)) (x : Nat) :
    held f (n + 1) d x = d.held (held f n) x := rfl

theorem get_empty (n frame : Nat) (p : κ) : get ix n (empty n frame : Table α n) p = none := by
  cases n with
  | zero => rfl
  | succ n => rfl

theorem held_empty (f : α → Nat → Nat) (n frame x : Nat) :
    held f n (empty n frame) x = one frame x := by
  cases n with
  | zero => rfl
  | succ n => rfl

theorem Same.pred (h : Same ix (n + 1) p q) : Same ix n p q := fun m hm => h m (by omega)

theorem get_congr (h : Same ix n p q) (t : Table α n) : get ix n t p = get ix n t q := by
  induction n with
  | zero =>
    unfold get
    rw [h 0 le_rfl]
  | succ n ih =>
    unfold get
    rw [h (n + 1) le_rfl]
    exact bind_congr fun t _ => ih h.pred t

variable {t : Table α n}

theorem walks_of_get {v : α} (h : get ix n t p = some v) : walks ix n t p = true := by
  induction n with
  | zero => rfl
  | succ n ih =>
    obtain ⟨c, hc, hv⟩ := bind_eq_some_iff.mp h
    unfold walks
    rw [hc]
    exact ih hv

theorem get_set_self (h : walks ix n t p = true) (o : Option α) :
    get ix n (set ix n t p o) p = o := by
  induction n with
  | zero =>
    unfold get set
    rw [Dir.get_putOpt, if_pos rfl]
  | succ n ih =>
    obtain ⟨c, hc, hw⟩ := (any_eq_true _ _).mp h
    unfold get set
    rw [hc]
    rw [Dir.get_put, if_pos rfl]
    exact ih hw

theorem get_set_of_not_same (h : ¬ Same ix n p q) (t : Table α n) (o : Option α) :
    get ix n (set ix n t p o) q = get ix n t q := by
  induction n with
  | zero =>
    have hne : ix 0 p ≠ ix 0 q := by
      intro heq
      refine h fun m hm => ?_
      rw [Nat.le_zero.mp hm]
      exact heq
    unfold get set
    rw [Dir.get_putOpt, if_neg hne]
  | succ n ih =>
    unfold get set
    cases hc : Dir.get t (ix (n + 1) p) with
    | none => rfl
    | some c =>
      dsimp only
      rw [Dir.get_put]
      by_cases heq : ix (n + 1) p = ix (n + 1) q
      · -- the keys part further down
        have hdown : ¬ Same ix n p q := by
          intro hs
          refine h fun m hm => ?_
          rcases lt_or_ge n m with hm' | hm'
          · have : m = n + 1 := by omega
            rw [this]
            exact heq
          · exact hs m hm'
        rw [if_pos heq, ← heq, hc]
        exact ih hdown c
      · rw [if_neg heq]

theorem held_set (h : walks ix n t p = true) (f : α → Nat → Nat) (o : Option α) (x : Nat) :
    held f n (set ix n t p o) x + orZero f (get ix n t p) x = held f n t x + orZero f o x := by
  induction n with
  | zero => exact Dir.held_putOpt f t (ix 0 p) o x
  | succ n ih =>
    obtain ⟨c, hc, hw⟩ := (any_eq_true _ _).mp h
    have hput := Dir.held_put (held f n) t (ix (n + 1) p) (set ix n c p o) x
    have hdown := ih hw
    rw [hc, orZero_some] at hput
    have hget : get ix (n + 1) t p = get ix n c p := by rw [get_succ, hc, bind_some]
    have hset : set ix (n + 1) t p o = Dir.put t (ix (n + 1) p) (set ix n c p o) := by
      show (match Dir.get t (ix (n + 1) p) with | none => t | some t' => _) = _
      rw [hc]
    rw [hget, hset, held_succ, held_succ]
    omega

/-- What a leaf holds, the tree holds. -/
theorem leaf_le_held {v : α} (h : get ix n t p = some v) (f : α → Nat → Nat) (x : Nat) :
    f v x ≤ held f n t x := by
  have := held_set (walks_of_get h) f none x
  rw [h, orZero_some, orZero_none] at this
  omega

end Walk

section Build

variable {σ : Type} (ix : Nat → κ → Nat) (alloc : σ → Option (Nat × σ))

/-- Make the tables on the path of `p`.  Those made before one is refused stay. -/
def ensure : (n : Nat) → σ → Table α n → κ → σ × Table α n × Bool
  | 0, s, d, _ => (s, d, true)
  | n + 1, s, d, p =>
    match Dir.get (α := Table α n) d (ix (n + 1) p) with
    | some t =>
      let r := ensure n s t p
      (r.1, Dir.put (α := Table α n) d (ix (n + 1) p) r.2.1, r.2.2)
    | none =>
      match alloc s with
      | none => (s, d, false)
      | some (frame, s) =>
        let r := ensure n s (empty n frame) p
        (r.1, Dir.put (α := Table α n) d (ix (n + 1) p) r.2.1, r.2.2)

variable {ix alloc} {n : Nat} {p : κ}

/-- A table put in the place of the one at `i`, or of none. -/
theorem get_put_bind (d : Dir (Table α n)) (c : Table α n) (q : κ)
    (h : get ix n c q = (d.get (ix (n + 1) q)).bind (fun t => get ix n t q)) (i : Nat)
    (hi : i = ix (n + 1) q) : get ix (n + 1) (d.put i c) q = get ix (n + 1) d q := by
  unfold get
  rw [Dir.get_put, if_pos hi, bind_some]
  exact h

theorem get_ensure (n : Nat) (s : σ) (t : Table α n) (p q : κ) :
    get ix n (ensure ix alloc n s t p).2.1 q = get ix n t q := by
  induction n generalizing s with
  | zero => rfl
  | succ n ih =>
    unfold ensure
    by_cases hi : ix (n + 1) p = ix (n + 1) q
    · cases hc : Dir.get t (ix (n + 1) p) with
      | some c =>
        refine get_put_bind t _ q ?_ _ hi
        rw [ih, ← hi, hc]
        rfl
      | none =>
        cases alloc s with
        | none => rfl
        | some r =>
          refine get_put_bind t _ q ?_ _ hi
          rw [ih, ← hi, hc, get_empty]
          rfl
    · have hput : ∀ c : Table α n, get ix (n + 1) (Dir.put t (ix (n + 1) p) c) q = get ix (n + 1) t q := by
        intro c
        unfold get
        rw [Dir.get_put, if_neg hi]
      cases Dir.get t (ix (n + 1) p) with
      | some c => exact hput _
      | none =>
        cases alloc s with
        | none => rfl
        | some r => exact hput _

theorem walks_ensure (s : σ) (t : Table α n) (h : (ensure ix alloc n s t p).2.2 = true) :
    walks ix n (ensure ix alloc n s t p).2.1 p = true := by
  induction n generalizing s with
  | zero => rfl
  | succ n ih =>
    unfold ensure at h ⊢
    cases hc : Dir.get t (ix (n + 1) p) with
    | some c =>
      rw [hc] at h
      unfold walks
      rw [Dir.get_put, if_pos rfl]
      exact ih s c h
    | none =>
      rw [hc] at h
      dsimp only at h ⊢
      cases ha : alloc s with
      | none =>
        rw [ha] at h
        cases h
      | some r =>
        rw [ha] at h
        dsimp only at h ⊢
        unfold walks
        rw [Dir.get_put, if_pos rfl]
        exact ih r.2 _ h

/-- The books `B` of the frames in use are kept: every table made is one more that the
    tree holds. -/
theorem ensure_books {B : σ → (Nat → Nat) → Prop} {own : α → Nat → Nat}
    (halloc : ∀ s h r, B s h → alloc s = some r → B r.2 (fun x => h x + one r.1 x))
    {s : σ} {h : Nat → Nat} {t : Table α n} (hb : B s (fun x => h x + held own n t x)) :
    B (ensure ix alloc n s t p).1 (fun x => h x + held own n (ensure ix alloc n s t p).2.1 x) := by
  induction n generalizing s h with
  | zero => exact hb
  | succ n ih =>
    unfold ensure
    cases hc : Dir.get t (ix (n + 1) p) with
    | some c =>
      dsimp only
      have herase := Dir.held_erase (held own n) t (ix (n + 1) p)
      have hput := Dir.held_put (held own n) t (ix (n + 1) p) (ensure ix alloc n s c p).2.1
      rw [hc] at herase hput
      -- the child is taken out of the table and put back
      have hout : B s (fun x => (h x + Dir.held (held own n) (Dir.erase t (ix (n + 1) p)) x) + held own n c x) := by
        refine Eq.mp (congrArg (B s) (funext fun x => ?_)) hb
        have := herase x
        rw [orZero_some] at this
        rw [held_succ]
        omega
      refine Eq.mp (congrArg (B _) (funext fun x => ?_)) (ih hout)
      have h1 := herase x
      have h2 := hput x
      rw [orZero_some] at h1 h2
      rw [held_succ]
      omega
    | none =>
      dsimp only
      cases ha : alloc s with
      | none => exact hb
      | some r =>
        dsimp only
        have hput := Dir.held_put (held own n) t (ix (n + 1) p) (ensure ix alloc n r.2 (empty n r.1) p).2.1
        rw [hc] at hput
        have hmore := halloc s _ r hb ha
        have hout : B r.2 (fun x => (h x + held own (n + 1) t x) + held own n (empty n r.1) x) := by
          refine Eq.mp (congrArg (B r.2) (funext fun x => ?_)) hmore
          rw [held_empty]
        refine Eq.mp (congrArg (B _) (funext fun x => ?_)) (ih hout)
        have h2 := hput x
        rw [orZero_none] at h2
        rw [held_succ, held_succ]
        omega

end Build

section Drop

variable {σ : Type} (dropFrame : σ → Nat → σ)

variable {dropFrame}

end Drop

section Copy

variable {σ : Type} (alloc : σ → Option (Nat × σ)) (dropFrame : σ → Nat → σ)

end Copy

end Table

end HamixOS.Lib
