import Mathlib.Tactic.Ring

namespace HamixOS.Lib.Assoc

/-!
# Finite maps as association lists

A `BTreeMap` whose entries are counted is kept as the list of its entries.  `get`, `set`
and `erase` work on the first entry of a key, so the laws need no hypothesis that keys
are distinct:

* `total f l` — the sum of `f` over the values;
* `total_set` / `total_erase` — what a write or a removal does to it;
* `get_set_self` / `get_set_of_ne` — reading back.
-/

variable {κ α : Type} [DecidableEq κ]

def get (l : List (κ × α)) (k : κ) : Option α := (l.find? (fun e => e.1 = k)).map (·.2)

/-- Write `v` at the entry of `k`, if there is one. -/
def set : List (κ × α) → κ → α → List (κ × α)
  | [], _, _ => []
  | e :: l, k, v => if e.1 = k then (k, v) :: l else e :: set l k v

def erase : List (κ × α) → κ → List (κ × α)
  | [], _ => []
  | e :: l, k => if e.1 = k then l else e :: erase l k

/-- The sum of `f` over the values of the map. -/
def total (f : α → Nat) (l : List (κ × α)) : Nat := (l.map (fun e => f e.2)).sum

theorem get_cons (e : κ × α) (l : List (κ × α)) (k : κ) :
    get (e :: l) k = if e.1 = k then some e.2 else get l k := by
  unfold get
  by_cases h : e.1 = k
  · simp [h]
  · simp [h]

@[simp] theorem get_nil (k : κ) : get ([] : List (κ × α)) k = none := rfl

omit [DecidableEq κ] in
@[simp] theorem total_nil (f : α → Nat) : total f ([] : List (κ × α)) = 0 := rfl

omit [DecidableEq κ] in
@[simp] theorem total_cons (f : α → Nat) (e : κ × α) (l : List (κ × α)) :
    total f (e :: l) = f e.2 + total f l := by
  simp [total]

variable {k : κ} {l : List (κ × α)}

theorem total_set (f : α → Nat) {v : α} (h : get l k = some v) (w : α) :
    total f (set l k w) + f v = total f l + f w := by
  induction l with
  | nil => cases h
  | cons e l ih =>
    rw [get_cons] at h
    unfold set
    split_ifs at h ⊢ with he
    · cases h
      simp only [total_cons]
      omega
    · simp only [total_cons]
      have := ih h
      omega

theorem total_erase (f : α → Nat) {v : α} (h : get l k = some v) :
    total f (erase l k) + f v = total f l := by
  induction l with
  | nil => cases h
  | cons e l ih =>
    rw [get_cons] at h
    unfold erase
    split_ifs at h ⊢ with he
    · cases h
      rw [total_cons]
      omega
    · simp only [total_cons]
      have := ih h
      omega

theorem le_total (f : α → Nat) {v : α} (h : get l k = some v) :
    f v ≤ total f l := by
  have := total_erase f h
  omega

theorem get_set_self {v : α} (h : get l k = some v) (w : α) :
    get (set l k w) k = some w := by
  induction l with
  | nil => cases h
  | cons e l ih =>
    rw [get_cons] at h
    unfold set
    split_ifs at h ⊢ with he
    · rw [get_cons, if_pos rfl]
    · rw [get_cons, if_neg he]
      exact ih h

theorem get_set_of_ne (l : List (κ × α)) {k k' : κ} (hne : k' ≠ k) (w : α) :
    get (set l k w) k' = get l k' := by
  induction l with
  | nil => rfl
  | cons e l ih =>
    unfold set
    split_ifs with he
    · rw [get_cons, get_cons, if_neg hne.symm, if_neg (by rw [he]; exact Ne.symm hne)]
    · rw [get_cons, get_cons, ih]

/-- What holds of every value still does after a write of one it holds of. -/
theorem forall_set {P : α → Prop} (h : ∀ e ∈ l, P e.2) (k : κ) {w : α} (hw : P w) :
    ∀ e ∈ set l k w, P e.2 := by
  induction l with
  | nil => exact h
  | cons e l ih =>
    obtain ⟨he, hl⟩ := List.forall_mem_cons.mp h
    unfold set
    split_ifs
    · exact List.forall_mem_cons.mpr ⟨hw, hl⟩
    · exact List.forall_mem_cons.mpr ⟨he, ih hl⟩

theorem mem_erase {e : κ × α} (h : e ∈ erase l k) : e ∈ l := by
  induction l with
  | nil => exact h
  | cons x l ih =>
    unfold erase at h
    split_ifs at h
    · exact List.mem_cons_of_mem _ h
    · rcases List.mem_cons.mp h with rfl | h
      · exact List.mem_cons_self
      · exact List.mem_cons_of_mem _ (ih h)

theorem get_mem {v : α} (h : get l k = some v) : (k, v) ∈ l := by
  induction l with
  | nil => cases h
  | cons e l ih =>
    rw [get_cons] at h
    split_ifs at h with he
    · cases h
      rw [← he]
      exact List.mem_cons_self
    · exact List.mem_cons_of_mem _ (ih h)

end HamixOS.Lib.Assoc
