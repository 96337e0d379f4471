import Mathlib.Tactic.Common
import HamixOS.Lib.Assoc

namespace HamixOS.Lib

open List Assoc

/-!
# Maps ordered by key

A `BTreeMap` over numbers that is walked in the order of its keys: the list of its entries
together with the proof that their keys increase.

* `OrdMap.get` / `put` / `erase` — reading, writing and removing one key;
* `OrdMap.get_put` / `get_erase` — what is read back;
* `OrdMap.mem_iff` — an entry is in the list just when it is read back;
* `OrdMap.total_put` / `total_erase` — what a write or a removal does to a sum over the values.
-/

variable {α : Type}

namespace OrdMap

/-- Write `v` at index `i` of a list that is ordered by index. -/
def insertAt : List (Nat × α) → Nat → α → List (Nat × α)
  | [], i, v => [(i, v)]
  | e :: l, i, v =>
    if i < e.1 then (i, v) :: e :: l
    else if e.1 = i then (i, v) :: l
    else e :: insertAt l i v

variable {l : List (Nat × α)}

theorem mem_insertAt {i : Nat} {v : α} {e : Nat × α} (h : e ∈ insertAt l i v) :
    e = (i, v) ∨ e ∈ l := by
  induction l with
  | nil =>
    rw [insertAt, mem_singleton] at h
    exact .inl h
  | cons x l ih =>
    unfold insertAt at h
    split_ifs at h
    · rcases mem_cons.mp h with h | h
      · exact .inl h
      · exact .inr h
    · rcases mem_cons.mp h with h | h
      · exact .inl h
      · exact .inr (mem_cons_of_mem _ h)
    · rcases mem_cons.mp h with rfl | h
      · exact .inr mem_cons_self
      · rcases ih h with h | h
        · exact .inl h
        · exact .inr (mem_cons_of_mem _ h)

theorem sorted_insertAt (h : l.Pairwise (fun a b => a.1 < b.1)) (i : Nat) (v : α) :
    (insertAt l i v).Pairwise (fun a b => a.1 < b.1) := by
  induction l with
  | nil => exact pairwise_singleton _ _
  | cons e l ih =>
    obtain ⟨he, hl⟩ := pairwise_cons.mp h
    unfold insertAt
    split_ifs with hlt heq
    · refine pairwise_cons.mpr ⟨?_, h⟩
      intro x hx
      rcases mem_cons.mp hx with rfl | hx
      · exact hlt
      · exact lt_trans hlt (he x hx)
    · refine pairwise_cons.mpr ⟨?_, hl⟩
      intro x hx
      rw [← heq]
      exact he x hx
    · refine pairwise_cons.mpr ⟨?_, ih hl⟩
      intro x hx
      rcases mem_insertAt hx with rfl | hx
      · show e.1 < i
        omega
      · exact he x hx

theorem sorted_erase (h : l.Pairwise (fun a b => a.1 < b.1)) (i : Nat) :
    (Assoc.erase l i).Pairwise (fun a b => a.1 < b.1) := by
  induction l with
  | nil => exact h
  | cons e l ih =>
    obtain ⟨he, hl⟩ := pairwise_cons.mp h
    unfold Assoc.erase
    split_ifs
    · exact hl
    · exact pairwise_cons.mpr ⟨fun x hx => he x (mem_erase hx), ih hl⟩

theorem get_none_of_lt {i : Nat} (h : ∀ e ∈ l, i < e.1) : Assoc.get l i = none := by
  induction l with
  | nil => rfl
  | cons e l ih =>
    obtain ⟨he, hl⟩ := forall_mem_cons.mp h
    rw [get_cons, if_neg (by omega)]
    exact ih hl

theorem get_insertAt (l : List (Nat × α)) (i j : Nat) (v : α) :
    Assoc.get (insertAt l i v) j = if i = j then some v else Assoc.get l j := by
  induction l with
  | nil => rw [insertAt, get_cons]
  | cons e l ih =>
    unfold insertAt
    by_cases hlt : i < e.1
    · rw [if_pos hlt, get_cons]
    · rw [if_neg hlt]
      by_cases heq : e.1 = i
      · rw [if_pos heq, get_cons, get_cons, heq]
        split_ifs
        · rfl
        · rfl
      · rw [if_neg heq, get_cons, get_cons, ih]
        by_cases hij : i = j
        · rw [if_pos hij, if_pos hij, if_neg (by omega)]
        · rw [if_neg hij, if_neg hij]

theorem get_erase_list (hs : l.Pairwise (fun a b => a.1 < b.1)) (i j : Nat) :
    Assoc.get (Assoc.erase l i) j = if i = j then none else Assoc.get l j := by
  induction l with
  | nil => simp [Assoc.erase]
  | cons e l ih =>
    obtain ⟨he, hl⟩ := pairwise_cons.mp hs
    unfold Assoc.erase
    by_cases hei : e.1 = i
    · rw [if_pos hei, get_cons]
      by_cases hij : i = j
      · rw [if_pos hij]
        refine get_none_of_lt fun x hx => ?_
        have := he x hx
        omega
      · rw [if_neg hij, if_neg (by omega)]
    · rw [if_neg hei, get_cons, get_cons, ih hl]
      by_cases hij : i = j
      · rw [if_pos hij, if_pos hij, if_neg (by omega)]
      · rw [if_neg hij, if_neg hij]

theorem get_map_list (f : α → α) (l : List (Nat × α)) (i : Nat) :
    Assoc.get (l.map fun e => (e.1, f e.2)) i = (Assoc.get l i).map f := by
  induction l with
  | nil => rfl
  | cons e l ih =>
    rw [map_cons, get_cons, get_cons, ih]
    split_ifs
    · rfl
    · rfl

theorem get_of_mem_list (hs : l.Pairwise (fun a b => a.1 < b.1)) {e : Nat × α}
    (h : e ∈ l) : Assoc.get l e.1 = some e.2 := by
  induction l with
  | nil => cases h
  | cons x l ih =>
    obtain ⟨hx, hl⟩ := pairwise_cons.mp hs
    rw [get_cons]
    rcases mem_cons.mp h with rfl | h
    · rw [if_pos rfl]
    · rw [if_neg (Nat.ne_of_lt (hx e h))]
      exact ih hl h

theorem eq_of_get_list {l l' : List (Nat × α)} (hs : l.Pairwise (fun a b => a.1 < b.1))
    (hs' : l'.Pairwise (fun a b => a.1 < b.1)) (h : ∀ i, Assoc.get l i = Assoc.get l' i) : l = l' := by
  induction l generalizing l' with
  | nil =>
    cases l' with
    | nil => rfl
    | cons e l' =>
      have := h e.1
      rw [get_nil, get_cons, if_pos rfl] at this
      cases this
  | cons e l ih =>
    obtain ⟨he, hl⟩ := pairwise_cons.mp hs
    cases l' with
    | nil =>
      have := h e.1
      rw [get_nil, get_cons, if_pos rfl] at this
      cases this
    | cons e' l' =>
      obtain ⟨he', hl'⟩ := pairwise_cons.mp hs'
      have hfirst := h e.1
      have hfirst' := h e'.1
      rw [get_cons, get_cons, if_pos rfl] at hfirst hfirst'
      -- neither first key can come before the other
      have hkey : e.1 = e'.1 := by
        rcases Nat.lt_trichotomy e.1 e'.1 with hlt | heq | hgt
        · rw [if_neg (by omega), get_none_of_lt (fun x hx => lt_trans hlt (he' x hx))] at hfirst
          cases hfirst
        · exact heq
        · rw [if_neg (by omega), get_none_of_lt (fun x hx => lt_trans hgt (he x hx))] at hfirst'
          cases hfirst'
      rw [if_pos hkey.symm] at hfirst
      have heq : e = e' := Prod.ext hkey (Option.some.inj hfirst)
      rw [heq, ih hl hl']
      intro i
      have hi := h i
      rw [get_cons, get_cons, heq] at hi
      by_cases hei : e'.1 = i
      · rw [get_none_of_lt (fun x hx => by have := he x hx; rw [heq] at this; omega),
          get_none_of_lt (fun x hx => by have := he' x hx; omega)]
      · rwa [if_neg hei, if_neg hei] at hi

theorem total_insertAt (f : α → Nat) (hs : l.Pairwise (fun a b => a.1 < b.1)) (i : Nat)
    (v : α) : Assoc.total f (insertAt l i v) + ((Assoc.get l i).map f).getD 0 = Assoc.total f l + f v := by
  induction l with
  | nil => simp [insertAt]
  | cons e l ih =>
    obtain ⟨he, hl⟩ := pairwise_cons.mp hs
    unfold insertAt
    by_cases hlt : i < e.1
    · -- the keys that follow are larger still
      have hnone : Assoc.get (e :: l) i = none := by
        refine get_none_of_lt (forall_mem_cons.mpr ⟨hlt, fun x hx => ?_⟩)
        exact lt_trans hlt (he x hx)
      rw [if_pos hlt, hnone]
      simp only [total_cons, Option.map_none, Option.getD_none]
      omega
    · rw [if_neg hlt, get_cons]
      by_cases heq : e.1 = i
      · rw [if_pos heq, if_pos heq]
        simp only [total_cons, Option.map_some, Option.getD_some]
        omega
      · rw [if_neg heq, if_neg heq]
        have := ih hl
        simp only [total_cons]
        omega

end OrdMap

structure OrdMap (α : Type) where
  entries : List (Nat × α)
  sorted : entries.Pairwise (fun a b => a.1 < b.1)

namespace OrdMap

theorem sorted_nil : ([] : List (Nat × α)).Pairwise (fun a b => a.1 < b.1) := .nil

def empty : OrdMap α := ⟨[], sorted_nil⟩

def get (m : OrdMap α) (i : Nat) : Option α := Assoc.get m.entries i

def put (m : OrdMap α) (i : Nat) (v : α) : OrdMap α :=
  ⟨insertAt m.entries i v, sorted_insertAt m.sorted i v⟩

def erase (m : OrdMap α) (i : Nat) : OrdMap α := ⟨Assoc.erase m.entries i, sorted_erase m.sorted i⟩

/-- `get_mut` and a change of the value, where there is one. -/
def modify (m : OrdMap α) (i : Nat) (f : α → α) : OrdMap α :=
  match m.get i with
  | none => m
  | some v => m.put i (f v)

/-- Maps that read back the same are the same. -/
theorem ext_get {m m' : OrdMap α} (h : ∀ i, m.get i = m'.get i) : m = m' := by
  have := eq_of_get_list m.sorted m'.sorted h
  cases m
  cases m'
  cases this
  rfl

/-- A change of every value. -/
def map (m : OrdMap α) (f : α → α) : OrdMap α :=
  ⟨m.entries.map fun e => (e.1, f e.2), List.pairwise_map.mpr m.sorted⟩

@[simp] theorem get_empty (i : Nat) : (empty : OrdMap α).get i = none := rfl

theorem get_put (m : OrdMap α) (i j : Nat) (v : α) :
    (m.put i v).get j = if i = j then some v else m.get j := get_insertAt m.entries i j v

theorem get_put_self (m : OrdMap α) (i : Nat) (v : α) : (m.put i v).get i = some v := by rw [get_put, if_pos rfl]

theorem get_put_of_ne {i j : Nat} (h : i ≠ j) (m : OrdMap α) (v : α) : (m.put i v).get j = m.get j := by
  rw [get_put, if_neg h]

variable {m : OrdMap α}

theorem get_put_cases {i j : Nat} {v w : α} (h : (m.put i v).get j = some w) :
    (j = i ∧ w = v) ∨ (j ≠ i ∧ m.get j = some w) := by
  rw [get_put] at h
  split_ifs at h with hij
  · exact .inl ⟨hij.symm, (Option.some.inj h).symm⟩
  · exact .inr ⟨Ne.symm hij, h⟩

/-- Two keys, of which one alone is in the map. -/
theorem get_ne {i j : Nat} {v : α} (hi : m.get i = some v) (hj : m.get j = none) : i ≠ j := by
  rintro rfl
  rw [hi] at hj
  cases hj

theorem get_erase (m : OrdMap α) (i j : Nat) : (m.erase i).get j = if i = j then none else m.get j :=
  get_erase_list m.sorted i j

theorem get_modify (m : OrdMap α) (i j : Nat) (f : α → α) :
    (m.modify i f).get j = if i = j then (m.get j).map f else m.get j := by
  unfold modify
  by_cases hij : i = j
  · rw [if_pos hij, ← hij]
    cases hv : m.get i with
    | none => exact hv
    | some v =>
      rw [get_put, if_pos rfl]
      rfl
  · rw [if_neg hij]
    cases m.get i with
    | none => rfl
    | some v =>
      rw [get_put, if_neg hij]

theorem get_map (m : OrdMap α) (f : α → α) (i : Nat) : (m.map f).get i = (m.get i).map f :=
  get_map_list f m.entries i

/-- The sum of `f` over the values. -/
def total (f : α → Nat) (m : OrdMap α) : Nat := Assoc.total f m.entries

section

variable (f : α → Nat)

include f

theorem total_put (m : OrdMap α) (i : Nat) (v : α) :
    (m.put i v).total f + ((m.get i).map f).getD 0 = m.total f + f v := total_insertAt f m.sorted i v

theorem total_put_some {i : Nat} {w : α} (h : m.get i = some w) (v : α) :
    (m.put i v).total f + f w = m.total f + f v := by
  have := total_put f m i v
  rwa [h, Option.map_some, Option.getD_some] at this

theorem total_put_none {i : Nat} (h : m.get i = none) (v : α) :
    (m.put i v).total f = m.total f + f v := by
  have := total_put f m i v
  rwa [h, Option.map_none, Option.getD_none, add_zero] at this

theorem total_erase {i : Nat} {w : α} (h : m.get i = some w) :
    (m.erase i).total f + f w = m.total f := Assoc.total_erase f h

theorem total_map (m : OrdMap α) {g : α → α} (h : ∀ v, f (g v) = f v) :
    (m.map g).total f = m.total f := by
  unfold total Assoc.total map
  rw [map_map]
  congr 1
  refine map_congr_left fun e _ => h e.2

end

theorem modify_eq_put {i : Nat} {v : α} (h : m.get i = some v) (f : α → α) :
    m.modify i f = m.put i (f v) := by
  unfold modify
  rw [h]

theorem total_modify (f : α → Nat) (m : OrdMap α) (i : Nat) {g : α → α} (h : ∀ v, f (g v) = f v) :
    (m.modify i g).total f = m.total f := by
  cases hv : m.get i with
  | none =>
    unfold modify
    rw [hv]
  | some v =>
    rw [modify_eq_put hv]
    have := total_put_some f hv (g v)
    rw [h v] at this
    omega

theorem mem_iff (m : OrdMap α) (e : Nat × α) : e ∈ m.entries ↔ m.get e.1 = some e.2 :=
  ⟨fun h => get_of_mem_list m.sorted h, fun h => get_mem h⟩

end OrdMap

end HamixOS.Lib
