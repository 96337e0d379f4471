import Mathlib.Data.List.TakeWhile
import HamixOS.Lib.Bytes

namespace HamixOS.Lib

open List Nat

/-!
# Extents

An extent `(start, n)` stands for the places `start`, …, `start + n - 1`, and a list of extents
for their places one after the other.

* `places_pushExtent` — an extent is added at the end, or joined to the last one;
* `locate_table` — the row of a table of extents that holds a position;
* `collect_append`, `collect_range'_congr` — reading pieces one after the other.
-/

/-- The places of a list of extents, in order. -/
def places (es : List (Nat × Nat)) : List Nat := es.flatMap fun e => List.range' e.1 e.2

@[simp] theorem places_nil : places [] = [] := rfl

@[simp] theorem places_cons (e : Nat × Nat) (es : List (Nat × Nat)) :
    places (e :: es) = range' e.1 e.2 ++ places es := rfl

theorem places_append (es fs : List (Nat × Nat)) : places (es ++ fs) = places es ++ places fs :=
  flatMap_append

/-- An extent is added, joined to the last one where it begins at its end. -/
def pushExtent (es : List (Nat × Nat)) (start n : Nat) : List (Nat × Nat) :=
  match es.getLast? with
  | some (s, k) => if s + k = start then es.dropLast ++ [(s, k + n)] else es ++ [(start, n)]
  | none => es ++ [(start, n)]

theorem places_pushExtent (es : List (Nat × Nat)) (start n : Nat) :
    places (pushExtent es start n) = places es ++ range' start n := by
  have hpush : places (es ++ [(start, n)]) = places es ++ range' start n := by simp [places_append]
  unfold pushExtent
  split
  · next s k hlast =>
    split
    · next hjoin =>
      -- the last extent grows by the new one
      have hes : es = es.dropLast ++ [(s, k)] := (dropLast_append_getLast? _ hlast).symm
      conv_rhs => rw [hes]
      simp only [places_append, places_cons, places_nil, append_nil, append_assoc]
      rw [← hjoin, range'_append_1]
    · exact hpush
  · exact hpush

variable {es : List (Nat × Nat)}

theorem mem_places {p : Nat} : p ∈ places es ↔ ∃ e ∈ es, e.1 ≤ p ∧ p < e.1 + e.2 := by
  simp only [places, mem_flatMap, mem_range'_1]

theorem length_places (es : List (Nat × Nat)) : (places es).length = (es.map (·.2)).sum := by
  induction es with
  | nil => rfl
  | cons e es ih => simp [ih]

theorem length_blocks (f : Nat → Nat) (n : Nat) (cs : List Nat) :
    (cs.flatMap fun c => range' (f c) n).length = cs.length * n := by
  induction cs with
  | nil => simp
  | cons c cs ih => rw [flatMap_cons, length_append, ih, length_range', length_cons, succ_mul, add_comm]

/-- Blocks of one length: a place is found by its block and its position there. -/
theorem getElem?_blocks {n : Nat} (hn : 0 < n) (f : Nat → Nat) (cs : List Nat) (j : Nat) :
    (cs.flatMap fun c => range' (f c) n)[j]? = (cs[j / n]?).map fun c => f c + j % n := by
  induction cs generalizing j with
  | nil => simp
  | cons c cs ih =>
    rw [flatMap_cons]
    by_cases hj : j < n
    · rw [getElem?_append_left (by simpa using hj), getElem?_range' hj, div_eq_of_lt hj, mod_eq_of_lt hj]
      simp
    · obtain ⟨i, rfl⟩ := Nat.exists_eq_add_of_le (Nat.le_of_not_lt hj)
      rw [getElem?_append_right (by simp), length_range', Nat.add_sub_cancel_left, ih,
        add_div_left i hn, add_mod_left]
      rfl

/-! ### Tables -/

/-- Each extent with the position it begins at. -/
def tableFrom : Nat → List (Nat × Nat) → List (Nat × Nat × Nat)
  | _, [] => []
  | at0, (start, n) :: es => (at0, start, n) :: tableFrom (at0 + n) es

/-- The last row that begins at a position or before it. -/
def locate (table : List (Nat × Nat × Nat)) (pos : Nat) : Option (Nat × Nat × Nat) :=
  (table.takeWhile fun row => row.1 ≤ pos).getLast?

theorem tableFrom_starts {at0 : Nat} {row : Nat × Nat × Nat} (h : row ∈ tableFrom at0 es) :
    at0 ≤ row.1 := by
  induction es generalizing at0 with
  | nil => cases h
  | cons e es ih =>
    rcases mem_cons.mp h with rfl | hr
    · exact le_refl at0
    · exact le_trans (le_add_right _ _) (ih hr)

/-- The row that holds a position, and where its places stand among all of them. -/
theorem locate_table {at0 pos : Nat} (hlo : at0 ≤ pos) (hhi : pos < at0 + (places es).length) :
    ∃ row, locate (tableFrom at0 es) pos = some row ∧ row.1 ≤ pos ∧ pos < row.1 + row.2.2 ∧
      row.1 + row.2.2 ≤ at0 + (places es).length ∧
      ∀ i, pos + i < row.1 + row.2.2 → (places es)[pos - at0 + i]? = some (row.2.1 + (pos - row.1) + i) := by
  induction es generalizing at0 with
  | nil =>
    rw [places_nil, length_nil] at hhi
    omega
  | cons e es ih =>
    obtain ⟨start, n⟩ := e
    rw [places_cons, length_append, length_range'] at hhi ⊢
    have hhead : locate (tableFrom at0 ((start, n) :: es)) pos =
        some ((locate (tableFrom (at0 + n) es) pos).getD (at0, start, n)) := by
      unfold locate
      rw [tableFrom, takeWhile_cons_of_pos (by simpa using hlo), getLast?_cons]
    by_cases hin : pos < at0 + n
    · -- the rest of the table begins behind the position
      have hrest : locate (tableFrom (at0 + n) es) pos = none := by
        unfold locate
        rw [getLast?_eq_none_iff, takeWhile_eq_nil_iff]
        intro hpos hle
        have hstart := tableFrom_starts (get_mem (tableFrom (at0 + n) es) ⟨0, hpos⟩)
        exact absurd (le_trans hstart (of_decide_eq_true hle)) (Nat.not_le_of_lt hin)
      refine ⟨(at0, start, n), by rw [hhead, hrest]; rfl, hlo, hin, by dsimp only; omega, ?_⟩
      intro i hi
      dsimp only at hi ⊢
      have hlt : pos - at0 + i < n := by omega
      rw [getElem?_append_left (by simpa using hlt), getElem?_range' hlt]
      congr 1
      omega
    · obtain ⟨row, hrow, hle, hlt, hend, hat⟩ := ih (show at0 + n ≤ pos by omega) (by omega)
      refine ⟨row, by rw [hhead, hrow]; rfl, hle, hlt, by omega, ?_⟩
      intro i hi
      have hidx : pos - at0 + i = n + (pos - (at0 + n) + i) := by omega
      rw [hidx, getElem?_append_right (by simp), length_range', Nat.add_sub_cancel_left]
      exact hat i hi

/-! ### Reading pieces -/

/-- The pieces of a list of places one after the other, if each can be read. -/
def collect (f : Nat → Option Bytes) : List Nat → Option Bytes
  | [] => some []
  | i :: is => (f i).bind fun b => (collect f is).map (b ++ ·)

theorem collect_append (f : Nat → Option Bytes) (is js : List Nat) :
    collect f (is ++ js) = (collect f is).bind fun b => (collect f js).map (b ++ ·) := by
  induction is with
  | nil => simp [collect]
  | cons i is ih =>
    simp only [cons_append, collect, ih]
    cases f i with
    | none => rfl
    | some b =>
      cases collect f is with
      | none => rfl
      | some c => cases collect f js <;> simp

theorem collect_singleton (f : Nat → Option Bytes) (i : Nat) : collect f [i] = f i := by
  cases h : f i <;> simp [collect, h]

/-- Two ranges whose places agree one by one are read alike. -/
theorem collect_range'_congr {f g : Nat → Option Bytes} {a b n : Nat} (h : ∀ i, i < n → f (a + i) = g (b + i)) :
    collect f (range' a n) = collect g (range' b n) := by
  induction n generalizing a b with
  | zero => rfl
  | succ n ih =>
    have hrest : collect f (range' (a + 1) n) = collect g (range' (b + 1) n) := by
      refine ih ?_
      intro i hi
      have := h (i + 1) (by omega)
      rwa [add_right_comm, add_right_comm b, add_assoc, add_assoc b]
    have hfirst : f a = g b := h 0 (succ_pos n)
    rw [range'_succ, range'_succ, collect, collect, hfirst, hrest]

theorem collect_eq_none {f : Nat → Option Bytes} {is : List Nat} {i : Nat} (hi : i ∈ is) (h : f i = none) :
    collect f is = none := by
  induction is with
  | nil => cases hi
  | cons j is ih =>
    rcases mem_cons.mp hi with rfl | hmem
    · rw [collect, h]
      rfl
    · rw [collect, ih hmem]
      cases f j <;> rfl

end HamixOS.Lib
