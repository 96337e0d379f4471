import Mathlib.Tactic.Common

namespace HamixOS.Lib

open List Nat

/-!
# Parts of a list that are overwritten

* `overwrite l o src` — `src` from position `o` on;
* `fill l a b x` — the same element from `a` up to `b`;
* `copyWithin l a b d` — a part of the list itself at another place;
* `length_foldl` — a list that is written piece by piece keeps its length;
* `Outside a b l l'` — the lists agree outside of `[a, b)`.
-/

variable {α : Type}

def overwrite (l : List α) (o : Nat) (src : List α) : List α := l.take o ++ src ++ l.drop (o + src.length)

def fill (l : List α) (a b : Nat) (x : α) : List α := l.take a ++ List.replicate (b - a) x ++ l.drop (max a b)

def copyWithin (l : List α) (a b d : Nat) : List α := overwrite l d ((l.drop a).take (b - a))

theorem length_overwrite {l src : List α} {o : Nat} (h : o + src.length ≤ l.length) :
    (overwrite l o src).length = l.length := by
  unfold overwrite
  rw [length_append, length_append, length_take, length_drop]
  omega

theorem getElem?_overwrite {l src : List α} {o : Nat} (h : o + src.length ≤ l.length) (i : Nat) :
    (overwrite l o src)[i]? = if o ≤ i ∧ i < o + src.length then src[i - o]? else l[i]? := by
  have hlen : (l.take o).length = o := by
    rw [length_take]
    omega
  unfold overwrite
  rw [append_assoc, getElem?_append, getElem?_append, hlen, getElem?_take, getElem?_drop]
  by_cases hlo : i < o
  · rw [if_pos hlo, if_pos hlo, if_neg (by omega)]
  · rw [if_neg hlo]
    by_cases hhi : i - o < src.length
    · rw [if_pos hhi, if_pos ⟨by omega, by omega⟩]
    · rw [if_neg hhi, if_neg (by omega)]
      congr 1
      omega

theorem length_fill {l : List α} {a b : Nat} (h : b ≤ l.length) (hab : a ≤ b) (x : α) : (fill l a b x).length = l.length := by
  unfold fill
  rw [length_append, length_append, length_take, length_drop, length_replicate]
  omega

theorem getElem?_fill {l : List α} {a b : Nat} (h : b ≤ l.length) (hab : a ≤ b) (x : α) (i : Nat) :
    (fill l a b x)[i]? = if a ≤ i ∧ i < b then some x else l[i]? := by
  have hfill : fill l a b x = overwrite l a (List.replicate (b - a) x) := by
    unfold fill overwrite
    rw [length_replicate, Nat.add_sub_cancel' hab, Nat.max_eq_right hab]
  rw [hfill, getElem?_overwrite (by rw [length_replicate]; omega), length_replicate, Nat.add_sub_cancel' hab]
  by_cases hi : a ≤ i ∧ i < b
  · rw [if_pos hi, if_pos hi, getElem?_replicate, if_pos (by omega)]
  · rw [if_neg hi, if_neg hi]

theorem length_part {l : List α} {a b : Nat} (hb : b ≤ l.length) : ((l.drop a).take (b - a)).length = b - a := by
  rw [length_take, length_drop]
  omega

theorem length_copyWithin {l : List α} {a b d : Nat} (hb : b ≤ l.length) (hd : d + (b - a) ≤ l.length) :
    (copyWithin l a b d).length = l.length := length_overwrite (by rw [length_part hb]; exact hd)

theorem getElem?_copyWithin {l : List α} {a b d : Nat} (hb : b ≤ l.length) (hd : d + (b - a) ≤ l.length) (i : Nat) :
    (copyWithin l a b d)[i]? = if d ≤ i ∧ i < d + (b - a) then l[a + (i - d)]? else l[i]? := by
  unfold copyWithin
  rw [getElem?_overwrite (by rw [length_part hb]; exact hd), length_part hb]
  by_cases hi : d ≤ i ∧ i < d + (b - a)
  · rw [if_pos hi, if_pos hi, getElem?_take, if_pos (by omega), getElem?_drop]
  · rw [if_neg hi, if_neg hi]

/-! ### Lines of a region -/

/-- The elements from `first` to `last`, replaced by what `f` makes of them. -/
def onRange (first last : Nat) (f : List α → List α) (l : List α) : List α :=
  l.take first ++ f ((l.take (last + 1)).drop first) ++ l.drop (last + 1)

/-- Up to `n` elements leave at the front, and as many `x` come in at the end. -/
def shiftUp (n : Nat) (x : α) (l : List α) : List α := l.drop n ++ List.replicate (min n l.length) x

/-- Up to `n` elements leave at the end, and as many `x` come in at the front. -/
def shiftDown (n : Nat) (x : α) (l : List α) : List α := List.replicate (min n l.length) x ++ l.take (l.length - n)

/-- The last elements of a list, at most `n`. -/
def keepLast (n : Nat) (l : List α) : List α := l.drop (l.length - n)

section Region

variable {l : List α} {first last n : Nat}

theorem length_region (first : Nat) (hlast : last < l.length) : ((l.take (last + 1)).drop first).length = last + 1 - first := by
  rw [length_drop, length_take_of_le hlast]

theorem getElem?_onRange (hfirst : first ≤ last) (hlast : last < l.length) {f : List α → List α}
    (hf : (f ((l.take (last + 1)).drop first)).length = last + 1 - first) (i : Nat) : (onRange first last f l)[i]? =
      if first ≤ i ∧ i ≤ last then (f ((l.take (last + 1)).drop first))[i - first]? else l[i]? := by
  have hfront : (l.take first).length = first := length_take_of_le (by omega)
  unfold onRange
  rw [getElem?_append, getElem?_append, length_append, hfront, hf]
  by_cases hlow : i < first
  · rw [if_pos (by omega), if_pos hlow, if_neg (by omega), getElem?_take, if_pos hlow]
  · by_cases hhigh : i ≤ last
    · rw [if_pos (by omega), if_neg hlow, if_pos (by omega)]
    · rw [if_neg (by omega), if_neg (by omega), getElem?_drop]
      congr 1
      omega

theorem getElem?_region (i : Nat) :
    ((l.take (last + 1)).drop first)[i]? = if first + i ≤ last then l[first + i]? else none := by
  rw [getElem?_drop, getElem?_take]
  simp only [Nat.lt_succ_iff]

theorem getElem?_onRange_up (hfirst : first ≤ last) (hlast : last < l.length) (hn : n ≤ last + 1 - first) (x : α) (i : Nat) :
    (onRange first last (shiftUp n x) l)[i]? =
      if first ≤ i ∧ i ≤ last then if i + n ≤ last then l[i + n]? else some x else l[i]? := by
  have hlen := length_region first hlast
  rw [getElem?_onRange hfirst hlast (by simp [shiftUp, hlen]; omega)]
  by_cases hi : first ≤ i ∧ i ≤ last
  · rw [if_pos hi, if_pos hi, shiftUp, getElem?_append, length_drop, hlen, Nat.min_eq_left hn]
    by_cases hkept : i + n ≤ last
    · rw [if_pos (by omega), if_pos hkept, getElem?_drop, getElem?_region, if_pos (by omega)]
      congr 1
      omega
    · rw [if_neg (by omega), if_neg hkept, getElem?_replicate, if_pos (by omega)]
  · rw [if_neg hi, if_neg hi]

theorem getElem?_onRange_down (hfirst : first ≤ last) (hlast : last < l.length) (hn : n ≤ last + 1 - first) (x : α) (i : Nat) :
    (onRange first last (shiftDown n x) l)[i]? =
      if first ≤ i ∧ i ≤ last then if first + n ≤ i then l[i - n]? else some x else l[i]? := by
  have hlen := length_region first hlast
  rw [getElem?_onRange hfirst hlast (by simp [shiftDown, hlen]; omega)]
  by_cases hi : first ≤ i ∧ i ≤ last
  · rw [if_pos hi, if_pos hi, shiftDown, getElem?_append, length_replicate, hlen, Nat.min_eq_left hn]
    by_cases hkept : first + n ≤ i
    · rw [if_neg (by omega), if_pos hkept, getElem?_take, if_pos (by omega), getElem?_region, if_pos (by omega)]
      congr 1
      omega
    · rw [if_pos (by omega), if_neg hkept, getElem?_replicate, if_pos (by omega)]
  · rw [if_neg hi, if_neg hi]

theorem shiftUp_min (n : Nat) (x : α) (l : List α) : shiftUp (min n l.length) x l = shiftUp n x l := by
  unfold shiftUp
  rcases Nat.le_total n l.length with hle | hle
  · rw [Nat.min_eq_left hle, Nat.min_eq_left hle]
  · rw [Nat.min_eq_right hle, Nat.min_self, drop_length, drop_eq_nil_of_le hle]

theorem shiftDown_min (n : Nat) (x : α) (l : List α) : shiftDown (min n l.length) x l = shiftDown n x l := by
  unfold shiftDown
  rcases Nat.le_total n l.length with hle | hle
  · rw [Nat.min_eq_left hle, Nat.min_eq_left hle]
  · rw [Nat.min_eq_right hle, Nat.min_self, Nat.sub_self, Nat.sub_eq_zero_of_le hle]

/-- A region that keeps its elements. -/
theorem onRange_id (h : first ≤ last + 1) {f : List α → List α} (hf : ∀ m, f m = m) : onRange first last f l = l := by
  have hfront : (l.take (last + 1)).take first = l.take first := by rw [take_take, Nat.min_eq_left h]
  rw [onRange, hf, ← hfront, take_append_drop, take_append_drop]

theorem keepLast_of_le (h : l.length ≤ n) : keepLast n l = l := by
  rw [keepLast, Nat.sub_eq_zero_of_le h, drop_zero]

theorem keepLast_append (n : Nat) (l m : List α) : keepLast n (keepLast n l ++ m) = keepLast n (l ++ m) := by
  unfold keepLast
  have hdrop : l.drop (l.length - n) ++ m = (l ++ m).drop (l.length - n) :=
    (drop_append_of_le_length (sub_le _ _)).symm
  rw [hdrop, drop_drop, length_drop, length_append]
  congr 1
  omega

end Region

/-- Steps that keep the length of a list. -/
theorem length_foldl {β : Type} {f : List α → β → List α} {n : Nat} {xs : List β}
    (hf : ∀ l : List α, l.length = n → ∀ x ∈ xs, (f l x).length = n) {l : List α} (hl : l.length = n) :
    (xs.foldl f l).length = n := by
  induction xs generalizing l with
  | nil => exact hl
  | cons x xs ih =>
    exact ih (fun l hl y hy => hf l hl y (mem_cons_of_mem x hy)) (hf l hl x mem_cons_self)

/-- Two lists of one length agree outside of `[a, b)`. -/
structure Outside (a b : Nat) (l l' : List α) : Prop where
  length : l'.length = l.length
  same : ∀ i, i < a ∨ b ≤ i → l'[i]? = l[i]?

namespace Outside

variable {l l' l'' : List α} {a b c d : Nat}

theorem refl (a b : Nat) (l : List α) : Outside a b l l := ⟨rfl, fun _ _ => rfl⟩

theorem trans (h : Outside a b l l') (h' : Outside a b l' l'') : Outside a b l l'' :=
  ⟨h'.length.trans h.length, fun i hi => (h'.same i hi).trans (h.same i hi)⟩

theorem mono (h : Outside a b l l') (ha : c ≤ a) (hb : b ≤ d) : Outside c d l l' :=
  ⟨h.length, fun i hi => h.same i (by omega)⟩

theorem set (l : List α) {i : Nat} (ha : a ≤ i) (hb : i < b) (x : α) : Outside a b l (l.set i x) := by
  refine ⟨length_set, fun j hj => ?_⟩
  rw [getElem?_set_ne (by omega)]

theorem fill (hab : a ≤ b) (hb : b ≤ l.length) (x : α) : Outside a b l (fill l a b x) := by
  refine ⟨length_fill hb hab x, fun i hi => ?_⟩
  rw [getElem?_fill hb hab, if_neg (by omega)]

theorem copyWithin (hb : b ≤ l.length) (hd : d + (b - a) ≤ l.length) :
    Outside d (d + (b - a)) l (copyWithin l a b d) := by
  refine ⟨length_copyWithin hb hd, fun i hi => ?_⟩
  rw [getElem?_copyWithin hb hd, if_neg (by omega)]

end Outside

end HamixOS.Lib
