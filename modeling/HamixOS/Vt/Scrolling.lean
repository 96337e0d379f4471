import HamixOS.Vt.Bounds
import HamixOS.Vt.Rows

namespace HamixOS.Vt.Term

open Lib List

/-!
# Scrolling

The grid as a list of lines.  A line feed at the bottom margin, a reverse index at the top one, and `CSI` `S`, `T`, `L`
and `M` shift the lines of a region: as many leave at one end of it as blank ones come in at the other.

* `lines_rowsUp`, `lines_rowsDown` — what the copies and the clearing do to the lines;
* `scrollback_pushRows` — the lines that are kept of those that leave;
* `scrolling_shifts_lines` — every operation that scrolls.
-/

variable {s s' : Term} {top bottom n : Nat}

def lines (s : Term) : List (List Cell) := (List.range s.rows).map fun r => s.row r

def blankLine (s : Term) : List Cell := List.replicate s.cols s.blank

theorem length_lines (s : Term) : s.lines.length = s.rows := by simp [lines]

theorem getElem?_lines {r : Nat} (hr : r < s.rows) : s.lines[r]? = some (s.row r) := by simp [lines, hr]

/-- Lines are the same if every row is. -/
theorem lines_ext {l : List (List Cell)} (hrows : s'.rows = s.rows) (hlen : l.length = s.rows)
    (h : ∀ r < s.rows, l[r]? = some (s'.row r)) : s'.lines = l := by
  refine ext_getElem? fun r => ?_
  by_cases hr : r < s.rows
  · rw [h r hr, getElem?_lines (by rw [hrows]; exact hr)]
  · rw [getElem?_eq_none (by rw [length_lines]; omega), getElem?_eq_none (by omega)]

theorem length_onRange {f : List (List Cell) → List (List Cell)} (ht : top ≤ bottom) (hb : bottom < s.rows)
    (hf : (f ((s.lines.take (bottom + 1)).drop top)).length = bottom + 1 - top) :
    (onRange top bottom f s.lines).length = s.rows := by
  have hlen := length_lines s
  simp only [onRange, length_append, hf, length_take, length_drop, hlen]
  omega

theorem row_markRows (s : Term) (first last r : Nat) : (s.markRows first last).row r = s.row r := rfl

theorem lines_rowsUp (hs : Sized s) (ht : top ≤ bottom) (hb : bottom < s.rows) (hn : n ≤ bottom + 1 - top) :
    (s.rowsUp top bottom n).lines = onRange top bottom (shiftUp n s.blankLine) s.lines := by
  have hlen := length_lines s
  have hcopy := copied_up hs hb hn ht
  refine lines_ext (rowsUp_edits hs hb hn ht).rows (length_onRange ht hb ?_) fun r hr => ?_
  · have hregion := length_region top (show bottom < s.lines.length by omega)
    simp only [shiftUp, length_append, length_drop, length_replicate, hregion]
    omega
  · rw [getElem?_onRange_up ht (by omega) hn]
    unfold rowsUp
    rw [row_markRows, row_clearRows (hcopy.sized hs) (by rw [hcopy.rows]; exact hr), row_copyRows hs hr (by omega) (by omega)]
    -- rows below the margins or above them, rows that come from below, and those that are blank
    by_cases hin : top ≤ r ∧ r ≤ bottom
    · rw [if_pos hin]
      by_cases hkept : r + n ≤ bottom
      · rw [if_pos hkept, if_neg (by omega), if_pos (by omega), getElem?_lines (by omega)]
        congr 2
        omega
      · rw [if_neg hkept, if_pos (by omega)]
        rfl
    · rw [if_neg hin, if_neg (by omega), if_neg (by omega), getElem?_lines hr]

theorem lines_rowsDown (hs : Sized s) (ht : top ≤ bottom) (hb : bottom < s.rows) (hn : n ≤ bottom + 1 - top) :
    (s.rowsDown top bottom n).lines = onRange top bottom (shiftDown n s.blankLine) s.lines := by
  have hlen := length_lines s
  have hcopy := copied_down hs hb hn ht
  refine lines_ext (rowsDown_edits hs hb hn ht).rows (length_onRange ht hb ?_) fun r hr => ?_
  · have hregion := length_region top (show bottom < s.lines.length by omega)
    simp only [shiftDown, length_append, length_take, length_replicate, hregion]
    omega
  · rw [getElem?_onRange_down ht (by omega) hn]
    unfold rowsDown
    rw [row_markRows, row_clearRows (hcopy.sized hs) (by rw [hcopy.rows]; exact hr), row_copyRows hs hr (by omega) (by omega)]
    by_cases hin : top ≤ r ∧ r ≤ bottom
    · rw [if_pos hin]
      by_cases hkept : top + n ≤ r
      · rw [if_pos hkept, if_neg (by omega), if_pos (by omega), getElem?_lines (by omega)]
        congr 2
        omega
      · rw [if_neg hkept, if_pos (by omega)]
        rfl
    · rw [if_neg hin, if_neg (by omega), if_neg (by omega), getElem?_lines hr]

/-! ### The scrollback -/

theorem pushScrollback_eq {limit : Nat} {kept : List (List Cell)} (h : kept.length ≤ limit) (line : List Cell) :
    pushScrollback limit kept line = keepLast limit (kept ++ [line]) := by
  unfold pushScrollback
  split
  · rename_i hzero
    obtain rfl := eq_nil_of_length_eq_zero (show kept.length = 0 by omega)
    simp [keepLast, hzero]
  · rw [keepLast, length_append, length_singleton]

theorem scrollback_pushRows (hlimit : s.scrollback.length ≤ s.scrollbackLimit) (hn : n ≤ s.rows) :
    (s.pushRows n).scrollback = keepLast s.scrollbackLimit (s.scrollback ++ s.lines.take n) := by
  have hrows : s.lines.take n = (range n).map fun r => s.row r := by
    rw [lines, ← map_take, take_range, min_eq_left hn]
  rw [hrows]
  show (range n).foldl (fun kept r => pushScrollback s.scrollbackLimit kept (s.row r)) s.scrollback = _
  generalize s.scrollback = kept at hlimit
  induction range n generalizing kept with
  | nil => rw [map_nil, append_nil, keepLast_of_le hlimit]; rfl
  | cons r rs ih =>
    rw [foldl_cons, ih _ (length_pushScrollback hlimit _), pushScrollback_eq hlimit, keepLast_append, map_cons,
      append_assoc]
    rfl

/-! ### The operations -/

/-- The lines from `first` to the bottom margin became what `f` makes of them, and `out` went into the scrollback. -/
structure Scrolls (s s' : Term) (first : Nat) (f : List (List Cell) → List (List Cell)) (out : List (List Cell)) : Prop where
  lines : s'.lines = onRange first s.bottom f s.lines
  scrollback : s'.scrollback = keepLast s.scrollbackLimit (s.scrollback ++ out)

section Scrolls

variable {first : Nat} {f : List (List Cell) → List (List Cell)} {out : List (List Cell)}

theorem Scrolls.column (h : Scrolls s s' first f out) : Scrolls s ((s'.setCol 0).noWrap) first f out :=
  ⟨h.lines, h.scrollback⟩

theorem Scrolls.of_noWrap (h : Scrolls s.noWrap s' first f out) : Scrolls s s' first f out := ⟨h.lines, h.scrollback⟩

end Scrolls

/-- What leaves the region when it scrolls up: lines of the main screen, and only if the region is all of it. -/
def scrolledOut (s : Term) (n : Nat) : List (List Cell) :=
  if s.top = 0 ∧ s.modes.altScreen = false ∧ s.bottom = s.rows - 1 then s.lines.take n else []

theorem rowsUp_scrollback (s : Term) (top bottom n : Nat) : (s.rowsUp top bottom n).scrollback = s.scrollback := by
  unfold rowsUp clearCells
  dsimp only
  split <;> rfl

theorem rowsDown_scrollback (s : Term) (top bottom n : Nat) : (s.rowsDown top bottom n).scrollback = s.scrollback := by
  unfold rowsDown clearCells
  dsimp only
  split <;> rfl

theorem scrollOut_lines (s : Term) (top bottom n : Nat) :
    (s.scrollOut top bottom n).lines = s.lines ∧ (s.scrollOut top bottom n).blankLine = s.blankLine := by
  unfold scrollOut
  split <;> exact ⟨rfl, rfl⟩

/-- Counts beyond the size of a region are cut down to it. -/
theorem shifted_up (hb : bottom < s.rows) (n : Nat) : onRange top bottom (shiftUp (min n (bottom + 1 - top)) s.blankLine) s.lines =
    onRange top bottom (shiftUp n s.blankLine) s.lines := by
  have hlen := length_lines s
  rw [onRange, onRange, ← length_region (l := s.lines) top (by omega), shiftUp_min]

theorem shifted_down (hb : bottom < s.rows) (n : Nat) :
    onRange top bottom (shiftDown (min n (bottom + 1 - top)) s.blankLine) s.lines =
      onRange top bottom (shiftDown n s.blankLine) s.lines := by
  have hlen := length_lines s
  rw [onRange, onRange, ← length_region (l := s.lines) top (by omega), shiftDown_min]

theorem scrolls_up (hs : Inv s) (n : Nat) :
    Scrolls s (s.scrollUpRegion s.top s.bottom n) s.top (shiftUp n s.blankLine) (s.scrolledOut n) := by
  obtain ⟨ht, hb⟩ := hs.margins
  have hn : min n (s.bottom + 1 - s.top) ≤ s.bottom + 1 - s.top := min_le_right _ _
  have hout := scrollOut_edits hs.sized hb hn hs.scrollback
  obtain ⟨hlines, hblank⟩ := scrollOut_lines s s.top s.bottom (min n (s.bottom + 1 - s.top))
  unfold scrollUpRegion
  dsimp only
  rw [check_of (by omega)]
  split
  · rename_i hzero
    obtain rfl : n = 0 := by omega
    refine ⟨(onRange_id (by omega) fun m => by simp [shiftUp]).symm, ?_⟩
    rw [scrolledOut, take_zero, ite_self, append_nil, keepLast_of_le hs.scrollback]
  · constructor
    · rw [lines_rowsUp (hout.sized hs.sized) (by omega) (by rw [hout.rows]; exact hb) hn, hlines, hblank, shifted_up hb]
    · rw [rowsUp_scrollback, scrollOut, scrolledOut]
      split
      · rename_i hfull
        -- the region is the screen, so that a count beyond it takes every line there is
        have htake : s.lines.take n = s.lines.take (min n (s.bottom + 1 - s.top)) := by
          rw [take_eq_take_iff, length_lines]
          omega
        rw [htake]
        exact scrollback_pushRows hs.scrollback (by omega)
      · rw [append_nil, keepLast_of_le hs.scrollback]

theorem scrolls_down (hs : Inv s) {first : Nat} (hf : first ≤ s.bottom) (n : Nat) :
    Scrolls s (s.scrollDownRegion first s.bottom n) first (shiftDown n s.blankLine) [] := by
  have hb := hs.margins.2
  have hkept : s.scrollback = keepLast s.scrollbackLimit (s.scrollback ++ []) := by
    rw [append_nil, keepLast_of_le hs.scrollback]
  unfold scrollDownRegion
  dsimp only
  rw [check_of (by omega)]
  split
  · rename_i hzero
    obtain rfl : n = 0 := by omega
    exact ⟨(onRange_id (by omega) fun m => by simp [shiftDown]).symm, hkept⟩
  · exact ⟨by rw [lines_rowsDown hs.sized hf hb (min_le_right _ _), shifted_down hb],
      (rowsDown_scrollback ..).trans hkept⟩

theorem scrolls_delete (hs : Inv s) (hin : s.inRegion = true) (n : Nat) :
    Scrolls s (s.deleteLines n) s.cursor.row (shiftUp n s.blankLine) [] := by
  have hb := hs.margins.2
  obtain ⟨-, hrow⟩ : s.top ≤ s.cursor.row ∧ s.cursor.row ≤ s.bottom := by simpa [inRegion] using hin
  unfold deleteLines
  dsimp only
  rw [if_pos hin, check_of (by omega)]
  refine Scrolls.column ⟨?_, ?_⟩
  · rw [lines_rowsUp hs.sized hrow hb (min_le_right _ _), shifted_up hb]
  · rw [append_nil, keepLast_of_le hs.scrollback, rowsUp_scrollback]

/-- The lines and the scrollback of two terminals are the same. -/
def SameLines (s s' : Term) : Prop := s'.lines = s.lines ∧ s'.scrollback = s.scrollback

theorem sameLines_noWrap (s : Term) : SameLines s s.noWrap := ⟨rfl, rfl⟩

theorem sameLines_setRow (s : Term) (r : Nat) : SameLines s (s.noWrap.setRow r) := by
  have hrow : SameLines s.noWrap (s.noWrap.setRow r) := by
    exact ⟨rfl, rfl⟩
  exact hrow

theorem scrolls_lineFeed (hs : Inv s) :
    if s.cursor.row = s.bottom then Scrolls s s.lineFeed s.top (shiftUp 1 s.blankLine) (s.scrolledOut 1)
    else SameLines s s.lineFeed := by
  have hnow : Inv s.noWrap := { hs with cursor := hs.cursor }
  have hfeed : s.lineFeed = if s.cursor.row = s.bottom then s.noWrap.scrollUpRegion s.top s.bottom 1
      else if s.cursor.row < s.rows - 1 then s.noWrap.setRow (s.cursor.row + 1) else s.noWrap := rfl
  rw [hfeed]
  split_ifs
  · exact (scrolls_up hnow 1).of_noWrap
  · exact sameLines_setRow s _
  · exact sameLines_noWrap s

theorem scrolls_reverseIndex (hs : Inv s) :
    if s.cursor.row = s.top then Scrolls s s.reverseIndex s.top (shiftDown 1 s.blankLine) []
    else SameLines s s.reverseIndex := by
  have hnow : Inv s.noWrap := { hs with cursor := hs.cursor }
  have hback : s.reverseIndex = if s.cursor.row = s.top then s.noWrap.scrollDownRegion s.top s.bottom 1
      else if 0 < s.cursor.row then s.noWrap.setRow (s.cursor.row - 1) else s.noWrap := rfl
  rw [hback]
  split_ifs
  · exact (scrolls_down hnow (le_of_lt hs.margins.1) 1).of_noWrap
  · exact sameLines_setRow s _
  · exact sameLines_noWrap s

end HamixOS.Vt.Term
