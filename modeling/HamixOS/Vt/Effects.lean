import HamixOS.Vt.Screen

namespace HamixOS.Vt

open Lib List Nat

/-!
# What an operation can do to the screen

Most operations change the grid or move the cursor, and say so in `dirty`; few touch anything else.

* `Touches` — some rows were written, others were not;
* `Edits` — every row that was written is dirty;
* `Effect` — the steps of which every operation is made up;
* `Safe` — the shape of a screen, which every step keeps.
-/

namespace Term

variable {s s' s'' : Term}

theorem check_of {ok : Prop} [Decidable ok] (h : ok) (s : Term) : s.check ok = s := by
  unfold check
  rw [decide_eq_true h, Bool.not_true, Bool.or_false]

/-- The grid and the dirty flags have the size of the screen. -/
structure Sized (s : Term) : Prop where
  cols : 2 ≤ s.cols
  grid : s.grid.length = s.cols * s.rows
  dirty : s.dirty.length = s.rows

/-- The rows before `last` end before the grid does. -/
theorem Sized.rows_le (hs : Sized s) {last : Nat} (h : last ≤ s.rows) : last * s.cols ≤ s.grid.length := by
  rw [hs.grid, mul_comm s.cols]
  exact mul_le_mul_right s.cols h

variable {row : Nat}

theorem Sized.row_end (hs : Sized s) (h : row < s.rows) : row * s.cols + s.cols ≤ s.grid.length := by
  rw [← succ_mul]
  exact hs.rows_le h

/-- Only the rows from `first` up to `last` were written, and what was dirty is. -/
structure Touches (first last : Nat) (s s' : Term) : Prop where
  frame : s' = { s with grid := s'.grid, dirty := s'.dirty }
  grid : Outside (first * s.cols) (last * s.cols) s.grid s'.grid
  dirty : s'.dirty.length = s.dirty.length
  marked : ∀ r : Nat, s.dirty[r]? = some true → s'.dirty[r]? = some true

namespace Touches

variable {first last : Nat}

theorem refl (first last : Nat) (s : Term) : Touches first last s s := ⟨rfl, Outside.refl _ _ _, rfl, fun _ h => h⟩

section

variable (h : Touches first last s s')

include h

theorem cols : s'.cols = s.cols := by rw [h.frame]

theorem rows : s'.rows = s.rows := by rw [h.frame]

theorem cursor : s'.cursor = s.cursor := by rw [h.frame]

theorem modes : s'.modes = s.modes := by rw [h.frame]

theorem trans (h' : Touches first last s' s'') : Touches first last s s'' := by
  refine ⟨h'.frame.trans (by rw [h.frame]), ?_, h'.dirty.trans h.dirty, fun r hr => h'.marked r (h.marked r hr)⟩
  have hgrid := h'.grid
  rw [h.cols] at hgrid
  exact h.grid.trans hgrid

theorem sized (hs : Sized s) : Sized s' :=
  ⟨by rw [h.cols]; exact hs.cols, by rw [h.grid.length, h.cols, h.rows]; exact hs.grid,
    by rw [h.dirty, h.rows]; exact hs.dirty⟩

theorem mono {first' last' : Nat} (hf : first' ≤ first) (hl : last ≤ last') :
    Touches first' last' s s' :=
  ⟨h.frame, h.grid.mono (mul_le_mul_right _ hf) (mul_le_mul_right _ hl), h.dirty, h.marked⟩

/-- The cells of the other rows are as before. -/
theorem other {r c : Nat} (hr : r < first ∨ last ≤ r) (hc : c < s.cols) :
    s'.grid[r * s.cols + c]? = s.grid[r * s.cols + c]? := by
  refine h.grid.same _ ?_
  rcases hr with hr | hr
  · have hle := mul_le_mul_right s.cols (succ_le_of_lt hr)
    rw [succ_mul] at hle
    omega
  · have hge := mul_le_mul_right s.cols hr
    omega

end

end Touches

variable {first last : Nat}

theorem put_touches {i : Nat} (hlo : first * s.cols ≤ i) (hhi : i < last * s.cols) (hlen : i < s.grid.length) (c : Cell) :
    Touches first last s (s.put i c) := by
  unfold put
  rw [check_of hlen]
  exact ⟨rfl, Outside.set _ hlo hhi c, rfl, fun _ h => h⟩

theorem copyCells_touches {a b d : Nat} (hab : a ≤ b) (hb : b ≤ s.grid.length) (hd : d + (b - a) ≤ s.grid.length)
    (hlo : first * s.cols ≤ d) (hhi : d + (b - a) ≤ last * s.cols) : Touches first last s (s.copyCells a b d) := by
  unfold copyCells
  rw [check_of ⟨hab, hb, hd⟩]
  exact ⟨rfl, (Outside.copyWithin hb hd).mono hlo hhi, rfl, fun _ h => h⟩

theorem mark_touches (h : row < s.dirty.length) : Touches first last s (s.mark row) := by
  unfold mark
  rw [check_of h]
  refine ⟨rfl, Outside.refl _ _ _, length_set, fun r hr => ?_⟩
  by_cases heq : row = r
  · rw [← heq]
    exact getElem?_set_self h
  · rw [getElem?_set_ne heq]
    exact hr

theorem mark_marks (h : row < s.dirty.length) : (s.mark row).dirty[row]? = some true := by
  exact getElem?_set_self h

theorem markRows_touches {a b : Nat} (h : b < s.dirty.length) (hab : a ≤ b) : Touches first last s (s.markRows a b) := by
  unfold markRows
  rw [check_of h]
  refine ⟨rfl, Outside.refl _ _ _, length_fill h (le_succ_of_le hab) true, fun r hr => ?_⟩
  rw [getElem?_fill h (le_succ_of_le hab)]
  split
  · rfl
  · exact hr

theorem markRows_marks {a b : Nat} (h : b < s.dirty.length) {r : Nat} (ha : a ≤ r) (hb : r ≤ b) :
    (s.markRows a b).dirty[r]? = some true := by
  unfold markRows
  rw [getElem?_fill h (by omega), if_pos ⟨ha, lt_succ_of_le hb⟩]

section

variable (hs : Sized s)

include hs

theorem clearCells_touches {a b : Nat} (hlo : first * s.cols ≤ a) (hhi : min b s.grid.length ≤ last * s.cols) :
    Touches first last s (s.clearCells a b) := by
  unfold clearCells
  dsimp only
  split
  · exact Touches.refl first last s
  rename_i hab
  have hlen : min b s.grid.length ≤ s.grid.length := min_le_right _ _
  -- The last cell that is cleared is in the grid, so its row has a flag.
  have hfill : Touches first last s { s with grid := fill s.grid a (min b s.grid.length) s.blank } :=
    ⟨rfl, (Outside.fill (by omega) hlen _).mono hlo hhi, rfl, fun _ h => h⟩
  refine hfill.trans (markRows_touches ?_ (Nat.div_le_div_right (by omega)))
  dsimp only
  rw [hs.dirty]
  exact Nat.div_lt_of_lt_mul (by rw [← hs.grid]; omega)

theorem clearCells_marks {a b r : Nat} (hab : a < b) (hr : r < s.rows) (hlo : a < r * s.cols + s.cols)
    (hhi : r * s.cols < b) : (s.clearCells a b).dirty[r]? = some true := by
  have hend := hs.row_end hr
  have hcols := hs.cols
  unfold clearCells
  dsimp only
  rw [if_neg (by omega)]
  refine markRows_marks ?_ ?_ ?_
  · dsimp only
    rw [hs.dirty]
    exact Nat.div_lt_of_lt_mul (by rw [← hs.grid]; omega)
  · exact le_of_lt_succ (Nat.div_lt_of_lt_mul (by rw [mul_comm, succ_mul]; exact hlo))
  · exact (le_div_iff_mul_le (by omega)).mpr (by omega)

/-- Everything in a row. -/
theorem inRow {row col : Nat} (hr : row < s.rows) (hc : col < s.cols) :
    row * s.cols ≤ row * s.cols + col ∧ row * s.cols + col < (row + 1) * s.cols ∧ row * s.cols + col < s.grid.length := by
  have hend := hs.row_end hr
  rw [succ_mul]
  omega

theorem put_row {row col : Nat} (hr : row < s.rows) (hc : col < s.cols) (c : Cell) :
    Touches row (row + 1) s (s.put (row * s.cols + col) c) := by
  obtain ⟨hlo, hhi, hlen⟩ := inRow hs hr hc
  exact put_touches hlo hhi hlen c

theorem clearWideAt_touches (hr : row < s.rows) (col : Nat) :
    Touches row (row + 1) s (s.clearWideAt row col) := by
  unfold clearWideAt
  split
  · exact Touches.refl _ _ s
  rename_i hc
  dsimp only
  rw [check_of (inRow hs hr (Nat.lt_of_not_le hc)).2.2]
  have hfirst : Touches row (row + 1) s
      (if (s.cellAt (row * s.cols + col)).wide ∧ col + 1 < s.cols then
        s.put (row * s.cols + col + 1) (s.cellAt (row * s.cols + col)).halved
      else s) := by
    split
    · rename_i hwide
      exact put_row hs hr hwide.2 _
    · exact Touches.refl _ _ s
  refine hfirst.trans ?_
  generalize (if (s.cellAt (row * s.cols + col)).wide ∧ col + 1 < s.cols then
    s.put (row * s.cols + col + 1) (s.cellAt (row * s.cols + col)).halved else s) = t at hfirst
  split
  · rename_i hspacer
    have hput := put_row (hfirst.sized hs) (show row < t.rows by rw [hfirst.rows]; exact hr)
      (show col - 1 < t.cols by rw [hfirst.cols]; omega) (t.cellAt (row * s.cols + col - 1)).halved
    rw [hfirst.cols, ← Nat.add_sub_assoc (by omega)] at hput
    exact hput
  · exact Touches.refl _ _ t

theorem fixWideEdge_touches (hr : row < s.rows) :
    Touches row (row + 1) s (s.fixWideEdge row) := by
  have hcols := hs.cols
  obtain ⟨-, -, hlen⟩ := inRow hs hr (show s.cols - 1 < s.cols by omega)
  rw [← Nat.add_sub_assoc (by omega)] at hlen
  unfold fixWideEdge
  dsimp only
  rw [check_of hlen]
  have hfirst : Touches row (row + 1) s
      (if (s.cellAt (row * s.cols + s.cols - 1)).wide then s.put (row * s.cols + s.cols - 1) .BLANK else s) := by
    split
    · have hput := put_row hs hr (show s.cols - 1 < s.cols by omega) .BLANK
      rw [← Nat.add_sub_assoc (by omega)] at hput
      exact hput
    · exact Touches.refl _ _ s
  refine hfirst.trans ?_
  generalize (if (s.cellAt (row * s.cols + s.cols - 1)).wide then s.put (row * s.cols + s.cols - 1) .BLANK else s) = t at hfirst
  split
  · have hput := put_row (hfirst.sized hs) (show row < t.rows by rw [hfirst.rows]; exact hr)
      (show 0 < t.cols by rw [hfirst.cols]; omega) .BLANK
    rw [hfirst.cols] at hput
    rw [hfirst.cols]
    exact hput
  · exact Touches.refl _ _ t

end

/-! ### Edits -/

/-- The grid changed, and every row that did is dirty.  The scrollback grew on the main screen only, up to
    its limit. -/
structure Edits (s s' : Term) : Prop where
  frame : s' = { s with grid := s'.grid, dirty := s'.dirty, scrollback := s'.scrollback, scrolled := s'.scrolled }
  grid : s'.grid.length = s.grid.length
  dirty : s'.dirty.length = s.dirty.length
  marked : ∀ r : Nat, s.dirty[r]? = some true → s'.dirty[r]? = some true
  damage : ∀ r c : Nat, r < s.rows → c < s.cols → s'.grid[r * s.cols + c]? ≠ s.grid[r * s.cols + c]? →
    s'.dirty[r]? = some true
  scrollback : s'.scrollback = s.scrollback ∨ s.modes.altScreen = false ∧ s'.scrollback.length ≤ s.scrollbackLimit

namespace Edits

theorem refl (s : Term) : Edits s s := ⟨rfl, rfl, rfl, fun _ h => h, fun _ _ _ _ h => absurd rfl h, .inl rfl⟩

section

variable (h : Edits s s')

include h

theorem cols : s'.cols = s.cols := by rw [h.frame]

theorem rows : s'.rows = s.rows := by rw [h.frame]

theorem sized (hs : Sized s) : Sized s' :=
  ⟨by rw [h.cols]; exact hs.cols, by rw [h.grid, h.cols, h.rows]; exact hs.grid, by rw [h.dirty, h.rows]; exact hs.dirty⟩

theorem trans (h' : Edits s' s'') : Edits s s'' := by
  have hmodes : s'.modes = s.modes := by rw [h.frame]
  have hlimit : s'.scrollbackLimit = s.scrollbackLimit := by rw [h.frame]
  refine ⟨h'.frame.trans (by rw [h.frame]), h'.grid.trans h.grid, h'.dirty.trans h.dirty,
    fun r hr => h'.marked r (h.marked r hr), fun r c hr hc hne => ?_, ?_⟩
  · by_cases hfirst : s'.grid[r * s.cols + c]? = s.grid[r * s.cols + c]?
    · refine h'.damage r c (by rw [h.rows]; exact hr) (by rw [h.cols]; exact hc) ?_
      rw [h.cols, hfirst]
      exact hne
    · -- A cell that changed at first is in a row that was dirty from then on.
      exact h'.marked r (h.damage r c hr hc hfirst)
  · rcases h'.scrollback with heq | ⟨hmain, hle⟩
    · rw [heq]
      exact h.scrollback
    · rw [hmodes] at hmain
      rw [hlimit] at hle
      exact .inr ⟨hmain, hle⟩

end

end Edits

theorem Touches.edits (h : Touches first last s s') (hmarks : ∀ r, first ≤ r → r < last → s'.dirty[r]? = some true) :
    Edits s s' := by
  refine ⟨h.frame.trans (by rw [h.frame]), h.grid.length, h.dirty, h.marked, fun r c hr hc hne => ?_, ?_⟩
  · by_contra hclean
    refine hne (h.other ?_ hc)
    by_contra hin
    exact hclean (hmarks r (by omega) (by omega))
  · rw [h.frame]
    exact .inl rfl

/-- One row was written, and is dirty. -/
theorem Touches.row_edits (h : Touches row (row + 1) s s') (hmark : s'.dirty[row]? = some true) : Edits s s' := by
  refine h.edits fun r hlo hhi => ?_
  rw [show r = row by omega]
  exact hmark

theorem length_pushScrollback {limit : Nat} {lines : List (List Cell)} (h : lines.length ≤ limit) (line : List Cell) :
    (pushScrollback limit lines line).length ≤ limit := by
  unfold pushScrollback
  split
  · exact h
  · rw [length_drop, length_append, length_singleton]
    omega

theorem length_pushRows (hlimit : s.scrollback.length ≤ s.scrollbackLimit) (n : Nat) :
    (s.pushRows n).scrollback.length ≤ s.scrollbackLimit := by
  unfold pushRows
  generalize s.scrollback = lines at hlimit
  induction List.range n generalizing lines with
  | nil => exact hlimit
  | cons r rest ih => exact ih _ (length_pushScrollback hlimit _)

theorem pushRows_edits (hmain : s.modes.altScreen = false) (hlimit : s.scrollback.length ≤ s.scrollbackLimit) {n : Nat}
    (hn : n * s.cols ≤ s.grid.length) (scrolled : Nat) : Edits s { s.pushRows n with scrolled := scrolled } := by
  -- Nothing but the scrollback is different.
  have hlength := length_pushRows hlimit n
  unfold pushRows at hlength ⊢
  rw [check_of hn]
  exact ⟨rfl, rfl, rfl, fun _ h => h, fun _ _ _ _ h => absurd rfl h, .inr ⟨hmain, hlength⟩⟩

variable {top bottom n : Nat}

section

variable (hs : Sized s)

include hs

/-- The copy inside of a region that moves up, -/
theorem copied_up (hb : bottom < s.rows) (hn : n ≤ bottom + 1 - top) (ht : top ≤ bottom) :
    Touches top (bottom + 1) s (s.copyCells ((top + n) * s.cols) ((bottom + 1) * s.cols) (top * s.cols)) := by
  have hlast := hs.rows_le (show bottom + 1 ≤ s.rows by omega)
  have hsum : (top + n) * s.cols ≤ (bottom + 1) * s.cols := mul_le_mul_right _ (by omega)
  have htop : top * s.cols ≤ (top + n) * s.cols := mul_le_mul_right _ (by omega)
  exact copyCells_touches hsum hlast (by omega) le_rfl (by omega)

/-- and of one that moves down, where it ends as the region does. -/
theorem copied_down (hb : bottom < s.rows) (hn : n ≤ bottom + 1 - top) (ht : top ≤ bottom) :
    Touches top (bottom + 1) s (s.copyCells (top * s.cols) ((bottom + 1 - n) * s.cols) ((top + n) * s.cols)) := by
  have hlast := hs.rows_le (show bottom + 1 ≤ s.rows by omega)
  have hsum : top * s.cols ≤ (bottom + 1 - n) * s.cols := mul_le_mul_right _ (by omega)
  have htop : top * s.cols ≤ (top + n) * s.cols := mul_le_mul_right _ (by omega)
  have hend : (top + n) * s.cols + ((bottom + 1 - n) * s.cols - top * s.cols) = (bottom + 1) * s.cols := by
    rw [← Nat.sub_mul, ← add_mul]
    congr 1
    omega
  exact copyCells_touches hsum (le_trans (mul_le_mul_right _ (by omega)) hlast) (by omega) htop (by omega)

/-- Rows of the region are cleared behind the copy, and all of it is dirty. -/
theorem moved_rows {t : Term} {top bottom a b : Nat} (hcopy : Touches top (bottom + 1) s t) (hb : bottom < s.rows)
    (ht : top ≤ bottom) (ha : top ≤ a) (hab : b ≤ bottom + 1) :
    Edits s ((t.clearCells (a * t.cols) (b * t.cols)).markRows top bottom) ∧
    ∀ r : Nat, top ≤ r → r ≤ bottom → ((t.clearCells (a * t.cols) (b * t.cols)).markRows top bottom).dirty[r]? = some true := by
  have hclear : Touches top (bottom + 1) t (t.clearCells (a * t.cols) (b * t.cols)) :=
    clearCells_touches (hcopy.sized hs) (mul_le_mul_right _ ha)
      (le_trans (min_le_left _ _) (mul_le_mul_right _ hab))
  have hboth := hcopy.trans hclear
  have hdirty := (hboth.sized hs).dirty
  rw [hboth.rows] at hdirty
  have hmarks : ∀ r : Nat, top ≤ r → r ≤ bottom →
      ((t.clearCells (a * t.cols) (b * t.cols)).markRows top bottom).dirty[r]? = some true := fun r hlo hhi =>
    markRows_marks (by omega) hlo hhi
  exact ⟨(hboth.trans (markRows_touches (by omega) ht)).edits fun r hlo hhi => hmarks r hlo (by omega), hmarks⟩

theorem rowsUp_edits (hb : bottom < s.rows) (hn : n ≤ bottom + 1 - top) (ht : top ≤ bottom) :
    Edits s (s.rowsUp top bottom n) :=
  (moved_rows hs (copied_up hs hb hn ht) hb ht (by omega) le_rfl).1

theorem rowsUp_marks {top bottom n r : Nat} (hb : bottom < s.rows) (hn : n ≤ bottom + 1 - top) (ht : top ≤ r)
    (hr : r ≤ bottom) : (s.rowsUp top bottom n).dirty[r]? = some true :=
  (moved_rows hs (copied_up hs hb hn (le_trans ht hr)) hb (le_trans ht hr) (by omega) le_rfl).2 r ht hr

theorem rowsDown_edits (hb : bottom < s.rows) (hn : n ≤ bottom + 1 - top) (ht : top ≤ bottom) :
    Edits s (s.rowsDown top bottom n) :=
  (moved_rows hs (copied_down hs hb hn ht) hb ht le_rfl (by omega)).1

theorem scrollOut_edits (hb : bottom < s.rows) (hn : n ≤ bottom + 1 - top)
    (hlimit : s.scrollback.length ≤ s.scrollbackLimit) : Edits s (s.scrollOut top bottom n) := by
  unfold scrollOut
  split
  · rename_i hmain
    exact pushRows_edits hmain.2.1 hlimit (hs.rows_le (by omega)) _
  · exact Edits.refl s

theorem scrollUpRegion_edits {top bottom : Nat} (hb : bottom < s.rows) (ht : top ≤ bottom)
    (hlimit : s.scrollback.length ≤ s.scrollbackLimit) (n : Nat) : Edits s (s.scrollUpRegion top bottom n) := by
  unfold scrollUpRegion
  dsimp only
  rw [check_of (show top ≤ bottom + 1 by omega)]
  split
  · exact Edits.refl s
  have hn : min n (bottom + 1 - top) ≤ bottom + 1 - top := min_le_right _ _
  have hout := scrollOut_edits hs hb hn hlimit
  exact hout.trans (rowsUp_edits (hout.sized hs) (by rw [hout.rows]; exact hb) hn ht)

theorem scrollDownRegion_edits {top bottom : Nat} (hb : bottom < s.rows) (ht : top ≤ bottom) (n : Nat) :
    Edits s (s.scrollDownRegion top bottom n) := by
  unfold scrollDownRegion
  dsimp only
  rw [check_of (show top ≤ bottom + 1 by omega)]
  split
  · exact Edits.refl s
  · exact rowsDown_edits hs hb (min_le_right _ _) ht

end

end Term

/-! ### The shape of a screen -/

/-- The parser never reads behind its parameters or its bytes. -/
structure Parser.Safe (p : Parser) : Prop where
  params : p.params.length = MAX_PARAMS
  colon : p.colon.length = MAX_PARAMS
  count : p.paramCount ≤ MAX_PARAMS
  utf8 : p.utf8.length = 4
  pending : (p.utf8Len < p.utf8Need ∧ p.utf8Need ≤ 4) ∨ (p.utf8Len = 0 ∧ p.utf8Need = 0)
  /-- A character is not interrupted by a sequence. -/
  ground : p.utf8Need ≠ 0 → p.state = .ground
  crashed : p.crashed = false

/-- A position inside of the screen. -/
def Cursor.Inside (c : Cursor) (cols rows : Nat) : Prop := c.row < rows ∧ c.col < cols

namespace Term

/-- **The invariant of the terminal**: everything has the size of the screen, and nothing was accessed out of
    range. -/
structure Safe (s : Term) : Prop where
  cols : 2 ≤ s.cols
  rows : 2 ≤ s.rows
  grid : s.grid.length = s.cols * s.rows
  dirty : s.dirty.length = s.rows
  tabs : s.tabs.length = s.cols
  cursor : s.cursor.Inside s.cols s.rows
  margins : s.top < s.bottom ∧ s.bottom < s.rows
  savedMain : s.savedMain.Inside s.cols s.rows
  savedAlt : s.savedAlt.Inside s.cols s.rows
  altScreen : s.modes.altScreen = s.savedScreen.isSome
  saved : ∀ saved, s.savedScreen = some saved → saved.length = s.cols * s.rows
  scrollback : s.scrollback.length ≤ s.scrollbackLimit
  parser : s.parser.Safe
  crashed : s.crashed = false

/-- A number of rows that is not zero as a 32-bit number, on a screen whose cells can be counted. -/
def Fits (cols rows : Nat) : Prop := cols * rows < 2 ^ 64 ∧ rows % 2 ^ 32 ≠ 0

structure Inv (s : Term) : Prop extends Safe s where
  fits : Fits s.cols s.rows

theorem Inv.sized {s : Term} (hs : Inv s) : Sized s := ⟨hs.cols, hs.grid, hs.dirty⟩

theorem size_of_fits {cols rows : Nat} (h : cols * rows < 2 ^ 64) : size cols rows = cols * rows := mod_eq_of_lt h

/-! ### Steps -/

/-- Nothing that a user sees but the pen, the modes, the title and the answers changed. -/
structure SameScreen (s s' : Term) : Prop where
  cols : s'.cols = s.cols
  rows : s'.rows = s.rows
  grid : s'.grid = s.grid
  savedScreen : s'.savedScreen = s.savedScreen
  scrollback : s'.scrollback = s.scrollback
  scrollbackLimit : s'.scrollbackLimit = s.scrollbackLimit
  row : s'.cursor.row = s.cursor.row
  col : s'.cursor.col = s.cursor.col
  savedMain : s'.savedMain = s.savedMain
  savedAlt : s'.savedAlt = s.savedAlt
  top : s'.top = s.top
  bottom : s'.bottom = s.bottom
  tabs : s'.tabs.length = s.tabs.length
  altScreen : s'.modes.altScreen = s.modes.altScreen
  parser : s'.parser = s.parser
  dirty : s'.dirty = s.dirty
  crashed : s'.crashed = s.crashed
  visited : s'.visited = s.visited

/-- What only some operations do. -/
inductive Special where
  | saveMain
  | leaveAlt
  | softReset
  | reset
  | clearScrollback
  deriving DecidableEq

/-- The steps of operations that do nothing special but what `may` allows. -/
inductive Effect (may : Special → Prop) (s : Term) : Term → Prop where
  | quiet {s' : Term} (h : SameScreen s s') : Effect may s s'
  | edits {s' : Term} (h : Edits s s') : Effect may s s'
  | column (col : Nat) (h : col < s.cols) : Effect may s (s.setCol col)
  | setRow (row : Nat) : Effect may s (s.setRow row)
  | margins (top bottom : Nat) (h : top < bottom ∧ bottom < s.rows) :
      Effect may s { s with top := top, bottom := bottom }
  | saveCursor : Effect may s s.saveCursor
  | restoreCursor : Effect may s s.restoreCursor
  | enterAlt (clear : Bool) (h : s.modes.altScreen = false) : Effect may s (s.enterAltScreen clear)
  | saveMain (h : may .saveMain) : Effect may s { s with savedMain := s.cursor }
  | leaveAlt (h : may .leaveAlt) : Effect may s s.leaveAltScreen
  | restoreMain (h : may .leaveAlt) : Effect may s { s with cursor := s.clamp s.savedMain }
  | softReset (h : may .softReset) : Effect may s s.softReset
  | reset (h : may .reset) : Effect may s s.reset.markAllDirty
  | clearScrollback (h : may .clearScrollback) : Effect may s s.clearScrollback

theorem SameScreen.inv {s s' : Term} (h : SameScreen s s') (hs : Inv s) : Inv s' where
  cols := by rw [h.cols]; exact hs.cols
  rows := by rw [h.rows]; exact hs.rows
  grid := by rw [h.grid, h.cols, h.rows]; exact hs.grid
  dirty := by rw [h.dirty, h.rows]; exact hs.dirty
  tabs := by rw [h.tabs, h.cols]; exact hs.tabs
  cursor := by unfold Cursor.Inside; rw [h.row, h.col, h.cols, h.rows]; exact hs.cursor
  margins := by rw [h.top, h.bottom, h.rows]; exact hs.margins
  savedMain := by rw [h.savedMain, h.cols, h.rows]; exact hs.savedMain
  savedAlt := by rw [h.savedAlt, h.cols, h.rows]; exact hs.savedAlt
  altScreen := by rw [h.altScreen, h.savedScreen]; exact hs.altScreen
  saved := by rw [h.savedScreen, h.cols, h.rows]; exact hs.saved
  scrollback := by rw [h.scrollback, h.scrollbackLimit]; exact hs.scrollback
  parser := by rw [h.parser]; exact hs.parser
  crashed := h.crashed.trans hs.crashed
  fits := by rw [h.cols, h.rows]; exact hs.fits

theorem Edits.inv {s s' : Term} (h : Edits s s') (hs : Inv s) : Inv s' := by
  have hgrid := h.grid.trans hs.grid
  have hdirty := h.dirty.trans hs.dirty
  have hscrollback : s'.scrollback.length ≤ s.scrollbackLimit := by
    rcases h.scrollback with heq | ⟨-, hle⟩
    · rw [heq]
      exact hs.scrollback
    · exact hle
  rw [h.frame]
  exact { hs with grid := hgrid, dirty := hdirty, scrollback := hscrollback }

theorem setRow_eq {s : Term} (hs : Inv s) (row : Nat) :
    s.setRow row = { s with
      visited := s.cursor.row :: min row (s.rows - 1) :: s.visited
      cursor := { s.cursor with row := min row (s.rows - 1) }
      dirty := (s.dirty.set s.cursor.row true).set (min row (s.rows - 1)) true } := by
  have hrow : s.cursor.row < s.dirty.length := by
    rw [hs.dirty]
    exact hs.cursor.1
  -- The row that is left and the one that is entered have a flag each.
  have hmin : min row (s.rows - 1) < (s.dirty.set s.cursor.row true).length := by
    have := hs.rows
    rw [length_set, hs.dirty]
    omega
  have hrows : 1 ≤ s.rows := le_of_succ_le hs.rows
  unfold setRow mark
  rw [check_of hrow]
  dsimp only
  rw [check_of (s := { s with dirty := s.dirty.set s.cursor.row true }) hrows]
  dsimp only
  rw [check_of hmin]

theorem restoreCursor_eq {s : Term} (hs : Inv s) :
    s.restoreCursor = { s with
      cursor := s.clamp (if s.modes.altScreen then s.savedAlt else s.savedMain)
      modes := { s.modes with origin := (if s.modes.altScreen then s.savedAlt else s.savedMain).origin }
      dirty := (s.dirty.set s.cursor.row true).set
        (min (if s.modes.altScreen then s.savedAlt else s.savedMain).row (s.rows - 1)) true } := by
  have hrow : s.cursor.row < s.dirty.length := by
    rw [hs.dirty]
    exact hs.cursor.1
  have hmin : min (if s.modes.altScreen then s.savedAlt else s.savedMain).row (s.rows - 1) <
      (s.dirty.set s.cursor.row true).length := by
    have := hs.rows
    rw [length_set, hs.dirty]
    omega
  unfold restoreCursor mark
  rw [check_of hrow]
  dsimp only [clamp]
  rw [check_of hmin]

theorem clamp_inside {s : Term} (hs : Inv s) (c : Cursor) : (s.clamp c).Inside s.cols s.rows := by
  have := hs.rows
  have := hs.cols
  unfold clamp Cursor.Inside
  dsimp only
  omega

theorem inv_new {cols rows : Nat} (limit : Nat) (h : Fits (max cols 2) (max rows 2)) : Inv (new cols rows limit) where
  cols := le_max_right _ _
  rows := le_max_right _ _
  grid := length_replicate.trans (size_of_fits h.1)
  dirty := length_replicate
  tabs := by
    unfold new defaultTabs
    rw [length_map, length_range]
  cursor := by
    unfold new Cursor.new Cursor.Inside
    dsimp only
    omega
  margins := by
    unfold new
    dsimp only
    omega
  savedMain := by
    unfold new Cursor.new Cursor.Inside
    dsimp only
    omega
  savedAlt := by
    unfold new Cursor.new Cursor.Inside
    dsimp only
    omega
  altScreen := rfl
  saved := fun _ h => nomatch h
  scrollback := zero_le _
  parser := ⟨rfl, rfl, zero_le _, rfl, .inr ⟨rfl, rfl⟩, fun _ => rfl, rfl⟩
  crashed := rfl
  fits := h

theorem reset_inv {s : Term} (hs : Inv s) : Inv s.reset := by
  have hc : max s.cols 2 = s.cols := max_eq_left hs.cols
  have hr : max s.rows 2 = s.rows := max_eq_left hs.rows
  -- Its size is that of the screen before, which is two by two at least.
  have hnew : Inv (new s.cols s.rows s.scrollbackLimit) := inv_new s.scrollbackLimit (by rw [hc, hr]; exact hs.fits)
  unfold reset
  exact { hnew with scrollback := hs.scrollback, crashed := hs.crashed }

theorem markAllDirty_inv {s : Term} (hs : Inv s) : Inv s.markAllDirty := by
  have hdirty : (s.dirty.map fun _ => true).length = s.rows := by rw [length_map, hs.dirty]
  exact { hs with dirty := hdirty }

theorem enterAltScreen_eq {s : Term} (h : s.modes.altScreen = false) (clear : Bool) :
    s.enterAltScreen clear = { s with
      grid := List.replicate (size s.cols s.rows) .BLANK
      savedScreen := some s.grid
      modes := { s.modes with altScreen := true }
      top := 0
      bottom := s.rows - 1 }.markAllDirty := by
  unfold enterAltScreen
  rw [h]
  rfl

theorem enterAltScreen_inv {s : Term} (hs : Inv s) (h : s.modes.altScreen = false) (clear : Bool) :
    Inv (s.enterAltScreen clear) := by
  have hrows := hs.rows
  rw [enterAltScreen_eq h]
  refine markAllDirty_inv { hs with
    grid := length_replicate.trans (size_of_fits hs.fits.1), margins := ?_, altScreen := rfl, saved := fun saved hsaved => ?_ }
  · dsimp only
    omega
  · rw [← Option.some.inj hsaved]
    exact hs.grid

theorem leaveAltScreen_inv {s : Term} (hs : Inv s) : Inv s.leaveAltScreen := by
  have hrows := hs.rows
  unfold leaveAltScreen
  split
  · refine markAllDirty_inv { hs with
      grid := ?_, margins := ?_, altScreen := rfl, saved := fun saved hsaved => (nomatch hsaved) }
    · dsimp only
      cases hscreen : s.savedScreen with
      | none => exact hs.grid
      | some saved => exact hs.saved saved hscreen
    · dsimp only
      omega
  · exact hs

/-- The run rule of the screen: its shape is kept. -/
theorem Effect.inv {may : Special → Prop} {s s' : Term} (h : Effect may s s') (hs : Inv s) : Inv s' := by
  have hcols := hs.cols
  have hrows := hs.rows
  cases h with
  | quiet h => exact h.inv hs
  | edits h => exact h.inv hs
  | column col h => exact { hs with cursor := ⟨hs.cursor.1, h⟩ }
  | setRow row =>
    -- The row is cut to the screen.
    have hrow : min row (s.rows - 1) < s.rows := by omega
    rw [setRow_eq hs]
    exact { hs with
      dirty := length_set.trans (length_set.trans hs.dirty), cursor := ⟨hrow, hs.cursor.2⟩ }
  | margins top bottom h => exact { hs with margins := h }
  | saveCursor =>
    unfold Term.saveCursor
    split
    · exact { hs with savedAlt := hs.cursor }
    · exact { hs with savedMain := hs.cursor }
  | restoreCursor =>
    rw [restoreCursor_eq hs]
    exact { hs with
      dirty := length_set.trans (length_set.trans hs.dirty), cursor := clamp_inside hs _, altScreen := hs.altScreen }
  | enterAlt clear h => exact enterAltScreen_inv hs h clear
  | saveMain => exact { hs with savedMain := hs.cursor }
  | leaveAlt => exact leaveAltScreen_inv hs
  | restoreMain => exact { hs with cursor := clamp_inside hs _ }
  | softReset =>
    -- The saved cursors go back to the origin, and the margins to the edges.
    have hnew : Cursor.new.Inside s.cols s.rows := ⟨by unfold Cursor.new; dsimp only; omega, by unfold Cursor.new; dsimp only; omega⟩
    unfold Term.softReset
    refine { hs with margins := ?_, savedMain := hnew, savedAlt := hnew, altScreen := hs.altScreen, cursor := hs.cursor }
    dsimp only
    omega
  | reset => exact markAllDirty_inv (reset_inv hs)
  | clearScrollback => exact { hs with scrollback := zero_le _ }

/-- Any number of steps. -/
def Effects (may : Special → Prop) : Term → Term → Prop := Relation.ReflTransGen (Effect may)

theorem Effects.inv {may : Special → Prop} {s s' : Term} (h : Effects may s s') (hs : Inv s) : Inv s' := by
  induction h with
  | refl => exact hs
  | tail _ hlast ih => exact hlast.inv ih

end Term

end HamixOS.Vt
