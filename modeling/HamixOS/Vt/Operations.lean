import HamixOS.Vt.Effects

namespace HamixOS.Vt

open Lib List Nat Bool

/-!
# Every operation is made of steps

`apply_effects` — an operation, on a screen in shape, is a sequence of the steps of `Effect`.
-/

namespace Term

variable {may : Special → Prop} {s s' s'' : Term} {first last : Nat}

/-! ### Rows that were written before they are dirty -/

/-- What was written is marked by the edit that follows. -/
theorem Touches.then_edits (h : Touches first last s s') (h' : Edits s' s'')
    (hmarks : ∀ r, first ≤ r → r < last → s''.dirty[r]? = some true) : Edits s s'' := by
  have hmodes : s'.modes = s.modes := h.modes
  have hlimit : s'.scrollbackLimit = s.scrollbackLimit := by rw [h.frame]
  have hlines : s'.scrollback = s.scrollback := by rw [h.frame]
  refine ⟨h'.frame.trans (by rw [h.frame]), h'.grid.trans h.grid.length, h'.dirty.trans h.dirty,
    fun r hr => h'.marked r (h.marked r hr), fun r c hr hc hne => ?_, ?_⟩
  · by_cases hfirst : s'.grid[r * s.cols + c]? = s.grid[r * s.cols + c]?
    · refine h'.damage r c (by rw [h.rows]; exact hr) (by rw [h.cols]; exact hc) ?_
      rw [h.cols, hfirst]
      exact hne
    · -- The cell is in a row that `h` touched.
      by_contra hclean
      refine hfirst (h.other ?_ hc)
      by_contra hin
      exact hclean (hmarks r (by omega) (by omega))
  · have hscrollback := h'.scrollback
    rw [hlines, hmodes, hlimit] at hscrollback
    exact hscrollback

theorem scrollUpRegion_marks (hs : Sized s) {top bottom r : Nat} (hb : bottom < s.rows)
    (hlimit : s.scrollback.length ≤ s.scrollbackLimit) (ht : top ≤ r) (hr : r ≤ bottom) :
    (s.scrollUpRegion top bottom 1).dirty[r]? = some true := by
  have hone : min 1 (bottom + 1 - top) = 1 := by omega
  have hout := scrollOut_edits hs hb (show 1 ≤ bottom + 1 - top by omega) hlimit
  unfold scrollUpRegion
  dsimp only
  rw [check_of (show top ≤ bottom + 1 by omega), hone, if_neg (by decide)]
  exact rowsUp_marks (hout.sized hs) (by rw [hout.rows]; exact hb) (by omega) ht hr

theorem Touches.inv (h : Touches first last s s') (hs : Inv s) : Inv s' := by
  have hsized := h.sized hs.sized
  have hgrid := hsized.grid
  have hdirty := hsized.dirty
  rw [h.cols, h.rows] at hgrid
  rw [h.rows] at hdirty
  rw [h.frame]
  exact { hs with grid := hgrid, dirty := hdirty }

/-! ### Small steps -/

theorem same_noWrap (s : Term) : SameScreen s s.noWrap := by
  constructor <;> rfl

theorem effects_quiet (h : SameScreen s s') : Effects may s s' := .single (.quiet h)

theorem effects_edits (h : Edits s s') : Effects may s s' := .single (.edits h)

theorem effects_noWrap (s : Term) : Effects may s s.noWrap := effects_quiet (same_noWrap s)

theorem effects_setCol {col : Nat} (h : col < s.cols) : Effects may s (s.setCol col) := .single (.column col h)

theorem effects_setRow (s : Term) (row : Nat) : Effects may s (s.setRow row) := .single (.setRow row)

theorem effects_lineFeed (hs : Inv s) : Effects may s s.lineFeed := by
  have hn : Inv s.noWrap := (same_noWrap s).inv hs
  refine (effects_noWrap s).trans ?_
  unfold lineFeed
  dsimp only
  split
  · exact effects_edits (scrollUpRegion_edits hn.sized hn.margins.2 (le_of_lt hn.margins.1) hn.scrollback 1)
  split
  · exact effects_setRow _ _
  · exact .refl

theorem effects_reverseIndex (hs : Inv s) : Effects may s s.reverseIndex := by
  have hn : Inv s.noWrap := (same_noWrap s).inv hs
  refine (effects_noWrap s).trans ?_
  unfold reverseIndex
  dsimp only
  split
  · exact effects_edits (scrollDownRegion_edits hn.sized hn.margins.2 (le_of_lt hn.margins.1) 1)
  split
  · exact effects_setRow _ _
  · exact .refl

theorem cols_setRow (s : Term) (row : Nat) : (s.setRow row).cols = s.cols := by
  simp only [setRow, mark, check]

theorem effects_moveTo (hs : Inv s) (row col : Nat) : Effects may s (s.moveTo row col) := by
  have hmargins := hs.margins
  have hcols := hs.cols
  -- The bounds of `clamp` are in order, in origin mode as the margins are.
  have horder : (if s.cursor.origin then s.top else 0) ≤ (if s.cursor.origin then s.bottom else s.rows - 1) := by
    split
    · exact le_of_lt hmargins.1
    · exact zero_le _
  unfold moveTo
  dsimp only
  rw [check_of horder]
  refine ((effects_setRow s _).trans (effects_setCol ?_)).trans (effects_noWrap _)
  rw [cols_setRow]
  omega

/-! ### Printing -/

variable {width : Nat}

theorem makeRoom_touches (hs : Inv s) (hfit : s.cursor.col + width ≤ s.cols) :
    Touches s.cursor.row (s.cursor.row + 1) s (s.makeRoom width) := by
  have hend := hs.sized.row_end hs.cursor.1
  unfold makeRoom
  split
  · dsimp only
    split
    · exact copyCells_touches (by omega) (by omega) (by omega) (by omega) (by rw [succ_mul]; omega)
    · exact Touches.refl _ _ s
  · exact Touches.refl _ _ s

theorem openCells_touches (hs : Sized s) (hr : s.cursor.row < s.rows) (width : Nat) :
    Touches s.cursor.row (s.cursor.row + 1) s (s.openCells width) := by
  have hfirst := clearWideAt_touches hs hr s.cursor.col
  unfold openCells
  dsimp only
  split
  · have hsecond := clearWideAt_touches (hfirst.sized hs)
      (show s.cursor.row < (s.clearWideAt s.cursor.row s.cursor.col).rows by rw [hfirst.rows]; exact hr) (s.cursor.col + 1)
    rw [hfirst.cursor]
    exact hfirst.trans hsecond
  · exact hfirst

theorem write_touches (hs : Sized s) (hr : s.cursor.row < s.rows) (ch : Char) (hw : 1 ≤ width)
    (hfit : s.cursor.col + width ≤ s.cols) : Touches s.cursor.row (s.cursor.row + 1) s (s.write ch width) := by
  unfold write
  split
  · rename_i hwide
    have hfirst := put_row hs hr (show s.cursor.col < s.cols by omega)
      { s.penCell ch with flags := (s.penCell ch).flags ||| WIDE }
    refine hfirst.trans ?_
    have hsecond := put_row (hfirst.sized hs) (show s.cursor.row < Term.rows _ by rw [hfirst.rows]; exact hr)
      (show s.cursor.col + 1 < Term.cols _ by rw [hfirst.cols]; omega)
    rw [hfirst.cols] at hsecond
    exact hsecond _
  · exact put_row hs hr (by omega) _

section

variable (hs : Inv s)

include hs

theorem stamp_edits (ch : Char) (hw : 1 ≤ width) (hfit : s.cursor.col + width ≤ s.cols) :
    Edits s (s.stamp ch width) ∧ (s.stamp ch width).dirty[s.cursor.row]? = some true := by
  have hroom := makeRoom_touches hs hfit
  have hopen := openCells_touches (hroom.sized hs.sized) (by rw [hroom.cursor, hroom.rows]; exact hs.cursor.1) width
  rw [hroom.cursor] at hopen
  -- All three of them write to the row of the cursor, which is marked in the end.
  have hboth := hroom.trans hopen
  have hwrite := write_touches (hboth.sized hs.sized) (by rw [hboth.cursor, hboth.rows]; exact hs.cursor.1) ch hw
    (by rw [hboth.cursor, hboth.cols]; exact hfit)
  rw [hboth.cursor] at hwrite
  have hall := hboth.trans hwrite
  have hdirty := (hall.sized hs.sized).dirty
  have hrow : s.cursor.row < (((s.makeRoom width).openCells width).write ch width).dirty.length := by
    rw [hdirty, hall.rows]
    exact hs.cursor.1
  exact ⟨(hall.trans (mark_touches hrow)).row_edits (mark_marks hrow), mark_marks hrow⟩

theorem effects_advance (width : Nat) : Effects may s (s.advance width) := by
  have hcols := hs.cols
  unfold advance
  split
  · refine (effects_setCol (show s.cols - 1 < s.cols by omega)).trans (effects_quiet ?_)
    constructor <;> rfl
  · exact effects_setCol (by omega)

theorem effects_place (ch : Char) (hw : 1 ≤ width) (hfit : s.cursor.col + width ≤ s.cols) :
    Effects may s (s.place ch width) := by
  have hstamp := (stamp_edits hs ch hw hfit).1
  exact (effects_edits hstamp).trans (effects_advance (hstamp.inv hs) width)

theorem effects_wrapPending : Effects may s s.wrapPending := by
  have hcols := hs.cols
  unfold wrapPending
  split
  · split
    · -- The cursor goes to the first column of the next row.
      have hcol : Effects may s (s.setCol 0) := effects_setCol (by omega)
      exact (hcol.trans (effects_lineFeed (hcol.inv hs))).trans (effects_noWrap _)
    · exact effects_noWrap s
  · exact .refl

/-- A wide character that does not fit: its place is blanked, and it goes to the next row.  If there is none
    below, it overwrites the row that the blank is in. -/
theorem effects_wrapWide (ch : Char) (hwrap : s.modes.autowrap) (hfull : s.cols ≤ s.cursor.col + 1) :
    Effects may s ((s.wrapWide 2).place ch 2) := by
  have hcols := hs.cols
  -- The step to the first column comes first; it changes neither the blank nor its place.
  have hstart : Effects may s (s.setCol 0).noWrap := (effects_setCol (by omega)).trans (effects_noWrap _)
  have hu := hstart.inv hs
  have hput : Touches s.cursor.row (s.cursor.row + 1) (s.setCol 0).noWrap
      ((s.setCol 0).noWrap.put (s.cursor.row * s.cols + s.cursor.col) s.blank) :=
    put_row (s := (s.setCol 0).noWrap) hu.sized hs.cursor.1 hs.cursor.2 _
  have hwide : s.wrapWide 2 = ((s.put (s.cursor.row * s.cols + s.cursor.col) s.blank).setCol 0).lineFeed := by
    unfold wrapWide
    rw [if_pos ⟨rfl, hfull⟩, if_pos hwrap]
  refine hstart.trans ?_
  rw [hwide]
  unfold lineFeed
  dsimp only
  have hcommute : ((s.put (s.cursor.row * s.cols + s.cursor.col) s.blank).setCol 0).noWrap =
      (s.setCol 0).noWrap.put (s.cursor.row * s.cols + s.cursor.col) s.blank := rfl
  rw [hcommute]
  have hcol : ((s.setCol 0).noWrap.put (s.cursor.row * s.cols + s.cursor.col) s.blank).cursor.col = 0 := rfl
  have hrow : ((s.setCol 0).noWrap.put (s.cursor.row * s.cols + s.cursor.col) s.blank).cursor.row = s.cursor.row := rfl
  generalize (s.setCol 0).noWrap.put (s.cursor.row * s.cols + s.cursor.col) s.blank = v at hput hcol hrow
  generalize (s.setCol 0).noWrap = u at hu hput
  have hv := hput.inv hu
  split
  · rename_i heq
    have hscroll := scrollUpRegion_edits hv.sized hv.margins.2 (le_of_lt hv.margins.1) hv.scrollback 1
    have hedits : Edits u (v.scrollUpRegion v.top v.bottom 1) := by
      refine hput.then_edits hscroll fun r hlo hhi => ?_
      have hregion := hv.margins.1
      exact scrollUpRegion_marks hv.sized hv.margins.2 hv.scrollback (by omega) (by omega)
    have hcursor : (v.scrollUpRegion v.top v.bottom 1).cursor = v.cursor := by rw [hscroll.frame]
    refine (effects_edits hedits).trans (effects_place (hedits.inv hu) ch (by decide) ?_)
    rw [hcursor, hcol, hedits.cols, ← hput.cols]
    exact hv.cols
  split
  · have hmarked : Touches s.cursor.row (s.cursor.row + 1) u (v.mark s.cursor.row) := by
      refine hput.trans (mark_touches ?_)
      rw [hv.dirty, ← hrow]
      exact hv.cursor.1
    have hedits : Edits u (v.mark s.cursor.row) := by
      refine hmarked.row_edits (mark_marks ?_)
      rw [hv.dirty, ← hrow]
      exact hv.cursor.1
    -- `setRow` marks the row that it leaves, so it may as well be marked before.
    have hset : v.setRow (v.cursor.row + 1) = (v.mark s.cursor.row).setRow (v.cursor.row + 1) := by
      rw [setRow_eq hv, setRow_eq (hmarked.inv hu)]
      unfold mark
      rw [check_of (by rw [hv.dirty, ← hrow]; exact hv.cursor.1)]
      dsimp only
      rw [hrow, set_set]
    rw [hset]
    have hstep : Effects may u ((v.mark s.cursor.row).setRow (v.cursor.row + 1)) :=
      (effects_edits hedits).trans (effects_setRow _ _)
    have hnext : ((v.mark s.cursor.row).setRow (v.cursor.row + 1)).cursor.col = 0 := by
      rw [setRow_eq (hmarked.inv hu)]
      exact hcol
    refine hstep.trans (effects_place (hstep.inv hu) ch (by decide) ?_)
    rw [hnext]
    exact (hstep.inv hu).cols
  · obtain ⟨hstamp, hmark⟩ := stamp_edits hv ch (show 1 ≤ 2 by decide) (by rw [hcol]; exact hv.cols)
    rw [hrow] at hmark
    have hedits : Edits u (v.stamp ch 2) := by
      refine hput.then_edits hstamp fun r hlo hhi => ?_
      rw [show r = s.cursor.row by omega]
      exact hmark
    exact (effects_edits hedits).trans (effects_advance (hedits.inv hu) 2)

/-- A character that is not of width zero, behind the wrap that was pending. -/
theorem effects_fitted (ch : Char) (hw : 1 ≤ width) (hle : width ≤ 2) :
    Effects may s ((s.wrapWide width).place ch width) := by
  have hcols := hs.cols
  have hcol := hs.cursor.2
  by_cases hfull : width = 2 ∧ s.cols ≤ s.cursor.col + 1
  · obtain ⟨rfl, hfull⟩ := hfull
    by_cases hwrap : s.modes.autowrap
    · exact effects_wrapWide hs ch hwrap hfull
    · -- Without autowrap, it overwrites the last two columns.
      have hback : s.wrapWide 2 = s.setCol (s.cols - 2) := by
        unfold wrapWide
        rw [if_pos ⟨rfl, hfull⟩, if_neg hwrap, check_of hcols]
      rw [hback]
      have hstep : Effects may s (s.setCol (s.cols - 2)) := effects_setCol (by omega)
      refine hstep.trans (effects_place (hstep.inv hs) ch (by decide) ?_)
      show s.cols - 2 + 2 ≤ s.cols
      omega
  · have hstay : s.wrapWide width = s := if_neg hfull
    rw [hstay]
    exact effects_place hs ch hw (by omega)

theorem effects_print (ch : Char) : Effects may s (s.print ch) := by
  have hle := charWidth_le (s.translate ch)
  unfold print
  dsimp only
  split
  · exact .refl
  rename_i hw
  -- The wrap, the step to the next row if it is wide, and the character.
  have hlast : Effects may s { s with lastChar := s.translate ch } := effects_quiet (by constructor <;> rfl)
  have hwrap := hlast.trans (effects_wrapPending (hlast.inv hs))
  exact hwrap.trans (effects_fitted (Effects.inv hwrap hs) _ (by omega) hle)

end

/-- An operation any number of times. -/
theorem effects_foldl {f : Term → Term} (hf : ∀ s, Inv s → Effects may s (f s)) (hs : Inv s) (ks : List Nat) :
    Effects may s (ks.foldl (fun t _ => f t) s) := by
  induction ks generalizing s with
  | nil => exact .refl
  | cons k ks ih => exact (hf s hs).trans (ih ((hf s hs).inv hs))

/-! ### Editing -/

/-- Behind other writes to a row, a part of it is cleared, which makes it dirty. -/
theorem clear_in_row (hs : Sized s) {row a b : Nat} (h : Touches row (row + 1) s s') (hr : row < s.rows)
    (ha : row * s.cols ≤ a) (hab : a < b) (hb : b ≤ row * s.cols + s.cols) :
    Touches row (row + 1) s (s'.clearCells a b) ∧ (s'.clearCells a b).dirty[row]? = some true := by
  have hs' := h.sized hs
  constructor
  · refine h.trans (clearCells_touches hs' ?_ ?_)
    · rw [h.cols]
      exact ha
    · rw [h.cols, succ_mul]
      exact le_trans (min_le_left _ _) hb
  · refine clearCells_marks hs' hab (by rw [h.rows]; exact hr) ?_ ?_
    · rw [h.cols]
      omega
    · rw [h.cols]
      omega

/-- The edges of the row are looked at last. -/
theorem effects_fixWideEdge (hs : Sized s) {row : Nat} (hr : row < s.rows)
    (h : Touches row (row + 1) s s' ∧ s'.dirty[row]? = some true) : Effects may s (s'.fixWideEdge row).noWrap := by
  have hedge := fixWideEdge_touches (h.1.sized hs) (show row < s'.rows by rw [h.1.rows]; exact hr)
  exact (effects_edits ((h.1.trans hedge).row_edits (hedge.marked _ h.2))).trans (effects_noWrap _)

/-- In the row of the cursor, cells move behind `clearWideAt`, -/
theorem copied_row (hs : Inv s) {a b d : Nat} (hab : a ≤ b) (hb : b ≤ s.cols) (hd : d + (b - a) ≤ s.cols) :
    Touches s.cursor.row (s.cursor.row + 1) s
      ((s.clearWideAt s.cursor.row s.cursor.col).copyCells (s.cursor.row * s.cols + a) (s.cursor.row * s.cols + b)
        (s.cursor.row * s.cols + d)) := by
  have hrow := hs.cursor.1
  have hend := hs.sized.row_end hrow
  have hwide := clearWideAt_touches hs.sized hrow s.cursor.col
  have hlen := hwide.grid.length
  exact hwide.trans (copyCells_touches (by omega) (by omega) (by omega) (by rw [hwide.cols]; omega)
    (by rw [hwide.cols, succ_mul]; omega))

/-- and others are cleared. -/
def edited (s : Term) (a b d x y : Nat) : Term :=
  let start := s.cursor.row * s.cols
  ((s.clearWideAt s.cursor.row s.cursor.col).copyCells (start + a) (start + b) (start + d)).clearCells (start + x) (start + y)

theorem edited_row (hs : Inv s) {a b d x y : Nat} (hab : a ≤ b) (hb : b ≤ s.cols) (hd : d + (b - a) ≤ s.cols) (hxy : x < y)
    (hy : y ≤ s.cols) : Touches s.cursor.row (s.cursor.row + 1) s (s.edited a b d x y) ∧
    (s.edited a b d x y).dirty[s.cursor.row]? = some true :=
  clear_in_row hs.sized (copied_row hs hab hb hd) hs.cursor.1 (le_add_right _ _) (by omega) (by omega)

section Chars

variable {n k : Nat}

section

variable (hs : Inv s)

include hs

theorem insertChars_eq (hk : min n (s.cols - s.cursor.col) = k) : s.insertChars n =
    ((s.edited s.cursor.col (s.cols - k) (s.cursor.col + k) s.cursor.col (s.cursor.col + k)).fixWideEdge s.cursor.row).noWrap := by
  unfold insertChars edited
  dsimp only
  rw [check_of (le_of_lt hs.cursor.2), hk, succ_mul, ← Nat.add_sub_assoc (by omega), ← add_assoc]

theorem deleteChars_eq (hk : min n (s.cols - s.cursor.col) = k) : s.deleteChars n =
    ((s.edited (s.cursor.col + k) s.cols s.cursor.col (s.cols - k) s.cols).fixWideEdge s.cursor.row).noWrap := by
  unfold deleteChars edited
  dsimp only
  rw [check_of (le_of_lt hs.cursor.2), hk, succ_mul, ← Nat.add_sub_assoc (by omega), ← add_assoc]

section

variable (hn : 1 ≤ n)

include hn

/-- Both ends are looked at before the cells are cleared. -/
theorem eraseChars_eq (hk : min n (s.cols - s.cursor.col) = k) :
    Touches s.cursor.row (s.cursor.row + 1) s
      ((s.clearWideAt s.cursor.row s.cursor.col).clearWideAt s.cursor.row (s.cursor.col + k - 1)) ∧
    s.eraseChars n = (((s.clearWideAt s.cursor.row s.cursor.col).clearWideAt s.cursor.row (s.cursor.col + k - 1)).clearCells
      (s.cursor.row * s.cols + s.cursor.col) (s.cursor.row * s.cols + s.cursor.col + k)).noWrap := by
  have hcol := hs.cursor.2
  have hfirst := clearWideAt_touches hs.sized hs.cursor.1 s.cursor.col
  constructor
  · exact hfirst.trans (clearWideAt_touches (hfirst.sized hs.sized) (by rw [hfirst.rows]; exact hs.cursor.1) _)
  · unfold eraseChars
    dsimp only
    rw [check_of (le_of_lt hcol), hk, check_of (by omega)]

theorem effects_insertChars : Effects may s (s.insertChars n) := by
  have hcol := hs.cursor.2
  rw [insertChars_eq hs rfl]
  exact effects_fixWideEdge hs.sized hs.cursor.1 (edited_row hs (by omega) (by omega) (by omega) (by omega) (by omega))

theorem effects_deleteChars : Effects may s (s.deleteChars n) := by
  have hcol := hs.cursor.2
  rw [deleteChars_eq hs rfl]
  exact effects_fixWideEdge hs.sized hs.cursor.1 (edited_row hs (by omega) (by omega) (by omega) (by omega) (by omega))

theorem effects_eraseChars : Effects may s (s.eraseChars n) := by
  have hcol := hs.cursor.2
  obtain ⟨htouches, heq⟩ := eraseChars_eq hs hn rfl
  obtain ⟨hclear, hmark⟩ := clear_in_row hs.sized htouches hs.cursor.1 (a := s.cursor.row * s.cols + s.cursor.col)
    (b := s.cursor.row * s.cols + s.cursor.col + min n (s.cols - s.cursor.col)) (by omega) (by omega) (by omega)
  rw [heq]
  exact (effects_edits (hclear.row_edits hmark)).trans (effects_noWrap _)

end

end

end Chars

theorem effects_eraseLine (hs : Inv s) (what : Nat) : Effects may s (s.eraseLine what) := by
  have hcol := hs.cursor.2
  have hrow := hs.cursor.1
  have hwide := clearWideAt_touches hs.sized hrow s.cursor.col
  unfold eraseLine
  dsimp only
  split
  · obtain ⟨hclear, hmark⟩ := clear_in_row hs.sized hwide hrow (a := s.cursor.row * s.cols + s.cursor.col)
      (b := s.cursor.row * s.cols + s.cols) (by omega) (by omega) (by omega)
    exact effects_edits (hclear.row_edits hmark)
  · obtain ⟨hclear, hmark⟩ := clear_in_row hs.sized hwide hrow (a := s.cursor.row * s.cols)
      (b := s.cursor.row * s.cols + s.cursor.col + 1) (by omega) (by omega) (by omega)
    exact effects_edits (hclear.row_edits hmark)
  · obtain ⟨hclear, hmark⟩ := clear_in_row hs.sized (Touches.refl _ _ s) hrow (a := s.cursor.row * s.cols)
      (b := s.cursor.row * s.cols + s.cols) (by omega) (by omega) (by omega)
    exact effects_edits (hclear.row_edits hmark)
  · exact .refl

/-- All cells from one position to another; every row with one of them is dirty. -/
theorem clearCells_edits (hs : Sized s) (first last : Nat) {a b : Nat} (hab : a < b) (hlo : first * s.cols ≤ a) (hhi : b ≤ last * s.cols)
    (hfirst : a < first * s.cols + s.cols) (hlast : (last - 1) * s.cols < b) (hrows : last ≤ s.rows)
    (h : Touches first last s' s) : Edits s' (s.clearCells a b) := by
  refine (h.trans (clearCells_touches hs hlo (le_trans (min_le_left _ _) hhi))).edits fun r hr hr' => ?_
  have hle : first * s.cols ≤ r * s.cols := mul_le_mul_right _ hr
  have hge : r * s.cols ≤ (last - 1) * s.cols := mul_le_mul_right _ (by omega)
  exact clearCells_marks hs hab (by omega) (by omega) (by omega)

/-- The whole grid. -/
theorem clearAll_edits (hs : Inv s) : Edits s (s.clearCells 0 s.grid.length) := by
  have hcols := hs.cols
  have hrows := hs.rows
  have hlast : (s.rows - 1) * s.cols + s.cols = s.grid.length := by
    rw [← succ_mul, hs.grid, mul_comm s.cols]
    congr 1
    omega
  refine clearCells_edits hs.sized 0 s.rows (by omega) (by omega) ?_ (by omega) (by omega) le_rfl
    (Touches.refl _ _ s)
  rw [hs.grid, mul_comm]

theorem effects_eraseDisplay (hs : Inv s) {what : Nat} (hmay : what = 3 → may .clearScrollback) :
    Effects may s (s.eraseDisplay what) := by
  have hcol := hs.cursor.2
  have hrow := hs.cursor.1
  have hend := hs.sized.row_end hrow
  have hwide := clearWideAt_touches hs.sized hrow s.cursor.col
  have hsized := hwide.sized hs.sized
  unfold eraseDisplay
  dsimp only
  split
  · have hlast : (s.rows - 1) * s.cols + s.cols = s.grid.length := by
      rw [← succ_mul, hs.grid, mul_comm s.cols]
      congr 1
      omega
    refine effects_edits (clearCells_edits hsized s.cursor.row s.rows (by omega) ?_ ?_ ?_ ?_ ?_
      (hwide.mono le_rfl hrow))
    · rw [hwide.cols]
      omega
    · rw [hwide.cols, hs.grid, mul_comm]
    · rw [hwide.cols]
      omega
    · rw [hwide.cols]
      omega
    · rw [hwide.rows]
  · refine effects_edits (clearCells_edits hsized 0 (s.cursor.row + 1) (by omega) (by omega) ?_ ?_ ?_ ?_
      (hwide.mono (zero_le _) (le_refl _)))
    · rw [hwide.cols, succ_mul]
      omega
    · rw [hwide.cols]
      omega
    · rw [hwide.cols, Nat.add_sub_cancel]
      omega
    · rw [hwide.rows]
      exact hrow
  · exact effects_edits (clearAll_edits hs)
  · exact .single (.clearScrollback (hmay rfl))
  · exact .refl

theorem effects_insertLines (hs : Inv s) (n : Nat) : Effects may s (s.insertLines n) := by
  have hcols := hs.cols
  unfold insertLines
  split
  · rename_i hregion
    have hin := of_decide_eq_true hregion
    have hdown := scrollDownRegion_edits hs.sized hs.margins.2 hin.2 n
    exact ((effects_edits hdown).trans (effects_setCol (by rw [hdown.cols]; omega))).trans (effects_noWrap _)
  · exact .refl

theorem effects_deleteLines (hs : Inv s) (n : Nat) : Effects may s (s.deleteLines n) := by
  have hcols := hs.cols
  unfold deleteLines
  split
  · rename_i hregion
    have hin := of_decide_eq_true hregion
    dsimp only
    rw [check_of (le_succ_of_le hin.2)]
    have hup := rowsUp_edits hs.sized hs.margins.2 (min_le_right n (s.bottom + 1 - s.cursor.row)) hin.2
    exact ((effects_edits hup).trans (effects_setCol (by rw [hup.cols]; omega))).trans (effects_noWrap _)
  · exact .refl

theorem all_marked {dirty : List Bool} {r : Nat} (h : r < dirty.length) : (dirty.map fun _ => true)[r]? = some true := by
  rw [getElem?_map, getElem?_eq_getElem h]
  rfl

theorem markAllDirty_edits (hs : Sized s) {grid : List Cell} (hgrid : grid.length = s.grid.length) :
    Edits s { s with grid := grid }.markAllDirty := by
  refine ⟨rfl, hgrid, length_map .., fun r hr => ?_, fun r c hr _ _ => all_marked (by rw [hs.dirty]; exact hr), .inl rfl⟩
  have hlen : r < s.dirty.length := by
    by_contra hge
    rw [getElem?_eq_none (by omega)] at hr
    cases hr
  exact all_marked hlen

/-! ### Tabs, margins and modes -/

theorem effects_tabForward (hs : Inv s) (n : Nat) : Effects may s (s.tabForward n) := by
  have htabs := hs.tabs
  unfold tabForward
  rw [check_of (by omega)]
  refine Relation.ReflTransGen.trans (effects_foldl (fun t ht => effects_setCol ?_) hs _) (effects_noWrap _)
  have := ht.cols
  omega

theorem previousTab_le (s : Term) (col : Nat) : s.previousTab col ≤ col := by
  induction col with
  | zero => exact le_refl _
  | succ col ih =>
    unfold previousTab
    split
    · exact le_succ _
    · exact le_succ_of_le ih

theorem effects_tabBackward (hs : Inv s) (n : Nat) : Effects may s (s.tabBackward n) := by
  have htabs := hs.tabs
  have hcol := hs.cursor.2
  unfold tabBackward
  rw [check_of (by omega)]
  refine Relation.ReflTransGen.trans (effects_foldl (fun t ht => effects_setCol ?_) hs _) (effects_noWrap _)
  exact lt_of_le_of_lt (previousTab_le t _) ht.cursor.2

theorem effects_setTab (hs : Inv s) (on : Bool) : Effects may s (s.setTab s.cursor.col on) := by
  unfold setTab
  rw [check_of (by rw [hs.tabs]; exact hs.cursor.2)]
  refine effects_quiet ⟨rfl, rfl, rfl, rfl, rfl, rfl, rfl, rfl, rfl, rfl, rfl, rfl, length_set, rfl, rfl, rfl, rfl, rfl⟩

theorem effects_up (s : Term) (n : Nat) : Effects may s (s.up n) := (effects_setRow s _).trans (effects_noWrap _)

theorem effects_down (s : Term) (n : Nat) : Effects may s (s.down n) := (effects_setRow s _).trans (effects_noWrap _)

/-- A column of the screen is one after a move of the row. -/
theorem effects_firstCol (hs : Inv s) (h : Effects may s s') : Effects may s (s'.setCol 0) := by
  have hcols := (Effects.inv h hs).cols
  exact Relation.ReflTransGen.trans h (effects_setCol (by omega))

theorem param_pos (p : Parser) {index default : Nat} (h : default ≠ 0) : 1 ≤ p.param index default := by
  unfold Parser.param
  split
  · rename_i hp
    exact pos_of_ne_zero hp.2
  · exact pos_of_ne_zero h

theorem effects_setMargins (hs : Inv s) (p : Parser) : Effects may s (s.setMargins p) := by
  have hrows := hs.rows
  have hpos : 1 ≤ min (p.param 1 (s.rows % 2 ^ 32)) s.rows := by
    have : 1 ≤ p.param 1 (s.rows % 2 ^ 32) := param_pos p hs.fits.2
    omega
  unfold setMargins
  dsimp only
  rw [check_of hpos]
  split
  · rename_i horder
    -- The last row is not less than one, so nothing wrapped.
    have hmargins : p.param 0 1 - 1 < (min (p.param 1 (s.rows % 2 ^ 32)) s.rows + (2 ^ 64 - 1)) % 2 ^ 64 ∧
        (min (p.param 1 (s.rows % 2 ^ 32)) s.rows + (2 ^ 64 - 1)) % 2 ^ 64 < s.rows := by
      refine ⟨horder, ?_⟩
      omega
    have hstep : Effects may s { s with
        top := p.param 0 1 - 1
        bottom := (min (p.param 1 (s.rows % 2 ^ 32)) s.rows + (2 ^ 64 - 1)) % 2 ^ 64 } := .single (.margins _ _ hmargins)
    exact Relation.ReflTransGen.trans hstep (effects_moveTo (Effects.inv hstep hs) 0 0)
  · exact .refl

theorem effects_enterAltScreen (hs : Inv s) (clear : Bool) : Effects may s (s.enterAltScreen clear) := by
  by_cases halt : s.modes.altScreen = true
  · unfold enterAltScreen
    rw [if_pos halt]
    split
    · exact effects_edits (clearAll_edits hs)
    · exact .refl
  · exact .single (.enterAlt clear (eq_false_iff.mpr halt))

end Term

/-- What an operation is special for. -/
def Op.May : Op → Term.Special → Prop
  | .reset, .reset => True
  | .softReset, .softReset => True
  | .eraseDisplay what, .clearScrollback => what = 3
  | .privateMode mode on, .saveMain => mode = 1049 ∧ on = true
  | .privateMode mode on, .leaveAlt => on = false ∧ (mode = 47 ∨ mode = 1047 ∨ mode = 1049)
  | _, _ => False

/-- A count of characters is not zero. -/
def Op.Proper : Op → Prop
  | .insertChars n => 1 ≤ n
  | .deleteChars n => 1 ≤ n
  | .eraseChars n => 1 ≤ n
  | _ => True

namespace Term

variable {may : Special → Prop} {s : Term}

theorem effects_modes (modes : Modes) (h : modes.altScreen = s.modes.altScreen) : Effects may s { s with modes := modes } :=
  effects_quiet ⟨rfl, rfl, rfl, rfl, rfl, rfl, rfl, rfl, rfl, rfl, rfl, rfl, rfl, h, rfl, rfl, rfl, rfl⟩

/-- Another pen, or other character sets. -/
theorem effects_cursor (cursor : Cursor) (hrow : cursor.row = s.cursor.row) (hcol : cursor.col = s.cursor.col) :
    Effects may s { s with cursor := cursor } :=
  effects_quiet ⟨rfl, rfl, rfl, rfl, rfl, rfl, hrow, hcol, rfl, rfl, rfl, rfl, rfl, rfl, rfl, rfl, rfl, rfl⟩

theorem effects_mark (s : Term) {row : Nat} (h : row < s.dirty.length) : Effects may s (s.mark row) :=
  effects_edits ((mark_touches h).row_edits (mark_marks h))

theorem effects_markAllDirty (hs : Inv s) : Effects may s s.markAllDirty := effects_edits (markAllDirty_edits hs.sized rfl)

theorem effects_privateMode (hs : Inv s) {mode : Nat} {on : Bool} (hmay : ∀ k, Op.May (.privateMode mode on) k → may k) :
    Effects may s (s.privateMode mode on) := by
  unfold privateMode
  split
  · exact effects_modes _ rfl
  · have hmode : Effects may s { s with modes := { s.modes with reverseVideo := on } } := effects_modes _ rfl
    exact Relation.ReflTransGen.trans hmode (effects_markAllDirty (Effects.inv hmode hs))
  · have hmode : Effects may s { s with modes := { s.modes with origin := on } } := effects_modes _ rfl
    have horigin := Relation.ReflTransGen.trans hmode
      (effects_cursor { s.cursor with origin := on } rfl rfl)
    exact Relation.ReflTransGen.trans horigin (effects_moveTo (Effects.inv horigin hs) 0 0)
  · exact effects_modes _ rfl
  · exact effects_modes _ rfl
  · exact effects_modes _ rfl
  · have hmode : Effects may s { s with modes := { s.modes with cursorVisible := on } } := effects_modes _ rfl
    have hrow : s.cursor.row < s.dirty.length := by
      rw [hs.dirty]
      exact hs.cursor.1
    exact Relation.ReflTransGen.trans hmode (effects_mark _ hrow)
  · split
    · exact effects_enterAltScreen hs false
    · exact .single (.leaveAlt (hmay .leaveAlt ⟨eq_false_iff.mpr ‹_›, .inl rfl⟩))
  · split
    · exact effects_enterAltScreen hs true
    · rename_i hoff
      refine Relation.ReflTransGen.trans (b := if s.modes.altScreen then s.clearCells 0 s.grid.length else s) ?_
        (.single (.leaveAlt (hmay .leaveAlt ⟨eq_false_iff.mpr hoff, .inr (.inl rfl)⟩)))
      split
      · exact effects_edits (clearAll_edits hs)
      · exact .refl
  · split
    · exact .single .saveCursor
    · exact .single .restoreCursor
  · split
    · rename_i hon
      have hsave : Effects may s { s with savedMain := s.cursor } := .single (.saveMain (hmay .saveMain ⟨rfl, hon⟩))
      -- The screen is cleared again, also if it was the alternate one before.
      have henter := Relation.ReflTransGen.trans hsave (effects_enterAltScreen (Effects.inv hsave hs) true)
      exact Relation.ReflTransGen.trans henter (effects_edits (clearAll_edits (Effects.inv henter hs)))
    · rename_i hoff
      have hleave : may .leaveAlt := hmay .leaveAlt ⟨eq_false_iff.mpr hoff, .inr (.inr rfl)⟩
      exact Relation.ReflTransGen.trans (.single (.leaveAlt hleave)) (.single (.restoreMain hleave))
  all_goals exact effects_modes _ rfl

theorem effects_respond (s : Term) (text : String) : Effects may s (s.respond text) := effects_quiet (by constructor <;> rfl)

theorem effects_osc (s : Term) (bytes : Bytes) : Effects may s (s.oscDispatch bytes) := by
  unfold oscDispatch
  dsimp only
  split
  · exact effects_quiet (by constructor <;> rfl)
  split
  · exact effects_respond _ _
  · exact .refl

/-- **Every operation is a sequence of steps**, and does nothing special but what it may. -/
theorem apply_effects (hs : Inv s) {op : Op} (hproper : op.Proper) (hmay : ∀ k, op.May k → may k) :
    Effects may s (s.apply op) := by
  have hcol := hs.cursor.2
  cases op with
  | print ch => exact effects_print hs ch
  | again n => exact effects_foldl (fun t ht => effects_print ht _) hs _
  | bell => exact effects_quiet (by constructor <;> rfl)
  | backspace =>
    unfold apply
    dsimp only
    split
    · exact effects_noWrap s
    split
    · exact effects_setCol (by omega)
    · exact .refl
  | tabForward n => exact effects_tabForward hs n
  | tabBackward n => exact effects_tabBackward hs n
  | newline =>
    have hfeed : Effects may s s.lineFeed := effects_lineFeed hs
    unfold apply
    dsimp only
    split
    · exact effects_firstCol hs hfeed
    · exact hfeed
  | carriageReturn => exact Relation.ReflTransGen.trans (effects_setCol (by omega)) (effects_noWrap _)
  | shift set => exact effects_cursor _ rfl rfl
  | saveCursor => exact .single .saveCursor
  | restoreCursor => exact .single .restoreCursor
  | lineFeed => exact effects_lineFeed hs
  | nextLine =>
    have hstart : Effects may s (s.setCol 0) := effects_setCol (by omega)
    exact Relation.ReflTransGen.trans hstart (effects_lineFeed (Effects.inv hstart hs))
  | setTab => exact effects_setTab hs true
  | reverseIndex => exact effects_reverseIndex hs
  | reset => exact .single (.reset (hmay .reset trivial))
  | keypad on => exact effects_modes _ rfl
  | charset slot set => exact effects_cursor _ rfl rfl
  | align => exact effects_edits (markAllDirty_edits hs.sized (length_map ..))
  | insertChars n => exact effects_insertChars hs hproper
  | up n => exact effects_up s n
  | down n => exact effects_down s n
  | right n => exact Relation.ReflTransGen.trans (effects_setCol (by omega)) (effects_noWrap _)
  | left n => exact Relation.ReflTransGen.trans (effects_setCol (by omega)) (effects_noWrap _)
  | nextLines n => exact effects_firstCol hs (effects_down s n)
  | previousLines n => exact effects_firstCol hs (effects_up s n)
  | column n => exact Relation.ReflTransGen.trans (effects_setCol (by omega)) (effects_noWrap _)
  | position row col => exact effects_moveTo hs row col
  | eraseDisplay what => exact effects_eraseDisplay hs (fun h => hmay .clearScrollback h)
  | eraseLine what => exact effects_eraseLine hs what
  | insertLines n => exact effects_insertLines hs n
  | deleteLines n => exact effects_deleteLines hs n
  | deleteChars n => exact effects_deleteChars hs hproper
  | scrollUp n =>
    exact effects_edits (scrollUpRegion_edits hs.sized hs.margins.2 (le_of_lt hs.margins.1) hs.scrollback n)
  | scrollDown n => exact effects_edits (scrollDownRegion_edits hs.sized hs.margins.2 (le_of_lt hs.margins.1) n)
  | eraseChars n => exact effects_eraseChars hs hproper
  | rowTo n => exact effects_moveTo hs _ _
  | clearTab what =>
    unfold apply
    dsimp only
    split
    · exact effects_setTab hs false
    · exact effects_quiet ⟨rfl, rfl, rfl, rfl, rfl, rfl, rfl, rfl, rfl, rfl, rfl, rfl, length_map .., rfl, rfl, rfl, rfl, rfl⟩
    · exact .refl
  | ansiMode mode on =>
    unfold apply
    dsimp only
    split
    · exact effects_modes _ rfl
    · exact effects_modes _ rfl
    · exact .refl
  | privateMode mode on => exact effects_privateMode hs hmay
  | sgr p => exact effects_cursor _ rfl rfl
  | margins p => exact effects_setMargins hs p
  | reportPosition query => exact effects_respond _ _
  | reportSize => exact effects_respond _ _
  | respond text => exact effects_respond _ _
  | softReset => exact .single (.softReset (hmay .softReset trivial))
  | osc bytes => exact effects_osc s bytes

end Term

end HamixOS.Vt
