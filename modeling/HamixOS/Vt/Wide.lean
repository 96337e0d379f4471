import HamixOS.Vt.Bounds
import HamixOS.Vt.Rows

open HamixOS.Lib List Nat Bool

namespace HamixOS.Vt

/-!
# Wide characters

A wide character takes two cells, and every operation that writes one of them has to repair the other.  Most
do.  Those that move the rest of a row do not look at what lies across the place where the row is cut:
`cuts` says when.

* `Coupled` — on the screen and on the one that is put away, every half is next to its other half;
* `coupled_apply` — every operation that does not cut a wide character keeps it so;
* `wide_paired` — so is every screen reached;
* `insert_cuts` — `ESC [ @` in front of a wide character.
-/

namespace Term

variable {s s' : Term} {row r n : Nat}

/-- In every row, a cell is wide if and only if the next cell is a spacer. -/
def Paired (s : Term) : Prop :=
  ∀ r < s.rows, (s.cellAt (r * s.cols)).spacer = false ∧ (s.cellAt (r * s.cols + s.cols - 1)).wide = false ∧
    ∀ c, c + 1 < s.cols → (s.cellAt (r * s.cols + c)).wide = (s.cellAt (r * s.cols + c + 1)).spacer

/-! ### Where a wide character is cut -/

/-- A cell of the row of the cursor. -/
def cellIn (col : Nat) (s : Term) : Cell := s.cellAt (s.cursor.row * s.cols + col)

/-- `ICH` moves one half of the character that the cursor is on. -/
def insertCuts (n : Nat) (s : Term) : Bool :=
  let col := s.cursor.col
  let n := min n (s.cols - col)
  ((s.cellIn col).spacer ∧ col + n < s.cols) ∨ ((s.cellIn col).wide ∧ col + n + 1 < s.cols)

/-- `DCH` deletes the first half of a character and keeps the second. -/
def deleteCuts (n : Nat) (s : Term) : Bool :=
  let col := s.cursor.col
  let n := min n (s.cols - col)
  1 < n ∧ 0 < col ∧ col + n < s.cols ∧ (s.cellIn (col + n)).spacer

/-- In the last column, a second half is blanked before a wide character goes to the next row. -/
def wrapCuts (width : Nat) (s : Term) : Bool :=
  width = 2 ∧ s.cols ≤ s.cursor.col + 1 ∧ s.modes.autowrap ∧ (s.cellIn s.cursor.col).spacer

/-- In insert mode, the row moves from the second half of a character on, or between two copies of its
    first half, or over the end between the two. -/
def roomCuts (width : Nat) (s : Term) : Bool :=
  let col := s.cursor.col
  s.modes.insert ∧ col + width < s.cols ∧
    ((s.cellIn col).spacer ∨ (width = 1 ∧ (s.cellIn col).wide ∧ col + 2 < s.cols) ∨
      ((s.cellIn (s.cols - 1 - width)).wide ∧ ¬ (width = 1 ∧ s.cols - 1 - width = col)))

def printCuts (ch : Char) (s : Term) : Bool :=
  let ch := s.translate ch
  let width := charWidth ch
  let s := { s with lastChar := ch }.wrapPending
  width ≠ 0 ∧ (s.wrapCuts width ∨ (s.wrapWide width).roomCuts width)

end Term

/-- The operation leaves half a wide character behind. -/
def Op.cuts : Op → Term → Bool
  | .print ch, s => s.printCuts ch
  | .again n, s => (List.range n).any fun i => ((List.range i).foldl (fun t _ => t.print s.lastChar) s).printCuts s.lastChar
  | .insertChars n, s => s.insertCuts n
  | .deleteChars n, s => s.deleteCuts n
  | _, _ => false

/-- One of the operations does, in the state that it is performed in. -/
def opsCut : List Op → Term → Bool
  | [], _ => false
  | op :: ops, s => op.cuts s || opsCut ops (s.apply op)

namespace Term

variable {s s' : Term} {row r n : Nat}

/-! ### Screens -/

/-- Every half is next to its other half, on the screen and on the one that is put away. -/
structure Coupled (s : Term) : Prop where
  rows : ∀ r < s.rows, Half.Whole (s.halves r)
  saved : ∀ saved, s.savedScreen = some saved → ∀ r < s.rows, Half.Whole (halvesOf s.cols saved r)

namespace Coupled

section

variable (h : Coupled s)

include h

theorem paired (hcols : 2 ≤ s.cols) : Paired s := by
  intro r hr
  obtain ⟨hfirst, hpairs, -⟩ := h.rows r hr
  refine ⟨?_, ?_, fun c hc => ?_⟩
  · rw [halves_at s r (by omega)] at hfirst
    exact hfirst
  · have hlast := hpairs (s.cols - 1)
    rw [halves_at s r (by omega), halves_ends s r _ (by omega), ← Nat.add_sub_assoc (by omega)] at hlast
    exact hlast
  · have hpair := hpairs c
    rw [halves_at s r (by omega), halves_at s r hc] at hpair
    exact hpair

/-- The cells are the same ones. -/
theorem of_eq (hcols : s'.cols = s.cols) (hrows : s'.rows = s.rows) (hgrid : s'.grid = s.grid)
    (hsaved : s'.savedScreen = s.savedScreen) : Coupled s' := by
  refine ⟨fun r hr => ?_, fun saved hscreen r hr => ?_⟩
  · unfold halves
    rw [hcols, hgrid]
    exact h.rows r (hrows ▸ hr)
  · rw [hcols]
    exact h.saved saved (hsaved ▸ hscreen) r (hrows ▸ hr)

theorem of_rows (hcols : s'.cols = s.cols) (hrows : s'.rows = s.rows) (hsaved : s'.savedScreen = s.savedScreen)
    (hwhole : ∀ r < s.rows, Half.Whole (s'.halves r)) : Coupled s' := by
  refine ⟨fun r hr => hwhole r (hrows ▸ hr), fun saved hscreen r hr => ?_⟩
  rw [hcols]
  exact h.saved saved (hsaved ▸ hscreen) r (hrows ▸ hr)

theorem of_edits (he : Edits s s') (hwhole : ∀ r < s.rows, Half.Whole (s'.halves r)) : Coupled s' :=
  h.of_rows he.cols he.rows (by rw [he.frame]) hwhole

theorem of_touches {first last : Nat} (ht : Touches first last s s')
    (hwhole : ∀ r < s.rows, Half.Whole (s'.halves r)) : Coupled s' :=
  h.of_rows ht.cols ht.rows (by rw [ht.frame]) hwhole

theorem check (ok : Prop) [Decidable ok] : Coupled (s.check ok) := h.of_eq rfl rfl rfl rfl

theorem mark (row : Nat) : Coupled (s.mark row) := h.of_eq rfl rfl rfl rfl

theorem setCol (col : Nat) : Coupled (s.setCol col) := h.of_eq rfl rfl rfl rfl

theorem noWrap : Coupled s.noWrap := h.of_eq rfl rfl rfl rfl

theorem modes (modes : Modes) : Coupled { s with modes := modes } := h.of_eq rfl rfl rfl rfl

theorem cursor (cursor : Cursor) : Coupled { s with cursor := cursor } := h.of_eq rfl rfl rfl rfl

theorem setRow (row : Nat) : Coupled (s.setRow row) := by
  have hleft := (h.mark s.cursor.row).check (1 ≤ s.rows)
  unfold Term.setRow
  generalize (s.mark s.cursor.row).check (1 ≤ s.rows) = t at hleft
  refine Coupled.mark ?_ _
  exact hleft.of_eq rfl rfl rfl rfl

theorem moveTo (row col : Nat) : Coupled (s.moveTo row col) := by
  exact (((h.check _).setRow _).setCol _).noWrap

theorem respond (text : String) : Coupled (s.respond text) := h.of_eq rfl rfl rfl rfl

theorem markAllDirty : Coupled s.markAllDirty := h.of_eq rfl rfl rfl rfl

/-- One row was written. -/
theorem in_row (ht : Touches row (row + 1) s s') (hrow : Half.Whole (s'.halves row)) : Coupled s' := by
  refine h.of_touches ht fun r hr => ?_
  by_cases heq : r = row
  · rw [heq]
    exact hrow
  · rw [ht.halves (by omega)]
    exact h.rows r hr

end

end Coupled

/-! ### Rows that move -/

variable {top bottom : Nat}

/-- Rows of a region are cleared behind a copy that leaves every row whole. -/
theorem whole_moved {t : Term} (hs : Sized s) (hcopy : Touches top bottom s t) (a b : Nat) (hr : r < s.rows)
    (hrow : Half.Whole (t.halves r)) : Half.Whole (((t.clearCells (a * t.cols) (b * t.cols)).markRows top bottom).halves r) := by
  rw [halves_markRows, halves_clearRows (hcopy.sized hs) (by rw [hcopy.rows]; exact hr)]
  split
  · exact Half.whole_plain
  · exact hrow

theorem coupled_rowsUp (hs : Sized s) (h : Coupled s) (hb : bottom < s.rows) (hn : n ≤ bottom + 1 - top)
    (ht : top ≤ bottom) : Coupled (s.rowsUp top bottom n) := by
  refine h.of_edits (rowsUp_edits hs hb hn ht) fun r hr => ?_
  refine whole_moved hs (copied_up hs hb hn ht) _ _ hr ?_
  rw [halves_copyRows hs hr (by omega) (by omega)]
  split
  · exact h.rows _ (by omega)
  · exact h.rows r hr

theorem coupled_rowsDown (hs : Sized s) (h : Coupled s) (hb : bottom < s.rows) (hn : n ≤ bottom + 1 - top)
    (ht : top ≤ bottom) : Coupled (s.rowsDown top bottom n) := by
  refine h.of_edits (rowsDown_edits hs hb hn ht) fun r hr => ?_
  refine whole_moved hs (copied_down hs hb hn ht) _ _ hr ?_
  rw [halves_copyRows hs hr (by omega) (by omega)]
  split
  · exact h.rows _ (by omega)
  · exact h.rows r hr

theorem coupled_scrollOut (h : Coupled s) (top bottom n : Nat) : Coupled (s.scrollOut top bottom n) := by
  unfold scrollOut
  split
  · exact h.of_eq rfl rfl rfl rfl
  · exact h

theorem coupled_scrollUp (hs : Inv s) (h : Coupled s) (n : Nat) : Coupled (s.scrollUpRegion s.top s.bottom n) := by
  have hmargins := hs.margins
  have hn : min n (s.bottom + 1 - s.top) ≤ s.bottom + 1 - s.top := min_le_right _ _
  have hout := scrollOut_edits hs.sized hmargins.2 hn hs.scrollback
  unfold scrollUpRegion
  dsimp only
  rw [check_of (by omega)]
  split
  · exact h
  · exact coupled_rowsUp (hout.sized hs.sized) (coupled_scrollOut h _ _ _) (by rw [hout.rows]; exact hmargins.2) hn (by omega)

theorem coupled_scrollDown (hs : Sized s) (h : Coupled s) (hb : bottom < s.rows) (ht : top ≤ bottom) (n : Nat) :
    Coupled (s.scrollDownRegion top bottom n) := by
  unfold scrollDownRegion
  dsimp only
  rw [check_of (by omega)]
  split
  · exact h
  · exact coupled_rowsDown hs h hb (min_le_right _ _) ht

theorem coupled_lineFeed (hs : Inv s) (h : Coupled s) : Coupled s.lineFeed := by
  have hn : Inv s.noWrap := (same_noWrap s).inv hs
  have hc : Coupled s.noWrap := h.of_eq rfl rfl rfl rfl
  unfold lineFeed
  dsimp only
  split
  · exact coupled_scrollUp hn hc 1
  split
  · exact hc.setRow _
  · exact hc

theorem coupled_reverseIndex (hs : Inv s) (h : Coupled s) : Coupled s.reverseIndex := by
  have hn : Inv s.noWrap := (same_noWrap s).inv hs
  have hc : Coupled s.noWrap := h.of_eq rfl rfl rfl rfl
  unfold reverseIndex
  dsimp only
  split
  · exact coupled_scrollDown hn.sized hc hn.margins.2 (le_of_lt hn.margins.1) 1
  split
  · exact hc.setRow _
  · exact hc

theorem coupled_insertLines (hs : Inv s) (h : Coupled s) (n : Nat) : Coupled (s.insertLines n) := by
  unfold insertLines
  split
  · rename_i hregion
    have hin := of_decide_eq_true hregion
    have hdown := coupled_scrollDown hs.sized h hs.margins.2 hin.2 n
    generalize s.scrollDownRegion s.cursor.row s.bottom n = t at hdown
    exact hdown.of_eq rfl rfl rfl rfl
  · exact h

theorem coupled_deleteLines (hs : Inv s) (h : Coupled s) (n : Nat) : Coupled (s.deleteLines n) := by
  unfold deleteLines
  split
  · rename_i hregion
    have hin := of_decide_eq_true hregion
    dsimp only
    rw [check_of (le_succ_of_le hin.2)]
    have hup := coupled_rowsUp hs.sized h hs.margins.2 (min_le_right n (s.bottom + 1 - s.cursor.row)) hin.2
    generalize s.rowsUp s.cursor.row s.bottom (min n (s.bottom + 1 - s.cursor.row)) = t at hup
    exact hup.of_eq rfl rfl rfl rfl
  · exact h

/-! ### Cells that are cleared -/

/-- A part of a row, behind other writes to that row. -/
theorem halves_clearIn (hs : Sized s) (ht : Touches row (row + 1) s s') (hr : row < s.rows) (a b : Nat) :
    (s'.clearCells (row * s.cols + a) (row * s.cols + b)).halves row = Half.blank a b (s'.halves row) := by
  rw [halves_clearCells (ht.sized hs) (by rw [ht.rows]; exact hr), ht.cols, Nat.add_sub_cancel_left, Nat.add_sub_cancel_left]

/-- Around the cursor, when the other half of its cell is given up. -/
theorem Coupled.around (h : Coupled s) (hs : Inv s) :
    Half.Around s.cursor.col (s.cursor.col + 1) ((s.clearWideAt s.cursor.row s.cursor.col).halves s.cursor.row) := by
  rw [halves_clearWideAt hs.sized hs.cursor.1]
  exact (h.rows _ hs.cursor.1).around _

theorem coupled_eraseLine (hs : Inv s) (h : Coupled s) (what : Nat) : Coupled (s.eraseLine what) := by
  have hcol := hs.cursor.2
  have hrow := hs.cursor.1
  have hwide := clearWideAt_touches hs.sized hrow s.cursor.col
  have haround := h.around hs
  have hends := halves_ends (s.clearWideAt s.cursor.row s.cursor.col) s.cursor.row
  rw [hwide.cols] at hends
  unfold eraseLine
  dsimp only
  split
  · refine h.in_row (clear_in_row hs.sized hwide hrow (le_add_right _ _) (by omega) (le_refl _)).1 ?_
    rw [halves_clearIn hs.sized hwide hrow]
    exact (haround.toEnd hends).blank hcol
  · refine h.in_row (clear_in_row hs.sized hwide hrow (le_refl _) (by omega) (by omega)).1 ?_
    have hclear := halves_clearIn hs.sized hwide hrow 0 (s.cursor.col + 1)
    rw [add_zero, ← add_assoc] at hclear
    rw [hclear]
    exact haround.toStart.blank (succ_pos _)
  · refine h.in_row (clear_in_row hs.sized (Touches.refl _ _ s) hrow (le_refl _) (by omega) (le_refl _)).1 ?_
    have hclear := halves_clearIn hs.sized (Touches.refl _ _ s) hrow 0 s.cols
    rw [add_zero] at hclear
    rw [hclear, (halves_ends s s.cursor.row).blank_all (le_refl _)]
    exact Half.whole_plain
  · exact h

theorem coupled_eraseChars (hs : Inv s) (h : Coupled s) {n : Nat} (hn : 1 ≤ n) : Coupled (s.eraseChars n) := by
  have hcol := hs.cursor.2
  have hrow := hs.cursor.1
  have hfirst := clearWideAt_touches hs.sized hrow s.cursor.col
  generalize hk : min n (s.cols - s.cursor.col) = k
  obtain ⟨hboth, heq⟩ := eraseChars_eq hs hn hk
  rw [heq]
  refine Coupled.of_eq (h.in_row (clear_in_row hs.sized hboth hrow (by omega) (by omega) (by omega)).1 ?_) rfl rfl rfl rfl
  rw [add_assoc, halves_clearIn hs.sized hboth hrow, halves_clearWideAt (hfirst.sized hs.sized) (by rw [hfirst.rows]; exact hrow)]
  -- No character reaches into the cells that are cleared.
  refine Half.Around.blank ?_ (by omega)
  by_cases hone : k = 1
  · -- The same cell is looked at twice.
    rw [hone, Nat.add_sub_cancel, halves_clearWideAt hs.sized hrow, Half.clearAt_clearAt]
    exact (h.rows _ hrow).around _
  · have hgrown := (h.around hs).clearAt (lt_succ_self _) (show s.cursor.col + 1 ≤ s.cursor.col + k - 1 by omega)
    rw [Nat.sub_add_cancel (by omega)] at hgrown
    exact hgrown

/-- The whole screen. -/
theorem coupled_clearAll (hs : Inv s) (h : Coupled s) : Coupled (s.clearCells 0 s.grid.length) := by
  refine h.of_edits (clearAll_edits hs) fun r hr => ?_
  have hend := hs.sized.row_end hr
  rw [halves_clearCells hs.sized hr, Nat.zero_sub, (halves_ends s r).blank_all (by omega)]
  exact Half.whole_plain

theorem coupled_eraseDisplay (hs : Inv s) (h : Coupled s) (what : Nat) : Coupled (s.eraseDisplay what) := by
  have hcol := hs.cursor.2
  have hrow := hs.cursor.1
  have hwide := clearWideAt_touches hs.sized hrow s.cursor.col
  have hsized := hwide.sized hs.sized
  have haround := h.around hs
  have hends (r : Nat) : Half.Ends s.cols ((s.clearWideAt s.cursor.row s.cursor.col).halves r) := by
    have hends := halves_ends (s.clearWideAt s.cursor.row s.cursor.col) r
    rw [hwide.cols] at hends
    exact hends
  have hother (r : Nat) (hr : r < s.rows) (hne : r ≠ s.cursor.row) :
      Half.Whole ((s.clearWideAt s.cursor.row s.cursor.col).halves r) := by
    rw [hwide.halves (by omega)]
    exact h.rows r hr
  have hcells (a b : Nat) : Touches 0 s.rows s ((s.clearWideAt s.cursor.row s.cursor.col).clearCells a b) := by
    refine (hwide.mono (zero_le _) hrow).trans (clearCells_touches hsized (by omega) (le_trans (min_le_right _ _) ?_))
    rw [hsized.grid, hwide.cols, hwide.rows, mul_comm]
  have hblank (a b r : Nat) (hr : r < s.rows) : ((s.clearWideAt s.cursor.row s.cursor.col).clearCells a b).halves r =
      Half.blank (a - r * s.cols) (b - r * s.cols) ((s.clearWideAt s.cursor.row s.cursor.col).halves r) := by
    rw [halves_clearCells hsized (by rw [hwide.rows]; exact hr), hwide.cols]
  unfold eraseDisplay
  dsimp only
  split
  · refine h.of_touches (hcells _ _) fun r hr => ?_
    have hend := hs.sized.row_end hr
    rw [hblank _ _ r hr]
    rcases lt_trichotomy r s.cursor.row with hlt | rfl | hgt
    · have hle := mul_le_mul_right s.cols (succ_le_of_lt hlt)
      rw [succ_mul] at hle
      rw [(hends r).blank_none (.inl (by omega))]
      exact hother r hr (Nat.ne_of_lt hlt)
    · rw [Nat.add_sub_cancel_left, (hends _).blank_toEnd (by omega)]
      exact (haround.toEnd (hends _)).blank hcol
    · have hle := mul_le_mul_right s.cols (succ_le_of_lt hgt)
      rw [succ_mul] at hle
      rw [show s.cursor.row * s.cols + s.cursor.col - r * s.cols = 0 by omega, (hends r).blank_all (by omega)]
      exact Half.whole_plain
  · refine h.of_touches (hcells _ _) fun r hr => ?_
    rw [hblank _ _ r hr, Nat.zero_sub]
    rcases lt_trichotomy r s.cursor.row with hlt | rfl | hgt
    · have hle := mul_le_mul_right s.cols (succ_le_of_lt hlt)
      rw [succ_mul] at hle
      rw [(hends r).blank_all (by omega)]
      exact Half.whole_plain
    · rw [add_assoc, Nat.add_sub_cancel_left]
      exact haround.toStart.blank (succ_pos _)
    · have hle := mul_le_mul_right s.cols (succ_le_of_lt hgt)
      rw [succ_mul] at hle
      rw [(hends r).blank_none (.inr (by omega))]
      exact hother r hr (ne_of_gt hgt)
  · exact coupled_clearAll hs h
  · exact h.of_eq rfl rfl rfl rfl
  · exact h

/-! ### Cells that move inside of a row -/

theorem halves_cellIn {col : Nat} (hc : col < s.cols) : s.halves s.cursor.row col = (s.cellIn col).half :=
  halves_at s s.cursor.row hc

/-- The row of the cursor after a copy, a clear and a look at its edges, behind `clearWideAt`. -/
theorem halves_edited (hs : Inv s) {a b d x y : Nat} (hab : a ≤ b) (hb : b ≤ s.cols) (hd : d + (b - a) ≤ s.cols)
    (hxy : x < y) (hy : y ≤ s.cols) :
    Touches s.cursor.row (s.cursor.row + 1) s ((s.edited a b d x y).fixWideEdge s.cursor.row) ∧
    ((s.edited a b d x y).fixWideEdge s.cursor.row).halves s.cursor.row =
      Half.mend s.cols (Half.blank x y (Half.copy a b d (Half.clearAt s.cursor.col (s.halves s.cursor.row)))) := by
  have hrow := hs.cursor.1
  have hcopy := copied_row hs hab hb hd
  have hclear := (edited_row hs hab hb hd hxy hy).1
  have hwide := clearWideAt_touches hs.sized hrow s.cursor.col
  have hhalves := halves_clearWideAt hs.sized hrow s.cursor.col
  unfold edited at hclear ⊢
  dsimp only at hclear ⊢
  generalize s.clearWideAt s.cursor.row s.cursor.col = t at hcopy hclear hwide hhalves
  have hcols : t.cols = s.cols := hwide.cols
  have hcopied := halves_copyCells (hwide.sized hs.sized) (show s.cursor.row < t.rows by rw [hwide.rows]; exact hrow) hab
    (by rw [hcols]; exact hb) (show d + (b - a) ≤ t.cols by rw [hcols]; exact hd)
  rw [hcols] at hcopied
  have hcleared := halves_clearIn hs.sized hcopy hrow x y
  generalize t.copyCells (s.cursor.row * s.cols + a) (s.cursor.row * s.cols + b) (s.cursor.row * s.cols + d) = u
    at hcopied hclear hcleared
  generalize u.clearCells (s.cursor.row * s.cols + x) (s.cursor.row * s.cols + y) = v at hclear hcleared
  have hedge : s.cursor.row < v.rows := by rw [hclear.rows]; exact hrow
  have hmend := halves_fixWideEdge (hclear.sized hs.sized) hedge
  rw [hclear.cols] at hmend
  refine ⟨hclear.trans (fixWideEdge_touches (hclear.sized hs.sized) hedge), ?_⟩
  rw [hmend, hcleared, hcopied, hhalves]

theorem coupled_insertChars (hs : Inv s) (h : Coupled s) {n : Nat} (hn : 1 ≤ n) (hcut : s.insertCuts n = false) :
    Coupled (s.insertChars n) := by
  have hcol := hs.cursor.2
  have hwhole := h.rows _ hs.cursor.1
  have hends := halves_ends s s.cursor.row
  have hkeep := of_decide_eq_false hcut
  have hcell := halves_cellIn hcol
  generalize hk : min n (s.cols - s.cursor.col) = k at hkeep
  rw [insertChars_eq hs hk]
  obtain ⟨htouches, hhalves⟩ := halves_edited hs (b := s.cols - k) (a := s.cursor.col) (d := s.cursor.col + k) (x := s.cursor.col)
    (y := s.cursor.col + k) (by omega) (by omega) (by omega) (by omega) (by omega)
  refine (h.in_row htouches ?_).of_eq rfl rfl rfl rfl
  rw [hhalves]
  refine hwhole.insert hends (by omega) (by omega) (fun hright => ?_) fun hleft => ?_
  · rw [hcell] at hright
    by_contra hlt
    exact hkeep (.inl ⟨hright, by omega⟩)
  · rw [hcell] at hleft
    by_contra hlt
    exact hkeep (.inr ⟨hleft, by omega⟩)

theorem coupled_deleteChars (hs : Inv s) (h : Coupled s) {n : Nat} (hn : 1 ≤ n) (hcut : s.deleteCuts n = false) :
    Coupled (s.deleteChars n) := by
  have hcol := hs.cursor.2
  have hwhole := h.rows _ hs.cursor.1
  have hends := halves_ends s s.cursor.row
  have hkeep := of_decide_eq_false hcut
  generalize hk : min n (s.cols - s.cursor.col) = k at hkeep
  rw [deleteChars_eq hs hk]
  obtain ⟨htouches, hhalves⟩ := halves_edited hs (b := s.cols) (a := s.cursor.col + k) (d := s.cursor.col) (x := s.cols - k)
    (y := s.cols) (by omega) (by omega) (by omega) (by omega) (by omega)
  refine (h.in_row htouches ?_).of_eq rfl rfl rfl rfl
  rw [hhalves]
  refine hwhole.delete hends (by omega) (by omega) fun hright => ?_
  by_contra hlost
  -- Behind the end of the row there is no spacer.
  have hin : s.cursor.col + k < s.cols := by
    by_contra hout
    rw [hends _ (by omega)] at hright
    exact nomatch hright
  rw [halves_cellIn hin] at hright
  exact hkeep ⟨by omega, by omega, hin, hright⟩

/-! ### Printing -/

theorem halves_write (hs : Sized s) (hr : s.cursor.row < s.rows) (ch : Char) {w : Nat} (hw : w = 1 ∨ w = 2)
    (hfit : s.cursor.col + w ≤ s.cols) :
    (s.write ch w).halves s.cursor.row = Half.place s.cursor.col w (s.halves s.cursor.row) := by
  have hpen : (s.penCell ch).half = .plain := half_halved s.cursor.pen
  unfold write
  rcases hw with rfl | rfl
  · rw [if_neg (by decide), halves_put hs hr (by omega), hpen]
    funext c
    unfold Half.place
    rw [if_neg (fun h => absurd h.1 (by decide)), if_neg (fun h => absurd h.1 (by decide)), Function.update_apply]
  · have hfirst := put_row hs hr (show s.cursor.col < s.cols by omega)
      { s.penCell ch with flags := (s.penCell ch).flags ||| WIDE }
    have hsecond := halves_put (hfirst.sized hs) (show s.cursor.row < Term.rows _ by rw [hfirst.rows]; exact hr)
      (show s.cursor.col + 1 < Term.cols _ by rw [hfirst.cols]; omega)
    rw [hfirst.cols, halves_put hs hr (by omega), half_wide hpen, ← add_assoc] at hsecond
    rw [if_pos rfl, hsecond, show Cell.half _ = _ from half_spacer { s.penCell ch with flags := (s.penCell ch).flags ||| WIDE }]
    funext c
    unfold Half.place
    by_cases hnext : c = s.cursor.col + 1
    · rw [hnext, Function.update_self, if_neg (by omega), if_pos ⟨rfl, rfl⟩]
    · rw [Function.update_of_ne hnext]
      by_cases hself : c = s.cursor.col
      · rw [hself, Function.update_self, if_pos ⟨rfl, rfl⟩]
      · rw [Function.update_of_ne hself, if_neg (fun h => hself h.2), if_neg (fun h => hnext h.2), if_neg hself]

theorem halves_openCells (hs : Sized s) (hr : s.cursor.row < s.rows) (w : Nat) :
    (s.openCells w).halves s.cursor.row = Half.opened s.cursor.col w (s.halves s.cursor.row) := by
  have hfirst := clearWideAt_touches hs hr s.cursor.col
  unfold openCells Half.opened
  dsimp only
  split
  · rw [hfirst.cursor, halves_clearWideAt (hfirst.sized hs) (by rw [hfirst.rows]; exact hr), halves_clearWideAt hs hr]
  · exact halves_clearWideAt hs hr _

section

variable (hs : Inv s)

include hs

/-- **A character is put** into a row that it does not cut. -/
theorem coupled_stamp (h : Coupled s) (ch : Char) {w : Nat} (hw : w = 1 ∨ w = 2) (hfit : s.cursor.col + w ≤ s.cols)
    (hcut : s.roomCuts w = false) : Coupled (s.stamp ch w) := by
  have hrow := hs.cursor.1
  have hwhole := h.rows _ hrow
  have hkeep := of_decide_eq_false hcut
  have hroom := makeRoom_touches hs hfit
  have hopen := openCells_touches (hroom.sized hs.sized) (by rw [hroom.cursor, hroom.rows]; exact hrow) w
  rw [hroom.cursor] at hopen
  have hboth := hroom.trans hopen
  have hwrite := write_touches (hboth.sized hs.sized) (by rw [hboth.cursor, hboth.rows]; exact hrow) ch (show 1 ≤ w by omega)
    (by rw [hboth.cursor, hboth.cols]; exact hfit)
  rw [hboth.cursor] at hwrite
  have hopened := halves_openCells (hroom.sized hs.sized) (by rw [hroom.cursor, hroom.rows]; exact hrow) w
  rw [hroom.cursor] at hopened
  have hwritten := halves_write (hboth.sized hs.sized) (by rw [hboth.cursor, hboth.rows]; exact hrow) ch hw
    (by rw [hboth.cursor, hboth.cols]; exact hfit)
  rw [hboth.cursor, hopened] at hwritten
  refine (h.in_row (hboth.trans hwrite) ?_).of_eq rfl rfl rfl rfl
  rw [hwritten]
  by_cases hmove : s.modes.insert = true ∧ s.cursor.col + w < s.cols
  · -- The rest of the row moves first.
    have hmoved : (s.makeRoom w).halves s.cursor.row =
        Half.copy s.cursor.col (s.cols - w) (s.cursor.col + w) (s.halves s.cursor.row) := by
      have hcopy := halves_copyCells hs.sized hrow (show s.cursor.col ≤ s.cols - w by omega) (sub_le _ _)
        (show s.cursor.col + w + (s.cols - w - s.cursor.col) ≤ s.cols by omega)
      unfold makeRoom
      dsimp only
      rw [if_pos hmove.1, if_pos (by omega), Nat.add_sub_assoc (by omega), add_assoc]
      exact hcopy
    rw [hmoved]
    refine hwhole.place_moved (halves_ends s s.cursor.row) hw hmove.2 ?_ (fun hone hleft => ?_) fun hlast => ?_
    · by_contra hright
      rw [halves_cellIn hs.cursor.2] at hright
      exact hkeep ⟨hmove.1, hmove.2, .inl (of_not_eq_false hright)⟩
    · by_contra hmore
      rw [halves_cellIn hs.cursor.2] at hleft
      exact hkeep ⟨hmove.1, hmove.2, .inr (.inl ⟨hone, hleft, by omega⟩)⟩
    · by_contra hother
      rw [halves_cellIn (by omega)] at hlast
      exact hkeep ⟨hmove.1, hmove.2, .inr (.inr ⟨hlast, hother⟩)⟩
  · -- There is no room to be made, or it is not asked for.
    have hstill : s.makeRoom w = s := by
      unfold makeRoom
      dsimp only
      split
      · rename_i hinsert
        exact if_neg fun hlt => hmove ⟨hinsert, by omega⟩
      · rfl
    rw [hstill]
    exact hwhole.place _ hw

theorem lineFeed_col : s.lineFeed.cursor.col = s.cursor.col := by
  have hn : Inv s.noWrap := (same_noWrap s).inv hs
  unfold lineFeed
  dsimp only
  split
  · have hscroll := scrollUpRegion_edits hn.sized hn.margins.2 (le_of_lt hn.margins.1) hn.scrollback 1
    rw [hscroll.frame]
    rfl
  split
  · rfl
  · rfl

theorem coupled_wrapPending (h : Coupled s) : Coupled s.wrapPending := by
  have hcols := hs.cols
  have hstart : Inv (s.setCol 0) := { hs with cursor := ⟨hs.cursor.1, by show 0 < s.cols; omega⟩ }
  unfold wrapPending
  split
  · dsimp only
    split
    · have hfeed := coupled_lineFeed hstart (h.of_eq rfl rfl rfl rfl)
      generalize (s.setCol 0).lineFeed = t at hfeed
      exact hfeed.of_eq rfl rfl rfl rfl
    · exact h.of_eq rfl rfl rfl rfl
  · exact h

/-- The character fits where it goes, and the blank that is left behind is no half of a character. -/
theorem coupled_wrapWide (h : Coupled s) {w : Nat} (hw : w = 1 ∨ w = 2) (hcut : s.wrapCuts w = false) :
    Coupled (s.wrapWide w) ∧ Inv (s.wrapWide w) ∧ (s.wrapWide w).cursor.col + w ≤ (s.wrapWide w).cols := by
  have hcols := hs.cols
  have hcol := hs.cursor.2
  have hrow := hs.cursor.1
  have hkeep := of_decide_eq_false hcut
  unfold wrapWide
  by_cases hfull : w = 2 ∧ s.cols ≤ s.cursor.col + 1
  · rw [if_pos hfull]
    by_cases hwrap : s.modes.autowrap = true
    · rw [if_pos hwrap]
      -- A cell that is no half of a character is as good as a blank one.
      have hlast : (s.halves s.cursor.row s.cursor.col).left = false := by
        rw [(h.rows _ hrow).pairs, halves_ends s _ _ hfull.2]
        rfl
      have hright : (s.halves s.cursor.row s.cursor.col).right = false := by
        rw [halves_cellIn hcol]
        exact eq_false_iff.mpr fun hspacer => hkeep ⟨hfull.1, hfull.2, hwrap, hspacer⟩
      have hput := put_row hs.sized hrow hcol s.blank
      have hsame := halves_put hs.sized hrow hcol s.blank
      rw [half_plain rfl, ← Half.eq_plain hlast hright, Function.update_eq_self] at hsame
      have hblanked := h.in_row hput (by rw [hsame]; exact h.rows _ hrow)
      have hinv := hput.inv hs
      have hcols' := hput.cols
      generalize s.put (s.cursor.row * s.cols + s.cursor.col) s.blank = t at hblanked hinv hcols'
      have hstart : Inv (t.setCol 0) := { hinv with cursor := ⟨hinv.cursor.1, by show 0 < t.cols; omega⟩ }
      have hfeed : Effects (fun _ => False) (t.setCol 0) (t.setCol 0).lineFeed := effects_lineFeed hstart
      have hnext := Effects.inv hfeed hstart
      refine ⟨coupled_lineFeed hstart (hblanked.of_eq rfl rfl rfl rfl), hnext, ?_⟩
      rw [lineFeed_col hstart]
      show 0 + w ≤ _
      have := hnext.cols
      omega
    · rw [if_neg hwrap, check_of hcols]
      refine ⟨h.of_eq rfl rfl rfl rfl, { hs with cursor := ⟨hrow, ?_⟩ }, ?_⟩
      · show s.cols - 2 < s.cols
        omega
      · show s.cols - 2 + w ≤ s.cols
        omega
  · rw [if_neg hfull]
    exact ⟨h, hs, by omega⟩

/-- **Printing** keeps every half next to its other half, unless it cuts a character. -/
theorem coupled_print (h : Coupled s) (ch : Char) (hcut : s.printCuts ch = false) : Coupled (s.print ch) := by
  have hle := charWidth_le (s.translate ch)
  have hkeep := of_decide_eq_false hcut
  unfold print
  dsimp only at hkeep ⊢
  split
  · exact h
  rename_i hwidth
  generalize charWidth (s.translate ch) = w at hle hkeep hwidth
  have hw : w = 1 ∨ w = 2 := by omega
  have hlast : Inv { s with lastChar := s.translate ch } := { hs with }
  have heffects : Effects (fun _ => False) { s with lastChar := s.translate ch } _ := effects_wrapPending hlast
  have hpending := coupled_wrapPending hlast (h.of_eq rfl rfl rfl rfl)
  have hinv := Effects.inv heffects hlast
  generalize ({ s with lastChar := s.translate ch } : Term).wrapPending = t at hkeep hpending hinv
  obtain ⟨hcoupled, hfits, hroom⟩ := coupled_wrapWide hinv hpending hw (eq_false_iff.mpr fun hc => hkeep ⟨hwidth, .inl hc⟩)
  have hstamp := coupled_stamp hfits hcoupled (s.translate ch) hw hroom (eq_false_iff.mpr fun hc => hkeep ⟨hwidth, .inr hc⟩)
  unfold place
  generalize (t.wrapWide w).stamp (s.translate ch) w = u at hstamp
  unfold advance
  split
  · exact hstamp.of_eq rfl rfl rfl rfl
  · exact hstamp.of_eq rfl rfl rfl rfl

end

/-! ### Screens that come and go -/

/-- No cell is a half of anything. -/
theorem whole_plain_cells {grid : List Cell} (h : ∀ c ∈ grid, c.half = .plain) (cols r : Nat) :
    Half.Whole (halvesOf cols grid r) := by
  have hplain : halvesOf cols grid r = fun _ => .plain := by
    funext c
    unfold halvesOf
    split
    · rw [getD_eq_getElem?_getD]
      cases hcell : grid[r * cols + c]? with
      | none => exact half_plain rfl
      | some cell => exact h cell (mem_of_getElem? hcell)
    · rfl
  rw [hplain]
  exact Half.whole_plain

theorem whole_blank_cells (n cols r : Nat) : Half.Whole (halvesOf cols (replicate n .BLANK) r) :=
  whole_plain_cells (fun c hc => by rw [eq_of_mem_replicate hc]; exact half_plain rfl) cols r

theorem coupled_new (cols rows limit : Nat) : Coupled (new cols rows limit) :=
  ⟨fun r _ => whole_blank_cells _ _ r, fun _ h => nomatch h⟩

theorem coupled_enterAltScreen (hs : Inv s) (h : Coupled s) (clear : Bool) : Coupled (s.enterAltScreen clear) := by
  by_cases halt : s.modes.altScreen = true
  · unfold enterAltScreen
    rw [if_pos halt]
    split
    · exact coupled_clearAll hs h
    · exact h
  · rw [enterAltScreen_eq (eq_false_iff.mpr halt)]
    -- The main screen is put away as it is.
    refine ⟨fun r _ => whole_blank_cells _ _ r, fun saved hsaved r hr => ?_⟩
    rw [← Option.some.inj hsaved]
    exact h.rows r hr

section

variable (h : Coupled s)

include h

theorem coupled_leaveAltScreen : Coupled s.leaveAltScreen := by
  unfold leaveAltScreen
  split
  · refine ⟨fun r hr => ?_, fun _ hsaved => nomatch hsaved⟩
    show Half.Whole (halvesOf s.cols (s.savedScreen.getD s.grid) r)
    cases hsaved : s.savedScreen with
    | none => exact h.rows r hr
    | some saved => exact h.saved saved hsaved r hr
  · exact h

theorem coupled_align : Coupled s.align := by
  refine h.of_rows rfl rfl rfl fun r _ => whole_plain_cells (fun c hc => ?_) _ _
  obtain ⟨_, -, rfl⟩ := mem_map.mp hc
  exact half_plain rfl

theorem coupled_saveCursor : Coupled s.saveCursor := by
  unfold saveCursor
  split
  · exact h.of_eq rfl rfl rfl rfl
  · exact h.of_eq rfl rfl rfl rfl

theorem coupled_restoreCursor : Coupled s.restoreCursor := by
  exact ((((h.mark _).cursor _).modes _).mark _)

end

/-- `?1049`. -/
theorem coupled_enter (hs : Inv s) (h : Coupled s) :
    Coupled (({ s with savedMain := s.cursor } : Term).enterAltScreen true |>.clearCells 0
      (({ s with savedMain := s.cursor } : Term).enterAltScreen true).grid.length) := by
  have hsave : Inv { s with savedMain := s.cursor } := { hs with savedMain := hs.cursor }
  have hcoupled : Coupled { s with savedMain := s.cursor } := h.of_eq rfl rfl rfl rfl
  generalize ({ s with savedMain := s.cursor } : Term) = t at hsave hcoupled
  have henter : Effects (fun _ => False) t (t.enterAltScreen true) := effects_enterAltScreen hsave true
  exact coupled_clearAll (Effects.inv henter hsave) (coupled_enterAltScreen hsave hcoupled true)

theorem coupled_privateMode (hs : Inv s) (h : Coupled s) (mode : Nat) (on : Bool) : Coupled (s.privateMode mode on) := by
  unfold privateMode
  split
  · exact h.modes _
  · exact (h.modes _).markAllDirty
  · refine Coupled.moveTo ?_ 0 0
    exact h.of_eq rfl rfl rfl rfl
  · exact h.modes _
  · exact h.modes _
  · exact h.modes _
  · exact (h.modes _).mark _
  · split
    · exact coupled_enterAltScreen hs h false
    · exact coupled_leaveAltScreen h
  · split
    · exact coupled_enterAltScreen hs h true
    · refine coupled_leaveAltScreen ?_
      split
      · exact coupled_clearAll hs h
      · exact h
  · split
    · exact coupled_saveCursor h
    · exact coupled_restoreCursor h
  · split
    · exact coupled_enter hs h
    · exact (coupled_leaveAltScreen h).cursor _
  all_goals exact h.modes _

/-! ### Operations -/

theorem coupled_again (hs : Inv s) (h : Coupled s) (ch : Char) :
    ∀ n, (∀ i < n, ((range i).foldl (fun t _ => t.print ch) s).printCuts ch = false) →
      Coupled ((range n).foldl (fun t _ => t.print ch) s) := by
  intro n
  induction n with
  | zero => exact fun _ => h
  | succ n ih =>
    intro hcut
    have hinv : Effects (fun _ => False) s ((range n).foldl (fun t _ => t.print ch) s) :=
      effects_foldl (fun t ht => effects_print ht ch) hs (range n)
    rw [range_succ, foldl_append]
    exact coupled_print (Effects.inv hinv hs) (ih fun i hi => hcut i (lt_succ_of_lt hi)) ch (hcut n (lt_succ_self n))

section

variable (h : Coupled s)

include h

/-- Columns that the cursor moves to one after the other. -/
theorem coupled_setCols (f : Term → Nat) (ks : List Nat) : Coupled (ks.foldl (fun t _ => t.setCol (f t)) s) := by
  induction ks generalizing s with
  | nil => exact h
  | cons k ks ih => exact ih (h.of_eq rfl rfl rfl rfl)

theorem coupled_tabForward (n : Nat) : Coupled (s.tabForward n) := by
  exact (coupled_setCols (h.check _) (fun t => min (t.nextTab t.cols (t.cursor.col + 1)) (t.cols - 1)) (range n)).noWrap

theorem coupled_tabBackward (n : Nat) : Coupled (s.tabBackward n) := by
  exact (coupled_setCols (h.check _) (fun t => t.previousTab t.cursor.col) (range n)).noWrap

theorem coupled_clearTab (what : Nat) : Coupled (s.apply (.clearTab what)) := by
  unfold apply
  dsimp only
  split
  · exact h.of_eq rfl rfl rfl rfl
  · exact h.of_eq rfl rfl rfl rfl
  · exact h

theorem coupled_ansiMode (mode : Nat) (on : Bool) : Coupled (s.apply (.ansiMode mode on)) := by
  unfold apply
  dsimp only
  split
  · exact h.modes _
  · exact h.modes _
  · exact h

theorem coupled_setMargins (p : Parser) : Coupled (s.setMargins p) := by
  have hcheck := h.check (1 ≤ min (p.param 1 (s.rows % 2 ^ 32)) s.rows)
  unfold setMargins
  dsimp only
  split
  · refine Coupled.moveTo ?_ 0 0
    generalize s.check (1 ≤ min (p.param 1 (s.rows % 2 ^ 32)) s.rows) = t at hcheck
    exact hcheck.of_eq rfl rfl rfl rfl
  · exact hcheck

theorem coupled_osc (bytes : Bytes) : Coupled (s.oscDispatch bytes) := by
  unfold oscDispatch
  dsimp only
  split
  · exact h.of_eq rfl rfl rfl rfl
  split
  · exact h.respond _
  · exact h

end

/-- **Every operation** that does not cut a wide character leaves none cut. -/
theorem coupled_apply (hs : Inv s) (h : Coupled s) {op : Op} (hproper : op.Proper) (hcut : op.cuts s = false) :
    Coupled (s.apply op) := by
  cases op with
  | print ch => exact coupled_print hs h ch hcut
  | again n =>
    refine coupled_again hs h _ n fun i hi => ?_
    exact eq_false_iff.mpr fun hprint => eq_false_iff.mp hcut (any_eq_true.mpr ⟨i, mem_range.mpr hi, hprint⟩)
  | backspace =>
    unfold apply
    dsimp only
    split
    · exact h.of_eq rfl rfl rfl rfl
    split
    · exact h.of_eq rfl rfl rfl rfl
    · exact h
  | tabForward n => exact coupled_tabForward h n
  | tabBackward n => exact coupled_tabBackward h n
  | newline =>
    have hfeed := coupled_lineFeed hs h
    unfold apply
    dsimp only
    split
    · exact hfeed.of_eq rfl rfl rfl rfl
    · exact hfeed
  | saveCursor => exact coupled_saveCursor h
  | lineFeed => exact coupled_lineFeed hs h
  | nextLine =>
    have hcols := hs.cols
    have hstart : Inv (s.setCol 0) := { hs with cursor := ⟨hs.cursor.1, by show 0 < s.cols; omega⟩ }
    exact coupled_lineFeed hstart (h.of_eq rfl rfl rfl rfl)
  | reverseIndex => exact coupled_reverseIndex hs h
  | reset => exact (coupled_new s.cols s.rows s.scrollbackLimit).of_eq rfl rfl rfl rfl
  | align => exact coupled_align h
  | insertChars n => exact coupled_insertChars hs h hproper hcut
  | position row col => exact h.moveTo row col
  | eraseDisplay what => exact coupled_eraseDisplay hs h what
  | eraseLine what => exact coupled_eraseLine hs h what
  | insertLines n => exact coupled_insertLines hs h n
  | deleteLines n => exact coupled_deleteLines hs h n
  | deleteChars n => exact coupled_deleteChars hs h hproper hcut
  | scrollUp n => exact coupled_scrollUp hs h n
  | scrollDown n => exact coupled_scrollDown hs.sized h hs.margins.2 (le_of_lt hs.margins.1) n
  | eraseChars n => exact coupled_eraseChars hs h hproper
  | rowTo n => exact h.moveTo _ _
  | clearTab what => exact coupled_clearTab h what
  | ansiMode mode on => exact coupled_ansiMode h mode on
  | privateMode mode on => exact coupled_privateMode hs h mode on
  | margins p => exact coupled_setMargins h p
  | reportPosition query => exact h.respond _
  | reportSize => exact h.respond _
  | respond text => exact h.respond _
  | osc bytes => exact coupled_osc h bytes
  | up n => exact (h.setRow _).noWrap
  | down n => exact (h.setRow _).noWrap
  | nextLines n => exact ((h.setRow _).noWrap).setCol 0
  | previousLines n => exact ((h.setRow _).noWrap).setCol 0
  | restoreCursor => exact coupled_restoreCursor h
  | _ => exact h.of_eq rfl rfl rfl rfl

/-! ### Bytes -/

theorem coupled_ops (hs : Inv s) (h : Coupled s) {ops : List Op} (hproper : ∀ op ∈ ops, op.Proper) (hcut : opsCut ops s = false) :
    Coupled (ops.foldl apply s) := by
  induction ops generalizing s with
  | nil => exact h
  | cons op ops ih =>
    obtain ⟨hop, hops⟩ := or_eq_false_iff.mp hcut
    have heffects : Effects (fun _ => True) s (s.apply op) := apply_effects hs (hproper op mem_cons_self) fun _ _ => trivial
    exact ih (Effects.inv heffects hs) (coupled_apply hs h (hproper op mem_cons_self) hop)
      (fun o ho => hproper o (mem_cons_of_mem op ho)) hops

/-- The byte asks for nothing that cuts a wide character. -/
def Keeps (s : Term) (b : UInt8) : Prop := opsCut (s.parser.byte b).2 (s.parsed b) = false

theorem coupled_byte (hs : Inv s) (h : Coupled s) {b : UInt8} (hkeep : Keeps s b) : Coupled (s.byte b) :=
  coupled_ops (inv_parsed hs b) (h.of_eq rfl rfl rfl rfl) (Parser.byte_safe hs.parser b).proper hkeep

/-- The terminals reached by bytes that meet `ok`. -/
def Fed (sizes : Nat → Nat → Prop) (ok : Term → UInt8 → Prop) : Term → Prop :=
  Reach (Starts sizes) (fun s b => some (s.byte b)) ok

theorem Fed.feed {sizes : Nat → Nat → Prop} (h : Fed sizes (fun _ _ => True) s) (bytes : Bytes) :
    Fed sizes (fun _ _ => True) (s.feed bytes) := by
  induction bytes generalizing s with
  | nil => exact h
  | cons b bytes ih => exact ih (Reach.next h trivial rfl)

/-- **Wide characters stay whole** as long as no byte asks for an operation that cuts one. -/
theorem wide_paired (h : Fed Fits Keeps s) : Paired s := by
  -- The two invariants go through the run together.
  have hboth : Inv s ∧ Coupled s := by
    refine Reach.invariant (I := fun s => Inv s ∧ Coupled s) ?_ ?_ h
    · rintro _ ⟨cols, rows, limit, hfit, rfl⟩
      exact ⟨inv_new limit hfit, coupled_new cols rows limit⟩
    · rintro s b _ ⟨hs, hc⟩ hkeep hstep
      obtain rfl := Option.some.inj hstep
      exact ⟨inv_byte hs b, coupled_byte hs hc hkeep⟩
  exact hboth.2.paired hboth.1.cols

/-- A wide character on a console. -/
theorem wide_paired_console : Paired ((new 80 25 0).feed [0xe4, 0xb8, 0x80]) := by
  have hstart : Fed Fits Keeps (new 80 25 0) := Reach.start ⟨80, 25, 0, ⟨by decide, by decide⟩, rfl⟩
  have hfirst : Fed Fits Keeps ((new 80 25 0).byte 0xe4) := Reach.next hstart (by rfl) rfl
  have hsecond : Fed Fits Keeps (((new 80 25 0).byte 0xe4).byte 0xb8) := Reach.next hfirst (by rfl) rfl
  exact wide_paired (Reach.next hsecond (by rfl) rfl)

/-- `ESC [ @` with the cursor on a wide character moves its first half away from the second. -/
theorem insert_cuts : ¬ ∀ s, Fed (fun _ _ => True) (fun _ _ => True) s → Paired s := by
  intro h
  have hstart : Fed (fun _ _ => True) (fun _ _ => True) (new 4 2 0) := Reach.start ⟨4, 2, 0, trivial, rfl⟩
  have hpair := (h _ (hstart.feed [0xe4, 0xb8, 0x80, 0x0d, 0x1b, 0x5b, 0x40]) 0 (by decide +kernel)).2.2 1 (by decide +kernel)
  revert hpair
  decide +kernel

end Term

end HamixOS.Vt
