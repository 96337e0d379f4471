import HamixOS.Lib.Halves
import HamixOS.Vt.Operations

namespace HamixOS.Vt

open Lib List Function Half Nat

/-!
# Rows of the grid as rows of halves

A wide character is a cell with `WIDE` and a cell with `WIDE_SPACER` behind it.  What the operations of the
screen do to these flags is what `blank`, `copy`, `clearAt` and `mend` do to a row of halves.

* `halvesOf` — a row of a grid;
* `halves_put`, `halves_copyCells`, `halves_clearCells`, `halves_clearWideAt`, `halves_fixWideEdge` — one row
  that is written;
* `row_copyRows`, `row_clearRows` — rows that move as a whole.
-/

def Cell.half (c : Cell) : Half := ⟨c.wide, c.spacer⟩

/-- A row of a grid with `cols` columns. -/
def halvesOf (cols : Nat) (grid : List Cell) (r c : Nat) : Half :=
  if c < cols then (grid.getD (r * cols + c) .BLANK).half else .plain

/-- A flag is a bit. -/
theorem flag_bit (flags : UInt16) {mask : UInt16} {i : Nat} (hmask : mask.toBitVec = BitVec.twoPow 16 i) (hne : mask ≠ 0) :
    decide (flags &&& mask ≠ 0) = flags.toBitVec.getLsbD i := by
  have hzero : flags &&& mask = 0 ↔ ¬ flags.toBitVec.getLsbD i = true := by
    rw [← UInt16.toBitVec_inj, UInt16.toBitVec_and, hmask, BitVec.and_twoPow]
    split
    · rename_i h
      rw [← hmask]
      exact iff_of_false (fun heq => hne (UInt16.toBitVec_inj.mp heq)) (not_not_intro h)
    · rename_i h
      exact iff_of_true rfl h
  rw [Bool.eq_iff_iff, decide_eq_true_iff, Ne, hzero, not_not]

theorem half_eq (c : Cell) : c.half = ⟨c.flags.toBitVec.getLsbD 8, c.flags.toBitVec.getLsbD 9⟩ := by
  unfold Cell.half Cell.wide Cell.spacer
  rw [flag_bit c.flags (show WIDE.toBitVec = BitVec.twoPow 16 8 from rfl) (by decide),
    flag_bit c.flags (show WIDE_SPACER.toBitVec = BitVec.twoPow 16 9 from rfl) (by decide)]

theorem half_plain {c : Cell} (h : c.flags = 0) : c.half = .plain := by
  rw [half_eq, h]
  rfl

theorem half_halved (c : Cell) : c.halved.half = .plain := by
  have hmask : (~~~(WIDE ||| WIDE_SPACER)).toBitVec.getLsbD 8 = false ∧ (~~~(WIDE ||| WIDE_SPACER)).toBitVec.getLsbD 9 = false := by
    decide
  rw [half_eq]
  unfold Cell.halved
  rw [UInt16.toBitVec_and, BitVec.getLsbD_and, BitVec.getLsbD_and, hmask.1, hmask.2, Bool.and_false, Bool.and_false]
  rfl

/-- The two cells of a wide character. -/
theorem half_wide {c : Cell} (h : c.half = .plain) : ({ c with flags := c.flags ||| WIDE } : Cell).half = ⟨true, false⟩ := by
  have hbits : WIDE.toBitVec.getLsbD 8 = true ∧ WIDE.toBitVec.getLsbD 9 = false := by decide
  rw [half_eq] at h ⊢
  have hspacer := congrArg Half.right h
  dsimp only at hspacer ⊢
  rw [UInt16.toBitVec_or, BitVec.getLsbD_or, BitVec.getLsbD_or, hbits.1, hbits.2, Bool.or_true, Bool.or_false, hspacer]
  rfl

theorem half_spacer (c : Cell) :
    ({ c with ch := ' ', flags := (c.flags &&& ~~~WIDE) ||| WIDE_SPACER } : Cell).half = ⟨false, true⟩ := by
  have hbits : WIDE_SPACER.toBitVec.getLsbD 8 = false ∧ WIDE_SPACER.toBitVec.getLsbD 9 = true ∧
      (~~~WIDE).toBitVec.getLsbD 8 = false := by decide
  rw [half_eq]
  rw [UInt16.toBitVec_or, BitVec.getLsbD_or, BitVec.getLsbD_or, UInt16.toBitVec_and, BitVec.getLsbD_and, hbits.1, hbits.2.1,
    hbits.2.2, Bool.or_true, Bool.or_false, Bool.and_false]

namespace Term

variable {s s' : Term} {row r a b d n : Nat}

def halves (s : Term) (r : Nat) : Nat → Half := halvesOf s.cols s.grid r

theorem halves_ends (s : Term) (r : Nat) : Half.Ends s.cols (s.halves r) := fun _ hc => if_neg (Nat.not_lt_of_le hc)

theorem halves_at (s : Term) (r : Nat) {c : Nat} (hc : c < s.cols) : s.halves r c = (s.cellAt (r * s.cols + c)).half := if_pos hc

/-- The row has the same cells. -/
theorem halvesOf_congr {cols : Nat} {grid grid' : List Cell}
    (h : ∀ c < cols, grid'[r * cols + c]? = grid[r * cols + c]?) : halvesOf cols grid' r = halvesOf cols grid r := by
  funext c
  unfold halvesOf
  split
  · rename_i hc
    rw [getD_eq_getElem?_getD, getD_eq_getElem?_getD, h c hc]
  · rfl

theorem Touches.halves {first last : Nat} (h : Touches first last s s') (hr : r < first ∨ last ≤ r) :
    s'.halves r = s.halves r := by
  unfold Term.halves
  rw [h.cols]
  exact halvesOf_congr fun c hc => h.other hr hc

/-! ### Cells of a row -/

theorem halves_put (hs : Sized s) (hr : row < s.rows) {col : Nat} (hc : col < s.cols) (x : Cell) :
    (s.put (row * s.cols + col) x).halves row = update (s.halves row) col x.half := by
  obtain ⟨-, -, hlen⟩ := inRow hs hr hc
  funext c
  show halvesOf s.cols (s.grid.set (row * s.cols + col) x) row c = _
  by_cases heq : c = col
  · rw [heq, update_self]
    unfold halvesOf
    rw [if_pos hc, getD_eq_getElem?_getD, getElem?_set_self hlen]
    rfl
  · rw [update_of_ne heq]
    unfold Term.halves halvesOf
    rw [getD_eq_getElem?_getD, getElem?_set_ne (by omega), ← getD_eq_getElem?_getD]

theorem cols_clearCells (s : Term) (a b : Nat) : (s.clearCells a b).cols = s.cols := by
  unfold clearCells
  dsimp only
  split <;> rfl

section

variable (hs : Sized s)

include hs

theorem halves_clearCells (hr : r < s.rows) (a b : Nat) :
    (s.clearCells a b).halves r = Half.blank (a - r * s.cols) (b - r * s.cols) (s.halves r) := by
  have hend := hs.row_end hr
  funext c
  by_cases hc : c < s.cols
  · unfold clearCells
    dsimp only
    split
    · rw [blank_out (by omega)]
    · show halvesOf s.cols (fill s.grid a (min b s.grid.length) s.blank) r c = _
      unfold halvesOf
      rw [if_pos hc, getD_eq_getElem?_getD, getElem?_fill (min_le_right _ _) (by omega)]
      split
      · rw [blank_in (by omega) (by omega)]
        exact half_plain rfl
      · rw [blank_out (by omega), halves_at s r hc, ← getD_eq_getElem?_getD]
        rfl
  · rw [halves_ends _ _ _ (by rw [cols_clearCells]; omega)]
    unfold Half.blank
    rw [halves_ends s r c (by omega), ite_self]

section

variable (hr : row < s.rows)

include hr

/-- Cells move inside of a row. -/
theorem halves_copyCells (hab : a ≤ b) (hb : b ≤ s.cols) (hd : d + (b - a) ≤ s.cols) :
    (s.copyCells (row * s.cols + a) (row * s.cols + b) (row * s.cols + d)).halves row = Half.copy a b d (s.halves row) := by
  have hend := hs.row_end hr
  funext c
  by_cases hc : c < s.cols
  · show halvesOf s.cols (copyWithin s.grid _ _ _) row c = _
    unfold halvesOf
    rw [if_pos hc, getD_eq_getElem?_getD, getElem?_copyWithin (by omega) (by omega)]
    split
    · rw [copy_in (by omega) (by omega), halves_at s row (by omega), ← getD_eq_getElem?_getD,
        show row * s.cols + a + (row * s.cols + c - (row * s.cols + d)) = row * s.cols + (a + (c - d)) by omega]
      rfl
    · rw [copy_out (by omega), halves_at s row hc, ← getD_eq_getElem?_getD]
      rfl
  · rw [halves_ends _ _ _ (by show s.cols ≤ c; omega), copy_out (by omega), halves_ends s row c (by omega)]

/-- A cell becomes plain if `p`. -/
theorem halves_putIf {p : Prop} [Decidable p] {i : Nat} (col : Nat)
    (hi : p → i = row * s.cols + col ∧ col < s.cols) {x : Cell} (hx : x.half = .plain) :
    Touches row (row + 1) s (if p then s.put i x else s) ∧
    (if p then s.put i x else s).halves row = fun c => if c = col ∧ p then .plain else s.halves row c := by
  by_cases hp : p
  · obtain ⟨rfl, hcol⟩ := hi hp
    rw [if_pos hp]
    refine ⟨put_row hs hr hcol x, ?_⟩
    rw [halves_put hs hr hcol, hx]
    funext c
    by_cases heq : c = col
    · rw [heq, update_self, if_pos ⟨rfl, hp⟩]
    · rw [update_of_ne heq, if_neg (fun h => heq h.1)]
  · rw [if_neg hp]
    refine ⟨Touches.refl _ _ s, ?_⟩
    funext c
    rw [if_neg (fun h => hp h.2)]

theorem halves_clearWideAt (col : Nat) :
    (s.clearWideAt row col).halves row = Half.clearAt col (s.halves row) := by
  have hends := halves_ends s row
  by_cases hc : s.cols ≤ col
  · rw [clearAt_plain (by rw [hends col hc]; rfl) (by rw [hends col hc]; rfl)]
    unfold clearWideAt
    rw [if_pos hc]
  have hcol : col < s.cols := Nat.lt_of_not_le hc
  obtain ⟨-, -, hlen⟩ := inRow hs hr hcol
  unfold clearWideAt
  rw [if_neg hc]
  dsimp only
  rw [check_of hlen]
  -- The cell is read once, before its neighbours are written.
  have hself := halves_at s row hcol
  generalize s.cellAt (row * s.cols + col) = cell at hself
  have hwide : cell.wide = (s.halves row col).left := by rw [hself]; rfl
  have hspacer : cell.spacer = (s.halves row col).right := by rw [hself]; rfl
  -- Behind it,
  obtain ⟨htouch, hnext⟩ := halves_putIf hs hr (p := cell.wide ∧ col + 1 < s.cols) (col + 1)
    (fun h => ⟨add_assoc _ _ _, h.2⟩) (half_halved cell)
  generalize (if cell.wide ∧ col + 1 < s.cols then s.put (row * s.cols + col + 1) cell.halved else s) = t at htouch hnext
  -- and in front of it.
  obtain ⟨-, hprev⟩ := halves_putIf (htouch.sized hs) (by rw [htouch.rows]; exact hr) (p := cell.spacer ∧ 0 < col)
    (i := row * s.cols + col - 1) (col - 1) (fun h => by rw [htouch.cols]; omega)
    (half_halved (t.cellAt (row * s.cols + col - 1)))
  rw [hprev, hnext, hwide, hspacer]
  funext c
  unfold Half.clearAt
  dsimp only
  by_cases hback : c + 1 = col ∧ (s.halves row col).right = true
  · rw [if_pos ⟨by omega, hback.2, by omega⟩, if_pos (Or.inr hback)]
  · rw [if_neg (fun h => hback ⟨by omega, h.2.1⟩)]
    by_cases hforth : c = col + 1 ∧ (s.halves row col).left = true
    · -- There is nothing behind the last column.
      rw [if_pos (Or.inl hforth)]
      split
      · rfl
      · rename_i hlast
        exact hends c (Nat.le_of_not_lt fun hlt => hlast ⟨hforth.1, hforth.2, hforth.1 ▸ hlt⟩)
    · rw [if_neg (fun h => hforth ⟨h.1, h.2.1⟩), if_neg (not_or.mpr ⟨hforth, hback⟩)]

theorem halves_fixWideEdge : (s.fixWideEdge row).halves row = Half.mend s.cols (s.halves row) := by
  have hcols := hs.cols
  have hlast : s.cols - 1 < s.cols := by omega
  obtain ⟨-, -, hlen⟩ := inRow hs hr hlast
  unfold fixWideEdge
  dsimp only
  rw [Nat.add_sub_assoc (by omega), check_of hlen]
  have hwide : (s.cellAt (row * s.cols + (s.cols - 1))).wide = (s.halves row (s.cols - 1)).left := by rw [halves_at s row hlast]; rfl
  obtain ⟨htouch, hend⟩ := halves_putIf hs hr (p := (s.cellAt (row * s.cols + (s.cols - 1))).wide)
    (s.cols - 1) (fun _ => ⟨rfl, hlast⟩) (x := .BLANK) (half_plain rfl)
  generalize (if (s.cellAt (row * s.cols + (s.cols - 1))).wide then s.put (row * s.cols + (s.cols - 1)) .BLANK else s) = t
    at htouch hend
  -- There are two columns at least, so the first cell is not the last one.
  have hfirst : 0 < t.cols := by rw [htouch.cols]; omega
  have hspacer : (t.cellAt (row * t.cols)).spacer = (s.halves row 0).right := by
    have hzero := halves_at t row hfirst
    rw [hend] at hzero
    exact congrArg Half.right (hzero.symm.trans (if_neg fun h => by omega))
  obtain ⟨-, hstart⟩ := halves_putIf (htouch.sized hs) (by rw [htouch.rows]; exact hr) (p := (t.cellAt (row * t.cols)).spacer)
    (i := row * t.cols) 0 (fun _ => ⟨rfl, hfirst⟩) (x := .BLANK) (half_plain rfl)
  rw [hstart, hend, hwide, hspacer]
  funext c
  unfold Half.mend
  dsimp only
  by_cases hzero : c = 0 ∧ (s.halves row 0).right = true
  · rw [if_pos hzero, if_pos (.inr ⟨hzero.1, hzero.1 ▸ hzero.2⟩)]
  · rw [if_neg hzero]
    by_cases hedge : c = s.cols - 1 ∧ (s.halves row (s.cols - 1)).left = true
    · rw [if_pos hedge, if_pos (.inl ⟨hedge.1, hedge.1 ▸ hedge.2⟩)]
    · rw [if_neg hedge, if_neg]
      rintro (⟨heq, hl⟩ | ⟨heq, hr⟩)
      · exact hedge ⟨heq, heq ▸ hl⟩
      · exact hzero ⟨heq, heq ▸ hr⟩

end

end

/-! ### Rows of the screen -/

theorem halves_markRows (s : Term) (first last r : Nat) : (s.markRows first last).halves r = s.halves r := rfl

theorem getElem?_row (s : Term) {r c : Nat} (hc : c < s.cols) : (s.row r)[c]? = s.grid[r * s.cols + c]? := by
  unfold row
  rw [getElem?_take, if_pos hc, getElem?_drop]

theorem row_ext {r' : Nat} (hcols : s'.cols = s.cols)
    (h : ∀ c < s.cols, s'.grid[r' * s.cols + c]? = s.grid[r * s.cols + c]?) : s'.row r' = s.row r := by
  refine ext_getElem? fun c => ?_
  by_cases hc : c < s.cols
  · rw [getElem?_row s hc, getElem?_row s' (by rw [hcols]; exact hc), hcols, h c hc]
  · unfold row
    rw [getElem?_take, getElem?_take, if_neg hc, if_neg (by rw [hcols]; exact hc)]

theorem halves_row (s : Term) (r : Nat) :
    s.halves r = fun c => if c < s.cols then (((s.row r)[c]?).getD .BLANK).half else .plain := by
  funext c
  unfold halves halvesOf
  split
  · rename_i hc
    rw [getElem?_row s hc, getD_eq_getElem?_getD]
  · rfl

section

variable (hs : Sized s)

include hs

section

variable (hr : r < s.rows)

include hr

theorem row_clearRows (a b : Nat) :
    (s.clearCells (a * s.cols) (b * s.cols)).row r = if a ≤ r ∧ r < b then List.replicate s.cols s.blank else s.row r := by
  have hend := hs.row_end hr
  have hgrid : ∀ c < s.cols, (s.clearCells (a * s.cols) (b * s.cols)).grid[r * s.cols + c]? =
      if a ≤ r ∧ r < b then some s.blank else s.grid[r * s.cols + c]? := by
    intro c hc
    have hin : (a ≤ r ∧ r < b) ↔ a * s.cols ≤ r * s.cols + c ∧ r * s.cols + c < min (b * s.cols) s.grid.length := by
      have hb : r < b ↔ r * s.cols + s.cols ≤ b * s.cols := by
        rw [← succ_mul]
        exact ⟨fun h => mul_le_mul_right _ h, fun h => le_of_mul_le_mul_right h (by omega)⟩
      have hb' : ¬ r < b → b * s.cols ≤ r * s.cols := fun h => mul_le_mul_right _ (by omega)
      have ha : a ≤ r → a * s.cols ≤ r * s.cols := fun h => mul_le_mul_right _ h
      have ha' : ¬ a ≤ r → r * s.cols + s.cols ≤ a * s.cols := fun h => by
        rw [← succ_mul]
        exact mul_le_mul_right _ (by omega)
      omega
    unfold clearCells
    dsimp only
    split
    · rw [if_neg (fun h => by have := hin.mp h; omega)]
    · show (fill s.grid _ _ s.blank)[_]? = _
      rw [getElem?_fill (min_le_right _ _) (by omega)]
      simp only [hin]
  have hcols := cols_clearCells s (a * s.cols) (b * s.cols)
  by_cases hin : a ≤ r ∧ r < b
  · rw [if_pos hin]
    refine ext_getElem? fun c => ?_
    by_cases hc : c < s.cols
    · rw [getElem?_row _ (by rw [hcols]; exact hc), hcols, hgrid c hc, if_pos hin, getElem?_replicate, if_pos hc]
    · unfold row
      rw [getElem?_take, if_neg (by rw [hcols]; exact hc), getElem?_replicate, if_neg hc]
  · rw [if_neg hin]
    exact row_ext hcols fun c hc => by rw [hgrid c hc, if_neg hin]

/-- Rows move as a whole. -/
theorem row_copyRows (hb : b ≤ s.rows) (hd : d + (b - a) ≤ s.rows) :
    (s.copyCells (a * s.cols) (b * s.cols) (d * s.cols)).row r =
      if d ≤ r ∧ r < d + (b - a) then s.row (a + (r - d)) else s.row r := by
  have hsource := hs.rows_le hb
  have hdest := hs.rows_le hd
  have hsize : b * s.cols - a * s.cols = (b - a) * s.cols := (Nat.sub_mul b a s.cols).symm
  -- The copy ends where a row does.
  have hsum : d * s.cols + (b * s.cols - a * s.cols) = (d + (b - a)) * s.cols := by rw [hsize, add_mul]
  have hgrid (c : Nat) : (s.copyCells (a * s.cols) (b * s.cols) (d * s.cols)).grid[r * s.cols + c]? =
      if d * s.cols ≤ r * s.cols + c ∧ r * s.cols + c < (d + (b - a)) * s.cols
        then s.grid[a * s.cols + (r * s.cols + c - d * s.cols)]? else s.grid[r * s.cols + c]? := by
    rw [← hsum]
    exact getElem?_copyWithin hsource (by omega) _
  by_cases hin : d ≤ r ∧ r < d + (b - a)
  · rw [if_pos hin]
    refine row_ext rfl fun c hc => ?_
    have hlo : d * s.cols ≤ r * s.cols := mul_le_mul_right _ hin.1
    have hhi : (r + 1) * s.cols ≤ (d + (b - a)) * s.cols := mul_le_mul_right _ hin.2
    rw [succ_mul] at hhi
    have hmoved : a * s.cols + (r * s.cols + c - d * s.cols) = (a + (r - d)) * s.cols + c := by
      rw [add_mul, Nat.sub_mul]
      omega
    rw [hgrid, if_pos ⟨by omega, by omega⟩, hmoved]
  · -- A row is written as a whole or not at all.
    rw [if_neg hin]
    refine row_ext rfl fun c hc => ?_
    have hlow : d ≤ r → (d + (b - a)) * s.cols ≤ r * s.cols := fun h => mul_le_mul_right _ (by omega)
    have hhigh : ¬ d ≤ r → r * s.cols + s.cols ≤ d * s.cols := fun h => by
      rw [← succ_mul]
      exact mul_le_mul_right _ (by omega)
    rw [hgrid, if_neg (by omega)]

theorem halves_clearRows (a b : Nat) :
    (s.clearCells (a * s.cols) (b * s.cols)).halves r = if a ≤ r ∧ r < b then (fun _ => .plain) else s.halves r := by
  have hcols := cols_clearCells s (a * s.cols) (b * s.cols)
  rw [halves_row, row_clearRows hs hr, hcols]
  split
  · funext c
    split
    · rename_i hc
      rw [getElem?_replicate, if_pos hc]
      exact half_plain rfl
    · rfl
  · rw [halves_row]

theorem halves_copyRows (hb : b ≤ s.rows) (hd : d + (b - a) ≤ s.rows) :
    (s.copyCells (a * s.cols) (b * s.cols) (d * s.cols)).halves r =
      if d ≤ r ∧ r < d + (b - a) then s.halves (a + (r - d)) else s.halves r := by
  rw [halves_row, row_copyRows hs hr hb hd, halves_row s, halves_row s]
  split <;> rfl

end

end

end Term

end HamixOS.Vt
