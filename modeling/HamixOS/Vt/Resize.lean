import HamixOS.Vt.Scrolling

namespace HamixOS.Vt.Term

open Lib List Option Nat Sublist

/-!
# Resizing keeps the text

Fewer rows push lines into the scrollback and more rows pull them out again.  The scrollback and the lines of the screen,
down to the last one that is used, are one text.

* `row_resized` — the rows of the new grid, copy by copy;
* `Settled.resize` — one change of the number of rows;
* `resize_keeps_text` — any run of them.
-/

variable {s s' : Term} {cols rows pull shift q : Nat} {grid : List Cell}

/-! ### The rows of a grid -/

def rowOf (cols : Nat) (grid : List Cell) (r : Nat) : List Cell := (grid.drop (r * cols)).take cols

theorem rowOf_overwrite {line : List Cell} {r : Nat} (hgrid : grid.length = cols * rows) (hline : line.length = cols)
    (hr : r < rows) : rowOf cols (overwrite grid (r * cols) (line.take cols)) q = if r = q then line else rowOf cols grid q := by
  have hrow : (r + 1) * cols ≤ rows * cols := mul_le_mul_right _ hr
  rw [succ_mul, mul_comm rows] at hrow
  rw [take_of_length_le (by omega)]
  refine ext_getElem? fun c => ?_
  unfold rowOf
  by_cases hc : c < cols
  · rw [getElem?_take, if_pos hc, getElem?_drop, getElem?_overwrite (by omega), hline]
    by_cases heq : r = q
    · rw [if_pos heq, heq, if_pos (by omega), Nat.add_sub_cancel_left]
    · -- Another row ends before this one starts, or the other way round.
      have hother : (r + 1) * cols ≤ q * cols ∨ (q + 1) * cols ≤ r * cols := by
        rcases lt_or_gt_of_ne heq with h | h
        · exact .inl (mul_le_mul_right _ h)
        · exact .inr (mul_le_mul_right _ h)
      rw [succ_mul, succ_mul] at hother
      rw [if_neg heq, if_neg (by omega), getElem?_take, if_pos hc, getElem?_drop]
  · rw [getElem?_eq_none (by rw [length_take]; omega)]
    split
    · rw [getElem?_eq_none (by omega)]
    · rw [getElem?_eq_none (by rw [length_take]; omega)]

/-- A fold brings about what one of its steps does, if the others keep it. -/
theorem foldl_brings {α β : Type} {f : β → α → β} {I P : β → Prop} {D : α → Prop} {l : List α} {x : β}
    (hinv : ∀ i ∈ l, ∀ y, I y → I (f y i)) (hstep : ∀ i ∈ l, ∀ y, I y → (¬ D i → P y) → P (f y i)) (hx : I x)
    (h : (∀ i ∈ l, ¬ D i) → P x) : P (l.foldl f x) := by
  induction l generalizing x with
  | nil => exact h fun _ hi => nomatch hi
  | cons i l ih =>
    refine ih (fun j hj => hinv j (mem_cons_of_mem i hj)) (fun j hj => hstep j (mem_cons_of_mem i hj))
      (hinv i mem_cons_self x hx) fun hl => hstep i mem_cons_self x hx fun hi => h fun j hj => ?_
    rcases mem_cons.mp hj with rfl | hj
    · exact hi
    · exact hl j hj

/-- The lines of the new screen, and blank ones below them. -/
def resizedLines (pulled : List (List Cell)) (shift rows : Nat) (s : Term) : List (List Cell) :=
  pulled ++ s.lines.drop shift ++ List.replicate rows (List.replicate s.cols .BLANK)

theorem length_row (hgrid : s.grid.length = s.cols * s.rows) (hq : q < s.rows) : (s.row q).length = s.cols := by
  have hrow : (q + 1) * s.cols ≤ s.rows * s.cols := mul_le_mul_right _ hq
  rw [succ_mul, mul_comm s.rows] at hrow
  rw [row, length_take, length_drop]
  omega

theorem row_resized (hfit : s.cols * rows < 2 ^ 64) (hgrid : s.grid.length = s.cols * s.rows)
    (hwidth : ∀ line ∈ s.scrollback, line.length = s.cols) (hpull : pull ≤ rows) (hlines : pull ≤ s.scrollback.length)
    (hq : q < rows) :
    (s.resizedLines (s.scrollback.drop (s.scrollback.length - pull)) shift rows)[q]? =
      some (rowOf s.cols (s.movedGrid s.cols rows pull shift (s.pulledGrid s.cols rows pull)) q) := by
  have hfirst : (s.scrollback.drop (s.scrollback.length - pull)).length = pull := by
    rw [length_drop]
    omega
  have hnext : (s.lines.drop shift).length = s.rows - shift := by rw [length_drop, length_lines]
  let P (grid : List Cell) : Prop :=
    (s.resizedLines (s.scrollback.drop (s.scrollback.length - pull)) shift rows)[q]? = some (rowOf s.cols grid q)
  show P _
  unfold movedGrid
  -- First the loop that copies the screen, then the one that puts the pulled lines above it.
  refine foldl_brings (I := fun grid => grid.length = s.cols * rows) (D := fun r => r + pull = q ∧ r + shift < s.rows)
    (fun r hr grid hlen => ?_) (fun r hr grid hlen hkeep => ?_) (length_pulledGrid hfit hpull s) fun hmoved => ?_
  · have hlt := mem_range.mp hr
    split
    · exact hlen
    · exact length_overwriteRow hlen (by omega) _
  · have hlt := mem_range.mp hr
    split
    · exact hkeep (by omega)
    · show _ = some (rowOf _ (overwrite _ _ _) _)
      rw [rowOf_overwrite hlen (length_row hgrid (by omega)) (by omega)]
      split
      · rename_i heq
        unfold resizedLines
        rw [append_assoc, getElem?_append_right (by omega), getElem?_append_left (by omega), getElem?_drop,
          getElem?_lines (by omega)]
        congr 2
        omega
      · exact hkeep (by omega)
  · unfold pulledGrid
    refine foldl_brings (I := fun grid => grid.length = s.cols * rows) (D := fun i => pull - 1 - i = q)
      (fun i hi grid hgrid => ?_) (fun i hi grid hgrid hkeep => ?_) (length_replicate.trans (size_of_fits hfit)) fun hpulled => ?_
    · have hlt := mem_range.mp hi
      exact length_overwriteRow hgrid (by omega) _
    · have hlt := mem_range.mp hi
      have hline : s.scrollback.reverse[i]? = some s.scrollback[s.scrollback.length - 1 - i] := by
        rw [getElem?_reverse (by omega), getElem?_eq_getElem]
      show _ = some (rowOf _ (overwrite _ _ _) _)
      rw [getD_eq_getElem?_getD, hline, getD_some, rowOf_overwrite hgrid (hwidth _ (getElem_mem _)) (by omega)]
      split
      · rename_i heq
        unfold resizedLines
        rw [append_assoc, getElem?_append_left (by omega), getElem?_drop, ← getElem?_eq_getElem]
        congr 1
        omega
      · exact hkeep (by omega)
    · -- Neither of the two loops writes this row.
      have hlow : pull ≤ q := Nat.le_of_not_lt fun hlt => hpulled (pull - 1 - q) (mem_range.mpr (by omega)) (by omega)
      have hhigh : s.rows ≤ q - pull + shift := Nat.le_of_not_lt fun hlt =>
          hmoved (q - pull) (mem_range.mpr (by omega)) ⟨by omega, hlt⟩
      have hcell : q * s.cols + s.cols ≤ s.cols * rows := by
        rw [← succ_mul, mul_comm s.cols]
        exact mul_le_mul_right _ hq
      show _ = some ((drop _ _).take _)
      unfold resizedLines
      rw [size_of_fits hfit, drop_replicate, take_replicate, min_eq_left (by omega),
        getElem?_append_right (by rw [length_append]; omega), length_append, getElem?_replicate, if_pos (by omega)]

/-! ### The last row that is used -/

theorem lastUsedRow_le {n : Nat} (h : ∀ r < s.rows, n < r → ∀ c ∈ s.row r, c = .BLANK) : s.lastUsedRow ≤ n := by
  unfold lastUsedRow
  cases hfind : (range s.rows).reverse.find? fun r => (s.row r).any fun c => c ≠ .BLANK with
  | none => exact zero_le n
  | some r =>
    have hused : ((s.row r).any fun c => c ≠ .BLANK) = true := by simpa only using find?_some hfind
    obtain ⟨c, hc, hne⟩ := any_eq_true.mp hused
    have hr := mem_range.mp (mem_reverse.mp (mem_of_find?_eq_some hfind))
    exact Nat.le_of_not_lt fun hlt => of_decide_eq_true hne (h r hr hlt c hc)

theorem blank_of_lastUsedRow (hq : q < s.rows) (h : s.lastUsedRow < q) : ∀ c ∈ s.row q, c = .BLANK := by
  intro c hc
  by_contra hne
  have hused : ((s.row q).any fun c => c ≠ .BLANK) = true := any_eq_true.mpr ⟨c, hc, decide_eq_true hne⟩
  unfold lastUsedRow at h
  cases hfind : (range s.rows).reverse.find? fun r => (s.row r).any fun c => c ≠ .BLANK with
  | none => exact find?_eq_none.mp hfind q (mem_reverse.mpr (mem_range.mpr hq)) hused
  | some r =>
    -- The rows are looked at from the last one on, and `q` comes before `r`.
    rw [hfind] at h
    obtain ⟨-, i, hi, hget, hbefore⟩ := find?_eq_some_iff_getElem.mp hfind
    rw [length_reverse, length_range] at hi
    rw [getElem_reverse, getElem_range, length_range] at hget
    have hfirst := hbefore (s.rows - 1 - q) (by simp only [getD_some] at h; omega)
    rw [getElem_reverse, getElem_range, length_range, show s.rows - 1 - (s.rows - 1 - q) = q by omega, hused] at hfirst
    exact Bool.false_ne_true hfirst

/-! ### No wide cells -/

theorem fixWideEdge_plain (hcols : 0 < s.cols) (hrow : q * s.cols + s.cols ≤ s.grid.length)
    (h : ∀ c ∈ s.row q, c.half = .plain) : s.fixWideEdge q = s := by
  have hat (i : Nat) (hi : i < s.cols) : (s.cellAt (q * s.cols + i)).half = .plain := by
    have hget := getElem?_row s (r := q) hi
    rw [getElem?_eq_getElem (l := s.grid) (by omega)] at hget
    unfold cellAt
    rw [getD_eq_getElem?_getD, getElem?_eq_getElem (by omega), getD_some]
    exact h _ (mem_of_getElem? hget)
  have hlast : (s.cellAt (q * s.cols + (s.cols - 1))).wide = false := congrArg Half.left (hat (s.cols - 1) (by omega))
  have hfirst : (s.cellAt (q * s.cols)).spacer = false := congrArg Half.right (hat 0 hcols)
  unfold fixWideEdge
  dsimp only
  rw [check_of (by omega), Nat.add_sub_assoc hcols, hlast, if_neg Bool.false_ne_true, hfirst, if_neg Bool.false_ne_true]

theorem fixWideEdges_plain {rs : List Nat} (hcols : 0 < s.cols) (hgrid : s.grid.length = s.cols * s.rows)
    (hrs : ∀ r ∈ rs, r < s.rows) (h : ∀ line ∈ s.lines, ∀ c ∈ line, c.half = .plain) :
    rs.foldl (fun s r => s.fixWideEdge r) s = s := by
  induction rs with
  | nil => rfl
  | cons r rs ih =>
    have hr := hrs r mem_cons_self
    have hrow : (r + 1) * s.cols ≤ s.rows * s.cols := mul_le_mul_right _ hr
    rw [succ_mul, mul_comm s.rows] at hrow
    rw [foldl_cons, fixWideEdge_plain hcols (by omega) (h _ (mem_of_getElem? (getElem?_lines hr)))]
    exact ih fun r' hr' => hrs r' (mem_cons_of_mem r hr')

/-! ### One resize -/

/-- The text: the lines of the scrollback and those of the screen, down to the last row that is used or the cursor. -/
def text (s : Term) : List (List Cell) := s.scrollback ++ s.lines.take (max s.lastUsedRow s.cursor.row + 1)

/-- A main screen without wide characters, on which no row below the cursor is used. -/
structure Settled (s : Term) : Prop where
  cols : 2 ≤ s.cols
  grid : s.grid.length = s.cols * s.rows
  row : s.cursor.row < s.rows
  col : s.cursor.col < s.cols
  kept : s.scrollback.length ≤ s.scrollbackLimit
  main : s.modes.altScreen = false
  tidy : ∀ line ∈ s.scrollback ++ s.lines, line.length = s.cols ∧ ∀ c ∈ line, c.half = .plain
  used : s.lastUsedRow ≤ s.cursor.row

/-- The scrollback behind the first `shift` lines. -/
def pushed (shift : Nat) (s : Term) : List (List Cell) := s.scrollback ++ s.lines.take shift

/-- `shift` lines went into the scrollback, `pull` came out. -/
structure Resized (pull shift : Nat) (s s' : Term) : Prop where
  cols : s'.cols = s.cols
  limit : s'.scrollbackLimit = s.scrollbackLimit
  main : s'.modes = s.modes
  grid : s'.grid.length = s'.cols * s'.rows
  scrollback : s'.scrollback = (s.pushed shift).take ((s.pushed shift).length - pull)
  lines : s'.lines = (s.resizedLines ((s.pushed shift).drop ((s.pushed shift).length - pull)) shift s'.rows).take s'.rows
  row : s'.cursor.row + shift = s.cursor.row + pull
  col : s'.cursor.col = s.cursor.col

/-- The text is the same, and the cursor is where it was in it. -/
structure SameText (s s' : Term) : Prop where
  cols : s'.cols = s.cols
  limit : s'.scrollbackLimit = s.scrollbackLimit
  text : s'.text = s.text
  line : s'.scrollback.length + s'.cursor.row = s.scrollback.length + s.cursor.row
  col : s'.cursor.col = s.cursor.col

theorem SameText.trans {s'' : Term} (h : SameText s s') (h' : SameText s' s'') : SameText s s'' :=
  ⟨h'.cols.trans h.cols, h'.limit.trans h.limit, h'.text.trans h.text, h'.line.trans h.line, h'.col.trans h.col⟩

theorem Resized.same (hs : Settled s) (h : Resized pull shift s s') (hshift : shift ≤ s.cursor.row)
    (hpull : pull ≤ (s.pushed shift).length) (hrow : s'.cursor.row < s'.rows)
    (hkept : s'.scrollback.length ≤ s'.scrollbackLimit) :
    Settled ((range s'.rows).foldl (fun s r => s.fixWideEdge r) s') ∧
      SameText s ((range s'.rows).foldl (fun s r => s.fixWideEdge r) s') := by
  have hcols := hs.cols
  have hlast := hs.row
  have hmoved := h.row
  have hlines := length_lines s
  have hpushed : (s.pushed shift).length = s.scrollback.length + shift := by
    rw [pushed, length_append, length_take]
    omega
  have hback := congrArg length h.scrollback
  rw [length_take] at hback
  -- A line of the new text is a line of the old one, or blank.
  have hall : ∀ line ∈ s'.scrollback ++ s'.lines,
      line ∈ s.scrollback ++ s.lines ∨ line = replicate s.cols .BLANK := by
    intro line hline
    rw [h.scrollback, h.lines] at hline
    rcases mem_append.mp hline with hline | hline
    · exact .inl ((append_left (take_sublist _ _) _).subset (mem_of_mem_take hline))
    · rcases mem_append.mp (mem_of_mem_take hline) with hline | hline
      · rcases mem_append.mp hline with hline | hline
        · exact .inl ((append_left (take_sublist _ _) _).subset (mem_of_mem_drop hline))
        · exact .inl (mem_append_right _ (mem_of_mem_drop hline))
      · exact .inr (eq_of_mem_replicate hline)
  have hused : s'.lastUsedRow ≤ s'.cursor.row := by
    refine lastUsedRow_le fun r hr hlt c hc => ?_
    have hline := getElem?_lines hr
    rw [h.lines, getElem?_take, if_pos hr] at hline
    unfold resizedLines at hline
    rw [append_assoc, getElem?_append_right (by rw [length_drop]; omega)] at hline
    by_cases hin : r - pull < s.rows - shift
    · -- The line was below the cursor before.
      have hbelow : s.lines[shift + (r - pull)]? = some (s'.row r) := by
        rw [← hline, getElem?_append_left (by rw [length_drop, length_drop, hlines]; omega), getElem?_drop,
          length_drop]
        congr 1
        omega
      rw [getElem?_lines (by omega)] at hbelow
      rw [← some.inj hbelow] at hc
      exact blank_of_lastUsedRow (by omega) (lt_of_le_of_lt hs.used (by omega)) c hc
    · rw [getElem?_append_right (by rw [length_drop, length_drop, hlines]; omega)] at hline
      rw [eq_of_mem_replicate (mem_of_getElem? hline)] at hc
      exact eq_of_mem_replicate hc
  have htidy : ∀ line ∈ s'.scrollback ++ s'.lines, line.length = s'.cols ∧ ∀ c ∈ line, c.half = .plain := by
    intro line hline
    rw [h.cols]
    rcases hall line hline with hline | rfl
    · exact hs.tidy line hline
    · refine ⟨length_replicate, fun c hc => ?_⟩
      rw [eq_of_mem_replicate hc]
      exact half_plain rfl
  rw [fixWideEdges_plain (by rw [h.cols]; omega) h.grid (fun r hr => mem_range.mp hr) fun line hline =>
    (htidy line (mem_append_right _ hline)).2]
  refine ⟨⟨?_, h.grid, hrow, ?_, hkept, ?_, htidy, hused⟩, h.cols, h.limit, ?_, by omega, h.col⟩
  · rw [h.cols]
    exact hcols
  · rw [h.col, h.cols]
    exact hs.col
  · rw [h.main]
    exact hs.main
  · unfold text
    rw [max_eq_right hused, max_eq_right hs.used, h.scrollback, h.lines, take_take, min_eq_left (by omega)]
    unfold resizedLines
    rw [append_assoc, take_append, take_of_length_le (l := drop _ _) (by rw [length_drop]; omega), take_append, length_drop, length_drop, hlines,
      show s'.cursor.row + 1 - ((s.pushed shift).length - ((s.pushed shift).length - pull)) = s.cursor.row + 1 - shift by omega,
      show s.cursor.row + 1 - shift - (s.rows - shift) = 0 by omega, take_zero, append_nil, ← append_assoc, take_append_drop,
      pushed, append_assoc, ← take_add, Nat.add_sub_cancel' (by omega)]

theorem Settled.resize (hs : Settled s) (hfit : s.cols * max rows 2 < 2 ^ 64)
    (hlimit : s.scrollback.length + s.cursor.row + 1 ≤ s.scrollbackLimit + max rows 2) :
    Settled (s.resize s.cols rows) ∧ SameText s (s.resize s.cols rows) := by
  have hrow := hs.row
  have hcol := hs.col
  have hkept := hs.kept
  have hrows : 2 ≤ max rows 2 := le_max_right _ _
  unfold Term.resize
  rw [max_eq_left hs.cols]
  dsimp only
  generalize max rows 2 = rows at hfit hlimit hrows
  split
  · -- The size stays what it is.
    exact ⟨hs, rfl, rfl, rfl, rfl, rfl⟩
  -- The cursor is not pushed out of the screen, and what is pushed is not dropped.
  have hshift : s.shiftFor rows = if rows < s.rows then s.cursor.row + 1 - rows else 0 := by
    have hused := hs.used
    unfold shiftFor
    rw [hs.main]
    simp only [true_and]
    split
    · omega
    · rfl
  generalize s.shiftFor rows = shift at hshift
  have hlength : (s.pushed shift).length = s.scrollback.length + shift := by
    rw [pushed, length_append, length_take, length_lines]
    split at hshift <;> omega
  have hpushed : ∃ ok, s.pushRows shift = { s with crashed := ok, scrollback := s.pushed shift } := by
    have hlines := scrollback_pushRows (n := shift) hkept (by split at hshift <;> omega)
    rw [← pushed, keepLast_of_le (by split at hshift <;> omega)] at hlines
    exact ⟨_, congrArg (fun kept => { s.check (shift * s.cols ≤ s.grid.length) with scrollback := kept }) hlines⟩
  obtain ⟨ok, hpushed⟩ := hpushed
  rw [hpushed]
  -- Lines are only pulled when there is room for them below the old screen, and then none were pushed.
  generalize ht : ({ s with crashed := ok, scrollback := s.pushed shift } : Term) = t
  have hpull := pullFor_le t rows
  have hroom : t.pullFor rows = 0 ∨ t.pullFor rows + s.rows ≤ rows := by
    rw [← ht]
    unfold pullFor
    dsimp only
    split <;> omega
  generalize t.pullFor rows = pull at hpull hroom
  subst ht
  dsimp only at hpull
  refine Resized.same hs (show Resized pull shift s _ from ⟨rfl, rfl, rfl, ?_, rfl, ?_, ?_, ?_⟩) ?_ hpull.2 ?_ ?_
  · exact length_movedGrid _ _ (length_pulledGrid hfit hpull.1 _)
  · refine lines_ext rfl ?_ fun r hr => ?_
    · rw [length_take, resizedLines, length_append, length_replicate]
      exact min_eq_left (le_add_left _ _)
    · rw [getElem?_take, if_pos hr]
      exact row_resized (s := { s with crashed := ok, scrollback := s.pushed shift }) hfit hs.grid
        (fun line hline => (hs.tidy line ((append_left (take_sublist _ _) _).subset hline)).1) hpull.1 hpull.2 hr
  · show min (s.cursor.row + pull - shift) (rows - 1) + shift = _
    split at hshift <;> omega
  · show min s.cursor.col (s.cols - 1) = _
    omega
  · split at hshift <;> omega
  · show min (s.cursor.row + pull - shift) (rows - 1) < rows
    omega
  · show ((s.pushed shift).take _).length ≤ s.scrollbackLimit
    rw [length_take]
    split at hshift <;> omega

theorem Settled.resizes {counts : List Nat} (hs : Settled s) (hfit : ∀ rows ∈ counts, s.cols * max rows 2 < 2 ^ 64)
    (hlimit : ∀ rows ∈ counts, s.scrollback.length + s.cursor.row + 1 ≤ s.scrollbackLimit + max rows 2) :
    SameText s (counts.foldl (fun t rows => t.resize s.cols rows) s) := by
  induction counts generalizing s with
  | nil => exact ⟨rfl, rfl, rfl, rfl, rfl⟩
  | cons rows counts ih =>
    obtain ⟨hone, hsame⟩ := hs.resize (hfit rows mem_cons_self) (hlimit rows mem_cons_self)
    have hrest := ih hone (by rw [hsame.cols]; exact fun r hr => hfit r (mem_cons_of_mem rows hr))
      (by rw [hsame.line, hsame.limit]; exact fun r hr => hlimit r (mem_cons_of_mem rows hr))
    rw [hsame.cols] at hrest
    exact hsame.trans hrest

/-- **A change of the number of rows keeps the text**, and the cursor stays where it is in it, for any run of changes. -/
theorem resize_keeps_text {counts : List Nat} (hs : Safe s) (hmain : s.modes.altScreen = false)
    (hwidth : ∀ line ∈ s.scrollback, line.length = s.cols)
    (hplain : ∀ line ∈ s.scrollback ++ s.lines, ∀ c ∈ line, c.wide = false ∧ c.spacer = false)
    (hused : s.lastUsedRow ≤ s.cursor.row) (hfit : ∀ rows ∈ counts, s.cols * max rows 2 < 2 ^ 64)
    (hlimit : ∀ rows ∈ counts, s.scrollback.length + s.cursor.row + 1 ≤ s.scrollbackLimit + max rows 2) :
    SameText s (counts.foldl (fun t rows => t.resize s.cols rows) s) := by
  have hsettled : Settled s := by
    refine ⟨hs.cols, hs.grid, hs.cursor.1, hs.cursor.2, hs.scrollback, hmain, fun line hline => ⟨?_, fun c hc => ?_⟩, hused⟩
    · rcases mem_append.mp hline with hline | hline
      · exact hwidth line hline
      · obtain ⟨r, hr, rfl⟩ := mem_map.mp hline
        exact length_row hs.grid (mem_range.mp hr)
    · exact Half.eq_plain (hplain line hline c hc).1 (hplain line hline c hc).2
  exact hsettled.resizes hfit hlimit

/-- Three lines, of which two leave the screen and come back. -/
theorem resize_keeps_three : SameText ((new 2 3 5).feed [0x61, 0x0a, 0x62, 0x0a, 0x63])
    ([2, 5].foldl (fun t rows => t.resize 2 rows) ((new 2 3 5).feed [0x61, 0x0a, 0x62, 0x0a, 0x63])) :=
  resize_keeps_text (inv_feed (inv_new 5 ⟨by decide, by decide⟩) _).toSafe (by decide) (by decide) (by decide) (by decide) (by decide)
    (by decide)

end HamixOS.Vt.Term
