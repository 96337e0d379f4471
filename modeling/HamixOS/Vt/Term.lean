import HamixOS.Lib.Bytes
import HamixOS.Lib.Slices
import HamixOS.Lib.Utf8
import HamixOS.Vt.Width

namespace HamixOS.Vt

open Lib

/-!
# The screen of a terminal (`crates/hxvt/src/lib.rs`)

The source keeps the escape sequence parser and the screen in one `Term`.  Here the parser is a record of
its own, and this module is about the rest: the grid, the cursor, the margins, and every operation that the
parser asks for.

An access out of range or an index below zero sets `crashed`; the code would panic there.  `visited` is a
history that no operation reads: the rows that `setRow` left or entered since the damage was last cleared.
-/

inductive Color where
  | default
  | indexed (n : UInt8)
  | rgb (r g b : UInt8)
  deriving DecidableEq

def BOLD : UInt16 := 1
def DIM : UInt16 := 2
def ITALIC : UInt16 := 4
def UNDERLINE : UInt16 := 8
def BLINK : UInt16 := 16
def REVERSE : UInt16 := 32
def INVISIBLE : UInt16 := 64
def STRIKE : UInt16 := 128
def WIDE : UInt16 := 256
def WIDE_SPACER : UInt16 := 512

structure Cell where
  ch : Char
  fg : Color
  bg : Color
  flags : UInt16
  deriving DecidableEq

def Cell.BLANK : Cell := ⟨' ', .default, .default, 0⟩

def Cell.wide (c : Cell) : Bool := c.flags &&& WIDE ≠ 0

def Cell.spacer (c : Cell) : Bool := c.flags &&& WIDE_SPACER ≠ 0

/-- The cell as a blank half of a wide character that lost its other half. -/
def Cell.halved (c : Cell) : Cell := { c with ch := ' ', flags := c.flags &&& ~~~(WIDE ||| WIDE_SPACER) }

inductive MouseMode where
  | off
  | x10
  | normal
  | button
  | any
  deriving DecidableEq

inductive MouseEncoding where
  | default
  | utf8
  | sgr
  | urxvt
  deriving DecidableEq

structure Modes where
  appCursor : Bool
  appKeypad : Bool
  autowrap : Bool
  origin : Bool
  insert : Bool
  newline : Bool
  cursorVisible : Bool
  cursorBlink : Bool
  reverseVideo : Bool
  bracketedPaste : Bool
  focusEvents : Bool
  altScreen : Bool
  mouse : MouseMode
  mouseEncoding : MouseEncoding
  alternateScroll : Bool
  deriving DecidableEq

def Modes.new : Modes where
  appCursor := false
  appKeypad := false
  autowrap := true
  origin := false
  insert := false
  newline := false
  cursorVisible := true
  cursorBlink := true
  reverseVideo := false
  bracketedPaste := false
  focusEvents := false
  altScreen := false
  mouse := .off
  mouseEncoding := .default
  alternateScroll := true

structure Cursor where
  row : Nat
  col : Nat
  pen : Cell
  pendingWrap : Bool
  origin : Bool
  charsets : Fin 4 → Charset
  shift : Fin 4

def Cursor.new : Cursor := ⟨0, 0, .BLANK, false, false, fun _ => .ascii, 0⟩

inductive State where
  | ground
  | escape
  | escapeIntermediate
  | csi
  | csiIgnore
  | osc
  | oscEscape
  | stringIgnore
  | stringEscape
  deriving DecidableEq

def MAX_PARAMS : Nat := 32

/-- What the parser remembers between two bytes. -/
structure Parser where
  state : State
  params : List Nat
  colon : List Bool
  paramCount : Nat
  paramStarted : Bool
  «private» : UInt8
  intermediate : UInt8
  osc : Bytes
  utf8 : Bytes
  utf8Len : Nat
  utf8Need : Nat
  crashed : Bool
  deriving DecidableEq

def Parser.new : Parser where
  state := .ground
  params := List.replicate MAX_PARAMS 0
  colon := List.replicate MAX_PARAMS false
  paramCount := 0
  paramStarted := false
  «private» := 0
  intermediate := 0
  osc := []
  utf8 := zeros 4
  utf8Len := 0
  utf8Need := 0
  crashed := false

structure Term where
  cols : Nat
  rows : Nat
  grid : List Cell
  savedScreen : Option (List Cell)
  scrollback : List (List Cell)
  scrollbackLimit : Nat
  cursor : Cursor
  savedMain : Cursor
  savedAlt : Cursor
  top : Nat
  bottom : Nat
  tabs : List Bool
  modes : Modes
  parser : Parser
  lastChar : Char
  dirty : List Bool
  responses : Bytes
  title : Option Text
  bell : Bool
  scrolled : Nat
  clearedScrollback : Bool
  crashed : Bool
  visited : List Nat

/-- A product of two sizes, which wraps. -/
def size (cols rows : Nat) : Nat := cols * rows % 2 ^ 64

def defaultTabs (cols : Nat) : List Bool := (List.range cols).map fun c => 0 < c ∧ c % 8 = 0

namespace Term

def new (cols rows scrollbackLimit : Nat) : Term :=
  let cols := max cols 2
  let rows := max rows 2
  { cols
    rows
    grid := List.replicate (size cols rows) .BLANK
    savedScreen := none
    scrollback := []
    scrollbackLimit
    cursor := .new
    savedMain := .new
    savedAlt := .new
    top := 0
    bottom := rows - 1
    tabs := defaultTabs cols
    modes := .new
    parser := .new
    lastChar := ' '
    dirty := List.replicate rows true
    responses := []
    title := none
    bell := false
    scrolled := 0
    clearedScrollback := false
    crashed := false
    visited := [] }

/-! ### Accesses -/

/-- The code goes on only if `ok`. -/
def check (ok : Prop) [Decidable ok] (s : Term) : Term := { s with crashed := s.crashed || !decide ok }

def cellAt (i : Nat) (s : Term) : Cell := s.grid.getD i .BLANK

def put (i : Nat) (c : Cell) (s : Term) : Term := { s.check (i < s.grid.length) with grid := s.grid.set i c }

/-- The cells from `first` up to `last` are copied to `dest`. -/
def copyCells (first last dest : Nat) (s : Term) : Term :=
  { s.check (first ≤ last ∧ last ≤ s.grid.length ∧ dest + (last - first) ≤ s.grid.length) with
    grid := copyWithin s.grid first last dest }

def mark (row : Nat) (s : Term) : Term := { s.check (row < s.dirty.length) with dirty := s.dirty.set row true }

/-- The rows from `first` to `last`. -/
def markRows (first last : Nat) (s : Term) : Term :=
  { s.check (last < s.dirty.length) with dirty := fill s.dirty first (last + 1) true }

def markAllDirty (s : Term) : Term := { s with dirty := s.dirty.map fun _ => true }

def row (r : Nat) (s : Term) : List Cell := (s.grid.drop (r * s.cols)).take s.cols

def setCol (col : Nat) (s : Term) : Term := { s with cursor := { s.cursor with col := col } }

/-- A wrap that was pending is not any more. -/
def noWrap (s : Term) : Term := { s with cursor := { s.cursor with pendingWrap := false } }

/-! ### Rows and regions -/

def blank (s : Term) : Cell := ⟨' ', .default, s.cursor.pen.bg, 0⟩

/-- A line goes into the scrollback, which is cut to its limit. -/
def pushScrollback (limit : Nat) (scrollback : List (List Cell)) (line : List Cell) : List (List Cell) :=
  if limit = 0 then scrollback else (scrollback ++ [line]).drop (scrollback.length + 1 - limit)

/-- The first `n` rows go into the scrollback. -/
def pushRows (n : Nat) (s : Term) : Term :=
  { s.check (n * s.cols ≤ s.grid.length) with
    scrollback := (List.range n).foldl (fun lines r => pushScrollback s.scrollbackLimit lines (s.row r)) s.scrollback }

def clearCells (first last : Nat) (s : Term) : Term :=
  let last := min last s.grid.length
  if last ≤ first then s
  else { s with grid := fill s.grid first last s.blank }.markRows (first / s.cols) ((last - 1) / s.cols)

def fixWideEdge (row : Nat) (s : Term) : Term :=
  let last := row * s.cols + s.cols - 1
  let s := s.check (last < s.grid.length)
  let s := if (s.cellAt last).wide then s.put last .BLANK else s
  let first := row * s.cols
  if (s.cellAt first).spacer then s.put first .BLANK else s

/-- The rows that leave the main screen at its top go into the scrollback. -/
def scrollOut (top bottom n : Nat) (s : Term) : Term :=
  if top = 0 ∧ s.modes.altScreen = false ∧ bottom = s.rows - 1 then
    { s.pushRows n with scrolled := (s.scrolled + n) % 2 ^ 64 }
  else s

/-- The rows from `top` to `bottom` move up by `n`. -/
def rowsUp (top bottom n : Nat) (s : Term) : Term :=
  let s := s.copyCells ((top + n) * s.cols) ((bottom + 1) * s.cols) (top * s.cols)
  let s := s.clearCells ((bottom + 1 - n) * s.cols) ((bottom + 1) * s.cols)
  s.markRows top bottom

/-- They move down by `n`. -/
def rowsDown (top bottom n : Nat) (s : Term) : Term :=
  let s := s.copyCells (top * s.cols) ((bottom + 1 - n) * s.cols) ((top + n) * s.cols)
  let s := s.clearCells (top * s.cols) ((top + n) * s.cols)
  s.markRows top bottom

def scrollUpRegion (top bottom n : Nat) (s : Term) : Term :=
  let s := s.check (top ≤ bottom + 1)
  let n := min n (bottom + 1 - top)
  if n = 0 then s else (s.scrollOut top bottom n).rowsUp top bottom n

def scrollDownRegion (top bottom n : Nat) (s : Term) : Term :=
  let s := s.check (top ≤ bottom + 1)
  let n := min n (bottom + 1 - top)
  if n = 0 then s else s.rowsDown top bottom n

def setRow (row : Nat) (s : Term) : Term :=
  let s := (s.mark s.cursor.row).check (1 ≤ s.rows)
  let s := { s with
    visited := s.cursor.row :: min row (s.rows - 1) :: s.visited
    cursor := { s.cursor with row := min row (s.rows - 1) } }
  s.mark s.cursor.row

def lineFeed (s : Term) : Term :=
  let s := s.noWrap
  if s.cursor.row = s.bottom then s.scrollUpRegion s.top s.bottom 1
  else if s.cursor.row < s.rows - 1 then s.setRow (s.cursor.row + 1)
  else s

def reverseIndex (s : Term) : Term :=
  let s := s.noWrap
  if s.cursor.row = s.top then s.scrollDownRegion s.top s.bottom 1
  else if 0 < s.cursor.row then s.setRow (s.cursor.row - 1)
  else s

/-- `clamp` panics if its bounds are in the wrong order. -/
def moveTo (row col : Nat) (s : Term) : Term :=
  let minRow := if s.cursor.origin then s.top else 0
  let maxRow := if s.cursor.origin then s.bottom else s.rows - 1
  let row := if s.cursor.origin then row + s.top else row
  let s := (s.check (minRow ≤ maxRow)).setRow (min (max row minRow) maxRow)
  (s.setCol (min col (s.cols - 1))).noWrap

/-! ### Printing -/

def clearWideAt (row col : Nat) (s : Term) : Term :=
  if s.cols ≤ col then s
  else
    let base := row * s.cols
    let s := s.check (base + col < s.grid.length)
    let cell := s.cellAt (base + col)
    let s := if cell.wide ∧ col + 1 < s.cols then s.put (base + col + 1) cell.halved else s
    if cell.spacer ∧ 0 < col then s.put (base + col - 1) (s.cellAt (base + col - 1)).halved else s

/-- The wrap that the last character left pending. -/
def wrapPending (s : Term) : Term :=
  if s.cursor.pendingWrap then
    let s := if s.modes.autowrap then (s.setCol 0).lineFeed else s
    s.noWrap
  else s

/-- A wide character does not fit into the last column. -/
def wrapWide (width : Nat) (s : Term) : Term :=
  if width = 2 ∧ s.cols ≤ s.cursor.col + 1 then
    if s.modes.autowrap then ((s.put (s.cursor.row * s.cols + s.cursor.col) s.blank).setCol 0).lineFeed
    else (s.check (2 ≤ s.cols)).setCol (s.cols - 2)
  else s

/-- In insert mode, the rest of the row makes room. -/
def makeRoom (width : Nat) (s : Term) : Term :=
  if s.modes.insert then
    let start := s.cursor.row * s.cols + s.cursor.col
    let stop := s.cursor.row * s.cols + s.cols
    if start + width < stop then s.copyCells start (stop - width) (start + width) else s
  else s

/-- The pen as a cell of a character. -/
def penCell (ch : Char) (s : Term) : Cell := { s.cursor.pen.halved with ch := ch }

/-- Wide characters lose the half that is about to be overwritten. -/
def openCells (width : Nat) (s : Term) : Term :=
  let s := s.clearWideAt s.cursor.row s.cursor.col
  if width = 2 then s.clearWideAt s.cursor.row (s.cursor.col + 1) else s

/-- The cells of the character. -/
def write (ch : Char) (width : Nat) (s : Term) : Term :=
  let base := s.cursor.row * s.cols
  let col := s.cursor.col
  let cell := s.penCell ch
  if width = 2 then
    let cell := { cell with flags := cell.flags ||| WIDE }
    let spacer := { cell with ch := ' ', flags := (cell.flags &&& ~~~WIDE) ||| WIDE_SPACER }
    (s.put (base + col) cell).put (base + col + 1) spacer
  else s.put (base + col) cell

/-- The character is in the grid, and its row is dirty. -/
def stamp (ch : Char) (width : Nat) (s : Term) : Term :=
  (((s.makeRoom width).openCells width).write ch width).mark s.cursor.row

/-- The cursor moves behind the character, or waits at the end of the row. -/
def advance (width : Nat) (s : Term) : Term :=
  if s.cols ≤ s.cursor.col + width then { s with cursor := { s.cursor with col := s.cols - 1, pendingWrap := true } }
  else s.setCol (s.cursor.col + width)

def place (ch : Char) (width : Nat) (s : Term) : Term := (s.stamp ch width).advance width

def translate (ch : Char) (s : Term) : Char := (s.cursor.charsets s.cursor.shift).translate ch

def print (ch : Char) (s : Term) : Term :=
  let ch := s.translate ch
  let width := charWidth ch
  if width = 0 then s
  else (({ s with lastChar := ch }.wrapPending).wrapWide width).place ch width

end Term

end HamixOS.Vt
