import HamixOS.Vt.Parser

namespace HamixOS.Vt

open Lib

/-!
# Operations of the screen, and the calls of its user

`apply` performs one operation of the parser, `byte` and `feed` put the two together, and `Call` lists what
a user of the terminal calls.
-/

namespace Term

/-! ### Tabs -/

/-- The next tab stop behind a column, or the last column. -/
def nextTab (s : Term) : Nat → Nat → Nat
  | 0, col => col
  | fuel + 1, col => if col < s.cols - 1 ∧ s.tabs.getD col false = false then nextTab s fuel (col + 1) else col

def tabForward (n : Nat) (s : Term) : Term :=
  let s := s.check (s.cols - 1 ≤ s.tabs.length)
  ((List.range n).foldl (fun s _ => s.setCol (min (s.nextTab s.cols (s.cursor.col + 1)) (s.cols - 1))) s).noWrap

/-- The tab stop before a column, or the first column. -/
def previousTab (s : Term) : Nat → Nat
  | 0 => 0
  | col + 1 => if s.tabs.getD col false then col else previousTab s col

def tabBackward (n : Nat) (s : Term) : Term :=
  let s := s.check (s.cursor.col ≤ s.tabs.length)
  ((List.range n).foldl (fun s _ => s.setCol (s.previousTab s.cursor.col)) s).noWrap

def setTab (col : Nat) (on : Bool) (s : Term) : Term :=
  { s.check (col < s.tabs.length) with tabs := s.tabs.set col on }

/-! ### Editing -/

def insertChars (n : Nat) (s : Term) : Term :=
  let row := s.cursor.row
  let col := s.cursor.col
  let s := s.check (col ≤ s.cols)
  let n := min n (s.cols - col)
  let start := row * s.cols + col
  let stop := (row + 1) * s.cols
  let s := s.clearWideAt row col
  let s := s.copyCells start (stop - n) (start + n)
  let s := s.clearCells start (start + n)
  (s.fixWideEdge row).noWrap

def deleteChars (n : Nat) (s : Term) : Term :=
  let row := s.cursor.row
  let col := s.cursor.col
  let s := s.check (col ≤ s.cols)
  let n := min n (s.cols - col)
  let start := row * s.cols + col
  let stop := (row + 1) * s.cols
  let s := s.clearWideAt row col
  let s := s.copyCells (start + n) stop start
  let s := s.clearCells (stop - n) stop
  (s.fixWideEdge row).noWrap

def eraseChars (n : Nat) (s : Term) : Term :=
  let row := s.cursor.row
  let col := s.cursor.col
  let base := row * s.cols
  let s := s.check (col ≤ s.cols)
  let n := min n (s.cols - col)
  let s := (s.clearWideAt row col).check (1 ≤ col + n)
  let s := s.clearWideAt row (col + n - 1)
  (s.clearCells (base + col) (base + col + n)).noWrap

def clearScrollback (s : Term) : Term := { s with scrollback := [], clearedScrollback := true }

def eraseDisplay (what : Nat) (s : Term) : Term :=
  let pos := s.cursor.row * s.cols + s.cursor.col
  match what with
  | 0 => (s.clearWideAt s.cursor.row s.cursor.col).clearCells pos s.grid.length
  | 1 => (s.clearWideAt s.cursor.row s.cursor.col).clearCells 0 (pos + 1)
  | 2 => s.clearCells 0 s.grid.length
  | 3 => s.clearScrollback
  | _ => s

def eraseLine (what : Nat) (s : Term) : Term :=
  let row := s.cursor.row
  let base := row * s.cols
  let col := s.cursor.col
  match what with
  | 0 => (s.clearWideAt row col).clearCells (base + col) (base + s.cols)
  | 1 => (s.clearWideAt row col).clearCells base (base + col + 1)
  | 2 => s.clearCells base (base + s.cols)
  | _ => s

/-- The cursor is between the margins. -/
def inRegion (s : Term) : Bool := s.top ≤ s.cursor.row ∧ s.cursor.row ≤ s.bottom

def insertLines (n : Nat) (s : Term) : Term :=
  if s.inRegion then ((s.scrollDownRegion s.cursor.row s.bottom n).setCol 0).noWrap else s

def deleteLines (n : Nat) (s : Term) : Term :=
  if s.inRegion then
    let row := s.cursor.row
    let s := s.check (row ≤ s.bottom + 1)
    let n := min n (s.bottom + 1 - row)
    ((s.rowsUp row s.bottom n).setCol 0).noWrap
  else s

/-- `ESC # 8`. -/
def align (s : Term) : Term := { s with grid := s.grid.map fun _ => { Cell.BLANK with ch := 'E' } }.markAllDirty

/-! ### Cursor and margins -/

def up (n : Nat) (s : Term) : Term :=
  (s.setRow (max (s.cursor.row - n) (if s.top ≤ s.cursor.row then s.top else 0))).noWrap

def down (n : Nat) (s : Term) : Term :=
  (s.setRow (min (s.cursor.row + n) (if s.cursor.row ≤ s.bottom then s.bottom else s.rows - 1))).noWrap

/-- The default of the second parameter is the number of rows as a 32-bit number, and one less than zero
    wraps. -/
def setMargins (p : Parser) (s : Term) : Term :=
  let top := p.param 0 1 - 1
  let last := min (p.param 1 (s.rows % 2 ^ 32)) s.rows
  let s := s.check (1 ≤ last)
  let bottom := (last + (2 ^ 64 - 1)) % 2 ^ 64
  if top < bottom then { s with top := top, bottom := bottom }.moveTo 0 0 else s

def saveCursor (s : Term) : Term :=
  if s.modes.altScreen then { s with savedAlt := s.cursor } else { s with savedMain := s.cursor }

/-- The cursor, inside of the screen. -/
def clamp (c : Cursor) (s : Term) : Cursor := { c with row := min c.row (s.rows - 1), col := min c.col (s.cols - 1) }

def restoreCursor (s : Term) : Term :=
  let saved := if s.modes.altScreen then s.savedAlt else s.savedMain
  let s := s.mark s.cursor.row
  let s := { s with cursor := s.clamp saved }
  let s := { s with modes := { s.modes with origin := s.cursor.origin } }
  s.mark s.cursor.row

def softReset (s : Term) : Term :=
  { s with
    modes := { s.modes with
      insert := false
      origin := false
      autowrap := true
      cursorVisible := true
      appCursor := false
      appKeypad := false }
    top := 0
    bottom := s.rows - 1
    cursor := { s.cursor with pen := .BLANK, origin := false, charsets := fun _ => .ascii, shift := 0 }
    savedMain := .new
    savedAlt := .new }

/-- The histories go on. -/
def reset (s : Term) : Term :=
  { new s.cols s.rows s.scrollbackLimit with scrollback := s.scrollback, crashed := s.crashed, visited := s.visited }

/-! ### The alternate screen and the modes -/

def enterAltScreen (clear : Bool) (s : Term) : Term :=
  if s.modes.altScreen then if clear then s.clearCells 0 s.grid.length else s
  else
    { s with
      grid := List.replicate (size s.cols s.rows) .BLANK
      savedScreen := some s.grid
      modes := { s.modes with altScreen := true }
      top := 0
      bottom := s.rows - 1 }.markAllDirty

def leaveAltScreen (s : Term) : Term :=
  if s.modes.altScreen then
    { s with
      grid := s.savedScreen.getD s.grid
      savedScreen := none
      modes := { s.modes with altScreen := false }
      top := 0
      bottom := s.rows - 1 }.markAllDirty
  else s

/-- One mode of `private_modes`. -/
def privateMode (mode : Nat) (on : Bool) (s : Term) : Term :=
  match mode with
  | 1 => { s with modes := { s.modes with appCursor := on } }
  | 5 => { s with modes := { s.modes with reverseVideo := on } }.markAllDirty
  | 6 => { s with modes := { s.modes with origin := on }, cursor := { s.cursor with origin := on } }.moveTo 0 0
  | 7 => { s with modes := { s.modes with autowrap := on } }
  | 9 => { s with modes := { s.modes with mouse := if on then .x10 else .off } }
  | 12 => { s with modes := { s.modes with cursorBlink := on } }
  | 25 => { s with modes := { s.modes with cursorVisible := on } }.mark s.cursor.row
  | 47 => if on then s.enterAltScreen false else s.leaveAltScreen
  | 1047 =>
    if on then s.enterAltScreen true
    else (if s.modes.altScreen then s.clearCells 0 s.grid.length else s).leaveAltScreen
  | 1048 => if on then s.saveCursor else s.restoreCursor
  | 1049 =>
    if on then
      let s := { s with savedMain := s.cursor }.enterAltScreen true
      s.clearCells 0 s.grid.length
    else
      let s := s.leaveAltScreen
      { s with cursor := s.clamp s.savedMain }
  | 1000 => { s with modes := { s.modes with mouse := if on then .normal else .off } }
  | 1002 => { s with modes := { s.modes with mouse := if on then .button else .off } }
  | 1003 => { s with modes := { s.modes with mouse := if on then .any else .off } }
  | 1004 => { s with modes := { s.modes with focusEvents := on } }
  | 1005 => { s with modes := { s.modes with mouseEncoding := if on then .utf8 else .default } }
  | 1006 => { s with modes := { s.modes with mouseEncoding := if on then .sgr else .default } }
  | 1007 => { s with modes := { s.modes with alternateScroll := on } }
  | 1015 => { s with modes := { s.modes with mouseEncoding := if on then .urxvt else .default } }
  | 2004 => { s with modes := { s.modes with bracketedPaste := on } }
  | _ => s

/-! ### Answers -/

def respond (text : String) (s : Term) : Term := { s with responses := s.responses ++ Utf8.encode text.toList }

/-- Row and column, from one on. -/
def reportedPosition (s : Term) : Nat × Nat :=
  ((if s.cursor.origin then s.cursor.row - s.top else s.cursor.row) + 1, s.cursor.col + 1)

def oscDispatch (bytes : Bytes) (s : Term) : Term :=
  let text := fromUtf8Lossy bytes
  let (code, rest) := (Text.splitOnce ';' text).getD (text, [])
  if code = "0".toList ∨ code = "2".toList then { s with title := some rest }
  else if (code = "10".toList ∨ code = "11".toList) ∧ rest = "?".toList then
    s.respond ("\x1b]" ++ String.ofList code ++ ";" ++
      (if code = "10".toList then "rgb:d9d9/dddd/e5e5" else "rgb:1313/1515/1919") ++ "\x1b\\")
  else s

/-! ### One operation -/

def apply (s : Term) : Op → Term
  | .print ch => s.print ch
  | .again n => (List.range n).foldl (fun t _ => t.print s.lastChar) s
  | .bell => { s with bell := true }
  | .backspace =>
    if s.cursor.pendingWrap then s.noWrap
    else if 0 < s.cursor.col then s.setCol (s.cursor.col - 1)
    else s
  | .tabForward n => s.tabForward n
  | .tabBackward n => s.tabBackward n
  | .newline =>
    let s := s.lineFeed
    if s.modes.newline then s.setCol 0 else s
  | .carriageReturn => (s.setCol 0).noWrap
  | .shift set => { s with cursor := { s.cursor with shift := set } }
  | .saveCursor => s.saveCursor
  | .restoreCursor => s.restoreCursor
  | .lineFeed => s.lineFeed
  | .nextLine => (s.setCol 0).lineFeed
  | .setTab => s.setTab s.cursor.col true
  | .reverseIndex => s.reverseIndex
  | .reset => s.reset.markAllDirty
  | .keypad on => { s with modes := { s.modes with appKeypad := on } }
  | .charset slot set => { s with cursor := { s.cursor with charsets := Function.update s.cursor.charsets slot set } }
  | .align => s.align
  | .insertChars n => s.insertChars n
  | .up n => s.up n
  | .down n => s.down n
  | .right n => (s.setCol (min (s.cursor.col + n) (s.cols - 1))).noWrap
  | .left n => (s.setCol (s.cursor.col - n)).noWrap
  | .nextLines n => (s.down n).setCol 0
  | .previousLines n => (s.up n).setCol 0
  | .column n => (s.setCol (min (n - 1) (s.cols - 1))).noWrap
  | .position row col => s.moveTo row col
  | .eraseDisplay what => s.eraseDisplay what
  | .eraseLine what => s.eraseLine what
  | .insertLines n => s.insertLines n
  | .deleteLines n => s.deleteLines n
  | .deleteChars n => s.deleteChars n
  | .scrollUp n => s.scrollUpRegion s.top s.bottom n
  | .scrollDown n => s.scrollDownRegion s.top s.bottom n
  | .eraseChars n => s.eraseChars n
  | .rowTo n => s.moveTo (n - 1) s.cursor.col
  | .clearTab what =>
    match what with
    | 0 => s.setTab s.cursor.col false
    | 3 => { s with tabs := s.tabs.map fun _ => false }
    | _ => s
  | .ansiMode mode on =>
    match mode with
    | 4 => { s with modes := { s.modes with insert := on } }
    | 20 => { s with modes := { s.modes with newline := on } }
    | _ => s
  | .privateMode mode on => s.privateMode mode on
  | .sgr p => { s with cursor := { s.cursor with pen := p.sgr s.cursor.pen } }
  | .margins p => s.setMargins p
  | .reportPosition query =>
    let (row, col) := s.reportedPosition
    s.respond ((if query then "\x1b[?" else "\x1b[") ++ toString row ++ ";" ++ toString col ++ "R")
  | .reportSize => s.respond ("\x1b[8;" ++ toString s.rows ++ ";" ++ toString s.cols ++ "t")
  | .respond text => s.respond text
  | .softReset => s.softReset
  | .osc bytes => s.oscDispatch bytes

def byte (s : Term) (b : UInt8) : Term := (s.parser.byte b).2.foldl apply { s with parser := (s.parser.byte b).1 }

def feed (s : Term) (bytes : Bytes) : Term := bytes.foldl byte s

/-! ### Calls -/

/-- The last row that is not blank. -/
def lastUsedRow (s : Term) : Nat :=
  ((List.range s.rows).reverse.find? fun r => (s.row r).any fun c => c ≠ .BLANK).getD 0

/-- How many rows at the top go into the scrollback when the screen gets less of them. -/
def shiftFor (rows : Nat) (s : Term) : Nat :=
  if s.modes.altScreen = false ∧ rows < s.rows then
    min (min (max (s.cursor.row + 1) (s.lastUsedRow + 1)) s.rows - rows) s.cursor.row
  else 0

/-- How many lines come back out of the scrollback when it gets more of them. -/
def pullFor (rows : Nat) (s : Term) : Nat :=
  if s.modes.altScreen = false ∧ s.rows < rows ∧ 0 < s.scrollbackLimit then min (rows - s.rows) s.scrollback.length else 0

/-- The last `pull` lines, above the rows that are kept. -/
def pulledGrid (cols rows pull : Nat) (s : Term) : List Cell :=
  (List.range pull).foldl (fun grid i =>
    overwrite grid ((pull - 1 - i) * cols) ((s.scrollback.reverse.getD i []).take cols)) (List.replicate (size cols rows) .BLANK)

/-- The rows from `shift` on, below the first `pull` ones. -/
def movedGrid (cols rows pull shift : Nat) (s : Term) (grid : List Cell) : List Cell :=
  (List.range (rows - pull)).foldl (fun grid r =>
    if s.rows ≤ r + shift then grid else overwrite grid ((r + pull) * cols) ((s.row (r + shift)).take cols)) grid

/-- The rows of the screen that is put away. -/
def resizedScreen (cols rows : Nat) (s : Term) (saved : List Cell) : List Cell :=
  (List.range (min rows s.rows)).foldl (fun grid r =>
    overwrite grid (r * cols) (((saved.drop (r * s.cols)).take s.cols).take cols)) (List.replicate (size cols rows) .BLANK)

def resize (cols rows : Nat) (s : Term) : Term :=
  let cols := max cols 2
  let rows := max rows 2
  if cols = s.cols ∧ rows = s.rows then s
  else
    let shift := s.shiftFor rows
    let s := s.pushRows shift
    let pull := s.pullFor rows
    -- The ranges of the rows on both sides of the copies.
    let s := s.check (s.rows * s.cols ≤ s.grid.length ∧ rows * cols ≤ size cols rows ∧ pull ≤ s.scrollback.length ∧ pull ≤ rows ∧
      ∀ saved, s.savedScreen = some saved → s.rows * s.cols ≤ saved.length)
    let s := { s with
      grid := s.movedGrid cols rows pull shift (s.pulledGrid cols rows pull)
      scrollback := s.scrollback.take (s.scrollback.length - pull)
      savedScreen := s.savedScreen.map (s.resizedScreen cols rows)
      cols
      rows
      cursor := { s.cursor with
        row := min (s.cursor.row + pull - shift) (rows - 1)
        col := min s.cursor.col (cols - 1)
        pendingWrap := false }
      savedMain := { s.savedMain with row := min s.savedMain.row (rows - 1), col := min s.savedMain.col (cols - 1) }
      savedAlt := { s.savedAlt with row := min s.savedAlt.row (rows - 1), col := min s.savedAlt.col (cols - 1) }
      top := 0
      bottom := rows - 1
      tabs := defaultTabs cols
      dirty := List.replicate rows true }
    (List.range rows).foldl (fun s r => s.fixWideEdge r) s

def setScrollbackLimit (limit : Nat) (s : Term) : Term :=
  { s with scrollbackLimit := limit, scrollback := s.scrollback.drop (s.scrollback.length - limit) }

def clearDirty (s : Term) : Term := { s with dirty := s.dirty.map fun _ => false, visited := [] }

end Term

/-- What a user of the terminal calls. -/
inductive Call where
  | feed (bytes : Bytes)
  | resize (cols rows : Nat)
  | reset
  | setScrollbackLimit (limit : Nat)
  | clearScrollback
  | setPen (pen : Cell)
  | clearDirty
  | markAllDirty
  | markDirty (row : Nat)
  | takeScrolled
  | takeScrollbackCleared
  | takeResponses
  | takeTitle
  | takeBell

def Term.step (s : Term) : Call → Term
  | .feed bytes => s.feed bytes
  | .resize cols rows => s.resize cols rows
  | .reset => s.reset
  | .setScrollbackLimit limit => s.setScrollbackLimit limit
  | .clearScrollback => s.clearScrollback
  | .setPen pen => { s with cursor := { s.cursor with pen := pen } }
  | .clearDirty => s.clearDirty
  | .markAllDirty => s.markAllDirty
  | .markDirty row => if row < s.rows then s.mark row else s
  | .takeScrolled => { s with scrolled := 0 }
  | .takeScrollbackCleared => { s with clearedScrollback := false }
  | .takeResponses => { s with responses := [] }
  | .takeTitle => { s with title := none }
  | .takeBell => { s with bell := false }

end HamixOS.Vt
