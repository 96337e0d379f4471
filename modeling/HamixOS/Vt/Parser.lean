import HamixOS.Vt.Term

namespace HamixOS.Vt

open Lib

/-!
# The escape sequence parser

`byte` turns a byte into the next state of the parser and the operations that it asks of the screen, in
the order in which the source performs them.
-/

/-- What a byte asks of the screen. -/
inductive Op where
  | print (ch : Char)
  | again (n : Nat)
  | bell
  | backspace
  | tabForward (n : Nat)
  | tabBackward (n : Nat)
  | newline
  | carriageReturn
  | shift (set : Fin 4)
  | saveCursor
  | restoreCursor
  | lineFeed
  | nextLine
  | setTab
  | reverseIndex
  | reset
  | keypad (on : Bool)
  | charset (slot : Fin 4) (set : Charset)
  | align
  | insertChars (n : Nat)
  | up (n : Nat)
  | down (n : Nat)
  | right (n : Nat)
  | left (n : Nat)
  | nextLines (n : Nat)
  | previousLines (n : Nat)
  | column (n : Nat)
  | position (row col : Nat)
  | eraseDisplay (what : Nat)
  | eraseLine (what : Nat)
  | insertLines (n : Nat)
  | deleteLines (n : Nat)
  | deleteChars (n : Nat)
  | scrollUp (n : Nat)
  | scrollDown (n : Nat)
  | eraseChars (n : Nat)
  | rowTo (n : Nat)
  | clearTab (what : Nat)
  | ansiMode (mode : Nat) (on : Bool)
  | privateMode (mode : Nat) (on : Bool)
  | sgr (p : Parser)
  | margins (p : Parser)
  | reportPosition (query : Bool)
  | reportSize
  | respond (text : String)
  | softReset
  | osc (bytes : Bytes)

namespace Parser

variable (p : Parser)

def check (ok : Prop) [Decidable ok] : Parser := { p with crashed := p.crashed || !decide ok }

/-! ### Parameters -/

def param (index default : Nat) : Nat :=
  if index < p.paramCount ∧ p.params.getD index 0 ≠ 0 then p.params.getD index 0 else default

def paramRaw (index : Nat) : Nat := if index < p.paramCount then p.params.getD index 0 else 0

/-- A parameter as a byte. -/
def level (index : Nat) : UInt8 := UInt8.ofNat (min (p.paramRaw index) 255)

/-- The end of the parameters from `i` on that follow a colon. -/
def colonEnd : Nat → Nat → Nat
  | 0, i => i
  | fuel + 1, i => if i < p.paramCount ∧ p.colon.getD i false then colonEnd fuel (i + 1) else i

/-- `extended_color`: a color, and the number of parameters it takes. -/
def extendedColor (i : Nat) : Option Color × Nat :=
  let colon : Bool := i + 1 < p.paramCount ∧ p.colon.getD (i + 1) false
  match p.paramRaw (i + 1) with
  | 5 => (some (.indexed (p.level (i + 2))), 2)
  | 2 =>
    if colon then
      let stop := p.colonEnd p.paramCount (i + 2)
      let first := if 4 ≤ stop - (i + 2) then i + 3 else i + 2
      (some (.rgb (p.level first) (p.level (first + 1)) (p.level (first + 2))), stop - i - 1)
    else (some (.rgb (p.level (i + 2)) (p.level (i + 3)) (p.level (i + 4))), 4)
  | _ => (none, if colon then 1 else 0)

/-- One attribute of `sgr`: the pen, and the index of the last parameter it takes. -/
def sgrAt (i : Nat) (pen : Cell) : Cell × Nat :=
  let count := max p.paramCount 1
  let a := p.paramRaw i
  if a = 0 then ({ pen with fg := .default, bg := .default, flags := 0 }, i)
  else if a = 1 then ({ pen with flags := pen.flags ||| BOLD }, i)
  else if a = 2 then ({ pen with flags := pen.flags ||| DIM }, i)
  else if a = 3 then ({ pen with flags := pen.flags ||| ITALIC }, i)
  else if a = 4 then
    if i + 1 < count ∧ p.colon.getD (i + 1) false then
      if p.params.getD (i + 1) 0 = 0 then ({ pen with flags := pen.flags &&& ~~~UNDERLINE }, i + 1)
      else ({ pen with flags := pen.flags ||| UNDERLINE }, i + 1)
    else ({ pen with flags := pen.flags ||| UNDERLINE }, i)
  else if a = 5 ∨ a = 6 then ({ pen with flags := pen.flags ||| BLINK }, i)
  else if a = 7 then ({ pen with flags := pen.flags ||| REVERSE }, i)
  else if a = 8 then ({ pen with flags := pen.flags ||| INVISIBLE }, i)
  else if a = 9 then ({ pen with flags := pen.flags ||| STRIKE }, i)
  else if a = 21 then ({ pen with flags := pen.flags ||| UNDERLINE }, i)
  else if a = 22 then ({ pen with flags := pen.flags &&& ~~~(BOLD ||| DIM) }, i)
  else if a = 23 then ({ pen with flags := pen.flags &&& ~~~ITALIC }, i)
  else if a = 24 then ({ pen with flags := pen.flags &&& ~~~UNDERLINE }, i)
  else if a = 25 then ({ pen with flags := pen.flags &&& ~~~BLINK }, i)
  else if a = 27 then ({ pen with flags := pen.flags &&& ~~~REVERSE }, i)
  else if a = 28 then ({ pen with flags := pen.flags &&& ~~~INVISIBLE }, i)
  else if a = 29 then ({ pen with flags := pen.flags &&& ~~~STRIKE }, i)
  else if 30 ≤ a ∧ a ≤ 37 then ({ pen with fg := .indexed (UInt8.ofNat (a - 30)) }, i)
  else if a = 39 then ({ pen with fg := .default }, i)
  else if 40 ≤ a ∧ a ≤ 47 then ({ pen with bg := .indexed (UInt8.ofNat (a - 40)) }, i)
  else if a = 49 then ({ pen with bg := .default }, i)
  else if 90 ≤ a ∧ a ≤ 97 then ({ pen with fg := .indexed (UInt8.ofNat (a - 90 + 8)) }, i)
  else if 100 ≤ a ∧ a ≤ 107 then ({ pen with bg := .indexed (UInt8.ofNat (a - 100 + 8)) }, i)
  else if a = 38 ∨ a = 48 ∨ a = 58 then
    let (color, used) := p.extendedColor i
    match color with
    | some c => (if a = 38 then { pen with fg := c } else if a = 48 then { pen with bg := c } else pen, i + used)
    | none => (pen, i + used)
  else (pen, i)

/-- The loop of `sgr`. -/
def sgrFrom : Nat → Nat → Cell → Cell
  | 0, _, pen => pen
  | fuel + 1, i, pen =>
    if i < max p.paramCount 1 then
      let (pen, last) := p.sgrAt i pen
      sgrFrom fuel (last + 1) pen
    else pen

def sgr (pen : Cell) : Cell := p.sgrFrom (max p.paramCount 1) 0 pen

/-! ### Sequences -/

def csiDispatch (command : UInt8) : List Op :=
  let n := p.param 0 1
  let all (op : Nat → Op) : List Op := (List.range (max p.paramCount 1)).map fun i => op (p.paramRaw i)
  if p.private = '?'.toUInt8 then
    match Char.ofNat command.toNat with
    | 'h' => all fun mode => .privateMode mode true
    | 'l' => all fun mode => .privateMode mode false
    | 'n' => if p.paramRaw 0 = 6 then [.reportPosition true] else []
    | _ => []
  else if p.private = '>'.toUInt8 then
    match Char.ofNat command.toNat with
    | 'c' => [.respond "\x1b[>41;380;0c"]
    | _ => []
  else if p.private ≠ 0 then []
  else if p.intermediate ≠ 0 then
    if p.intermediate = '!'.toUInt8 ∧ command = 'p'.toUInt8 then [.softReset] else []
  else
    match Char.ofNat command.toNat with
    | '@' => [.insertChars n]
    | 'A' => [.up n]
    | 'B' | 'e' => [.down n]
    | 'C' | 'a' => [.right n]
    | 'D' => [.left n]
    | 'E' => [.nextLines n]
    | 'F' => [.previousLines n]
    | 'G' | '\x60' => [.column n]
    | 'H' | 'f' => [.position (p.param 0 1 - 1) (p.param 1 1 - 1)]
    | 'I' => [.tabForward n]
    | 'J' => [.eraseDisplay (p.paramRaw 0)]
    | 'K' => [.eraseLine (p.paramRaw 0)]
    | 'L' => [.insertLines n]
    | 'M' => [.deleteLines n]
    | 'P' => [.deleteChars n]
    | 'S' => [.scrollUp n]
    | 'T' => if p.paramCount ≤ 1 then [.scrollDown n] else []
    | 'X' => [.eraseChars n]
    | 'Z' => [.tabBackward n]
    | 'b' => [.again (min n 65535)]
    | 'c' => if p.paramRaw 0 = 0 then [.respond "\x1b[?62;22c"] else []
    | 'd' => [.rowTo n]
    | 'g' => [.clearTab (p.paramRaw 0)]
    | 'h' => all fun mode => .ansiMode mode true
    | 'l' => all fun mode => .ansiMode mode false
    | 'm' => [.sgr p]
    | 'n' =>
      match p.paramRaw 0 with
      | 5 => [.respond "\x1b[0n"]
      | 6 => [.reportPosition false]
      | _ => []
    | 'r' => [.margins p]
    | 's' => [.saveCursor]
    | 'u' => [.restoreCursor]
    | 't' => if p.paramRaw 0 = 18 then [.reportSize] else []
    | _ => []

def csiByte (b : UInt8) : Parser × List Op :=
  if '0'.toUInt8 ≤ b ∧ b ≤ '9'.toUInt8 then
    let i := max p.paramCount 1 - 1
    let digit := b.toNat - '0'.toNat
    ({ p.check (i < p.params.length) with
        paramCount := max p.paramCount 1
        params := p.params.set i (min (p.params.getD i 0 * 10 + digit) 65535)
        paramStarted := true }, [])
  else if b = ';'.toUInt8 ∨ b = ':'.toUInt8 then
    let count := max p.paramCount 1
    if count < MAX_PARAMS then
      ({ p.check (count < p.colon.length) with
          colon := p.colon.set count (b = ':'.toUInt8)
          paramCount := count + 1
          paramStarted := true }, [])
    else ({ p with paramCount := count, paramStarted := true }, [])
  else if b = '<'.toUInt8 ∨ b = '='.toUInt8 ∨ b = '>'.toUInt8 ∨ b = '?'.toUInt8 then
    if p.paramStarted = false ∧ p.private = 0 then ({ p with «private» := b }, [])
    else ({ p with state := .csiIgnore }, [])
  else if 0x20 ≤ b ∧ b ≤ 0x2f then ({ p with intermediate := b }, [])
  else if 0x40 ≤ b ∧ b ≤ 0x7e then
    -- Every parameter that the command reads is in front of the count.
    ({ p.check (p.paramCount ≤ p.params.length ∧ p.paramCount ≤ p.colon.length) with state := .ground }, p.csiDispatch b)
  else ({ p with state := .csiIgnore }, [])

def escape (b : UInt8) : Parser × List Op :=
  let p := { p with state := .ground }
  match Char.ofNat b.toNat with
  | '[' =>
    ({ p with
        state := .csi
        params := List.replicate MAX_PARAMS 0
        colon := List.replicate MAX_PARAMS false
        paramCount := 0
        paramStarted := false
        «private» := 0
        intermediate := 0 }, [])
  | ']' => ({ p with state := .osc, osc := [] }, [])
  | 'P' | 'X' | '^' | '_' => ({ p with state := .stringIgnore }, [])
  | '7' => (p, [.saveCursor])
  | '8' => (p, [.restoreCursor])
  | 'D' => (p, [.lineFeed])
  | 'E' => (p, [.nextLine])
  | 'H' => (p, [.setTab])
  | 'M' => (p, [.reverseIndex])
  | 'c' => (p, [.reset])
  | '=' => (p, [.keypad true])
  | '>' => (p, [.keypad false])
  | 'n' => (p, [.shift 2])
  | 'o' => (p, [.shift 3])
  | _ => if 0x20 ≤ b ∧ b ≤ 0x2f then ({ p with intermediate := b, state := .escapeIntermediate }, []) else (p, [])

/-- The character set that a sequence names. -/
def charsetOf (b : UInt8) : Charset :=
  match Char.ofNat b.toNat with
  | '0' => .graphics
  | 'A' => .uk
  | _ => .ascii

def escapeIntermediate (b : UInt8) : Parser × List Op :=
  if 0x20 ≤ b ∧ b ≤ 0x2f then (p, [])
  else
    let p' := { p with state := .ground }
    match Char.ofNat p.intermediate.toNat with
    | '(' => (p', [.charset 0 (charsetOf b)])
    | ')' | '-' => (p', [.charset 1 (charsetOf b)])
    | '*' | '.' => (p', [.charset 2 (charsetOf b)])
    | '+' | '/' => (p', [.charset 3 (charsetOf b)])
    | '#' => (p', if b = '8'.toUInt8 then [.align] else [])
    | _ => (p', [])

def control (b : UInt8) : Parser × List Op :=
  if b = 0x1b then ({ p with state := .escape, intermediate := 0 }, [])
  else if b = 0x07 then (p, [.bell])
  else if b = 0x08 then (p, [.backspace])
  else if b = 0x09 then (p, [.tabForward 1])
  else if b = 0x0a ∨ b = 0x0b ∨ b = 0x0c then (p, [.newline])
  else if b = 0x0d then (p, [.carriageReturn])
  else if b = 0x0e then (p, [.shift 1])
  else if b = 0x0f then (p, [.shift 0])
  else if b = 0x18 ∨ b = 0x1a then ({ p with state := .ground }, [])
  else (p, [])

/-! ### Bytes -/

/-- What is printed when the parser is not in a sequence. -/
def printing (ch : Char) : List Op := if p.state = .ground then [.print ch] else []

/-- A byte of a sequence, or a character of one byte, or the first byte of a longer one. -/
def start (b : UInt8) : Parser × List Op :=
  if b < 0x20 ∨ b = 0x7f then p.control b
  else
    match p.state with
    | .ground =>
      if b < 0x80 then (p, [.print (Char.ofNat b.toNat)])
      else
        let need :=
          if 0xC2 ≤ b ∧ b ≤ 0xDF then 2
          else if 0xE0 ≤ b ∧ b ≤ 0xEF then 3
          else if 0xF0 ≤ b ∧ b ≤ 0xF4 then 4
          else 0
        if need = 0 then (p, [.print Utf8.replacement])
        else ({ p.check (0 < p.utf8.length) with utf8 := p.utf8.set 0 b, utf8Len := 1, utf8Need := need }, [])
    | .escape => p.escape b
    | .escapeIntermediate => p.escapeIntermediate b
    | .csi => p.csiByte b
    | .csiIgnore => if 0x40 ≤ b ∧ b ≤ 0x7e then ({ p with state := .ground }, []) else (p, [])
    | _ => (p, [])

/-- A byte outside of the strings. -/
def text (b : UInt8) : Parser × List Op :=
  if 0 < p.utf8Need then
    if b &&& 0xC0 = 0x80 then
      let p := { p.check (p.utf8Len < p.utf8.length) with utf8 := p.utf8.set p.utf8Len b, utf8Len := p.utf8Len + 1 }
      if p.utf8Len = p.utf8Need then
        let decoded := ((fromUtf8 (p.utf8.take p.utf8Len)).bind List.head?).getD Utf8.replacement
        let p := { p.check (p.utf8Len ≤ p.utf8.length) with utf8Need := 0, utf8Len := 0 }
        (p, p.printing decoded)
      else (p, [])
    else
      let p := { p with utf8Need := 0, utf8Len := 0 }
      let (next, ops) := p.start b
      (next, p.printing Utf8.replacement ++ ops)
  else p.start b

def byte (b : UInt8) : Parser × List Op :=
  match p.state with
  | .osc =>
    if b = 0x07 then ({ p with osc := [], state := .ground }, [.osc p.osc])
    else if b = 0x1b then ({ p with state := .oscEscape }, [])
    else if p.osc.length < 4096 then ({ p with osc := p.osc ++ [b] }, [])
    else (p, [])
  | .oscEscape =>
    let closed := { p with osc := [], state := .ground }
    if b = '\\'.toUInt8 then (closed, [.osc p.osc])
    else
      -- The escape that ended the string starts a sequence.
      let (opened, ops) := closed.text 0x1b
      let (next, ops') := opened.text b
      (next, .osc p.osc :: ops ++ ops')
  | .stringIgnore =>
    if b = 0x07 then ({ p with state := .ground }, [])
    else if b = 0x1b then ({ p with state := .stringEscape }, [])
    else (p, [])
  | .stringEscape => ({ p with state := if b = '\\'.toUInt8 then .ground else .stringIgnore }, [])
  | _ => p.text b

end Parser

end HamixOS.Vt
