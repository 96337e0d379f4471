import HamixOS.Lib.Text

namespace HamixOS.Vt

open Lib

/-!
# Characters of the terminal (`crates/hxvt/src/width.rs`)

How many columns a character takes, and the character sets that the escape sequences select.
-/

def zeroWidth : List (Nat × Nat) :=
  [(0x0300, 0x036F), (0x0483, 0x0489), (0x0591, 0x05BD), (0x0610, 0x061A), (0x064B, 0x065F), (0x0E31, 0x0E31),
   (0x0E34, 0x0E3A), (0x0E47, 0x0E4E), (0x1AB0, 0x1AFF), (0x1DC0, 0x1DFF), (0x200B, 0x200F), (0x202A, 0x202E),
   (0x2060, 0x2064), (0x20D0, 0x20FF), (0xFE00, 0xFE0F), (0xFE20, 0xFE2F), (0xFEFF, 0xFEFF), (0xE0100, 0xE01EF)]

def wideChars : List (Nat × Nat) :=
  [(0x1100, 0x115F), (0x231A, 0x231B), (0x2329, 0x232A), (0x23E9, 0x23EC), (0x23F0, 0x23F0), (0x23F3, 0x23F3),
   (0x25FD, 0x25FE), (0x2614, 0x2615), (0x2648, 0x2653), (0x267F, 0x267F), (0x2693, 0x2693), (0x26A1, 0x26A1),
   (0x26AA, 0x26AB), (0x26BD, 0x26BE), (0x26C4, 0x26C5), (0x26CE, 0x26CE), (0x26D4, 0x26D4), (0x26EA, 0x26EA),
   (0x26F2, 0x26F3), (0x26F5, 0x26F5), (0x26FA, 0x26FA), (0x26FD, 0x26FD), (0x2705, 0x2705), (0x270A, 0x270B),
   (0x2728, 0x2728), (0x274C, 0x274C), (0x274E, 0x274E), (0x2753, 0x2755), (0x2757, 0x2757), (0x2795, 0x2797),
   (0x27B0, 0x27B0), (0x27BF, 0x27BF), (0x2B1B, 0x2B1C), (0x2B50, 0x2B50), (0x2B55, 0x2B55), (0x2E80, 0x303E),
   (0x3041, 0x33FF), (0x3400, 0x4DBF), (0x4E00, 0x9FFF), (0xA000, 0xA4CF), (0xA960, 0xA97F), (0xAC00, 0xD7A3),
   (0xF900, 0xFAFF), (0xFE10, 0xFE19), (0xFE30, 0xFE6F), (0xFF00, 0xFF60), (0xFFE0, 0xFFE6), (0x16FE0, 0x16FE4),
   (0x17000, 0x18CFF), (0x1B000, 0x1B2FF), (0x1F004, 0x1F004), (0x1F0CF, 0x1F0CF), (0x1F18E, 0x1F18E),
   (0x1F191, 0x1F19A), (0x1F200, 0x1F251), (0x1F300, 0x1F320), (0x1F32D, 0x1F335), (0x1F337, 0x1F37C),
   (0x1F37E, 0x1F393), (0x1F3A0, 0x1F3CA), (0x1F3CF, 0x1F3D3), (0x1F3E0, 0x1F3F0), (0x1F3F4, 0x1F3F4),
   (0x1F3F8, 0x1F43E), (0x1F440, 0x1F440), (0x1F442, 0x1F4FC), (0x1F4FF, 0x1F53D), (0x1F54B, 0x1F54E),
   (0x1F550, 0x1F567), (0x1F57A, 0x1F57A), (0x1F595, 0x1F596), (0x1F5A4, 0x1F5A4), (0x1F5FB, 0x1F64F),
   (0x1F680, 0x1F6C5), (0x1F6CC, 0x1F6CC), (0x1F6D0, 0x1F6D2), (0x1F6D5, 0x1F6D7), (0x1F6EB, 0x1F6EC),
   (0x1F6F4, 0x1F6FC), (0x1F7E0, 0x1F7EB), (0x1F90C, 0x1F93A), (0x1F93C, 0x1F945), (0x1F947, 0x1F9FF),
   (0x1FA70, 0x1FAFF), (0x20000, 0x2FFFD), (0x30000, 0x3FFFD)]

/-- The tables are sorted, so the binary search finds a range that holds the code point if there is one. -/
def within (table : List (Nat × Nat)) (cp : Nat) : Bool := table.any fun range => range.1 ≤ cp ∧ cp ≤ range.2

def charWidth (ch : Char) : Nat :=
  let cp := ch.toNat
  if cp < 0x300 then if cp < 0x20 ∨ (0x7F ≤ cp ∧ cp < 0xA0) then 0 else 1
  else if within zeroWidth cp then 0
  else if within wideChars cp then 2
  else 1

theorem charWidth_le (ch : Char) : charWidth ch ≤ 2 := by
  unfold charWidth
  dsimp only
  split_ifs <;> decide

inductive Charset where
  | ascii
  | graphics
  | uk
  deriving DecidableEq

/-- `translate`. -/
def Charset.translate (set : Charset) (ch : Char) : Char :=
  match set with
  | .ascii => ch
  | .uk => if ch = '#' then '£' else ch
  | .graphics => lineDrawing ch
where
  lineDrawing : Char → Char
    | '_' => ' '
    | '\x60' => '◆'
    | 'a' => '▒'
    | 'b' => '␉'
    | 'c' => '␌'
    | 'd' => '␍'
    | 'e' => '␊'
    | 'f' => '°'
    | 'g' => '±'
    | 'h' => '␤'
    | 'i' => '␋'
    | 'j' => '┘'
    | 'k' => '┐'
    | 'l' => '┌'
    | 'm' => '└'
    | 'n' => '┼'
    | 'o' => '⎺'
    | 'p' => '⎻'
    | 'q' => '─'
    | 'r' => '⎼'
    | 's' => '⎽'
    | 't' => '├'
    | 'u' => '┤'
    | 'v' => '┴'
    | 'w' => '┬'
    | 'x' => '│'
    | 'y' => '≤'
    | 'z' => '≥'
    | '\x7b' => 'π'
    | '|' => '≠'
    | '\x7d' => '£'
    | '~' => '·'
    | other => other

end HamixOS.Vt
