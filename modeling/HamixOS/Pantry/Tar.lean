import HamixOS.Lib.Assoc
import HamixOS.Lib.Utf8

namespace HamixOS.Pantry

open Lib

/-!
# Tar archives (`archive.rs`)

The fields of a header, the metadata records that come before an entry, and `tar_entries`,
which reads an archive that is in memory as a whole.
-/

inductive Kind where
  | file
  | dir
  | symlink (target : Text)
  | hardlink (target : Text)
  | other
  deriving DecidableEq

/-- `octal`: a number in octal digits, or in base 256 if the first byte says so. -/
def octal (field : List UInt8) : Nat :=
  match field with
  | [] => 0
  | first :: rest =>
    if first &&& 0x80 ≠ 0 then rest.foldl (fun acc b => (acc * 256 + b.toNat) % 2 ^ 64) 0
    else ((field.takeWhile (· ≠ 0)).filter (fun b => 0x30 ≤ b ∧ b ≤ 0x37)).foldl (fun acc b => acc * 8 + (b.toNat - 0x30)) 0

def text (field : List UInt8) : Text := fromUtf8Lossy (field.takeWhile (· ≠ 0))

/-- `str::parse::<usize>`. -/
def parseUsize (digits : List UInt8) : Option Nat :=
  let ds := if digits.head? = some 0x2B then digits.drop 1 else digits
  if ds ≠ [] ∧ ds.all (fun b => 0x30 ≤ b ∧ b ≤ 0x39) then
    (some (ds.foldl (fun acc b => acc * 10 + (b.toNat - 0x30)) 0)).filter (· < 2 ^ 64)
  else none

/-- The loop of `parse_pax` on the bytes from `pos` on; `none` where a range is out of order and the
    program aborts.  Every round takes at least one byte. -/
def paxLoop : Nat → Nat → List UInt8 → List (Text × Text) → Option (List (Text × Text))
  | 0, _, _, map => some map
  | fuel + 1, pos, rest, map =>
    match rest.findIdx? (· = 0x20) with
    | none => some map
    | some space =>
      let len := (parseUsize (rest.take space)).getD 0
      if 2 ^ 64 ≤ pos + len then none
      else if len = 0 ∨ rest.length < len then some map
      else if len < space + 1 then none
      else
        let record := (rest.take len).drop (space + 1)
        let record := if record.getLast? = some 0x0A then record.dropLast else record
        let map :=
          match record.findIdx? (· = 0x3D) with
          | some eq => (fromUtf8Lossy (record.take eq), fromUtf8Lossy (record.drop (eq + 1))) :: map
          | none => map
        paxLoop fuel (pos + len) (rest.drop len) map

/-- `parse_pax`: the map, with the last value of a key first. -/
def parsePax (body : List UInt8) : Option (List (Text × Text)) := paxLoop body.length 0 body []

/-- The loop of `clean` over the parts of a path. -/
def cleanParts : List Text → List Text → List Text
  | [], parts => parts
  | part :: rest, parts =>
    if part = [] ∨ part = ".".toList then cleanParts rest parts
    else if part = "..".toList then cleanParts rest parts.dropLast
    else cleanParts rest (parts ++ [part])

def clean (path : Text) : Text := ['/'].intercalate (cleanParts (path.splitOn '/') [])

/-! ### Headers -/

namespace Header

/-- The header is that of the end of the archive. -/
def isZero (header : List UInt8) : Bool := header.all (· = 0)

def field (header : List UInt8) (start stop : Nat) : List UInt8 := (header.take stop).drop start

def stored (header : List UInt8) : Nat := octal (field header 148 156)

/-- The checksum of a header, its own field taken as blanks. -/
def sum (header : List UInt8) : Nat :=
  (header.zipIdx.map fun e => if 148 ≤ e.2 ∧ e.2 < 156 then 32 else e.1.toNat).sum

def size (header : List UInt8) : Nat := octal (field header 124 136)

def flag (header : List UInt8) : UInt8 := header.getD 156 0

def mode (header : List UInt8) : Nat := octal (field header 100 108) % 0o10000

/-- The name in the header itself. -/
def name (header : List UInt8) : Text :=
  let name := text (field header 0 100)
  if field header 257 262 = [0x75, 0x73, 0x74, 0x61, 0x72] then
    let pre := text (field header 345 500)
    if pre ≠ [] then pre ++ '/' :: name else name
  else name

def link (header : List UInt8) : Text := text (field header 157 257)

/-- The header of a record that says something about the next entry. -/
def isMeta (header : List UInt8) : Bool :=
  flag header = 0x78 ∨ flag header = 0x67 ∨ flag header = 0x4C ∨ flag header = 0x4B

def kind (header : List UInt8) (link : Text) : Kind :=
  if flag header = 0x30 ∨ flag header = 0 ∨ flag header = 0x37 then .file
  else if flag header = 0x35 then .dir
  else if flag header = 0x32 then .symlink link
  else if flag header = 0x31 then .hardlink (clean link)
  else .other

end Header

/-- What metadata records have said about the next entry. -/
structure Pending where
  pax : List (Text × Text)
  longName : Option Text
  longLink : Option Text
  deriving DecidableEq

namespace Pending

def none : Pending := ⟨[], .none, .none⟩

/-- A metadata record: `x` and `g` hold attributes, `L` and `K` a name. -/
def note (p : Pending) (flag : UInt8) (body : List UInt8) : Option Pending :=
  if flag = 0x78 then (parsePax body).map fun pax => { p with pax }
  else if flag = 0x4C then some { p with longName := some (text body) }
  else if flag = 0x4B then some { p with longLink := some (text body) }
  else some p

/-- The name of the next entry. -/
def name (p : Pending) (header : List UInt8) : Text :=
  match p.longName with
  | some l => l
  | .none => (Assoc.get p.pax "path".toList).getD (Header.name header)

def link (p : Pending) (header : List UInt8) : Text :=
  match p.longLink with
  | some l => l
  | .none => (Assoc.get p.pax "linkpath".toList).getD (Header.link header)

def kind (p : Pending) (header : List UInt8) : Kind := Header.kind header (p.link header)

def path (p : Pending) (header : List UInt8) : Text := clean (p.name header)

/-- An entry without a path is left out, unless it is a directory. -/
def skips (p : Pending) (header : List UInt8) : Bool := p.path header = [] ∧ p.kind header ≠ .dir

end Pending

/-- Round up to whole blocks. -/
def roundUp (size : Nat) : Nat := (size + 511) / 512 * 512

structure Entry where
  path : Text
  data : List UInt8
  deriving DecidableEq

inductive TarError where
  | checksum
  | truncated
  | aborted
  deriving DecidableEq

def TarError.message : TarError → Text
  | checksum => "tar header checksum mismatch".toList
  | truncated => "tar entry truncated".toList
  | aborted => []

/-- The loop of `tar_entries` on the bytes that are left.  Every round takes a header at least. -/
def tarLoop : Nat → List UInt8 → Pending → Except TarError (List Entry)
  | 0, _, _ => .ok []
  | fuel + 1, rest, p =>
    if rest.length < 512 then .ok []
    else
      let header := rest.take 512
      if Header.isZero header then .ok []
      else if Header.stored header ≠ Header.sum header then .error .checksum
      else if rest.length < 512 + Header.size header then .error .truncated
      else
        let body := (rest.drop 512).take (Header.size header)
        let next := rest.drop (512 + roundUp (Header.size header))
        if Header.isMeta header then
          match p.note (Header.flag header) body with
          | some p => tarLoop fuel next p
          | none => .error .aborted
        else
          match tarLoop fuel next .none with
          | .ok entries => .ok (if p.skips header then entries else ⟨p.path header, body⟩ :: entries)
          | .error e => .error e

def tarEntries (tar : List UInt8) : Except TarError (List Entry) := tarLoop (tar.length / 512) tar .none

end HamixOS.Pantry
