import HamixOS.Lib.Bytes
import Mathlib.Data.Nat.Bitwise

namespace HamixOS.Imago

open Lib

/-!
# Inflate (`crates/imago/src/inflate.rs`)

The decoder of deflate streams: the two-level tables of Huffman codes, the bit reader, and the sink, which
either keeps the whole output or hands it out in chunks and keeps the last 32768 bytes.  A table entry has
its four fields in place of the packed word; beyond the end of a table stands the invalid entry.

* `Table.build` — the table of a list of code lengths;
* `Bits` — the reader, which goes on with zeros behind the end of the data and counts them;
* `Sink` — the output, with its checks;
* `block`, `run` — the loops; each takes a number of turns and returns nothing beyond it;
* `inflateCounted`, `inflateStream` — the two ways to decode.

The capacity that `inflate_counted` reserves is left out.
-/

abbrev Error := String

def primaryBits : Nat := 10

def window : Nat := 32768

def streamChunk : Nat := 1 <<< 18

inductive Kind where
  | literal
  | length
  | «end»
  | subtable
  deriving DecidableEq

/-- `length | extra << 8 | kind << 12 | value << 16` -/
structure Entry where
  length : Nat
  extra : Nat
  kind : Kind
  value : Nat
  deriving DecidableEq

def lengthBase : List Nat :=
  [3, 4, 5, 6, 7, 8, 9, 10, 11, 13, 15, 17, 19, 23, 27, 31, 35, 43, 51, 59, 67, 83, 99, 115, 131, 163, 195, 227, 258]

def lengthExtra : List Nat := [0, 0, 0, 0, 0, 0, 0, 0, 1, 1, 1, 1, 2, 2, 2, 2, 3, 3, 3, 3, 4, 4, 4, 4, 5, 5, 5, 5, 0]

def distBase : List Nat :=
  [1, 2, 3, 4, 5, 7, 9, 13, 17, 25, 33, 49, 65, 97, 129, 193, 257, 385, 513, 769, 1025, 1537, 2049, 3073, 4097, 6145,
    8193, 12289, 16385, 24577]

def distExtra : List Nat :=
  [0, 0, 0, 0, 1, 1, 2, 2, 3, 3, 4, 4, 5, 5, 6, 6, 7, 7, 8, 8, 9, 9, 10, 10, 11, 11, 12, 12, 13, 13]

def codeOrder : List Nat := [16, 17, 18, 0, 8, 7, 9, 6, 10, 5, 11, 4, 12, 3, 13, 2, 14, 1, 15]

/-! ### Tables -/

/-- What a symbol means: its extra bits, its kind and its value. -/
abbrev Symbol := Nat → Nat × Kind × Nat

def literalSymbol : Symbol := fun sym =>
  if sym ≤ 255 then (0, .literal, sym)
  else if sym = 256 then (0, .end, 0)
  else if sym ≤ 285 then (lengthExtra.getD (sym - 257) 0, .length, lengthBase.getD (sym - 257) 0)
  else (0, .end, 0xFFFF)

def distanceSymbol : Symbol := fun sym =>
  if sym < 30 then (distExtra.getD sym 0, .length, distBase.getD sym 0) else (0, .end, 0xFFFF)

def plainSymbol : Symbol := fun sym => (0, .literal, sym)

abbrev Table := List Entry

/-- A code: its bits in the order in which they are read, their number, and what it stands for. -/
structure Code where
  reversed : Nat
  len : Nat
  sym : Nat

namespace Table

def invalid : Entry := ⟨1, 0, .end, 0xFFFF⟩

/-- `count`, without the symbols that have no code. -/
def count (lengths : List Nat) (len : Nat) : Nat := if len = 0 then 0 else lengths.count len

/-- The codes left over behind these lengths, if there are enough. -/
def left (count : Nat → Nat) : List Nat → Nat → Option Nat
  | [], n => some n
  | len :: lens, n => if 2 * n < count len then none else left count lens (2 * n - count len)

/-- The first code of each length. -/
def next (count : Nat → Nat) : List Nat :=
  ((List.range' 1 15).foldl (fun (s : Nat × List Nat) len =>
    ((s.1 + count (len - 1)) * 2, s.2.set len ((s.1 + count (len - 1)) * 2))) (0, List.replicate 16 0)).2

def reverse (c len : Nat) : Nat :=
  (List.range len).foldl (fun acc i => acc ||| (((c >>> i) &&& 1) <<< (len - 1 - i))) 0

/-- The codes of the symbols from `sym` on. -/
def codes : List Nat → Nat → List Nat → List Code
  | [], _, _ => []
  | len :: lengths, sym, next =>
    if len = 0 then codes lengths (sym + 1) next
    else ⟨reverse (next.getD len 0) len, len, sym⟩ :: codes lengths (sym + 1) (next.set len (next.getD len 0 + 1))

def slot (c : Code) : Nat := c.reversed % 2 ^ primaryBits

/-- The bits of the subtable behind each slot. -/
def subBits (codes : List Code) : List Nat :=
  codes.foldl (fun sub c =>
    if primaryBits < c.len then sub.set (slot c) (max (sub.getD (slot c) 0) (c.len - primaryBits)) else sub)
    (List.replicate (2 ^ primaryBits) 0)

/-- The table with room for the subtables. -/
def heads (sub : List Nat) : Table :=
  (List.range (2 ^ primaryBits)).foldl (fun entries i =>
    let bits := sub.getD i 0
    if 0 < bits then
      (entries ++ List.replicate (2 ^ bits) invalid).set i ⟨primaryBits, bits, .subtable, entries.length⟩
    else entries) (List.replicate (2 ^ primaryBits) invalid)

/-- `while i < bound { entries[offset + i] = e; i += step }` -/
def fill (e : Entry) (offset step bound : Nat) : Nat → Nat → Table → Table
  | 0, _, entries => entries
  | turns + 1, i, entries =>
    if i < bound then fill e offset step bound turns (i + step) (entries.set (offset + i) e) else entries

def place (symbol : Symbol) (entries : Table) (c : Code) : Table :=
  let (extra, kind, value) := symbol c.sym
  if c.len ≤ primaryBits then
    fill ⟨c.len, extra, kind, value⟩ 0 (2 ^ c.len) (2 ^ primaryBits) (2 ^ primaryBits) c.reversed entries
  else
    let head := entries.getD (slot c) invalid
    let len := c.len - primaryBits
    fill ⟨len, extra, kind, value⟩ head.value (2 ^ len) (2 ^ (head.extra % 16)) (2 ^ (head.extra % 16))
      (c.reversed / 2 ^ primaryBits) entries

def build (lengths : List Nat) (symbol : Symbol) : Except Error Table :=
  match left (count lengths) (List.range' 1 15) 1 with
  | none => .error "inflate: oversubscribed huffman code"
  | some _ =>
    let codes := codes lengths 0 (next (count lengths))
    .ok (codes.foldl (place symbol) (heads (subBits codes)))

end Table

/-! ### The reader -/

structure Bits where
  pos : Nat
  buffer : Nat
  count : Nat
  overrun : Nat
  deriving DecidableEq

namespace Bits

def new : Bits := ⟨0, 0, 0, 0⟩

/-- `u64::from_le_bytes(data[pos..pos + 8])` -/
def word (data : Bytes) (pos : Nat) : Nat := ((data.drop pos).take 8).foldr (fun b n => b.toNat + 256 * n) 0

/-- The bytes one by one, with zeros behind the end. -/
def refillSlow (data : Bytes) : Nat → Bits → Bits
  | 0, r => r
  | turns + 1, r =>
    if r.count ≤ 56 then
      refillSlow data turns
        { pos := r.pos + 1
          buffer := r.buffer ||| (((data.getD r.pos 0).toNat <<< r.count) % 2 ^ 64)
          count := r.count + 8
          overrun := if r.pos < data.length then r.overrun else r.overrun + 1 }
    else r

def refill (data : Bytes) (r : Bits) : Bits :=
  if r.pos + 8 ≤ data.length then
    { r with
      buffer := r.buffer ||| ((word data r.pos <<< r.count) % 2 ^ 64)
      pos := r.pos + (63 - r.count) / 8
      count := r.count ||| 56 }
  else refillSlow data 8 r

def peek (r : Bits) (n : Nat) : Nat := r.buffer % 2 ^ n

def consume (r : Bits) (n : Nat) : Bits := { r with buffer := r.buffer >>> n, count := r.count - n }

def take (data : Bytes) (r : Bits) (n : Nat) : Nat × Bits :=
  let r := if r.count < n then r.refill data else r
  (r.peek n, r.consume n)

def exhausted (r : Bits) : Prop := 8 < r.overrun

instance (r : Bits) : Decidable r.exhausted := inferInstanceAs (Decidable (8 < r.overrun))

def align (r : Bits) : Bits := r.consume (r.count % 8)

def consumed (data : Bytes) (r : Bits) : Nat := min (r.pos - r.count / 8) data.length

def decode (data : Bytes) (t : Table) (r : Bits) : Entry × Bits :=
  let r := if r.count < 32 then r.refill data else r
  let e := t.getD (r.peek primaryBits) Table.invalid
  if e.kind = .subtable then
    let r := r.consume primaryBits
    let e := t.getD (e.value + r.peek (e.extra % 16)) Table.invalid
    (e, r.consume e.length)
  else (e, r.consume e.length)

end Bits

/-! ### The output -/

structure Sink where
  out : Bytes
  /-- Whether a chunk is accepted, for the number of the call. -/
  emit : Option (Nat → Bytes → Bool)
  /-- The chunks that have been handed out. -/
  chunks : List Bytes
  emitted : Nat
  failed : Bool
  limit : Nat

def tooLarge : Error := "inflate: output too large"

def ranOut : Error := "inflate: ran out of input"

namespace Sink

def flush (s : Sink) (keep : Nat) : Sink :=
  match s.emit with
  | none => s
  | some emit =>
    if s.out.length ≤ keep then s
    else
      let cut := s.out.length - keep
      { s with
        chunks := if s.failed then s.chunks else s.chunks ++ [s.out.take cut]
        failed := s.failed || !emit s.chunks.length (s.out.take cut)
        emitted := s.emitted + cut
        out := s.out.drop cut }

def check (s : Sink) : Except Error Sink :=
  if s.emit.isSome then
    if streamChunk + window ≤ s.out.length then
      if (s.flush window).failed then .error "inflate: output rejected" else .ok (s.flush window)
    else .ok s
  else if s.limit < s.out.length then .error tooLarge
  else .ok s

def push (s : Sink) (b : Bytes) : Sink := { s with out := s.out ++ b }

/-- `extend_from_within` over and over, from `start` on. -/
def copyLoop (start : Nat) : Nat → Nat → Bytes → Bytes
  | 0, _, out => out
  | turns + 1, remaining, out =>
    if 0 < remaining then
      let chunk := min remaining (out.length - start)
      copyLoop start turns (remaining - chunk) (out ++ (out.drop start).take chunk)
    else out

def copy (s : Sink) (distance length : Nat) : Except Error Sink :=
  let len := s.out.length
  if distance = 0 ∨ len < distance then .error "inflate: distance before start of output"
  else
    let start := len - distance
    if length ≤ distance then .ok { s with out := s.out ++ (s.out.drop start).take length }
    else if distance = 1 then .ok { s with out := s.out ++ List.replicate length (s.out.getD (len - 1) 0) }
    else .ok { s with out := copyLoop start length length s.out }

end Sink

/-! ### Blocks -/

def fixedTables : Except Error (Table × Table) := do
  let lengths := List.replicate 144 8 ++ List.replicate 112 9 ++ List.replicate 24 7 ++ List.replicate 8 8
  let lit ← Table.build lengths literalSymbol
  let dist ← Table.build (List.replicate 30 5) distanceSymbol
  pure (lit, dist)

/-- The lengths of the code lengths, in their order. -/
def codeLengths (data : Bytes) : List Nat → List Nat → Bits → List Nat × Bits
  | [], lengths, r => (lengths, r)
  | index :: order, lengths, r =>
    codeLengths data order (lengths.set index (r.take data 3).1) (r.take data 3).2

/-- `lengths[i..i + n].fill(prev)` -/
def fillLengths (prev : Nat) : Nat → Nat → List Nat → List Nat
  | 0, _, lengths => lengths
  | n + 1, i, lengths => fillLengths prev n (i + 1) (lengths.set i prev)

/-- One code length symbol: how many lengths it stands for and which. -/
def lengthSymbol (data : Bytes) (sym i : Nat) (lengths : List Nat) (r : Bits) : Except Error (Nat × Option Nat × Bits) :=
  if sym ≤ 15 then .ok (1, some sym, r)
  else if sym = 16 then
    if i = 0 then .error "inflate: repeat without previous length"
    else .ok (3 + (r.take data 2).1, some (lengths.getD (i - 1) 0), (r.take data 2).2)
  else if sym = 17 then .ok (3 + (r.take data 3).1, none, (r.take data 3).2)
  else if sym = 18 then .ok (11 + (r.take data 7).1, none, (r.take data 7).2)
  else .error "inflate: bad code length symbol"

/-- The code lengths from the `i`-th on; every turn has at least one. -/
def readLengths (data : Bytes) (codes : Table) (total : Nat) : Nat → Nat → List Nat → Bits → Except Error (List Nat × Bits)
  | 0, _, lengths, r => .ok (lengths, r)
  | turns + 1, i, lengths, r =>
    if i < total then
      let (e, r) := r.decode data codes
      match lengthSymbol data e.value i lengths r with
      | .error e => .error e
      | .ok (n, value, r) =>
        if total < i + n then .error "inflate: code lengths overflow"
        else
          let lengths := match value with
            | some v => fillLengths v n i lengths
            | none => lengths
          if r.exhausted then .error ranOut else readLengths data codes total turns (i + n) lengths r
    else .ok (lengths, r)

def dynamicTables (data : Bytes) (r : Bits) : Except Error (Table × Table × Bits) :=
  let (hlit, r) := r.take data 5
  let (hdist, r) := r.take data 5
  let (hclen, r) := r.take data 4
  let (code, r) := codeLengths data (codeOrder.take (hclen + 4)) (List.replicate 19 0) r
  match Table.build code plainSymbol with
  | .error e => .error e
  | .ok codes =>
    let total := (hlit + 257) + (hdist + 1)
    match readLengths data codes total total 0 (List.replicate 320 0) r with
    | .error e => .error e
    | .ok (lengths, r) =>
      if lengths.getD 256 0 = 0 then .error "inflate: missing end-of-block code"
      else
        match Table.build (lengths.take (hlit + 257)) literalSymbol with
        | .error e => .error e
        | .ok lit =>
          match Table.build ((lengths.drop (hlit + 257)).take (hdist + 1)) distanceSymbol with
          | .error e => .error e
          | .ok dist => .ok (lit, dist, r)

/-- Behind a literal the checks are made at every 4096th byte of what the sink holds. -/
def afterLiteral (r : Bits) (out : Sink) : Except Error Sink :=
  if out.out.length % 4096 = 0 then
    match out.check with
    | .error e => .error e
    | .ok out => if r.exhausted then .error ranOut else .ok out
  else .ok out

/-- A copy: the reader behind it, the distance and the length. -/
def readCopy (data : Bytes) (dist : Table) (e : Entry) (r : Bits) : Except Error (Nat × Nat × Bits) :=
  let (more, r) := r.take data (e.extra % 16)
  let (d, r) := r.decode data dist
  if d.kind ≠ .length then .error "inflate: invalid distance symbol"
  else
    let (far, r) := r.take data (d.extra % 16)
    .ok (d.value + far, e.value + more, r)

def afterCopy (r : Bits) (out : Sink) : Except Error Sink :=
  match out.check with
  | .error e => .error e
  | .ok out => if r.exhausted then .error ranOut else .ok out

def block (data : Bytes) (lit dist : Table) : Nat → Bits → Sink → Option (Except Error (Bits × Sink))
  | 0, _, _ => none
  | turns + 1, r, out =>
    let (e, r) := r.decode data lit
    match e.kind with
    | .literal =>
      match afterLiteral r (out.push [UInt8.ofNat e.value]) with
      | .error e => some (.error e)
      | .ok out => block data lit dist turns r out
    | .end => if e.value ≠ 0 then some (.error "inflate: invalid literal/length symbol") else some (.ok (r, out))
    | _ =>
      match readCopy data dist e r with
      | .error e => some (.error e)
      | .ok (distance, length, r) =>
        match out.copy distance length with
        | .error e => some (.error e)
        | .ok out =>
          match afterCopy r out with
          | .error e => some (.error e)
          | .ok out => block data lit dist turns r out

/-- The bytes of a stored block that are in the buffer of the reader already. -/
def storedBits (data : Bytes) : Nat → Bits → Bytes → Nat × Bits × Bytes
  | 0, r, got => (0, r, got)
  | remaining + 1, r, got =>
    if 8 ≤ r.count then storedBits data remaining (r.take data 8).2 (got ++ [UInt8.ofNat (r.take data 8).1])
    else (remaining + 1, r, got)

def stored (data : Bytes) (r : Bits) : Except Error (Bytes × Bits) :=
  let r := r.align
  let (len, r) := r.take data 16
  let (nlen, r) := r.take data 16
  if len ≠ 0xFFFF - nlen then .error "inflate: stored block length mismatch"
  else
    let (remaining, r, got) := storedBits data len r []
    let start := r.pos - r.count / 8
    if data.length < start + remaining then .error ranOut
    else .ok (got ++ (data.drop start).take remaining, ⟨start + remaining, 0, 0, 0⟩)

/-- One block. -/
def oneBlock (data : Bytes) (turns kind : Nat) (r : Bits) (out : Sink) : Option (Except Error (Bits × Sink)) :=
  if kind = 0 then
    match stored data r with
    | .error e => some (.error e)
    | .ok (got, r) =>
      match (out.push got).check with
      | .error e => some (.error e)
      | .ok out => some (.ok (r, out))
  else if kind = 1 then
    match fixedTables with
    | .error e => some (.error e)
    | .ok (lit, dist) => block data lit dist turns r out
  else if kind = 2 then
    match dynamicTables data r with
    | .error e => some (.error e)
    | .ok (lit, dist, r) => block data lit dist turns r out
  else some (.error "inflate: reserved block type")

/-- The turns of a block loop and of the loop over blocks that are always enough. -/
def turnsFor (data : Bytes) : Nat := 8 * (data.length + 8) + 4098

def run (data : Bytes) : Nat → Bits → Sink → Option (Except Error (Nat × Sink))
  | 0, _, _ => none
  | turns + 1, r, out =>
    let (last, r) := r.take data 1
    let (kind, r) := r.take data 2
    match oneBlock data (turnsFor data) kind r out with
    | none => none
    | some (.error e) => some (.error e)
    | some (.ok (r, out)) =>
      if r.exhausted then some (.error ranOut)
      else if last = 1 then some (.ok (r.consumed data, out))
      else run data turns r out

/-- `inflate_counted`: the output and the number of bytes that have been used. -/
def inflateCounted (data : Bytes) : Option (Except Error (Bytes × Nat)) :=
  match run data (turnsFor data) .new ⟨[], none, [], 0, false, 1 <<< 31⟩ with
  | none => none
  | some (.error e) => some (.error e)
  | some (.ok (used, sink)) => some (.ok (sink.out, used))

/-- `inflate_stream`, with the chunks that it hands out. -/
def inflateStream (data : Bytes) (emit : Nat → Bytes → Bool) : Option (Except Error (Nat × Nat × List Bytes)) :=
  match run data (turnsFor data) .new ⟨[], some emit, [], 0, false, 2 ^ 64 - 1⟩ with
  | none => none
  | some (.error e) => some (.error e)
  | some (.ok (used, sink)) =>
    let sink := sink.flush 0
    if sink.failed then some (.error "inflate: output rejected") else some (.ok (used, sink.emitted, sink.chunks))

end HamixOS.Imago
