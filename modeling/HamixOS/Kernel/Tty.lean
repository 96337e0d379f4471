import HamixOS.Lib.Machine
import Mathlib.Data.List.Infix

namespace HamixOS.Kernel

open Lib List Option

/-!
# Reading from a terminal in canonical mode (`tty/mod.rs`)

A terminal keeps what has been typed in three places: the bytes that have arrived, those that
the task has fetched (`tty_pending`), and the rest of a line that a read did not take whole
(`tty_line`); the line being edited is local to the read.  Arrivals, fetches, bytes that are taken
and interruptions are one step each, in any order.

The accounts of what has arrived, been taken and been returned decide nothing.
-/

namespace Tty

/-- The settings that `read` looks at, from the flags and the control characters of `termios`. -/
structure Termios where
  icrnl : Bool
  isig : Bool
  icanon : Bool
  verase : UInt8
  vkill : UInt8
  veof : UInt8
  vtime : Nat
  vmin : Nat
  deriving DecidableEq

inductive Source where
  | console
  | pipe
  deriving DecidableEq

def maxLine : Nat := 4096

/-- A byte that goes on with an escape sequence. -/
def inSequence (b : UInt8) : Bool := b = 0x5B ∨ b = 0x4F ∨ (0x30 ≤ b ∧ b ≤ 0x39) ∨ b = 0x3B

/-- A byte that ends an escape sequence: a letter or a tilde. -/
def endsSequence (b : UInt8) : Bool := (0x41 ≤ b ∧ b ≤ 0x5A) ∨ (0x61 ≤ b ∧ b ≤ 0x7A) ∨ b = 0x7E

/-- The loop of `read_canonical` behind an escape: what it leaves of the bytes that are fetched. -/
def skipSequence : List UInt8 → List UInt8
  | [] => []
  | next :: rest => if inSequence next then skipSequence rest else if endsSequence next then rest else next :: rest

/-- What a byte does to the line: it edits it, starts an escape sequence or ends it. -/
inductive Verdict where
  | more (line : List UInt8)
  | escape
  | done (line : List UInt8)
  deriving DecidableEq

namespace Termios

variable (t : Termios)

/-- The signal characters, which `fill_pending` keeps back. -/
def isSignal (b : UInt8) : Bool := t.isig && (b = 0x03 || b = 0x1C || b = 0x1A)

def keep (bytes : List UInt8) : List UInt8 := bytes.filter (fun b => !t.isSignal b)

/-- One byte of `read_canonical`. -/
def edit (line : List UInt8) (byte : UInt8) : Verdict :=
  let b := if byte = 0x0D ∧ t.icrnl = true then 0x0A else byte
  if b = t.verase ∨ b = 0x08 then .more line.dropLast
  else if b = t.vkill then .more []
  else if b = t.veof then .done line
  else if b = 0x1B then .escape
  else if b = 0x0A ∨ maxLine ≤ line.length + 1 then .done (line ++ [b])
  else .more (line ++ [b])

end Termios

/-! ### The editor in one pass -/

/-- An editor that has the whole input: the lines that are complete, the line it is in, and whether
    it is in an escape sequence. -/
structure Editor where
  out : List UInt8
  line : List UInt8
  escape : Bool
  deriving DecidableEq

namespace Editor

def start : Editor := ⟨[], [], false⟩

def feed (t : Termios) (e : Editor) (b : UInt8) : Editor :=
  if e.escape = true ∧ inSequence b = true then e
  else if e.escape = true ∧ endsSequence b = true then { e with escape := false }
  else match t.edit e.line b with
    | .more line => ⟨e.out, line, false⟩
    | .escape => ⟨e.out, e.line, true⟩
    | .done line => ⟨e.out ++ line, [], false⟩

def run (t : Termios) (bytes : List UInt8) : Editor := bytes.foldl (feed t) start

/-- The lines of an input that ends. -/
def lines (t : Termios) (bytes : List UInt8) : List UInt8 := (run t bytes).out ++ (run t bytes).line

end Editor

/-! ### The terminal -/

/-- `reading` is the count and the local line of a read that is under way. -/
structure State where
  available : List UInt8
  closed : Bool
  pending : List UInt8
  ttyLine : List UInt8
  reading : Option (Nat × List UInt8)
  arrived : List UInt8
  taken : List UInt8
  again : Nat
  returned : List UInt8
  ended : Bool
  deriving DecidableEq

/-- `take` is one round of `read_canonical` with a byte; `interrupt` and `finish` are the rounds in
    which nothing is left to wait for. -/
inductive Act where
  | arrive (bytes : List UInt8)
  | close
  | fill
  | call (count : Nat) (nonblock : Bool)
  | take
  | interrupt
  | finish
  deriving DecidableEq

/-- What `fill_pending` fetches: everything from the console, a buffer's worth from a pipe. -/
def Source.chunk (src : Source) (available : List UInt8) : List UInt8 :=
  match src with
  | .console => available
  | .pipe => available.take 256

namespace State

variable (s : State)

/-- `fill_pending`. -/
def fill (t : Termios) (src : Source) : State :=
  { s with
    available := s.available.drop (src.chunk s.available).length
    pending := s.pending ++ t.keep (src.chunk s.available) }

/-- `bytes` at the front of the pending ones are taken; those that were put back are not new. -/
def take (bytes : List UInt8) : State :=
  { s with
    pending := s.pending.drop bytes.length
    taken := s.taken ++ bytes.drop s.again
    again := s.again - bytes.length }

/-- `deliver`. -/
def deliver (count : Nat) (line : List UInt8) : State :=
  { s with
    returned := s.returned ++ line.take count
    ttyLine := line.drop count ++ s.ttyLine
    reading := none }

end State

/-- `read` begins: what is left of the last line is returned at once. -/
def State.call (s : State) (count : Nat) (nonblock : Bool) : State :=
  if s.ttyLine ≠ [] then
    { s with returned := s.returned ++ s.ttyLine.take count, ttyLine := s.ttyLine.drop count }
  else if nonblock = true ∧ s.pending = [] ∧ s.available = [] then s
  else { s with reading := some (count, []) }

/-- A round of `read_canonical` with the byte `b` in front of `rest`. -/
def State.round (t : Termios) (s : State) (count : Nat) (line : List UInt8) (b : UInt8) (rest : List UInt8) : State :=
  match t.edit line b with
  | .more line => { s.take [b] with reading := some (count, line) }
  | .escape => s.take (b :: rest.take (rest.length - (skipSequence rest).length))
  | .done line => (s.take [b]).deliver count line

def step (t : Termios) (src : Source) (s : State) : Act → Option State
  | .arrive bytes =>
    if s.closed then none else some { s with available := s.available ++ bytes, arrived := s.arrived ++ bytes }
  | .close => if src = .pipe then some { s with closed := true } else none
  | .fill => if s.available = [] then none else some (s.fill t src)
  | .call count nonblock => if s.reading = none ∧ 0 < count then some (s.call count nonblock) else none
  | .take =>
    match s.reading, s.pending with
    | some (count, line), b :: rest => some (s.round t count line b rest)
    | _, _ => none
  | .interrupt =>
    match s.reading with
    | some (_, line) =>
      if s.pending = [] ∧ s.available = [] then
        some { s with pending := line, again := line.length, reading := none }
      else none
    | none => none
  | .finish =>
    match s.reading with
    | some (count, line) =>
      if s.pending = [] ∧ s.available = [] ∧ s.closed = true then some { s.deliver count line with ended := true } else none
    | none => none

/-- Nothing has arrived yet. -/
def Start (s : State) : Prop := s = ⟨[], false, [], [], none, [], [], 0, [], false⟩

/-- A fetch behind an escape sequence that ran out of bytes does not bring more of it. -/
def Whole (t : Termios) (src : Source) (s : State) : Act → Prop
  | .fill => (Editor.run t s.taken).escape = true → s.pending.drop s.again = [] →
      ∀ b, (src.chunk s.available).head? = some b → inSequence b = false ∧ endsSequence b = false
  | _ => True

/-- No byte is lost or duplicated, and what reads have returned and will return from `tty_line` are
    the lines of what has been taken; at the end of the input, the lines of all of it. -/
structure Kept (t : Termios) (s : State) : Prop where
  bytes : s.taken ++ s.pending.drop s.again ++ s.available = s.arrived
  lines : s.ended = false → s.returned ++ s.ttyLine = (Editor.run t s.taken).out
  whole : s.ended = true → s.returned ++ s.ttyLine = Editor.lines t s.arrived

/-! ### The editor -/

section Editor

variable {t : Termios}

/-- A byte that goes into the line as it is and does not end it. -/
def Plain (t : Termios) (b : UInt8) : Prop :=
  ∀ line : List UInt8, line.length + 1 < maxLine → t.edit line b = .more (line ++ [b])

/-- What an edit that goes on makes of a line. -/
theorem edit_more {line line' : List UInt8} {b : UInt8} (h : t.edit line b = .more line') :
    line' = line.dropLast ∨ line' = [] ∨ ∃ c, line' = line ++ [c] ∧ line.length + 1 < maxLine ∧ Plain t c := by
  unfold Termios.edit at h
  dsimp only at h
  -- the byte after the mapping is left alone by the mapping
  generalize hc : (if b = 0x0D ∧ t.icrnl = true then (0x0A : UInt8) else b) = c at h
  have hmap : (if c = 0x0D ∧ t.icrnl = true then (0x0A : UInt8) else c) = c := by
    rw [← hc]
    by_cases hcr : b = 0x0D ∧ t.icrnl = true
    · rw [if_pos hcr, if_neg (fun h' => absurd h'.1 (by decide))]
    · rw [if_neg hcr, if_neg hcr]
  split_ifs at h with h1 h2 h3 h4 h5
  · exact .inl (Verdict.more.inj h).symm
  · exact .inr (.inl (Verdict.more.inj h).symm)
  · obtain ⟨hnl, hlen⟩ := not_or.mp h5
    refine .inr (.inr ⟨c, (Verdict.more.inj h).symm, Nat.lt_of_not_le hlen, fun l hl => ?_⟩)
    unfold Termios.edit
    dsimp only
    rw [hmap, if_neg h1, if_neg h2, if_neg h3, if_neg h4, if_neg (not_or.mpr ⟨hnl, Nat.not_le_of_lt hl⟩)]

/-- The line that is being edited has room for another byte, and would be typed again the same way. -/
structure Editor.Typed (t : Termios) (e : Editor) : Prop where
  plain : ∀ b ∈ e.line, Plain t b
  short : e.line.length < maxLine

theorem Editor.Typed.feed {e : Editor} (h : e.Typed t) (b : UInt8) : (Editor.feed t e b).Typed t := by
  unfold Editor.feed
  split_ifs
  · exact h
  · exact ⟨h.plain, h.short⟩
  · cases he : t.edit e.line b with
    | more line =>
      rcases edit_more he with rfl | rfl | ⟨c, rfl, hlen, hc⟩
      · refine ⟨fun b hb => h.plain b (dropLast_subset _ hb), ?_⟩
        show e.line.dropLast.length < maxLine
        rw [length_dropLast]
        exact lt_of_le_of_lt (Nat.sub_le _ _) h.short
      · exact ⟨nofun, Nat.zero_lt_succ _⟩
      · refine ⟨fun b hb => ?_, by rw [length_append]; exact hlen⟩
        rcases mem_append.mp hb with hb | hb
        · exact h.plain b hb
        · rw [mem_singleton.mp hb]
          exact hc
    | escape => exact ⟨h.plain, h.short⟩
    | done line => exact ⟨nofun, Nat.zero_lt_succ _⟩

theorem Editor.typed_run (t : Termios) (bytes : List UInt8) : (Editor.run t bytes).Typed t := by
  unfold Editor.run
  induction bytes using reverseRecOn with
  | nil => exact ⟨nofun, Nat.zero_lt_succ _⟩
  | append_singleton bytes b ih =>
    rw [foldl_append]
    exact ih.feed b

theorem Editor.run_append (t : Termios) (bytes rest : List UInt8) :
    Editor.run t (bytes ++ rest) = rest.foldl (Editor.feed t) (Editor.run t bytes) := by
  unfold Editor.run
  rw [foldl_append]

/-- The bytes that the loop behind an escape takes, and what the editor makes of them: the sequence
    is over, or the next byte does not go on with it. -/
theorem skipSequence_spec (rest : List UInt8) {e : Editor} (he : e.escape = true) :
    ∃ sk, rest = sk ++ skipSequence rest ∧
      (sk.foldl (Editor.feed t) e = { e with escape := false } ∨ (sk.foldl (Editor.feed t) e = e ∧
        ∀ b, (skipSequence rest).head? = some b → inSequence b = false ∧ endsSequence b = false)) := by
  induction rest with
  | nil => exact ⟨[], rfl, .inr ⟨rfl, nofun⟩⟩
  | cons next rest ih =>
    unfold skipSequence
    by_cases hin : inSequence next = true
    · rw [if_pos hin]
      obtain ⟨sk, hsk, hfold⟩ := ih
      have hstay : Editor.feed t e next = e := by
        unfold Editor.feed
        rw [if_pos ⟨he, hin⟩]
      refine ⟨next :: sk, by rw [cons_append, ← hsk], ?_⟩
      rw [foldl_cons, hstay]
      exact hfold
    rw [if_neg hin]
    by_cases hend : endsSequence next = true
    · rw [if_pos hend]
      refine ⟨[next], rfl, .inl ?_⟩
      show Editor.feed t e next = _
      unfold Editor.feed
      rw [if_neg (fun h => hin h.2), if_pos ⟨he, hend⟩]
    · rw [if_neg hend]
      refine ⟨[], rfl, .inr ⟨rfl, ?_⟩⟩
      rintro b ⟨⟩
      exact ⟨by simpa using hin, by simpa using hend⟩

theorem take_of_append {rest sk tail : List UInt8} (h : rest = sk ++ tail) : rest.take (rest.length - tail.length) = sk := by
  have hlen : rest.length - tail.length = sk.length := by
    rw [h, length_append, Nat.add_sub_cancel]
  rw [hlen, h, take_left]

end Editor

/-! ### The invariant -/

/-- The local line of the read that is under way. -/
def State.line (s : State) : List UInt8 := (s.reading.map (·.2)).getD []

/-- The local line and the bytes that were put back are the line the editor is in; where it is in an
    escape sequence, the next byte that is fetched does not go on with it. -/
structure Inv (t : Termios) (s : State) : Prop where
  bytes : s.taken ++ s.pending.drop s.again ++ s.available = s.arrived
  again : s.again ≤ s.pending.length
  line : s.ended = false → s.line ++ s.pending.take s.again = (Editor.run t s.taken).line
  escape : (Editor.run t s.taken).escape = true → ∀ b, (s.pending.drop s.again).head? = some b →
    inSequence b = false ∧ endsSequence b = false
  lines : s.ended = false → s.returned ++ s.ttyLine = (Editor.run t s.taken).out
  idle : s.reading ≠ none → s.ttyLine = []
  ended : s.ended = true → s.pending = [] ∧ s.available = [] ∧ s.closed = true ∧ s.line = [] ∧
    s.returned ++ s.ttyLine = Editor.lines t s.taken

section Steps

variable {t : Termios} {src : Source} {s : State}

theorem Inv.kept (h : Inv t s) : Kept t s := by
  refine ⟨h.bytes, h.lines, fun he => ?_⟩
  obtain ⟨hp, ha, -, -, hlines⟩ := h.ended he
  have hb := h.bytes
  rw [hp, ha, drop_nil, append_nil, append_nil] at hb
  rw [hlines, hb]

theorem Inv.running (h : Inv t s) (hne : s.pending ≠ [] ∨ s.available ≠ [] ∨ s.closed = false) : s.ended = false := by
  by_contra hended
  obtain ⟨hp, ha, hc, -⟩ := h.ended (by simpa using hended)
  rcases hne with hne | hne | hne
  · exact hne hp
  · exact hne ha
  · rw [hc] at hne
    cases hne

theorem Source.chunk_append (src : Source) (available : List UInt8) :
    src.chunk available ++ available.drop (src.chunk available).length = available := by
  cases src with
  | console => exact (congrArg (available ++ ·) drop_length).trans (append_nil _)
  | pipe =>
    show available.take 256 ++ available.drop (available.take 256).length = available
    rw [length_take]
    rcases le_total 256 available.length with hle | hle
    · rw [min_eq_left hle, take_append_drop]
    · rw [min_eq_right hle, drop_length, append_nil, take_of_length_le hle]

theorem keep_eq (hsig : t.isig = false) (bytes : List UInt8) : t.keep bytes = bytes := by
  unfold Termios.keep Termios.isSignal
  rw [hsig]
  exact filter_true bytes

section

variable (h : Inv t s)

include h

theorem Inv.fill (hsig : t.isig = false) (hne : s.available ≠ []) (hok : Whole t src s .fill) :
    Inv t (s.fill t src) := by
  have hrun := h.running (.inr (.inl hne))
  have hchunk := src.chunk_append s.available
  have hdrop : (s.pending ++ src.chunk s.available).drop s.again = s.pending.drop s.again ++ src.chunk s.available :=
    drop_append_of_le_length h.again
  unfold State.fill
  rw [keep_eq hsig]
  refine ⟨?_, ?_, fun _ => ?_, fun he b hb => ?_, h.lines, h.idle, fun he => ?_⟩
  · dsimp only
    rw [hdrop, append_assoc, append_assoc, hchunk, ← append_assoc]
    exact h.bytes
  · exact h.again.trans (by rw [length_append]; exact Nat.le_add_right _ _)
  · dsimp only
    rw [take_append_of_le_length h.again]
    exact h.line hrun
  · dsimp only at hb
    rw [hdrop] at hb
    cases hrest : s.pending.drop s.again with
    | nil =>
      rw [hrest, nil_append] at hb
      exact hok he hrest b hb
    | cons c rest =>
      rw [hrest] at hb
      exact h.escape he b (hrest ▸ hb)
  · rw [hrun] at he
    cases he

theorem Inv.call (hidle : s.reading = none) (count : Nat) (nonblock : Bool) : Inv t (s.call count nonblock) := by
  have hline : s.line = [] := by
    unfold State.line
    rw [hidle]
    rfl
  unfold State.call
  split_ifs with hl hn
  · have hcut : s.returned ++ s.ttyLine.take count ++ s.ttyLine.drop count = s.returned ++ s.ttyLine := by
      rw [append_assoc, take_append_drop]
    exact ⟨h.bytes, h.again, h.line, h.escape, fun he => hcut.trans (h.lines he), fun hr => absurd hidle hr,
      fun he => ⟨(h.ended he).1, (h.ended he).2.1, (h.ended he).2.2.1, hline, hcut.trans (h.ended he).2.2.2.2⟩⟩
  · exact h
  · have hl' : s.ttyLine = [] := by simpa using hl
    refine ⟨h.bytes, h.again, fun he => ?_, h.escape, h.lines, fun _ => hl', fun he => ?_⟩
    · have := h.line he
      rw [hline] at this
      exact this
    · exact ⟨(h.ended he).1, (h.ended he).2.1, (h.ended he).2.2.1, rfl, (h.ended he).2.2.2.2⟩

/-- A byte that was put back goes into the line again. -/
theorem Inv.takeAgain {count k : Nat} {line : List UInt8} {b : UInt8} {rest : List UInt8}
    (hr : s.reading = some (count, line)) (hp : s.pending = b :: rest) (hk : s.again = k + 1) :
    Inv t (s.round t count line b rest) := by
  have hrun := h.running (.inl (by rw [hp]; exact cons_ne_nil _ _))
  have hline := h.line hrun
  have hl : s.line = line := by
    unfold State.line
    rw [hr]
    rfl
  rw [hl, hp, hk, take_succ_cons] at hline
  have htyped := Editor.typed_run t s.taken
  have hplain : Plain t b := htyped.plain b (hline ▸ mem_append_right _ mem_cons_self)
  have hshort : line.length + 1 < maxLine := by
    have hlen := htyped.short
    rw [← hline, length_append, length_cons] at hlen
    omega
  have htaken : s.taken ++ [b].drop s.again = s.taken := by
    rw [hk, drop_succ_cons, drop_nil, append_nil]
  have hdrop : s.pending.drop 1 = rest := by rw [hp]; rfl
  have hagain : s.again - 1 = k := by omega
  have hback : rest.drop k = s.pending.drop s.again := by rw [hp, hk]; rfl
  unfold State.round
  rw [hplain line hshort]
  dsimp only [State.take, length_singleton]
  rw [htaken, hdrop, hagain]
  refine ⟨?_, ?_, fun _ => ?_, ?_, h.lines, fun _ => h.idle (by rw [hr]; nofun), fun he => ?_⟩
  · dsimp only
    rw [hback]
    exact h.bytes
  · have := h.again
    rw [hp, hk, length_cons] at this
    exact Nat.le_of_succ_le_succ this
  · show line ++ [b] ++ rest.take k = _
    rw [append_assoc]
    exact hline
  · dsimp only
    rw [hback]
    exact h.escape
  · rw [hrun] at he
    cases he

/-- A byte that is new goes into the line as it goes into the editor's. -/
theorem Inv.takeNew {count : Nat} {line : List UInt8} {b : UInt8} {rest : List UInt8}
    (hr : s.reading = some (count, line)) (hp : s.pending = b :: rest) (hk : s.again = 0) :
    Inv t (s.round t count line b rest) := by
  have hrun := h.running (.inl (by rw [hp]; exact cons_ne_nil _ _))
  have hline := h.line hrun
  have hl : s.line = line := by
    unfold State.line
    rw [hr]
    rfl
  rw [hl, hk, take_zero, append_nil] at hline
  have hescape := h.escape
  rw [hk, drop_zero, hp] at hescape
  have hbytes := h.bytes
  rw [hk, drop_zero, hp] at hbytes
  have hidle : s.ttyLine = [] := h.idle (by rw [hr]; nofun)
  have hlines := h.lines hrun
  have hnot : ∀ {p : Prop}, s.ended = true → p := fun he => absurd (hrun.symm.trans he) (by decide)
  -- outside of an escape sequence the byte is edited
  have hfeed : Editor.feed t (Editor.run t s.taken) b = match t.edit line b with
      | .more line => ⟨(Editor.run t s.taken).out, line, false⟩
      | .escape => ⟨(Editor.run t s.taken).out, line, true⟩
      | .done line => ⟨(Editor.run t s.taken).out ++ line, [], false⟩ := by
    unfold Editor.feed
    rw [if_neg (fun he => by simpa [he.2] using (hescape he.1 b rfl).1),
      if_neg (fun he => by simpa [he.2] using (hescape he.1 b rfl).2), ← hline]
  have hsnoc : Editor.run t (s.taken ++ [b]) = Editor.feed t (Editor.run t s.taken) b := Editor.run_append t _ [b]
  unfold State.round
  cases hedit : t.edit line b with
  | more line' =>
    rw [hedit] at hfeed
    rw [hfeed] at hsnoc
    dsimp only [State.take, length_singleton]
    rw [hk, hp]
    refine ⟨?_, Nat.zero_le _, fun _ => ?_, fun he => ?_, fun _ => ?_, fun _ => hidle, hnot⟩
    · show s.taken ++ [b] ++ rest ++ s.available = s.arrived
      rw [append_assoc s.taken]
      exact hbytes
    · show line' ++ [] = (Editor.run t (s.taken ++ [b])).line
      rw [hsnoc, append_nil]
    · have he' : (Editor.run t (s.taken ++ [b])).escape = true := he
      rw [hsnoc] at he'
      cases he'
    · show s.returned ++ s.ttyLine = (Editor.run t (s.taken ++ [b])).out
      rw [hsnoc]
      exact hlines
  | done line' =>
    rw [hedit] at hfeed
    rw [hfeed] at hsnoc
    dsimp only [State.take, State.deliver, length_singleton]
    rw [hk, hp]
    refine ⟨?_, Nat.zero_le _, fun _ => ?_, fun he => ?_, fun _ => ?_, fun hne => absurd rfl hne, hnot⟩
    · show s.taken ++ [b] ++ rest ++ s.available = s.arrived
      rw [append_assoc s.taken]
      exact hbytes
    · show [] = (Editor.run t (s.taken ++ [b])).line
      rw [hsnoc]
    · have he' : (Editor.run t (s.taken ++ [b])).escape = true := he
      rw [hsnoc] at he'
      cases he'
    · show s.returned ++ line'.take count ++ (line'.drop count ++ s.ttyLine) = (Editor.run t (s.taken ++ [b])).out
      rw [hidle, append_nil] at hlines ⊢
      rw [hsnoc, append_assoc, take_append_drop, hlines]
  | escape =>
    rw [hedit] at hfeed
    rw [hfeed] at hsnoc
    change Editor.run t (s.taken ++ [b]) = ⟨(Editor.run t s.taken).out, line, true⟩ at hsnoc
    obtain ⟨sk, hsk, hfold⟩ := @skipSequence_spec t rest ⟨(Editor.run t s.taken).out, line, true⟩ rfl
    have hrunsk : Editor.run t (s.taken ++ b :: sk) =
        sk.foldl (Editor.feed t) ⟨(Editor.run t s.taken).out, line, true⟩ := by
      rw [← hsnoc, ← Editor.run_append, append_assoc]
      rfl
    have hsame : (Editor.run t (s.taken ++ b :: sk)).out = (Editor.run t s.taken).out ∧
        (Editor.run t (s.taken ++ b :: sk)).line = line := by
      rw [hrunsk]
      rcases hfold with hfold | ⟨hfold, -⟩
      · rw [hfold]
        exact ⟨rfl, rfl⟩
      · rw [hfold]
        exact ⟨rfl, rfl⟩
    have hrest : (b :: rest).drop (b :: sk).length = skipSequence rest := by
      show rest.drop sk.length = _
      conv_lhs => rw [hsk]
      exact drop_left
    rw [take_of_append hsk]
    dsimp only [State.take]
    rw [hk, hp, hrest, drop_zero, Nat.zero_sub]
    refine ⟨?_, Nat.zero_le _, fun _ => ?_, fun he c hc => ?_, fun _ => ?_, fun _ => hidle, hnot⟩
    · show s.taken ++ b :: sk ++ skipSequence rest ++ s.available = s.arrived
      rw [append_assoc s.taken, cons_append, ← hsk]
      exact hbytes
    · show s.line ++ [] = (Editor.run t (s.taken ++ b :: sk)).line
      rw [hsame.2, hl, append_nil]
    · have he' : (Editor.run t (s.taken ++ b :: sk)).escape = true := he
      rw [hrunsk] at he'
      rcases hfold with hfold | ⟨-, hnext⟩
      · rw [hfold] at he'
        cases he'
      · exact hnext c hc
    · show s.returned ++ s.ttyLine = (Editor.run t (s.taken ++ b :: sk)).out
      rw [hsame.1]
      exact hlines

theorem Inv.step {s' : State} {a : Act} (hsig : t.isig = false) (hok : Whole t src s a)
    (hs : step t src s a = some s') : Inv t s' := by
  cases a with
  | arrive bytes =>
    simp only [Tty.step] at hs
    split_ifs at hs with hc
    obtain rfl := some.inj hs
    have hrun := h.running (.inr (.inr (by simpa using hc)))
    refine ⟨?_, h.again, h.line, h.escape, h.lines, h.idle, fun he => ?_⟩
    · dsimp only
      rw [← append_assoc, h.bytes]
    · exact absurd (hrun.symm.trans he) (by decide)
  | close =>
    simp only [Tty.step] at hs
    split_ifs at hs
    obtain rfl := some.inj hs
    exact ⟨h.bytes, h.again, h.line, h.escape, h.lines, h.idle,
      fun he => ⟨(h.ended he).1, (h.ended he).2.1, rfl, (h.ended he).2.2.2⟩⟩
  | fill =>
    simp only [Tty.step] at hs
    split_ifs at hs with hne
    obtain rfl := some.inj hs
    exact h.fill hsig hne hok
  | call count nonblock =>
    simp only [Tty.step] at hs
    split_ifs at hs with hc
    obtain rfl := some.inj hs
    exact h.call hc.1 count nonblock
  | take =>
    simp only [Tty.step] at hs
    split at hs
    · next count line b rest hr hp =>
      obtain rfl := some.inj hs
      rcases Nat.eq_zero_or_pos s.again with hk | hk
      · exact h.takeNew hr hp hk
      · exact h.takeAgain hr hp (Nat.succ_pred_eq_of_pos hk).symm
    · cases hs
  | interrupt =>
    simp only [Tty.step] at hs
    split at hs
    · next count line hr =>
      split_ifs at hs with hq
      obtain rfl := some.inj hs
      have hl : s.line = line := by
        unfold State.line
        rw [hr]
        rfl
      have hb := h.bytes
      rw [hq.1, drop_nil] at hb
      refine ⟨?_, le_refl _, fun he => ?_, fun _ b hb => ?_, h.lines, fun hne => absurd rfl hne, fun he => ?_⟩
      · dsimp only
        rw [drop_length]
        exact hb
      · have hline := h.line he
        rw [hl, hq.1, take_nil, append_nil] at hline
        show [] ++ line.take line.length = _
        rw [take_length]
        exact hline
      · dsimp only at hb
        rw [drop_length] at hb
        cases hb
      · obtain ⟨-, ha, hc, hline, hlines⟩ := h.ended he
        exact ⟨hl ▸ hline, ha, hc, rfl, hlines⟩
    · cases hs
  | finish =>
    simp only [Tty.step] at hs
    split at hs
    · next count line hr =>
      split_ifs at hs with hq
      obtain rfl := some.inj hs
      have hl : s.line = line := by
        unfold State.line
        rw [hr]
        rfl
      have hidle : s.ttyLine = [] := h.idle (by rw [hr]; nofun)
      refine ⟨h.bytes, h.again, nofun, h.escape, nofun, fun hne => absurd rfl hne, fun _ => ⟨hq.1, hq.2.1, hq.2.2, rfl, ?_⟩⟩
      show s.returned ++ line.take count ++ (line.drop count ++ s.ttyLine) = Editor.lines t s.taken
      rw [hidle, append_nil, append_assoc, take_append_drop]
      by_cases he : s.ended = true
      · obtain ⟨-, -, -, hline, hlines⟩ := h.ended he
        rw [← hl, hline, append_nil, ← hlines, hidle, append_nil]
      · have he' : s.ended = false := by simpa using he
        have hline := h.line he'
        have hlines := h.lines he'
        rw [hl, hq.1, take_nil, append_nil] at hline
        rw [hidle, append_nil] at hlines
        rw [hline, hlines]
        rfl
    · cases hs

end

end Steps

/-! ### The main result -/

theorem inv_start {s : State} (t : Termios) (h : Start s) : Inv t s := by
  subst h
  exact ⟨rfl, le_refl _, fun _ => rfl, nofun, fun _ => rfl, fun _ => rfl, nofun⟩

/-- Reads in canonical mode return the lines of the editor, however the input arrives, as long as no
    fetch brings the rest of an escape sequence that ran out of bytes. -/
theorem canonical_reads_lines (t : Termios) (hsig : t.isig = false) (src : Source) {s : State}
    (h : Reach Start (step t src) (Whole t src) s) : Kept t s :=
  (h.invariant (I := Inv t) (fun _ hi => inv_start t hi) (fun _ _ _ hi hok hs => hi.step hsig hok hs)).kept

/-- The settings of a fresh terminal, without signals. -/
def plainTermios : Termios := ⟨true, false, true, 0x7F, 0x15, 4, 0, 1⟩

/-- A line in two pieces with an erased letter, and an interruption between them. -/
def typed : List Act :=
  [.call 9 false, .arrive [0x61, 0x62], .fill, .take, .take, .interrupt, .arrive [0x7F, 0x63, 0x0D], .call 2 false,
    .take, .take, .fill, .take, .take, .take, .call 9 true]

theorem canonical_reads_lines_typed :
    ∃ s, runLabels (step plainTermios .pipe) ⟨[], false, [], [], none, [], [], 0, [], false⟩ typed = some s ∧
      s.returned = [0x61, 0x63, 0x0A] ∧ Kept plainTermios s := by
  refine ⟨_, rfl, rfl, canonical_reads_lines plainTermios rfl .pipe (Reach.admitted (Reach.start rfl) typed ?_ rfl)⟩
  refine .cons trivial rfl (.cons trivial rfl (.cons (fun h => absurd h (by decide)) rfl ?_))
  refine .cons trivial rfl (.cons trivial rfl (.cons trivial rfl (.cons trivial rfl (.cons trivial rfl ?_))))
  refine .cons trivial rfl (.cons trivial rfl (.cons (fun h => absurd h (by decide)) rfl ?_))
  exact .cons trivial rfl (.cons trivial rfl (.cons trivial rfl (.cons trivial rfl trivial)))

/-- An escape and, behind it, the rest of the sequence of a cursor key. -/
def split : List Act :=
  [.call 9 false, .arrive [0x1B], .fill, .take, .arrive [0x5B, 0x41, 0x0A], .fill, .take, .take, .take]

/-- The rest of the sequence is returned as if it had been typed. -/
theorem split_escape_returned :
    ∃ s, runLabels (step plainTermios .pipe) ⟨[], false, [], [], none, [], [], 0, [], false⟩ split = some s ∧
      s.returned = [0x5B, 0x41, 0x0A] ∧ Editor.lines plainTermios s.arrived = [0x0A] ∧ ¬ Kept plainTermios s := by
  refine ⟨_, rfl, rfl, by decide, fun h => ?_⟩
  exact absurd (h.lines rfl) (by decide)

end Tty

end HamixOS.Kernel
