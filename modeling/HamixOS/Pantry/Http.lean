import HamixOS.Lib.Bytes
import HamixOS.Lib.Utf8
import HamixOS.Pantry.Package

namespace HamixOS.Pantry

open Lib List Option Text UInt8 Utf8

/-!
# Chunked bodies (`http.rs`)

`dechunk` takes the chunks of a body apart.  Its position goes past the line end behind a chunk
without a look at it, so a body that stops there leads to a slice outside the body.

* `dechunk_loop_cases` — what one round does;
* `dechunk_returns_iff` — the bodies on which `dechunk` returns at all;
* `dechunk_coded_iff` — the encodings it takes apart.
-/

namespace Http

/-- How `dechunk` ends short of a body: with an error of its own, or with a fault of the program. -/
inductive Stop where
  | truncatedBody
  | badHeader
  | badSize
  | truncatedChunk
  | outOfRange
  | overflow
  | endless
  deriving DecidableEq

/-- What is not one of the errors `dechunk` answers. -/
def Stop.faulty : Stop → Bool
  | truncatedBody => false
  | badHeader => false
  | badSize => false
  | truncatedChunk => false
  | outOfRange => true
  | overflow => true
  | endless => true

def crlf : Bytes := [0x0D, 0x0A]

/-- `find`: the place of the first window that is `needle`. -/
def find (needle : Bytes) : Bytes → Option Nat
  | [] => none
  | b :: rest => if needle.isPrefixOf (b :: rest) then some 0 else (find needle rest).map (· + 1)

/-- `char::to_digit(16)`. -/
def hexDigit (c : Char) : Option Nat :=
  if '0' ≤ c ∧ c ≤ '9' then some (c.toNat - 48)
  else if 'a' ≤ c ∧ c ≤ 'f' then some (c.toNat - 87)
  else if 'A' ≤ c ∧ c ≤ 'F' then some (c.toNat - 55)
  else none

/-- The number a text of hexadecimal digits denotes, after `n`. -/
def hexNumber : Nat → Text → Option Nat
  | n, [] => some n
  | n, c :: t => (hexDigit c).bind fun d => hexNumber (n * 16 + d) t

/-- `usize::from_str_radix(_, 16)`. -/
def usizeFromHex (t : Text) : Option Nat :=
  let digits := if t.head? = some '+' then t.tail else t
  if digits = [] then none else (hexNumber 0 digits).filter (· < 2 ^ 64)

/-- The line at `pos`: where the data of the chunk begins, and its size. -/
def chunkHeader (body : Bytes) (pos : Nat) : Except Stop (Nat × Nat) :=
  if body.length < pos then .error .outOfRange
  else
    match find crlf (body.drop pos) with
    | none => .error .truncatedBody
    | some n =>
      match fromUtf8 ((body.drop pos).take n) with
      | none => .error .badHeader
      | some sizeText =>
        match usizeFromHex (trim (sizeText.takeWhile (· ≠ ';'))) with
        | none => .error .badSize
        | some size => .ok (pos + n + 2, size)

/-- The loop of `dechunk`, with what it has copied. -/
def dechunkLoop (body : Bytes) : Nat → Nat → Bytes → Except Stop Bytes
  | 0, _, _ => .error .endless
  | fuel + 1, pos, out =>
    match chunkHeader body pos with
    | .error e => .error e
    | .ok (pos, size) =>
      if size = 0 then .ok out
      else if 2 ^ 64 ≤ pos + size then .error .overflow
      else if body.length < pos + size then .error .truncatedChunk
      else if 2 ^ 64 ≤ pos + (size + 2) then .error .overflow
      else dechunkLoop body fuel (pos + (size + 2)) (out ++ slice body pos size)

/-- `dechunk`.  Every round takes five bytes at least. -/
def dechunk (body : Bytes) : Except Stop Bytes := dechunkLoop body (body.length + 2) 0 []

/-! ### The bodies on which `dechunk` answers -/

/-- An answer is a body, or one of the errors of `dechunk`. -/
def Answers (r : Except Stop Bytes) : Prop := ∀ e, r = .error e → e.faulty = false

/-- The positions at which a chunk begins: the first byte of the body, and the byte behind the line end that
    follows a chunk. -/
inductive Begins (body : Bytes) : Nat → Prop
  | first : Begins body 0
  | next {pos start size : Nat} : Begins body pos → chunkHeader body pos = .ok (start, size) → size ≠ 0 →
      start + size + 2 ≤ body.length → Begins body (start + size + 2)

/-- The data of the chunk at `pos`, if the body holds it, is followed by two bytes more, and its end is a
    number of 64 bits. -/
def Fits (body : Bytes) (pos : Nat) : Prop :=
  ∀ start size, chunkHeader body pos = .ok (start, size) → size ≠ 0 →
    start + size < 2 ^ 64 ∧ (start + size ≤ body.length → start + size + 2 ≤ body.length)

variable {body : Bytes}

/-- The header of a chunk takes two bytes at least. -/
theorem chunkHeader_ok {pos start size : Nat} (h : chunkHeader body pos = .ok (start, size)) :
    pos ≤ body.length ∧ pos + 2 ≤ start := by
  unfold chunkHeader at h
  split_ifs at h with hpos
  repeat' split at h
  all_goals first
    | cases h
      exact ⟨not_lt.mp hpos, by omega⟩
    | cases h

variable {pos : Nat}

theorem chunkHeader_error {e : Stop} (hpos : pos ≤ body.length) (h : chunkHeader body pos = .error e) :
    e.faulty = false := by
  unfold chunkHeader at h
  rw [if_neg (not_lt.mpr hpos)] at h
  repeat' split at h
  all_goals
    cases h
    try rfl

theorem Begins.le (h : Begins body pos) : pos ≤ body.length := by
  cases h with
  | first => exact Nat.zero_le _
  | next _ _ _ hle => exact hle

/-- There is fuel for what is left of the body. -/
def Fuelled (body : Bytes) (fuel pos : Nat) : Prop := 0 < fuel ∧ body.length + 2 ≤ pos + fuel

theorem Fuelled.next {fuel pos pos' : Nat} (h : Fuelled body (fuel + 1) pos) (hpos : pos ≤ body.length)
    (hlt : pos < pos') : Fuelled body fuel pos' := by
  have := h.2
  exact ⟨by omega, by omega⟩

section

variable (hlen : body.length < 2 ^ 63)

include hlen

/-- A round at a chunk that fits: the end, an error, or the next chunk. -/
theorem dechunkLoop_next {fuel pos start size : Nat} {out : Bytes}
    (hh : chunkHeader body pos = .ok (start, size)) (hsize : size ≠ 0) (hle : start + size ≤ body.length) :
    dechunkLoop body (fuel + 1) pos out =
      dechunkLoop body fuel (start + size + 2) (out ++ slice body start size) := by
  rw [dechunkLoop, hh]
  dsimp only
  rw [if_neg hsize, if_neg (by omega), if_neg (by omega), if_neg (by omega), add_assoc]

/-- Every chunk of a body is reached, if the chunks before it fit. -/
theorem dechunk_at (h : Begins body pos) :
    ∃ fuel out, Fuelled body (fuel + 1) pos ∧ dechunk body = dechunkLoop body (fuel + 1) pos out := by
  induction h with
  | first => exact ⟨_, _, ⟨Nat.succ_pos _, by omega⟩, rfl⟩
  | @next pos start size hb hh hsize hle ih =>
    obtain ⟨fuel, out, hfuel, heq⟩ := ih
    have hnext : Fuelled body fuel (start + size + 2) := hfuel.next hb.le (by have := chunkHeader_ok hh; omega)
    obtain ⟨n, rfl⟩ : ∃ n, fuel = n + 1 := ⟨fuel - 1, by have := hnext.1; omega⟩
    exact ⟨n, _, hnext, heq.trans (dechunkLoop_next hlen hh hsize (by omega))⟩

theorem answers_loop (hfits : ∀ pos, Begins body pos → Fits body pos) {fuel pos : Nat}
    {out : Bytes} (hb : Begins body pos) (hfuel : Fuelled body fuel pos) : Answers (dechunkLoop body fuel pos out) := by
  induction fuel generalizing pos out with
  | zero => exact absurd hfuel.1 (lt_irrefl 0)
  | succ fuel ih =>
    cases hh : chunkHeader body pos with
    | error e =>
      rw [dechunkLoop, hh]
      intro e' he
      cases he
      exact chunkHeader_error hb.le hh
    | ok header =>
      obtain ⟨start, size⟩ := header
      by_cases hsize : size = 0
      · rw [dechunkLoop, hh]
        dsimp only
        rw [if_pos hsize]
        intro e he
        cases he
      obtain ⟨hsmall, hbehind⟩ := hfits pos hb start size hh hsize
      by_cases hle : start + size ≤ body.length
      · rw [dechunkLoop_next hlen hh hsize hle]
        exact ih (hb.next hh hsize (hbehind hle)) (hfuel.next hb.le (by have := chunkHeader_ok hh; omega))
      · rw [dechunkLoop, hh]
        dsimp only
        rw [if_neg hsize, if_neg (by omega), if_pos (by omega)]
        intro e he
        cases he
        rfl

/-- A chunk that does not fit leads to a fault. -/
theorem fits_of_answers (h : Answers (dechunk body)) (hb : Begins body pos) :
    Fits body pos := by
  intro start size hh hsize
  obtain ⟨fuel, out, hfuel, heq⟩ := dechunk_at hlen hb
  rw [heq] at h
  by_cases hle : start + size ≤ body.length
  · refine ⟨by omega, fun _ => ?_⟩
    by_contra hshort
    rw [dechunkLoop_next hlen hh hsize hle] at h
    have hnext : Fuelled body fuel (start + size + 2) := hfuel.next hb.le (by have := chunkHeader_ok hh; omega)
    obtain ⟨n, rfl⟩ : ∃ n, fuel = n + 1 := ⟨fuel - 1, by have := hnext.1; omega⟩
    -- the slice behind the chunk begins outside the body
    have hout : chunkHeader body (start + size + 2) = .error .outOfRange := by
      unfold chunkHeader
      rw [if_pos (by omega)]
    rw [dechunkLoop, hout] at h
    exact absurd (h .outOfRange rfl) (by decide)
  · refine ⟨?_, fun hle' => absurd hle' hle⟩
    by_contra hlarge
    rw [dechunkLoop, hh] at h
    dsimp only at h
    rw [if_neg hsize, if_pos (by omega)] at h
    exact absurd (h .overflow rfl) (by decide)

theorem dechunk_answers_iff :
    Answers (dechunk body) ↔ ∀ pos, Begins body pos → Fits body pos :=
  ⟨fun h _ hb => fits_of_answers hlen h hb,
    fun hfits => answers_loop hlen hfits .first ⟨Nat.succ_pos _, by omega⟩⟩

end

/-! ### Encoded bodies -/

def char (b : UInt8) : Char := Char.ofNat b.toNat

/-- The line in front of a chunk: a size in hexadecimal digits, and perhaps an extension. -/
structure Line where
  digits : Bytes
  ext : Bytes
  named : digits ≠ []
  hex : ∀ b ∈ digits, (hexDigit (char b)).isSome
  apart : ext = [] ∨ ext.head? = some 0x3B
  whole : find crlf ext = none

namespace Line

def bytes (l : Line) : Bytes := l.digits ++ l.ext ++ crlf

/-- The size the line names. -/
def size (l : Line) : Nat := (hexNumber 0 (l.digits.map char)).getD 0

/-- The extension is text. -/
def Readable (l : Line) : Prop := ∃ t, fromUtf8 l.ext = some t

end Line

structure Chunk where
  line : Line
  data : Bytes
  sized : line.size = data.length
  filled : data ≠ []

def Chunk.bytes (c : Chunk) : Bytes := c.line.bytes ++ (c.data ++ crlf)

/-- A body of chunks that is closed by one of size zero; `rest` is what comes behind its line. -/
structure Coded where
  chunks : List Chunk
  last : Line
  closed : last.size = 0
  rest : Bytes

namespace Coded

def bytes (c : Coded) : Bytes := c.chunks.flatMap Chunk.bytes ++ (c.last.bytes ++ c.rest)

def data (c : Coded) : Bytes := c.chunks.flatMap Chunk.data

def Readable (c : Coded) : Prop := (∀ chunk ∈ c.chunks, chunk.line.Readable) ∧ c.last.Readable

end Coded

/-- The first line end of a line is its own. -/
theorem find_line {line : Bytes} (h : find crlf line = none) (rest : Bytes) :
    find crlf (line ++ crlf ++ rest) = some line.length := by
  induction line with
  | nil => rfl
  | cons b line ih =>
    unfold find at h
    split_ifs at h with hp
    rw [map_eq_none_iff] at h
    have hp' : ¬ crlf.isPrefixOf (b :: (line ++ crlf ++ rest)) = true := by
      cases line with
      | nil => simp [crlf, isPrefixOf]
      | cons d line => simpa [crlf, isPrefixOf] using hp
    rw [cons_append, cons_append, find, if_neg hp', ih h]
    rfl

theorem find_append {line ext : Bytes} (h : 0x0D ∉ line) (hext : find crlf ext = none) :
    find crlf (line ++ ext) = none := by
  induction line with
  | nil => exact hext
  | cons b line ih =>
    obtain ⟨hb, hline⟩ := not_or.mp (mt mem_cons.mpr h)
    have hp : ¬ crlf.isPrefixOf (b :: (line ++ ext)) = true := by
      simp [crlf, isPrefixOf, hb]
    rw [cons_append, find, if_neg hp, ih hline]
    rfl

theorem hexDigit_small {b : UInt8} (h : (hexDigit (char b)).isSome) :
    b < 0x80 ∧ b ≠ 0x0D ∧ char b ≠ ';' ∧ isWhitespace (char b) = false ∧ char b ≠ '+' := by
  have hall : ∀ n < 256, (hexDigit (Char.ofNat n)).isSome → n < 0x80 ∧ n ≠ 0x0D ∧ Char.ofNat n ≠ ';' ∧
      isWhitespace (Char.ofNat n) = false ∧ Char.ofNat n ≠ '+' := by decide +kernel
  obtain ⟨hsmall, hcr, hrest⟩ := hall b.toNat b.toNat_lt h
  exact ⟨lt_iff_toNat_lt.mpr hsmall, fun hb => hcr (by rw [hb]; rfl), hrest⟩

theorem utf8EncodeChar_char {b : UInt8} (hb : b < 0x80) : String.utf8EncodeChar (char b) = [b] := by
  have hall : ∀ n < 128, String.utf8EncodeChar (Char.ofNat n) = [ofNat n] := by decide +kernel
  rw [char, hall b.toNat (lt_iff_toNat_lt.mp hb), UInt8.ofNat_toNat]

theorem fromUtf8_cons {b : UInt8} (hb : b < 0x80) (rest : Bytes) :
    fromUtf8 (b :: rest) = (fromUtf8 rest).map (char b :: ·) := by
  have hlossy : fromUtf8Lossy (b :: rest) = char b :: fromUtf8Lossy rest := by
    unfold fromUtf8Lossy
    rw [length_cons, decode, decodeOne.eq_def, if_pos hb]
    rfl
  have hencode : encode (char b :: fromUtf8Lossy rest) = b :: encode (fromUtf8Lossy rest) := by
    rw [encode, flatMap_cons, utf8EncodeChar_char hb]
    rfl
  unfold fromUtf8
  rw [hlossy, hencode]
  by_cases hrest : encode (fromUtf8Lossy rest) = rest
  · rw [if_pos hrest, if_pos (by rw [hrest])]
    rfl
  · rw [if_neg hrest, if_neg fun h => hrest (List.cons.inj h).2]
    rfl

theorem fromUtf8_append {digits : Bytes} (h : ∀ b ∈ digits, (hexDigit (char b)).isSome) (rest : Bytes) :
    fromUtf8 (digits ++ rest) = (fromUtf8 rest).map (digits.map char ++ ·) := by
  induction digits with
  | nil => simp
  | cons b digits ih =>
    rw [cons_append, fromUtf8_cons (hexDigit_small (h b mem_cons_self)).1,
      ih fun d hd => h d (mem_cons_of_mem _ hd), Option.map_map]
    rfl

theorem trim_eq {t : Text} (h : ∀ c ∈ t, isWhitespace c = false) : trim t = t := by
  have hkept : ∀ t : Text, (∀ c ∈ t, isWhitespace c = false) → t.dropWhile isWhitespace = t := by
    intro t h
    cases t with
    | nil => rfl
    | cons c t => rw [dropWhile_cons_of_neg (by simp [h c])]
  unfold trim
  rw [hkept t h, hkept t.reverse fun c hc => h c (mem_reverse.mp hc), reverse_reverse]

namespace Line

variable (l : Line)

theorem hexNumber_isSome {digits : Bytes} (h : ∀ b ∈ digits, (hexDigit (char b)).isSome) (n : Nat) :
    (hexNumber n (digits.map char)).isSome := by
  induction digits generalizing n with
  | nil => rfl
  | cons b digits ih =>
    obtain ⟨d, hd⟩ := isSome_iff_exists.mp (h b mem_cons_self)
    rw [map_cons, hexNumber, hd]
    exact ih (fun b' hb => h b' (mem_cons_of_mem _ hb)) _

theorem usizeFromHex_digits (h : l.size < 2 ^ 64) : usizeFromHex (trim (l.digits.map char)) = some l.size := by
  have hplain : ∀ c ∈ l.digits.map char, isWhitespace c = false ∧ c ≠ '+' := by
    intro c hc
    obtain ⟨b, hb, rfl⟩ := mem_map.mp hc
    exact (hexDigit_small (l.hex b hb)).2.2.2
  have hnumber : hexNumber 0 (l.digits.map char) = some l.size := by
    obtain ⟨n, hn⟩ := isSome_iff_exists.mp (hexNumber_isSome l.hex 0)
    rw [size, hn]
    rfl
  have hsign : ¬ (l.digits.map char).head? = some '+' := fun hc => (hplain '+' (mem_of_head? hc)).2 rfl
  rw [trim_eq fun c hc => (hplain c hc).1, usizeFromHex, if_neg hsign, if_neg (by simpa using l.named), hnumber]
  simpa [Option.filter] using h

/-- The size is what stands before the extension. -/
theorem takeWhile_text {t : Text} (h : fromUtf8 l.ext = some t) :
    (l.digits.map char ++ t).takeWhile (· ≠ ';') = l.digits.map char := by
  have hdigits : ∀ c ∈ l.digits.map char, decide (c ≠ ';') = true := by
    intro c hc
    obtain ⟨b, hb, rfl⟩ := mem_map.mp hc
    exact decide_eq_true (hexDigit_small (l.hex b hb)).2.2.1
  rw [takeWhile_append_of_pos hdigits]
  have hext : t.takeWhile (· ≠ ';') = [] := by
    cases he : l.ext with
    | nil =>
      rw [he] at h
      cases h
      rfl
    | cons b rest =>
      have hb : b = 0x3B := by simpa [he] using l.apart
      rw [he, hb, fromUtf8_cons (by decide)] at h
      obtain ⟨t', -, rfl⟩ := map_eq_some_iff.mp h
      rfl
  rw [hext, append_nil]

theorem find_bytes (rest : Bytes) : find crlf (l.bytes ++ rest) = some (l.digits ++ l.ext).length :=
  find_line (find_append (fun h => (hexDigit_small (l.hex _ h)).2.1 rfl) l.whole) rest

/-- What `dechunk` reads of a line. -/
theorem chunkHeader_eq {body rest : Bytes} (hpos : pos ≤ body.length) (hbody : body.drop pos = l.bytes ++ rest)
    (hsize : l.size < 2 ^ 64) :
    (l.Readable → chunkHeader body pos = .ok (pos + l.bytes.length, l.size)) ∧
      (¬ l.Readable → chunkHeader body pos = .error .badHeader) := by
  have htake : (l.bytes ++ rest).take (l.digits ++ l.ext).length = l.digits ++ l.ext := by
    rw [bytes, append_assoc, take_left]
  have hlen : l.bytes.length = (l.digits ++ l.ext).length + 2 := by
    rw [bytes, length_append]
    rfl
  unfold chunkHeader
  rw [if_neg (not_lt.mpr hpos), hbody, find_bytes]
  dsimp only
  rw [htake, fromUtf8_append l.hex]
  constructor
  · rintro ⟨t, ht⟩
    rw [ht, map_some]
    dsimp only
    rw [l.takeWhile_text ht, l.usizeFromHex_digits hsize, hlen]
    rfl
  · intro hnot
    have hnone : fromUtf8 l.ext = none := eq_none_iff_forall_ne_some.mpr fun t ht => hnot ⟨t, ht⟩
    rw [hnone]
    rfl

end Line

theorem Chunk.length_bytes (c : Chunk) : c.bytes.length = c.line.bytes.length + c.line.size + 2 := by
  rw [Chunk.bytes, length_append, length_append, c.sized]
  rfl

/-- The run over the chunks of an encoded body, from the first of `chunks` on. -/
theorem dechunkLoop_coded (hlen : body.length < 2 ^ 63) {last : Line} (hlast : last.size = 0) {rest : Bytes}
    (chunks : List Chunk) {fuel pos : Nat} {out : Bytes} (hfuel : Fuelled body fuel pos) (hpos : pos ≤ body.length)
    (hbody : body.drop pos = chunks.flatMap Chunk.bytes ++ (last.bytes ++ rest)) :
    dechunkLoop body fuel pos out = .ok (out ++ chunks.flatMap Chunk.data) ↔
      (∀ c ∈ chunks, c.line.Readable) ∧ last.Readable := by
  obtain ⟨fuel, rfl⟩ : ∃ n, fuel = n + 1 := ⟨fuel - 1, by have := hfuel.1; omega⟩
  induction chunks generalizing fuel pos out with
  | nil =>
    obtain ⟨hok, herr⟩ := last.chunkHeader_eq hpos hbody (by rw [hlast]; decide)
    by_cases hread : last.Readable
    · rw [dechunkLoop, hok hread]
      dsimp only
      rw [if_pos hlast]
      simp [hread]
    · rw [dechunkLoop, herr hread]
      simp [hread]
  | cons c chunks ih =>
    have hsplit : body.drop pos = c.line.bytes ++ (c.data ++ (crlf ++ (chunks.flatMap Chunk.bytes ++ (last.bytes ++ rest)))) := by
      rw [hbody, flatMap_cons, Chunk.bytes]
      simp only [append_assoc]
    have htotal : body.length = pos + (c.bytes.length + (chunks.flatMap Chunk.bytes ++ (last.bytes ++ rest)).length) := by
      have := congrArg length hbody
      rw [flatMap_cons, append_assoc, length_append, length_drop] at this
      omega
    have hc := c.length_bytes
    obtain ⟨hok, herr⟩ := c.line.chunkHeader_eq hpos hsplit (by omega)
    by_cases hread : c.line.Readable
    · have hfilled : c.line.size ≠ 0 := by rw [c.sized]; exact fun h => c.filled (eq_nil_of_length_eq_zero h)
      have hdata : slice body (pos + c.line.bytes.length) c.line.size = c.data := by
        rw [slice, ← drop_drop, hsplit, drop_left, c.sized, take_left]
      have hdrop : body.drop (pos + c.line.bytes.length + c.line.size + 2) =
          chunks.flatMap Chunk.bytes ++ (last.bytes ++ rest) := by
        rw [show pos + c.line.bytes.length + c.line.size + 2 = pos + c.bytes.length by omega, ← drop_drop, hbody,
          flatMap_cons, append_assoc, drop_left]
      have hnext : Fuelled body fuel (pos + c.line.bytes.length + c.line.size + 2) := hfuel.next hpos (by omega)
      obtain ⟨n, rfl⟩ : ∃ n, fuel = n + 1 := ⟨fuel - 1, by have := hnext.1; omega⟩
      rw [dechunkLoop_next hlen (hok hread) hfilled (by omega), hdata, flatMap_cons, ← append_assoc,
        ih (by omega) hdrop n hnext, forall_mem_cons]
      simp only [hread, true_and]
    · rw [dechunkLoop, herr hread]
      simp [hread]

/-- `dechunk` answers on a body iff every chunk in it fits, and takes an encoded body apart iff its extensions
    are text. -/
theorem dechunk_sound_iff (body : Bytes) (hlen : body.length < 2 ^ 63) :
    (Answers (dechunk body) ↔ ∀ pos, Begins body pos → Fits body pos) ∧
      ∀ c : Coded, c.bytes = body → (dechunk body = .ok c.data ↔ c.Readable) := by
  refine ⟨dechunk_answers_iff hlen, fun c hc => ?_⟩
  exact dechunkLoop_coded hlen c.closed c.chunks ⟨Nat.succ_pos _, by omega⟩ (Nat.zero_le _) hc.symm

/-- A body of one byte, cut before the line end that follows it. -/
theorem dechunk_sound_iff_short :
    [0x31, 0x0D, 0x0A, 0x61].length < 2 ^ 63 ∧
      (Answers (dechunk [0x31, 0x0D, 0x0A, 0x61]) ↔
        ∀ pos, Begins [0x31, 0x0D, 0x0A, 0x61] pos → Fits [0x31, 0x0D, 0x0A, 0x61] pos) :=
  ⟨by decide, (dechunk_sound_iff [0x31, 0x0D, 0x0A, 0x61] (by decide)).1⟩

theorem dechunk_faults : ¬ (∀ body : Bytes, body.length < 2 ^ 63 → Answers (dechunk body)) := fun h =>
  absurd (h [0x31, 0x0D, 0x0A, 0x61] (by decide) .outOfRange (by decide +kernel)) (by decide)

end Http

end HamixOS.Pantry
