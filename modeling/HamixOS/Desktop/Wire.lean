import HamixOS.Lib.Words
import HamixOS.Lib.Utf8

namespace HamixOS.Desktop

open Lib List Option Nat Utf8

/-!
# The Wayland wire format (`crates/wlwire`)

A message is a header of eight bytes and its arguments, each padded to four bytes.  `Message`
builds one; `Reader` reads the arguments back and may be given any bytes at all.

* `build_read` — the reader returns the arguments that were put in;
* `reads_inside`, `reads_invalid` — on any bytes it stays inside them, and after a read that fails every
  read returns the default;
* `wire_exact` — both together.
-/

namespace Wire

/-- `HEADER_SIZE`. -/
def headerSize : Nat := 8

/-- `MAX_MESSAGE_SIZE`. -/
def maxMessageSize : Nat := 0xFFFF

/-- `usize::MAX`. -/
def usizeMax : Nat := 2 ^ 64 - 1

structure Header where
  object : UInt32
  opcode : UInt16
  size : Nat
  deriving DecidableEq

def decodeHeader (data : Bytes) : Option Header :=
  if data.length < headerSize then none
  else
    let word := of32 (slice data 4 4)
    let size := (word >>> 16).toNat
    if size < headerSize ∨ maxMessageSize < size ∨ size &&& 3 ≠ 0 then none
    else some ⟨of32 (slice data 0 4), word.toUInt16, size⟩

/-- The typed arguments; `uint` and `int` are `u32` and `i32`. -/
inductive Arg where
  | u32 (value : UInt32)
  | i32 (value : Int32)
  | string (text : Text)
  | array (data : Bytes)
  deriving DecidableEq

inductive Kind where
  | u32
  | i32
  | string
  | array
  deriving DecidableEq

def Arg.kind : Arg → Kind
  | .u32 _ => .u32
  | .i32 _ => .i32
  | .string _ => .string
  | .array _ => .array

/-- What a reader returns once it is not valid. -/
def Kind.default : Kind → Arg
  | .u32 => .u32 0
  | .i32 => .i32 0
  | .string => .string []
  | .array => .array []

/-! ### Building -/

structure Message where
  buf : Bytes
  valid : Bool

namespace Message

def new (object : UInt32) (opcode : UInt16) : Message := ⟨le32 object ++ le32 opcode.toUInt32, true⟩

/-- The loop that pushes zeros up to a multiple of four. -/
def pad (buf : Bytes) : Bytes := buf ++ zeros ((4 - buf.length % 4) % 4)

variable (m : Message)

def u32 (value : UInt32) : Message := { m with buf := m.buf ++ le32 value }

def i32 (value : Int32) : Message := m.u32 value.toUInt32

def string (text : Text) : Message :=
  let len := (Utf8.encode text).length + 1
  if len ≤ usizeMax ∧ len ≤ 0xFFFFFFFF then
    { m with buf := pad (m.buf ++ le32 (UInt32.ofNat len) ++ Utf8.encode text ++ [0]) }
  else { m with valid := false }

def array (data : Bytes) : Message :=
  if 0xFFFFFFFF < data.length then { m with valid := false }
  else { m with buf := pad (m.buf ++ le32 (UInt32.ofNat data.length) ++ data) }

def put : Arg → Message
  | .u32 value => m.u32 value
  | .i32 value => m.i32 value
  | .string text => m.string text
  | .array data => m.array data

def tryFinish : Option Bytes :=
  if m.valid = false ∨ m.buf.length < headerSize ∨ maxMessageSize < m.buf.length ∨ m.buf.length &&& 3 ≠ 0 then none
  else
    let size := UInt32.ofNat m.buf.length
    let opcode := of32 (slice m.buf 4 4)
    some (splice m.buf 4 (le32 ((size <<< 16) ||| (opcode &&& 0xFFFF))))

end Message

/-- A message with its arguments. -/
def build (object : UInt32) (opcode : UInt16) (args : List Arg) : Message :=
  args.foldl Message.put (Message.new object opcode)

/-! ### Reading -/

/-- `checked_add` on `usize`. -/
def checkedAdd (a b : Nat) : Option Nat := if a + b ≤ usizeMax then some (a + b) else none

structure Reader where
  data : Bytes
  pos : Nat
  valid : Bool

namespace Reader

def new (data : Bytes) : Reader := ⟨data, 0, true⟩

variable (r : Reader)

def remaining : Nat := r.data.length - r.pos

def fail : Reader := { r with valid := false, pos := r.data.length }

def u32 : UInt32 × Reader :=
  match checkedAdd r.pos 4 with
  | none => (0, r.fail)
  | some stop =>
    match getRange r.data r.pos stop with
    | none => (0, r.fail)
    | some bytes => (of32 bytes, { r with pos := stop })

/-- `start.saturating_add(n & !3)` of the length with three added. -/
def paddedEnd (start len : Nat) : Option Nat :=
  (checkedAdd len 3).map fun n => min (start + n / 4 * 4) usizeMax

/-- `none` is an index out of range. -/
def string : Option (Text × Reader) :=
  let (len, r) := r.u32
  if r.valid = false ∨ len = 0 then some ([], r)
  else
    match checkedAdd r.pos len.toNat with
    | none => some ([], r.fail)
    | some stop =>
      match paddedEnd r.pos len.toNat with
      | none => some ([], r.fail)
      | some padded =>
        if r.data.length < stop ∨ r.data.length < padded then some ([], r.fail)
        else do
          let last ← r.data[stop - 1]?
          if last ≠ 0 then return ([], r.fail)
          let raw ← getRange r.data r.pos stop
          let text ← getRange raw 0 (raw.length - 1)
          return (fromUtf8Lossy text, { r with pos := padded })

def array : Option (Bytes × Reader) :=
  let (len, r) := r.u32
  if r.valid = false then some ([], r)
  else
    match checkedAdd r.pos len.toNat with
    | none => some ([], r.fail)
    | some stop =>
      match paddedEnd r.pos len.toNat with
      | none => some ([], r.fail)
      | some padded =>
        if r.data.length < stop ∨ r.data.length < padded then some ([], r.fail)
        else do
          let data ← getRange r.data r.pos stop
          return (data, { r with pos := padded })

def read : Kind → Option (Arg × Reader)
  | .u32 => some (.u32 r.u32.1, r.u32.2)
  | .i32 => some (.i32 r.u32.1.toInt32, r.u32.2)
  | .string => r.string.map fun x => (.string x.1, x.2)
  | .array => r.array.map fun x => (.array x.1, x.2)

end Reader

/-- A sequence of reads. -/
def reads : List Kind → Reader → Option (List Arg × Reader)
  | [], r => some ([], r)
  | k :: ks, r => do
    let (a, r) ← r.read k
    let (args, r) ← reads ks r
    return (a :: args, r)

/-! ### What a builder writes -/

/-- Zeros up to a multiple of four. -/
def padding (n : Nat) : Bytes := zeros ((4 - n % 4) % 4)

/-- The bytes of an argument, which depend on nothing before it. -/
def Arg.bytes : Arg → Bytes
  | .u32 value => le32 value
  | .i32 value => le32 value.toUInt32
  | .string text =>
    le32 (UInt32.ofNat ((Utf8.encode text).length + 1)) ++ Utf8.encode text ++ [0] ++ padding ((Utf8.encode text).length + 1)
  | .array data => le32 (UInt32.ofNat data.length) ++ data ++ padding data.length

/-- Its length fits in the word before it. -/
def Arg.Fits : Arg → Prop
  | .u32 _ => True
  | .i32 _ => True
  | .string text => (Utf8.encode text).length + 1 ≤ 0xFFFFFFFF
  | .array data => data.length ≤ 0xFFFFFFFF

theorem Arg.length_bytes (a : Arg) : a.bytes.length % 4 = 0 := by
  cases a with
  | u32 value => simp [bytes]
  | i32 value => simp [bytes]
  | string text =>
    simp only [bytes, padding, length_append, length_le32, length_zeros, length_singleton]
    omega
  | array data =>
    simp only [bytes, padding, length_append, length_le32, length_zeros]
    omega

namespace Message

/-- After a whole number of words, the padding is that of what was put in. -/
theorem pad_append {buf : Bytes} (hbuf : buf.length % 4 = 0) (v : UInt32) (data : Bytes) :
    pad (buf ++ le32 v ++ data) = buf ++ (le32 v ++ data ++ padding data.length) := by
  have hlen : (buf ++ le32 v ++ data).length % 4 = data.length % 4 := by
    simp only [length_append, length_le32]
    omega
  unfold pad padding
  rw [hlen]
  simp only [append_assoc]

theorem put_of_invalid {m : Message} (hm : m.valid = false) (a : Arg) : (m.put a).valid = false := by
  cases a with
  | u32 value => exact hm
  | i32 value => exact hm
  | string text =>
    unfold put string
    dsimp only
    split
    · exact hm
    · rfl
  | array data =>
    simp only [put, array]
    split
    · rfl
    · exact hm

theorem put_of_valid {m : Message} (hbuf : m.buf.length % 4 = 0) {a : Arg} (hv : (m.put a).valid = true) :
    a.Fits ∧ (m.put a).buf = m.buf ++ a.bytes := by
  cases a with
  | u32 value => exact ⟨trivial, rfl⟩
  | i32 value => exact ⟨trivial, rfl⟩
  | string text =>
    unfold put string at hv ⊢
    dsimp only at hv ⊢
    split at hv
    · rename_i hfits
      rw [if_pos hfits]
      have h := pad_append hbuf (UInt32.ofNat ((encode text).length + 1)) (encode text ++ [0])
      rw [length_append, length_singleton] at h
      simp only [append_assoc] at h ⊢
      refine ⟨hfits.2, ?_⟩
      rw [h]
      simp only [Arg.bytes, append_assoc]
    · cases hv
  | array data =>
    simp only [put, array] at hv ⊢
    split at hv
    · cases hv
    · rename_i hfits
      rw [if_neg hfits]
      exact ⟨Nat.le_of_not_lt hfits, pad_append hbuf _ data⟩

theorem foldl_put_of_invalid (args : List Arg) {m : Message} (hm : m.valid = false) :
    (args.foldl put m).valid = false := by
  induction args generalizing m with
  | nil => exact hm
  | cons a args ih => exact ih (put_of_invalid hm a)

/-- A builder that is still valid holds the bytes of its arguments one after the other. -/
theorem foldl_put (args : List Arg) {m : Message} (hbuf : m.buf.length % 4 = 0)
    (hv : (args.foldl put m).valid = true) :
    (∀ a ∈ args, a.Fits) ∧ (args.foldl put m).buf = m.buf ++ args.flatMap Arg.bytes := by
  induction args generalizing m with
  | nil => exact ⟨fun a ha => absurd ha not_mem_nil, (List.append_nil _).symm⟩
  | cons a args ih =>
    rw [foldl_cons] at hv ⊢
    have hput : (m.put a).valid = true := by
      by_contra hne
      rw [foldl_put_of_invalid args (Bool.eq_false_of_not_eq_true hne)] at hv
      cases hv
    obtain ⟨hfits, hbytes⟩ := put_of_valid hbuf hput
    have hbuf' : (m.put a).buf.length % 4 = 0 := by
      have := a.length_bytes
      rw [hbytes, length_append]
      omega
    obtain ⟨hall, heq⟩ := ih hbuf' hv
    refine ⟨fun b hb => ?_, ?_⟩
    · rcases mem_cons.mp hb with rfl | hb
      · exact hfits
      · exact hall b hb
    · rw [heq, hbytes, flatMap_cons, append_assoc]

end Message

/-! ### What a reader reads back -/

namespace Reader

/-- The reader stands before `a`, in bytes that a message can hold. -/
structure Before (r : Reader) (a rest : Bytes) : Prop where
  valid : r.valid = true
  pos_le : r.pos ≤ r.data.length
  length_le : r.data.length ≤ maxMessageSize
  drop : r.data.drop r.pos = a ++ rest

namespace Before

variable {r : Reader} {a rest : Bytes}

theorem length_eq (h : Before r a rest) : r.data.length = r.pos + a.length + rest.length := by
  have hlen := congrArg List.length h.drop
  have hpos := h.pos_le
  rw [length_drop, length_append] at hlen
  omega

theorem advance {b : Bytes} (h : Before r (a ++ b) rest) : Before { r with pos := r.pos + a.length } b rest := by
  have hlen := h.length_eq
  have hdrop := h.drop
  rw [length_append] at hlen
  refine ⟨h.valid, ?_, h.length_le, ?_⟩
  · dsimp only
    omega
  · dsimp only
    rw [← drop_drop, hdrop, append_assoc, drop_left]

end Before

variable {r : Reader} {rest : Bytes}

theorem checkedAdd_of_le {a b : Nat} (h : a + b ≤ maxMessageSize) : checkedAdd a b = some (a + b) := by
  unfold checkedAdd
  rw [if_pos (le_trans h (by decide))]

theorem u32_before {v : UInt32} (h : Before r (le32 v) rest) : r.u32 = (v, { r with pos := r.pos + 4 }) := by
  have hlen := h.length_eq
  have hmax := h.length_le
  have hget := getRange_of_drop h.pos_le h.drop
  rw [length_le32] at hlen hget
  unfold u32
  rw [checkedAdd_of_le (by omega)]
  dsimp only
  rw [hget]
  dsimp only
  rw [of32_le32]

/-- The word before `data` is its length, and both are inside the message. -/
theorem length_before (data : Bytes) (hfits : data.length ≤ 0xFFFFFFFF)
    (h : Before r (le32 (UInt32.ofNat data.length) ++ data ++ padding data.length) rest) :
    ∃ r' : Reader, r.u32 = (UInt32.ofNat data.length, r') ∧ Before r' (data ++ padding data.length) rest ∧
      r' = { r with pos := r.pos + 4 } ∧ (UInt32.ofNat data.length).toNat = data.length ∧
      checkedAdd r'.pos data.length = some (r'.pos + data.length) ∧
      paddedEnd r'.pos data.length = some (r'.pos + (data ++ padding data.length).length) := by
  rw [append_assoc] at h
  have hword : Before r (le32 (UInt32.ofNat data.length)) (data ++ padding data.length ++ rest) :=
    ⟨h.valid, h.pos_le, h.length_le, by rw [h.drop]; simp only [append_assoc]⟩
  have hnext := h.advance
  have hlen := hnext.length_eq
  have hmax : r.data.length ≤ maxMessageSize := h.length_le
  rw [length_le32] at hnext hlen
  dsimp only at hlen
  have hpad : (data ++ padding data.length).length = (data.length + 3) / 4 * 4 := by
    unfold padding
    rw [length_append, length_zeros]
    omega
  have hbound : r.pos + 4 + (data.length + 3) / 4 * 4 ≤ usizeMax := by
    have : maxMessageSize ≤ usizeMax := by decide
    omega
  refine ⟨_, u32_before hword, hnext, rfl, ?_, checkedAdd_of_le ?_, ?_⟩
  · rw [UInt32.toNat_ofNat']
    omega
  · dsimp only
    omega
  · unfold paddedEnd checkedAdd
    rw [if_pos (by omega), hpad]
    dsimp only [map_some]
    rw [min_eq_left hbound]

theorem array_before {data : Bytes} (hfits : (Arg.array data).Fits) (h : Before r (Arg.array data).bytes rest) :
    r.array = some (data, { r with pos := r.pos + (Arg.array data).bytes.length }) := by
  obtain ⟨r', hu32, hnext, hr', hnat, hstop, hpadded⟩ := length_before data hfits h
  have hlen := hnext.length_eq
  rw [length_append] at hlen
  have hget : getRange r'.data r'.pos (r'.pos + data.length) = some data :=
    getRange_of_drop hnext.pos_le (by rw [hnext.drop, append_assoc])
  unfold array
  rw [hu32]
  dsimp only
  rw [if_neg (by rw [hnext.valid]; decide), hnat, hstop]
  rw [hpadded]
  dsimp only
  rw [if_neg (by rw [length_append]; omega), hget]
  subst hr'
  simp only [Arg.bytes, length_append, length_le32, bind_eq_bind, bind_some]
  congr 3
  omega

theorem string_before {text : Text} (hfits : (Arg.string text).Fits) (h : Before r (Arg.string text).bytes rest) :
    r.string = some (text, { r with pos := r.pos + (Arg.string text).bytes.length }) := by
  have hdata : (encode text ++ [0]).length = (encode text).length + 1 := by
    rw [length_append, length_singleton]
  obtain ⟨r', hu32, hnext, hr', hnat, hstop, hpadded⟩ :=
    length_before (encode text ++ [0]) (by rw [hdata]; exact hfits)
      (by rw [hdata, ← append_assoc]; exact h)
  have hsum : (encode text ++ [(0 : UInt8)] ++ padding (encode text ++ [0]).length).length =
      (encode text ++ [0]).length + (padding (encode text ++ [0]).length).length := length_append
  have hlen := hnext.length_eq
  rw [hsum] at hlen
  have hget : getRange r'.data r'.pos (r'.pos + (encode text ++ [0]).length) = some (encode text ++ [0]) :=
    getRange_of_drop hnext.pos_le (by rw [hnext.drop, append_assoc])
  -- The last byte of the range is the NUL that the length counts.
  have hlast : r'.data[r'.pos + (encode text ++ [0]).length - 1]? = some 0 := by
    have hd := congrArg (fun l => l[(encode text).length]?) hnext.drop
    simp only [getElem?_drop, append_assoc] at hd
    rw [getElem?_append_right le_rfl, Nat.sub_self] at hd
    rw [hdata, ← add_assoc, Nat.add_sub_cancel, hd]
    rfl
  have htext : getRange (encode text ++ [0]) 0 ((encode text ++ [0]).length - 1) = some (encode text) := by
    have hrange := getRange_of_drop (zero_le (encode text ++ [0]).length) drop_zero
    rw [zero_add] at hrange
    rw [hdata, Nat.add_sub_cancel, hrange]
  unfold string
  rw [hu32]
  dsimp only
  rw [if_neg, hnat, hstop]
  · dsimp only
    rw [hpadded]
    dsimp only
    rw [if_neg (by rw [hsum]; omega), hlast]
    simp only [bind_eq_bind, bind_some, ne_eq, not_true_eq_false, if_false]
    rw [hget]
    simp only [bind_some]
    rw [htext]
    subst hr'
    simp only [bind_some, fromUtf8Lossy_encode, Arg.bytes, length_append, length_le32, length_singleton]
    congr 3
    omega
  · rw [hnext.valid]
    intro hor
    rcases hor with hfalse | hzero
    · cases hfalse
    · rw [hzero, hdata] at hnat
      cases hnat

/-- Asked for the type of the argument it stands before, a reader returns it and stands behind it. -/
theorem read_before {a : Arg} (hfits : a.Fits) (h : Before r a.bytes rest) :
    r.read a.kind = some (a, { r with pos := r.pos + a.bytes.length }) := by
  cases a with
  | u32 value =>
    unfold Arg.kind read
    rw [u32_before h]
    rfl
  | i32 value =>
    unfold Arg.kind read
    rw [u32_before h]
    rfl
  | string text =>
    unfold Arg.kind read
    rw [string_before hfits h]
    rfl
  | array data =>
    unfold Arg.kind read
    rw [array_before hfits h]
    rfl

end Reader

theorem reads_before (args : List Arg) {r : Reader} {rest : Bytes} (hfits : ∀ a ∈ args, a.Fits)
    (h : r.Before (args.flatMap Arg.bytes) rest) :
    reads (args.map Arg.kind) r = some (args, { r with pos := r.pos + (args.flatMap Arg.bytes).length }) := by
  induction args generalizing r with
  | nil => rfl
  | cons a args ih =>
    rw [flatMap_cons] at h
    have hone : r.Before a.bytes (args.flatMap Arg.bytes ++ rest) :=
      ⟨h.valid, h.pos_le, h.length_le, by rw [h.drop, append_assoc]⟩
    have hread := Reader.read_before (hfits a mem_cons_self) hone
    have hrest := ih (fun b hb => hfits b (mem_cons_of_mem a hb)) h.advance
    rw [map_cons, reads, hread]
    simp only [bind_eq_bind, bind_some]
    rw [hrest]
    simp only [bind_some, flatMap_cons, length_append, add_assoc]
    rfl

/-! ### The header -/

/-- The size is above the opcode in the second word. -/
theorem word_parts {len : Nat} (hlen : len ≤ maxMessageSize) (opcode : UInt16) :
    (((UInt32.ofNat len <<< 16) ||| (opcode.toUInt32 &&& 0xFFFF)) >>> 16).toNat = len ∧
      ((UInt32.ofNat len <<< 16) ||| (opcode.toUInt32 &&& 0xFFFF)).toUInt16 = opcode := by
  have hop : opcode.toNat < 2 ^ 16 := opcode.toNat_lt
  have hmax : len < 2 ^ 16 := lt_succ_of_le hlen
  have hand : opcode.toNat &&& 65535 = opcode.toNat := by
    rw [show 65535 = 2 ^ 16 - 1 from rfl, and_two_pow_sub_one_eq_mod, mod_eq_of_lt hop]
  have hword : ((UInt32.ofNat len <<< 16) ||| (opcode.toUInt32 &&& 0xFFFF)).toNat = len * 2 ^ 16 + opcode.toNat := by
    simp only [UInt32.toNat_or, UInt32.toNat_shiftLeft, UInt32.toNat_and, UInt32.toNat_ofNat', UInt16.toNat_toUInt32,
      UInt32.reduceToNat]
    rw [hand, mod_eq_of_lt (by omega : len < 2 ^ 32), shiftLeft_eq]
    have hsmall : len * 2 ^ (16 % 32) % 2 ^ 32 = len * 2 ^ 16 := by
      rw [show 16 % 32 = 16 from rfl]
      omega
    rw [hsmall, ← shiftLeft_eq, shiftLeft_add_eq_or_of_lt hop]
  constructor
  · rw [UInt32.toNat_shiftRight, hword, shiftRight_eq_div_pow]
    rw [show (16 : UInt32).toNat % 32 = 16 from rfl]
    omega
  · rw [← UInt16.toNat_inj, UInt32.toNat_toUInt16, hword]
    omega

/-- A finished message is the header and the body that was built. -/
theorem tryFinish_build {object : UInt32} {opcode : UInt16} {body bytes : Bytes}
    (h : (Message.mk (le32 object ++ le32 opcode.toUInt32 ++ body) true).tryFinish = some bytes) :
    decodeHeader bytes = some ⟨object, opcode, bytes.length⟩ ∧ bytes.drop headerSize = body ∧
      bytes.length ≤ maxMessageSize := by
  unfold Message.tryFinish at h
  dsimp only at h
  by_cases hbad : true = false ∨ (le32 object ++ le32 opcode.toUInt32 ++ body).length < headerSize ∨
      maxMessageSize < (le32 object ++ le32 opcode.toUInt32 ++ body).length ∨
      (le32 object ++ le32 opcode.toUInt32 ++ body).length &&& 3 ≠ 0
  · rw [if_pos hbad] at h
    cases h
  rw [if_neg hbad] at h
  simp only [not_or, not_lt, ne_eq, not_not] at hbad
  obtain ⟨-, hmin, hmax, halign⟩ := hbad
  -- The second word of the buffer is the opcode alone.
  have hopcode : slice (le32 object ++ le32 opcode.toUInt32 ++ body) 4 4 = le32 opcode.toUInt32 := by
    unfold slice
    rw [append_assoc, drop_left' (length_le32 object), take_left' (length_le32 _)]
  rw [hopcode, of32_le32] at h
  obtain ⟨hsize, hop⟩ := word_parts hmax opcode
  generalize (UInt32.ofNat _ <<< 16) ||| (opcode.toUInt32 &&& 0xFFFF) = word at h hsize hop
  have hbytes : le32 object ++ le32 word ++ body = bytes := by
    rw [← some.inj h]
    unfold splice
    rw [length_le32, append_assoc (le32 object) (le32 opcode.toUInt32), take_left' (length_le32 object),
      ← append_assoc (le32 object) (le32 opcode.toUInt32),
      drop_left' (by rw [length_append, length_le32, length_le32])]
  have hlen : (le32 object ++ le32 opcode.toUInt32 ++ body).length = bytes.length := by
    rw [← hbytes]
    simp only [length_append, length_le32]
  rw [hlen] at hmin hmax halign hsize
  refine ⟨?_, ?_, hmax⟩
  · have hobject : slice bytes 0 4 = le32 object := by
      rw [← hbytes, slice_zero, append_assoc, take_left' (length_le32 object)]
    have hsecond : slice bytes 4 4 = le32 word := by
      unfold slice
      rw [← hbytes, append_assoc, drop_left' (length_le32 object), take_left' (length_le32 _)]
    unfold decodeHeader
    rw [if_neg (by omega), hsecond, hobject, of32_le32, of32_le32]
    dsimp only
    rw [hsize, hop, if_neg]
    rintro (hlt | hgt | hand)
    · omega
    · omega
    · exact hand halign
  · rw [← hbytes, drop_left' (by rw [length_append, length_le32, length_le32]; rfl)]

/-! ### Any bytes at all -/

namespace Reader

/-- The position is inside the data, and a reader that is not valid stands at its end. -/
structure Inside (r : Reader) : Prop where
  pos_le : r.pos ≤ r.data.length
  invalid : r.valid = false → r.pos = r.data.length

theorem new_inside (data : Bytes) : (new data).Inside := ⟨zero_le _, fun h => nomatch h⟩

theorem fail_inside (r : Reader) : r.fail.Inside := ⟨le_refl _, fun _ => rfl⟩

theorem checkedAdd_some {a b n : Nat} (h : checkedAdd a b = some n) : n = a + b := by
  unfold checkedAdd at h
  split at h
  · exact (some.inj h).symm
  · cases h

theorem u32_inside {r : Reader} (h : r.Inside) : r.u32.2.Inside ∧ (r.valid = false → r.u32 = (0, r.fail)) := by
  unfold u32
  cases hadd : checkedAdd r.pos 4 with
  | none => exact ⟨r.fail_inside, fun _ => rfl⟩
  | some stop =>
    dsimp only
    cases hget : getRange r.data r.pos stop with
    | none => exact ⟨r.fail_inside, fun _ => rfl⟩
    | some bytes =>
      -- A reader at its end has no four bytes left.
      obtain ⟨hle, hstop, -⟩ := getRange_some hget
      have hadd' := checkedAdd_some hadd
      have hvalid : r.valid ≠ false := by
        intro hv
        have := h.invalid hv
        omega
      exact ⟨⟨hstop, fun hv => absurd hv hvalid⟩, fun hv => absurd hv hvalid⟩

theorem string_inside {r : Reader} (h : r.Inside) :
    (∃ text r', r.string = some (text, r') ∧ r'.Inside) ∧ (r.valid = false → r.string = some ([], r.fail)) := by
  obtain ⟨hin, hdefault⟩ := u32_inside h
  constructor
  swap
  · intro hv
    unfold string
    rw [hdefault hv]
    exact if_pos (.inl rfl)
  unfold string
  generalize r.u32 = x at hin
  obtain ⟨len, r'⟩ := x
  dsimp only at hin ⊢
  by_cases hzero : r'.valid = false ∨ len = 0
  · rw [if_pos hzero]
    exact ⟨_, _, rfl, hin⟩
  rw [if_neg hzero]
  simp only [not_or, Bool.not_eq_false] at hzero
  cases hadd : checkedAdd r'.pos len.toNat with
  | none => exact ⟨_, _, rfl, r'.fail_inside⟩
  | some stop =>
    cases hpad : paddedEnd r'.pos len.toNat with
    | none => exact ⟨_, _, rfl, r'.fail_inside⟩
    | some padded =>
      dsimp only
      by_cases hout : r'.data.length < stop ∨ r'.data.length < padded
      · rw [if_pos hout]
        exact ⟨_, _, rfl, r'.fail_inside⟩
      rw [if_neg hout]
      have hadd' := checkedAdd_some hadd
      have hpos : 0 < len.toNat := by
        rw [pos_iff_ne_zero]
        intro hn
        exact hzero.2 (UInt32.toNat_inj.mp hn)
      have hstop : stop - 1 < r'.data.length := by omega
      rw [getElem?_eq_getElem hstop]
      simp only [bind_eq_bind, bind_some]
      by_cases hlast : r'.data[stop - 1] ≠ 0
      · rw [if_pos hlast]
        exact ⟨_, _, rfl, r'.fail_inside⟩
      rw [if_neg hlast]
      have hraw : getRange r'.data r'.pos stop = some (slice r'.data r'.pos (stop - r'.pos)) := if_pos (by omega)
      have htext (raw : Bytes) : getRange raw 0 (raw.length - 1) = some (slice raw 0 (raw.length - 1)) := by
        have : getRange raw 0 (raw.length - 1) = some (slice raw 0 (raw.length - 1 - 0)) :=
          if_pos ⟨zero_le _, sub_le _ _⟩
        rw [this, Nat.sub_zero]
      rw [hraw]
      simp only [bind_some]
      rw [htext]
      refine ⟨_, _, rfl, ?_, fun hv => ?_⟩
      · dsimp only
        omega
      · rw [hzero.1] at hv
        cases hv

theorem array_inside {r : Reader} (h : r.Inside) :
    (∃ data r', r.array = some (data, r') ∧ r'.Inside) ∧ (r.valid = false → r.array = some ([], r.fail)) := by
  obtain ⟨hin, hdefault⟩ := u32_inside h
  constructor
  swap
  · intro hv
    unfold array
    rw [hdefault hv]
    exact if_pos rfl
  unfold array
  generalize r.u32 = x at hin
  obtain ⟨len, r'⟩ := x
  dsimp only at hin ⊢
  by_cases hv : r'.valid = false
  · rw [if_pos hv]
    exact ⟨_, _, rfl, hin⟩
  rw [if_neg hv]
  cases hadd : checkedAdd r'.pos len.toNat with
  | none => exact ⟨_, _, rfl, r'.fail_inside⟩
  | some stop =>
    cases hpad : paddedEnd r'.pos len.toNat with
    | none => exact ⟨_, _, rfl, r'.fail_inside⟩
    | some padded =>
      dsimp only
      by_cases hout : r'.data.length < stop ∨ r'.data.length < padded
      · rw [if_pos hout]
        exact ⟨_, _, rfl, r'.fail_inside⟩
      rw [if_neg hout]
      have hadd' := checkedAdd_some hadd
      have hget : getRange r'.data r'.pos stop = some (slice r'.data r'.pos (stop - r'.pos)) := if_pos (by omega)
      rw [hget]
      refine ⟨_, _, rfl, ?_, fun hv' => absurd hv' hv⟩
      dsimp only
      omega

/-- Any read of any reader succeeds, and one of a reader that is not valid returns the default. -/
theorem read_inside {r : Reader} (h : r.Inside) (k : Kind) :
    (∃ a r', r.read k = some (a, r') ∧ r'.Inside) ∧ (r.valid = false → r.read k = some (k.default, r.fail)) := by
  cases k with
  | u32 =>
    obtain ⟨hin, hdefault⟩ := u32_inside h
    refine ⟨⟨_, _, rfl, hin⟩, fun hv => ?_⟩
    unfold read
    rw [hdefault hv]
    rfl
  | i32 =>
    obtain ⟨hin, hdefault⟩ := u32_inside h
    refine ⟨⟨_, _, rfl, hin⟩, fun hv => ?_⟩
    unfold read
    rw [hdefault hv]
    rfl
  | string =>
    obtain ⟨⟨text, r', hread, hin⟩, hdefault⟩ := string_inside h
    unfold read
    refine ⟨⟨.string text, r', ?_, hin⟩, fun hv => ?_⟩
    · rw [hread]
      rfl
    · rw [hdefault hv]
      rfl
  | array =>
    obtain ⟨⟨data, r', hread, hin⟩, hdefault⟩ := array_inside h
    unfold read
    refine ⟨⟨.array data, r', ?_, hin⟩, fun hv => ?_⟩
    · rw [hread]
      rfl
    · rw [hdefault hv]
      rfl

end Reader

theorem reads_inside (ks : List Kind) {r : Reader} (h : r.Inside) : ∃ args r', reads ks r = some (args, r') ∧ r'.Inside := by
  induction ks generalizing r with
  | nil => exact ⟨_, _, rfl, h⟩
  | cons k ks ih =>
    obtain ⟨a, r', hread, hin⟩ := (Reader.read_inside h k).1
    obtain ⟨args, r'', hreads, hin'⟩ := ih hin
    refine ⟨a :: args, r'', ?_, hin'⟩
    rw [reads, hread]
    simp only [bind_eq_bind, bind_some]
    rw [hreads]
    rfl

theorem reads_invalid (ks : List Kind) {r : Reader} (h : r.Inside) (hv : r.valid = false) :
    ∃ r', reads ks r = some (ks.map Kind.default, r') ∧ r'.valid = false := by
  induction ks generalizing r with
  | nil => exact ⟨_, rfl, hv⟩
  | cons k ks ih =>
    obtain ⟨r', hreads, hv'⟩ := ih r.fail_inside rfl
    refine ⟨r', ?_, hv'⟩
    rw [reads, (Reader.read_inside h k).2 hv]
    simp only [bind_eq_bind, bind_some]
    rw [hreads]
    rfl

/-- A finished message is read back as it was built. -/
theorem build_read {object : UInt32} {opcode : UInt16} {args : List Arg} {bytes : Bytes}
    (h : (build object opcode args).tryFinish = some bytes) :
    decodeHeader bytes = some ⟨object, opcode, bytes.length⟩ ∧
      ∃ r, reads (args.map Arg.kind) (Reader.new (bytes.drop headerSize)) = some (args, r) ∧ r.valid = true ∧
        r.remaining = 0 := by
  have hvalid : (build object opcode args).valid = true := by
    by_contra hne
    unfold Message.tryFinish at h
    rw [if_pos (.inl (Bool.eq_false_of_not_eq_true hne))] at h
    cases h
  obtain ⟨hfits, hbuf⟩ := Message.foldl_put args (m := Message.new object opcode)
    (by unfold Message.new; rw [length_append, length_le32, length_le32]) hvalid
  have hbuild : build object opcode args =
      ⟨le32 object ++ le32 opcode.toUInt32 ++ args.flatMap Arg.bytes, true⟩ := by
    have : build object opcode args = ⟨(build object opcode args).buf, (build object opcode args).valid⟩ := rfl
    rw [this, hvalid]
    exact congrArg (fun b => Message.mk b true) hbuf
  rw [hbuild] at h
  obtain ⟨hheader, hbody, hmax⟩ := tryFinish_build h
  refine ⟨hheader, ?_⟩
  rw [hbody]
  have hlen : (args.flatMap Arg.bytes).length ≤ maxMessageSize := by
    rw [← hbody, length_drop]
    omega
  refine ⟨_, reads_before args hfits ⟨rfl, zero_le _, hlen, (List.append_nil _).symm⟩, rfl, ?_⟩
  unfold Reader.remaining Reader.new
  dsimp only
  omega

/-- **The wire format is exact.**  A finished message has a header with its object, its opcode and its
    length, and a reader of its body returns its arguments and nothing more; on any bytes whatever a
    reader stays inside them, and after a read that fails every read returns the default. -/
theorem wire_exact :
    (∀ (object : UInt32) (opcode : UInt16) (args : List Arg) (bytes : Bytes),
      (build object opcode args).tryFinish = some bytes →
      decodeHeader bytes = some ⟨object, opcode, bytes.length⟩ ∧
        ∃ r, reads (args.map Arg.kind) (Reader.new (bytes.drop headerSize)) = some (args, r) ∧ r.valid = true ∧
          r.remaining = 0) ∧
    ∀ (data : Bytes) (ks : List Kind), ∃ args r, reads ks (Reader.new data) = some (args, r) ∧
      (r.valid = false → ∀ js, ∃ r', reads js r = some (js.map Kind.default, r') ∧ r'.valid = false) := by
  refine ⟨fun object opcode args bytes h => build_read h, fun data ks => ?_⟩
  obtain ⟨args, r, hreads, hin⟩ := reads_inside ks (Reader.new_inside data)
  exact ⟨args, r, hreads, fun hv js => reads_invalid js hin hv⟩

/-- A message with one string of one character. -/
theorem wire_exact_string :
    decodeHeader [3, 0, 0, 0, 1, 0, 16, 0, 2, 0, 0, 0, 97, 0, 0, 0] = some ⟨3, 1, 16⟩ :=
  (wire_exact.1 3 1 [.string ['a']] [3, 0, 0, 0, 1, 0, 16, 0, 2, 0, 0, 0, 97, 0, 0, 0] (by decide)).1

example : (reads [.string, .array] (Reader.new [3, 0, 0, 0, 97, 98, 0, 0, 255, 255, 255, 255])).map (·.1) =
    some [.string ['a', 'b'], .array []] := by decide

end Wire

end HamixOS.Desktop
