import HamixOS.Lib.Words
import HamixOS.Lib.Utf8

namespace HamixOS.Dbus

open Lib List Option Nat UInt8

/-!
# D-Bus messages (`layers/linux/compat/hxdbus`)

A message is a header of sixteen bytes, an array of header fields that starts each of them at a multiple
of eight and leaves out what is empty, zeros up to the next multiple of eight, and the body.

* `Writer`, `Reader` — the two sides of the marshalling, with their own alignment;
* `Message.encode_eq` — the layout of what is written;
* `readFields_written` — the header fields are read back, wherever they start;
* `decode_encode`, `totalLen_encode` — a message that fits is read back, and its length is found from
  its first sixteen bytes.
-/

def methodReturn : UInt8 := 2

def errorKind : UInt8 := 3

/-! ### Writing -/

structure Writer where
  buf : Bytes

namespace Writer

variable (w : Writer)

/-- The loop that pushes zeros up to a multiple of `n`. -/
def pad (n : Nat) : Writer := ⟨w.buf ++ zeros ((n - w.buf.length % n) % n)⟩

def byte (v : UInt8) : Writer := ⟨w.buf ++ [v]⟩

def u32 (v : UInt32) : Writer := ⟨(w.pad 4).buf ++ le32 v⟩

def str (v : Text) : Writer := ⟨(w.u32 (UInt32.ofNat (Utf8.encode v).length)).buf ++ Utf8.encode v ++ [0]⟩

def sig (v : Text) : Writer := ⟨w.buf ++ [UInt8.ofNat (Utf8.encode v).length] ++ Utf8.encode v ++ [0]⟩

/-- The length of what `f` writes goes into the four bytes before it. -/
def array (align : Nat) (f : Writer → Writer) : Writer :=
  let w := w.pad 4
  let place := w.buf.length
  let w := pad ⟨w.buf ++ zeros 4⟩ align
  let start := w.buf.length
  let w := f w
  ⟨splice w.buf place (le32 (UInt32.ofNat (w.buf.length - start)))⟩

end Writer

/-! ### Reading -/

structure Reader where
  data : Bytes
  pos : Nat

namespace Reader

variable (r : Reader)

def align (n : Nat) : Reader := { r with pos := (r.pos + n - 1) / n * n }

def byte : Option (UInt8 × Reader) := do
  let v ← r.data[r.pos]?
  return (v, { r with pos := r.pos + 1 })

def u32 : Option (UInt32 × Reader) := do
  let r := r.align 4
  let bytes ← getRange r.data r.pos (r.pos + 4)
  return (of32 bytes, { r with pos := r.pos + 4 })

def str : Option (Text × Reader) := do
  let (len, r) ← r.u32
  let bytes ← getRange r.data r.pos (r.pos + len.toNat)
  return (fromUtf8Lossy bytes, { r with pos := r.pos + len.toNat + 1 })

def sig : Option (Text × Reader) := do
  let (len, r) ← r.byte
  let bytes ← getRange r.data r.pos (r.pos + len.toNat)
  return (fromUtf8Lossy bytes, { r with pos := r.pos + len.toNat + 1 })

end Reader

/-! ### Messages -/

/-- The codes of the header fields. -/
def fieldPath : UInt8 := 1

def fieldInterface : UInt8 := 2

def fieldMember : UInt8 := 3

def fieldErrorName : UInt8 := 4

def fieldReplySerial : UInt8 := 5

def fieldDestination : UInt8 := 6

def fieldSender : UInt8 := 7

def fieldSignature : UInt8 := 8

def fieldUnixFds : UInt8 := 9

/-- A header field: its code, the type it is written with, and its value. -/
inductive Field where
  | str (code : UInt8) (type : Char) (value : Text)
  | sig (code : UInt8) (value : Text)
  | u32 (code : UInt8) (value : UInt32)

structure Message where
  kind : UInt8
  flags : UInt8
  serial : UInt32
  path : Text
  interface : Text
  member : Text
  error : Text
  destination : Text
  sender : Text
  signature : Text
  replySerial : UInt32
  body : Bytes
  fds : List Nat
  deriving DecidableEq

def Field.write (w : Writer) : Field → Writer
  | .str code type value => (((w.pad 8).byte code).sig [type]).str value
  | .sig code value => (((w.pad 8).byte code).sig ['g']).sig value
  | .u32 code value => (((w.pad 8).byte code).sig ['u']).u32 value

namespace Message

variable (m : Message)

/-- The fields that hold text, with the type each is written with. -/
def texts : List (UInt8 × Char × Text) :=
  [(fieldPath, 'o', m.path), (fieldInterface, 's', m.interface), (fieldMember, 's', m.member), (fieldErrorName, 's', m.error),
    (fieldDestination, 's', m.destination), (fieldSender, 's', m.sender), (fieldSignature, 'g', m.signature)]

/-- An empty text is left out. -/
def textField : UInt8 × Char × Text → Option Field
  | (code, type, value) =>
    if value = [] then none else some (if type = 'g' then .sig code value else .str code type value)

def numbers : List (UInt8 × UInt32) := [(fieldReplySerial, m.replySerial), (fieldUnixFds, UInt32.ofNat m.fds.length)]

def numberField : UInt8 × UInt32 → Option Field
  | (code, value) => if value = 0 then none else some (.u32 code value)

/-- The fields that `encode` writes. -/
def fields : List Field := m.texts.filterMap textField ++ m.numbers.filterMap numberField

def encode (serial : UInt32) : Bytes :=
  let w : Writer := ⟨[]⟩
  let w := (((w.byte 0x6C).byte m.kind).byte m.flags).byte 1
  let w := (w.u32 (UInt32.ofNat m.body.length)).u32 serial
  let w := w.array 8 fun w => m.fields.foldl Field.write w
  (w.pad 8).buf ++ m.body

end Message

/-- `none` is a type that no header field has. -/
def Reader.field (r : Reader) : Option (Field × Reader) := do
  let (code, r) ← (r.align 8).byte
  let (type, r) ← r.sig
  if type = ['s'] ∨ type = ['o'] then
    let (value, r) ← r.str
    return (.str code (type.headD 's') value, r)
  else if type = ['g'] then
    let (value, r) ← r.sig
    return (.sig code value, r)
  else if type = ['u'] then
    let (value, r) ← r.u32
    return (.u32 code value, r)
  else none

/-- A field that is not known is passed over. -/
def Message.set (m : Message × UInt32) : Field → Message × UInt32
  | .str code _ value =>
    if code = fieldPath then ({ m.1 with path := value }, m.2)
    else if code = fieldInterface then ({ m.1 with interface := value }, m.2)
    else if code = fieldMember then ({ m.1 with member := value }, m.2)
    else if code = fieldErrorName then ({ m.1 with error := value }, m.2)
    else if code = fieldDestination then ({ m.1 with destination := value }, m.2)
    else if code = fieldSender then ({ m.1 with sender := value }, m.2)
    else m
  | .sig code value => if code = fieldSignature then ({ m.1 with signature := value }, m.2) else m
  | .u32 code value =>
    if code = fieldReplySerial then ({ m.1 with replySerial := value }, m.2)
    else if code = fieldUnixFds then (m.1, value)
    else m

namespace Reader

theorem byte_pos {r r' : Reader} {v : UInt8} (h : r.byte = some (v, r')) : r'.pos = r.pos + 1 := by
  unfold byte at h
  simp only [bind_eq_bind, bind_eq_some_iff, Option.pure_def, some.injEq, Prod.mk.injEq] at h
  obtain ⟨-, -, -, rfl⟩ := h
  rfl

theorem u32_pos {r r' : Reader} {v : UInt32} (h : r.u32 = some (v, r')) : r.pos ≤ r'.pos := by
  unfold u32 align at h
  simp only [bind_eq_bind, bind_eq_some_iff, Option.pure_def, some.injEq, Prod.mk.injEq] at h
  obtain ⟨-, -, -, rfl⟩ := h
  dsimp only
  omega

theorem sig_pos {r r' : Reader} {v : Text} (h : r.sig = some (v, r')) : r.pos ≤ r'.pos := by
  unfold sig at h
  simp only [bind_eq_bind, bind_eq_some_iff, Option.pure_def, some.injEq, Prod.mk.injEq] at h
  obtain ⟨⟨len, r₁⟩, hbyte, -, -, -, rfl⟩ := h
  have := byte_pos hbyte
  dsimp only
  omega

theorem str_pos {r r' : Reader} {v : Text} (h : r.str = some (v, r')) : r.pos ≤ r'.pos := by
  unfold str at h
  simp only [bind_eq_bind, bind_eq_some_iff, Option.pure_def, some.injEq, Prod.mk.injEq] at h
  obtain ⟨⟨len, r₁⟩, hword, -, -, -, rfl⟩ := h
  have := u32_pos hword
  dsimp only
  omega

/-- Every header field takes at least one byte. -/
theorem field_pos {r r' : Reader} {f : Field} (h : r.field = some (f, r')) : r.pos < r'.pos := by
  unfold field at h
  simp only [bind_eq_bind, bind_eq_some_iff] at h
  obtain ⟨⟨code, r₁⟩, hcode, ⟨type, r₂⟩, htype, h⟩ := h
  have hfirst := byte_pos hcode
  have hsecond := sig_pos htype
  have halign : r.pos ≤ (r.align 8).pos := by
    unfold align
    dsimp only
    omega
  dsimp only at hfirst hsecond h
  suffices hlast : r₂.pos ≤ r'.pos by omega
  split_ifs at h
  · obtain ⟨⟨value, r₃⟩, hvalue, h⟩ := bind_eq_some_iff.mp h
    obtain ⟨-, rfl⟩ := Prod.mk.inj (some.inj h)
    exact str_pos hvalue
  · obtain ⟨⟨value, r₃⟩, hvalue, h⟩ := bind_eq_some_iff.mp h
    obtain ⟨-, rfl⟩ := Prod.mk.inj (some.inj h)
    exact sig_pos hvalue
  · obtain ⟨⟨value, r₃⟩, hvalue, h⟩ := bind_eq_some_iff.mp h
    obtain ⟨-, rfl⟩ := Prod.mk.inj (some.inj h)
    exact u32_pos hvalue

end Reader

/-- The loop over the header fields up to `stop`. -/
def readFields (r : Reader) (stop : Nat) (m : Message × UInt32) : Option (Message × UInt32) :=
  if r.pos < stop then
    match _h : r.field with
    | none => none
    | some (f, r') => readFields r' stop (Message.set m f)
  else some m
termination_by stop - r.pos
decreasing_by
  have := Reader.field_pos _h
  omega

/-- The message, and the number of descriptors that belong to it. -/
def decode (raw : Bytes) : Option (Message × UInt32) :=
  if raw.head? ≠ some 0x6C then none
  else do
    let r : Reader := ⟨raw, 1⟩
    let (kind, r) ← r.byte
    let (flags, r) ← r.byte
    let (_, r) ← r.byte
    let (bodyLen, r) ← r.u32
    let (serial, r) ← r.u32
    let (fieldsLen, r) ← r.u32
    let stop := 16 + fieldsLen.toNat
    let (m, fds) ← readFields r stop (⟨kind, flags, serial, [], [], [], [], [], [], [], 0, [], []⟩, 0)
    let start := (stop + 7) / 8 * 8
    let body ← getRange raw start (start + bodyLen.toNat)
    return ({ m with body := body }, fds)

def totalLen (raw : Bytes) : Option Nat :=
  if raw.length < 16 then none
  else
    let body := (of32 (slice raw 4 4)).toNat
    let fields := (of32 (slice raw 12 4)).toNat
    some ((16 + fields + 7) / 8 * 8 + body)

/-! ### What is written -/

/-- Zeros from position `n` up to a multiple of `k`. -/
def padding (k n : Nat) : Bytes := zeros ((k - n % k) % k)

theorem length_padding (k n : Nat) : (padding k n).length = (k - n % k) % k := length_zeros _

/-- The bytes of a header field, which starts at a multiple of eight. -/
def Field.bytes : Field → Bytes
  | .str code type value =>
    [code] ++ ([UInt8.ofNat (Utf8.encode [type]).length] ++ Utf8.encode [type] ++ [0]) ++
      (le32 (UInt32.ofNat (Utf8.encode value).length) ++ Utf8.encode value ++ [0])
  | .sig code value => [code] ++ [1, 0x67, 0] ++ ([UInt8.ofNat (Utf8.encode value).length] ++ Utf8.encode value ++ [0])
  | .u32 code value => [code] ++ [1, 0x75, 0] ++ le32 value

/-- What is written for `fields` from position `n` on. -/
def fieldsBytes : Nat → List Field → Bytes
  | _, [] => []
  | n, f :: fields => padding 8 n ++ f.bytes ++ fieldsBytes (n + (padding 8 n ++ f.bytes).length) fields

/-- A field that is read back: its type is one of those of text, and its length fits in the byte or the word before it. -/
def Field.Fits : Field → Prop
  | .str _ type value => (type = 's' ∨ type = 'o') ∧ (Utf8.encode value).length < 2 ^ 32
  | .sig _ value => (Utf8.encode value).length ≤ 255
  | .u32 _ _ => True

namespace Writer

theorem pad_buf (w : Writer) (n : Nat) : (w.pad n).buf = w.buf ++ padding n w.buf.length := rfl

theorem pad_of_aligned {w : Writer} {n : Nat} (h : w.buf.length % n = 0) : w.pad n = w := by
  unfold pad
  rw [h, Nat.sub_zero, mod_self]
  show (⟨w.buf ++ []⟩ : Writer) = w
  rw [List.append_nil]

theorem u32_of_aligned {w : Writer} (h : w.buf.length % 4 = 0) (v : UInt32) : w.u32 v = ⟨w.buf ++ le32 v⟩ := by
  rw [u32, pad_of_aligned h]

theorem length_pad_mod (w : Writer) : (w.pad 8).buf.length % 8 = 0 := by
  rw [pad_buf, length_append, length_padding]
  omega

end Writer

theorem Field.write_buf {f : Field} (hf : f.Fits) (w : Writer) : (Field.write w f).buf = (w.pad 8).buf ++ f.bytes := by
  have haligned := w.length_pad_mod
  cases f with
  | str code type value =>
    have hone : (Utf8.encode [type]).length = 1 := by
      rcases hf.1 with rfl | rfl <;> rfl
    have hword : ((((w.pad 8).byte code).sig [type]).pad 4) = ((w.pad 8).byte code).sig [type] := by
      apply Writer.pad_of_aligned
      simp only [Writer.byte, Writer.sig, length_append, length_singleton, hone]
      omega
    simp only [write, Writer.str, Writer.u32, hword, bytes]
    simp only [Writer.byte, Writer.sig, append_assoc]
  | sig code value =>
    simp only [write, Writer.byte, Writer.sig, bytes, append_assoc]
    rfl
  | u32 code value =>
    have hword : ((((w.pad 8).byte code).sig ['u']).pad 4) = ((w.pad 8).byte code).sig ['u'] := by
      apply Writer.pad_of_aligned
      simp only [Writer.byte, Writer.sig, length_append, length_singleton]
      show ((w.pad 8).buf.length + 1 + 1 + 1 + 1) % 4 = 0
      omega
    simp only [write, Writer.u32, hword, bytes]
    simp only [Writer.byte, Writer.sig, append_assoc]
    rfl

variable {fields : List Field}

theorem foldl_write (hf : ∀ f ∈ fields, f.Fits) (w : Writer) :
    (fields.foldl Field.write w).buf = w.buf ++ fieldsBytes w.buf.length fields := by
  induction fields generalizing w with
  | nil => exact (List.append_nil _).symm
  | cons f fields ih =>
    have hwrite := Field.write_buf (hf f mem_cons_self) w
    rw [Writer.pad_buf, append_assoc] at hwrite
    rw [foldl_cons, ih (fun g hg => hf g (mem_cons_of_mem f hg)), hwrite, fieldsBytes, length_append]
    simp only [append_assoc]

namespace Message

variable {m : Message}

/-- The bytes of the header fields, without those after the last one. -/
def fieldsOf (m : Message) : Bytes := fieldsBytes 16 m.fields

/-- The texts of the header, the number of descriptors and the body fit where their lengths are written. -/
structure Fits (m : Message) : Prop where
  signature : (Utf8.encode m.signature).length ≤ 255
  fields : m.fieldsOf.length < 2 ^ 32
  body : m.body.length < 2 ^ 32
  fds : m.fds.length < 2 ^ 32

theorem length_le_fieldsBytes {f : Field} (h : f ∈ fields) (n : Nat) :
    f.bytes.length ≤ (fieldsBytes n fields).length := by
  induction fields generalizing n with
  | nil => cases h
  | cons g fields ih =>
    rw [fieldsBytes, length_append]
    rcases mem_cons.mp h with rfl | hmem
    · rw [length_append]
      omega
    · exact le_add_left_of_le (ih hmem _)

theorem fits_fields (hm : m.Fits) : ∀ f ∈ m.fields, f.Fits := by
  intro f hf
  have hlen := lt_of_le_of_lt (length_le_fieldsBytes hf 16) hm.fields
  rcases mem_append.mp hf with htext | hnumber
  · obtain ⟨⟨code, type, value⟩, hmem, htext⟩ := mem_filterMap.mp htext
    unfold textField at htext
    dsimp only at htext
    split at htext
    · cases htext
    split at htext
    next hg =>
      obtain rfl := some.inj htext
      subst hg
      have hvalue : value = m.signature := by
        simp [texts] at hmem
        exact hmem.2
      rw [hvalue]
      exact hm.signature
    next hg =>
      obtain rfl := some.inj htext
      refine ⟨?_, ?_⟩
      · simp only [texts, mem_cons, Prod.mk.injEq, not_mem_nil, or_false] at hmem
        rcases hmem with h | h | h | h | h | h | h
        · exact .inr h.2.1
        · exact .inl h.2.1
        · exact .inl h.2.1
        · exact .inl h.2.1
        · exact .inl h.2.1
        · exact .inl h.2.1
        · exact absurd h.2.1 hg
      · simp only [Field.bytes, length_append] at hlen
        omega
  · obtain ⟨⟨code, value⟩, -, hnumber⟩ := mem_filterMap.mp hnumber
    unfold numberField at hnumber
    dsimp only at hnumber
    split at hnumber
    · cases hnumber
    · obtain rfl := some.inj hnumber
      trivial

/-- The first twelve bytes. -/
def head (m : Message) (serial : UInt32) : Bytes :=
  [0x6C, m.kind, m.flags, 1] ++ (le32 (UInt32.ofNat m.body.length) ++ le32 serial)

theorem length_head (m : Message) (serial : UInt32) : (m.head serial).length = 12 := by
  simp only [head, length_append, length_le32, length_cons, length_nil]

/-- The layout of a message. -/
theorem encode_eq (hm : m.Fits) (serial : UInt32) : m.encode serial =
    m.head serial ++ (le32 (UInt32.ofNat m.fieldsOf.length) ++ (m.fieldsOf ++ (padding 8 (16 + m.fieldsOf.length) ++ m.body))) := by
  have hhead : ((((((⟨[]⟩ : Writer).byte 0x6C).byte m.kind).byte m.flags).byte 1).u32 (UInt32.ofNat m.body.length)).u32 serial =
      ⟨m.head serial⟩ := by
    rw [show (((⟨[]⟩ : Writer).byte 0x6C).byte m.kind).byte m.flags = ⟨[0x6C, m.kind, m.flags]⟩ from rfl,
      show (⟨[0x6C, m.kind, m.flags]⟩ : Writer).byte 1 = ⟨[0x6C, m.kind, m.flags, 1]⟩ from rfl, Writer.u32_of_aligned (w := ⟨[0x6C, m.kind, m.flags, 1]⟩) (mod_self 4),
      Writer.u32_of_aligned (by rw [length_append, length_le32]; exact show (4 + 4) % 4 = 0 from rfl), head, append_assoc]
  have hwords : (⟨m.head serial⟩ : Writer).pad 4 = ⟨m.head serial⟩ :=
    Writer.pad_of_aligned (by dsimp only; rw [length_head])
  have hfour : (zeros 4).length = 4 := length_zeros 4
  have hstart : (⟨m.head serial ++ zeros 4⟩ : Writer).pad 8 = ⟨m.head serial ++ zeros 4⟩ :=
    Writer.pad_of_aligned (by dsimp only; rw [length_append, length_head, hfour])
  unfold encode
  dsimp only
  rw [hhead]
  unfold Writer.array
  rw [hwords]
  dsimp only
  rw [hstart, foldl_write (fits_fields hm)]
  have hlen : (m.head serial ++ zeros 4).length = 16 := by rw [length_append, length_head, hfour]
  rw [hlen, length_head]
  have hsplice : splice (m.head serial ++ zeros 4 ++ fieldsBytes 16 m.fields) 12
      (le32 (UInt32.ofNat ((m.head serial ++ zeros 4 ++ fieldsBytes 16 m.fields).length - 16))) =
      m.head serial ++ le32 (UInt32.ofNat m.fieldsOf.length) ++ m.fieldsOf := by
    unfold splice
    rw [length_le32, length_append, hlen, Nat.add_sub_cancel_left, append_assoc (m.head serial) (zeros 4),
      take_left' (length_head m serial), ← append_assoc (m.head serial), drop_left' hlen]
    rfl
  rw [hsplice, Writer.pad_buf]
  have htotal : (m.head serial ++ le32 (UInt32.ofNat m.fieldsOf.length) ++ m.fieldsOf).length = 16 + m.fieldsOf.length := by
    rw [length_append, length_append, length_head, length_le32]
  dsimp only
  rw [htotal]
  simp only [append_assoc]

end Message

/-! ### What is read back -/

namespace Reader

/-- The reader stands before `a`. -/
structure Before (r : Reader) (a rest : Bytes) : Prop where
  pos_le : r.pos ≤ r.data.length
  drop : r.data.drop r.pos = a ++ rest

namespace Before

variable {r : Reader} {a b rest : Bytes}

theorem length_eq (h : Before r a rest) : r.data.length = r.pos + a.length + rest.length := by
  have hlen := congrArg List.length h.drop
  have hpos := h.pos_le
  rw [length_drop, length_append] at hlen
  omega

theorem first (h : Before r (a ++ b) rest) : Before r a (b ++ rest) :=
  ⟨h.pos_le, by rw [h.drop, append_assoc]⟩

theorem advance (h : Before r (a ++ b) rest) : Before { r with pos := r.pos + a.length } b rest := by
  have hlen := h.length_eq
  rw [length_append] at hlen
  refine ⟨?_, ?_⟩
  · dsimp only
    omega
  · dsimp only
    rw [← drop_drop, h.drop, append_assoc, drop_left]

theorem step {data : Bytes} {pos : Nat} (h : Before ⟨data, pos⟩ (a ++ b) rest) (n : Nat) (hn : a.length = n) :
    Before ⟨data, pos + n⟩ b rest := hn ▸ h.advance

theorem range (h : Before r a rest) : getRange r.data r.pos (r.pos + a.length) = some a := getRange_of_drop h.pos_le h.drop

end Before

variable {r : Reader} {rest : Bytes}

theorem align_of_aligned {n : Nat} (hn : 0 < n) (h : r.pos % n = 0) : r.align n = r := by
  obtain ⟨q, hq⟩ := dvd_of_mod_eq_zero h
  have hpos : (r.pos + n - 1) / n * n = r.pos := by
    rw [hq, show n * q + n - 1 = n * q + (n - 1) by omega, mul_add_div hn, div_eq_of_lt (by omega), add_zero, mul_comm]
  unfold align
  rw [hpos]

theorem byte_before {v : UInt8} (h : Before r [v] rest) : r.byte = some (v, { r with pos := r.pos + 1 }) := by
  have hget : r.data[r.pos]? = some v := by
    rw [← add_zero r.pos, ← getElem?_drop, h.drop]
    rfl
  unfold byte
  rw [hget]
  rfl

theorem u32_before {v : UInt32} (haligned : r.pos % 4 = 0) (h : Before r (le32 v) rest) :
    r.u32 = some (v, { r with pos := r.pos + 4 }) := by
  have hrange := h.range
  rw [length_le32] at hrange
  unfold u32
  rw [align_of_aligned (by decide) haligned]
  dsimp only
  rw [hrange]
  show some (of32 (le32 v), _) = _
  rw [of32_le32]

/-- A text behind the word of its length. -/
theorem str_before {v : Text} (haligned : r.pos % 4 = 0) (hv : (Utf8.encode v).length < 2 ^ 32)
    (h : Before r (le32 (UInt32.ofNat (Utf8.encode v).length) ++ Utf8.encode v ++ [0]) rest) :
    r.str = some (v, { r with pos := r.pos + (le32 (UInt32.ofNat (Utf8.encode v).length) ++ Utf8.encode v ++ [0]).length }) := by
  have hlen : (UInt32.ofNat (Utf8.encode v).length).toNat = (Utf8.encode v).length := by
    rw [UInt32.toNat_ofNat']
    omega
  have hnext := h.first.advance
  rw [length_le32] at hnext
  have hrange := hnext.range
  unfold str
  rw [u32_before haligned h.first.first]
  dsimp only [bind_eq_bind, Option.bind_some]
  rw [hlen, hrange]
  dsimp only [Option.bind_some, Option.pure_def]
  rw [fromUtf8Lossy_encode]
  simp only [length_append, length_le32, length_singleton, add_assoc]

/-- A text behind the byte of its length. -/
theorem sig_before {v : Text} (hv : (Utf8.encode v).length ≤ 255)
    (h : Before r ([ofNat (Utf8.encode v).length] ++ Utf8.encode v ++ [0]) rest) :
    r.sig = some (v, { r with pos := r.pos + ([ofNat (Utf8.encode v).length] ++ Utf8.encode v ++ [0]).length }) := by
  have hlen : (ofNat (Utf8.encode v).length).toNat = (Utf8.encode v).length := by
    rw [toNat_ofNat']
    omega
  have hnext := h.first.advance
  rw [length_singleton] at hnext
  have hrange := hnext.range
  unfold sig
  rw [byte_before h.first.first]
  dsimp only [bind_eq_bind, Option.bind_some]
  rw [hlen, hrange]
  dsimp only [Option.bind_some, Option.pure_def]
  rw [fromUtf8Lossy_encode]
  simp only [length_append, length_singleton, add_assoc]

/-- A header field at the next multiple of eight. -/
theorem field_before {f : Field} (hf : f.Fits) (h : Before (r.align 8) f.bytes rest) :
    r.field = some (f, { r with pos := (r.align 8).pos + f.bytes.length }) := by
  have haligned : (r.align 8).pos % 8 = 0 := Nat.mul_mod_left _ 8
  generalize hq : r.align 8 = q at h haligned
  have hdata : q.data = r.data := by
    rw [← hq]
    rfl
  unfold field
  rw [hq]
  cases f with
  | str code type value =>
    obtain ⟨htype, hvalue⟩ := hf
    have hone : (Utf8.encode [type]).length = 1 := by
      rcases htype with rfl | rfl <;> rfl
    have hsig := h.first.advance
    rw [length_singleton] at hsig
    have hstr := h.advance
    simp only [length_append, length_singleton, hone, Nat.reduceAdd] at hstr
    rw [byte_before h.first.first]
    dsimp only [bind_eq_bind, Option.bind_some]
    rw [sig_before (by rw [hone]; decide) hsig]
    dsimp only [Option.bind_some]
    have hknown : [type] = ['s'] ∨ [type] = ['o'] := by
      rcases htype with rfl | rfl
      · exact .inl rfl
      · exact .inr rfl
    simp only [length_append, length_singleton, hone, add_assoc, Nat.reduceAdd]
    rw [if_pos hknown, str_before (by dsimp only; omega) hvalue hstr, hdata]
    simp only [Option.bind_some, Option.pure_def, headD_cons, Field.bytes, length_append, length_singleton, hone]
    congr 3
    omega
  | sig code value =>
    have hsig := h.first.advance
    have hvalue := h.advance
    simp only [length_append, length_cons, length_nil, Nat.reduceAdd] at hsig hvalue
    rw [byte_before h.first.first]
    dsimp only [bind_eq_bind, Option.bind_some]
    rw [sig_before (v := ['g']) (by decide) hsig]
    dsimp only [Option.bind_some]
    rw [if_neg (by decide), if_pos rfl]
    have hthree : ([UInt8.ofNat (Utf8.encode ['g']).length] ++ Utf8.encode ['g'] ++ [0]).length = 3 := rfl
    rw [hthree, add_assoc, sig_before hf hvalue, hdata]
    simp only [Option.bind_some, Option.pure_def, Field.bytes, length_append, length_cons, length_nil, Nat.reduceAdd,
      add_assoc]
  | u32 code value =>
    have hsig := h.first.advance
    have hvalue := h.advance
    simp only [length_append, length_cons, length_nil, Nat.reduceAdd] at hsig hvalue
    rw [byte_before h.first.first]
    dsimp only [bind_eq_bind, Option.bind_some]
    rw [sig_before (v := ['u']) (by decide) hsig]
    dsimp only [Option.bind_some]
    rw [if_neg (by decide), if_neg (by decide), if_pos rfl]
    have hthree : ([UInt8.ofNat (Utf8.encode ['u']).length] ++ Utf8.encode ['u'] ++ [0]).length = 3 := rfl
    rw [hthree, add_assoc, u32_before (by show (q.pos + 4) % 4 = 0; omega) hvalue, hdata]
    simp only [Option.bind_some, Option.pure_def, Field.bytes, length_append, length_cons, length_nil, Nat.reduceAdd,
      add_assoc, length_le32]

end Reader

/-- The loop reads the fields that were written from its position on. -/
theorem readFields_written (hf : ∀ f ∈ fields, f.Fits) {r : Reader} {rest : Bytes}
    (h : r.Before (fieldsBytes r.pos fields) rest) (m : Message × UInt32) :
    readFields r (r.pos + (fieldsBytes r.pos fields).length) m = some (fields.foldl Message.set m) := by
  induction fields generalizing r m with
  | nil =>
    unfold readFields
    rw [if_neg (by rw [fieldsBytes]; exact lt_irrefl r.pos)]
    rfl
  | cons f fields ih =>
    have hone : 0 < f.bytes.length := by
      cases f with
      | str code type value => exact succ_pos _
      | sig code value => exact succ_pos _
      | u32 code value => exact succ_pos _
    have halign : r.align 8 = { r with pos := r.pos + (padding 8 r.pos).length } := by
      unfold Reader.align
      rw [length_padding]
      congr 1
      omega
    rw [fieldsBytes] at h ⊢
    have hfield := h.first.advance
    rw [← halign] at hfield
    have hread := Reader.field_before (hf f mem_cons_self) hfield
    have hnext := h.advance
    have hpos : (r.align 8).pos + f.bytes.length = r.pos + (padding 8 r.pos ++ f.bytes).length := by
      rw [halign, length_append]
      dsimp only
      omega
    rw [hpos] at hread
    unfold readFields
    rw [if_pos (by simp only [length_append]; omega)]
    split
    next hnone => rw [hread] at hnone; cases hnone
    next g r' hsome =>
      rw [hread] at hsome
      obtain ⟨rfl, rfl⟩ := Prod.mk.inj (some.inj hsome)
      have hrest := ih (fun g hg => hf g (mem_cons_of_mem f hg)) hnext (Message.set m f)
      rw [show (padding 8 r.pos ++ f.bytes ++ fieldsBytes (r.pos + (padding 8 r.pos ++ f.bytes).length) fields).length = _ from
        length_append, ← add_assoc]
      exact hrest

namespace Message

variable {m : Message}

/-- What is left out has the default when it is read. -/
theorem foldl_text {code : UInt8} {type : Char} {value : Text} {acc : Message × UInt32} (g : Text → Message × UInt32)
    (hset : set acc (if type = 'g' then .sig code value else .str code type value) = g value) (hnil : g [] = acc)
    (l : List (UInt8 × Char × Text)) : (((code, type, value) :: l).filterMap textField).foldl set acc =
      (l.filterMap textField).foldl set (g value) := by
  by_cases hv : value = []
  · have hskip : textField (code, type, value) = none := if_pos hv
    rw [filterMap_cons_none hskip, hv, hnil]
  · have hwritten : textField (code, type, value) = some (if type = 'g' then .sig code value else .str code type value) := if_neg hv
    rw [filterMap_cons_some hwritten, foldl_cons, hset]

theorem foldl_number {code : UInt8} {value : UInt32} {acc : Message × UInt32} (g : UInt32 → Message × UInt32)
    (hset : set acc (.u32 code value) = g value) (hzero : g 0 = acc) (l : List (UInt8 × UInt32)) :
    (((code, value) :: l).filterMap numberField).foldl set acc = (l.filterMap numberField).foldl set (g value) := by
  by_cases hv : value = 0
  · have hskip : numberField (code, value) = none := if_pos hv
    rw [filterMap_cons_none hskip, hv, hzero]
  · have hwritten : numberField (code, value) = some (.u32 code value) := if_neg hv
    rw [filterMap_cons_some hwritten, foldl_cons, hset]

/-- The fields that were written give the message back. -/
theorem foldl_set_fields (m : Message) (serial : UInt32) :
    m.fields.foldl set (⟨m.kind, m.flags, serial, [], [], [], [], [], [], [], 0, [], []⟩, 0) =
      ({ m with serial := serial, body := [], fds := [] }, UInt32.ofNat m.fds.length) := by
  unfold fields texts numbers
  rw [foldl_append]
  rw [foldl_text (fun v => (⟨m.kind, m.flags, serial, v, [], [], [], [], [], [], 0, [], []⟩, 0)) rfl rfl]
  rw [foldl_text (fun v => (⟨m.kind, m.flags, serial, m.path, v, [], [], [], [], [], 0, [], []⟩, 0)) rfl rfl]
  rw [foldl_text (fun v => (⟨m.kind, m.flags, serial, m.path, m.interface, v, [], [], [], [], 0, [], []⟩, 0)) rfl rfl]
  rw [foldl_text (fun v => (⟨m.kind, m.flags, serial, m.path, m.interface, m.member, v, [], [], [], 0, [], []⟩, 0)) rfl rfl]
  rw [foldl_text (fun v => (⟨m.kind, m.flags, serial, m.path, m.interface, m.member, m.error, v, [], [], 0, [], []⟩, 0)) rfl rfl]
  rw [foldl_text (fun v => (⟨m.kind, m.flags, serial, m.path, m.interface, m.member, m.error, m.destination, v, [], 0, [], []⟩, 0))
    rfl rfl]
  rw [foldl_text (fun v => (⟨m.kind, m.flags, serial, m.path, m.interface, m.member, m.error, m.destination, m.sender, v, 0, [], []⟩,
    0)) rfl rfl]
  rw [filterMap_nil, foldl_nil]
  rw [foldl_number (fun v => (⟨m.kind, m.flags, serial, m.path, m.interface, m.member, m.error, m.destination, m.sender, m.signature,
    v, [], []⟩, 0)) rfl rfl]
  rw [foldl_number (fun v => (⟨m.kind, m.flags, serial, m.path, m.interface, m.member, m.error, m.destination, m.sender, m.signature,
    m.replySerial, [], []⟩, v)) rfl rfl]
  rfl

theorem toNat_ofNat_length {b : List α} (h : b.length < 2 ^ 32) : (UInt32.ofNat b.length).toNat = b.length := by
  rw [UInt32.toNat_ofNat']
  omega

theorem length_encode (hm : m.Fits) (serial : UInt32) :
    (m.encode serial).length = (16 + m.fieldsOf.length + 7) / 8 * 8 + m.body.length := by
  rw [encode_eq hm]
  simp only [length_append, length_head, length_le32, length_padding]
  omega

theorem totalLen_encode (hm : m.Fits) (serial : UInt32) (rest : Bytes) :
    totalLen (m.encode serial ++ rest) = some (m.encode serial).length := by
  have hlen := length_encode hm serial
  have hbody : slice (m.encode serial ++ rest) 4 4 = le32 (UInt32.ofNat m.body.length) := by
    rw [encode_eq hm]
    rfl
  have hfields : slice (m.encode serial ++ rest) 12 4 = le32 (UInt32.ofNat m.fieldsOf.length) := by
    rw [encode_eq hm]
    unfold slice
    rw [append_assoc, drop_left' (length_head m serial), append_assoc, take_left' (length_le32 _)]
  unfold totalLen
  rw [if_neg (by rw [length_append, hlen]; omega), hbody, hfields, of32_le32, of32_le32]
  rw [toNat_ofNat_length hm.body, toNat_ofNat_length hm.fields, hlen]

/-- A message is read back, with its serial and the number of its descriptors. -/
theorem decode_encode (hm : m.Fits) (serial : UInt32) :
    decode (m.encode serial) = some ({ m with serial := serial, fds := [] }, UInt32.ofNat m.fds.length) := by
  have hencode := encode_eq hm serial
  have hlen := length_encode hm serial
  generalize m.encode serial = raw at hencode hlen
  have hstart : (⟨raw, 0⟩ : Reader).Before ([0x6C] ++ ([m.kind] ++ ([m.flags] ++ ([1] ++ (le32 (UInt32.ofNat m.body.length) ++
      (le32 serial ++ (le32 (UInt32.ofNat m.fieldsOf.length) ++ (m.fieldsOf ++ (padding 8 (16 + m.fieldsOf.length) ++ m.body))))))))) [] := by
    refine ⟨zero_le _, ?_⟩
    rw [drop_zero, hencode]
    unfold head
    simp only [append_assoc, cons_append, nil_append, List.append_nil]
  have hkind := hstart.step 1 rfl
  have hflags := hkind.step 1 rfl
  have hversion := hflags.step 1 rfl
  have hbodyLen := hversion.step 1 rfl
  have hserial := hbodyLen.step 4 (length_le32 _)
  have hfieldsLen := hserial.step 4 (length_le32 _)
  have hfields := hfieldsLen.step 4 (length_le32 _)
  have hbody := (hfields.step _ rfl).step _ rfl
  have hhead : raw.head? = some 0x6C := by
    rw [hencode]
    rfl
  unfold decode
  rw [if_neg (not_not.mpr hhead)]
  dsimp only
  rw [Reader.byte_before hkind.first]
  dsimp only [bind_eq_bind, bind_some]
  rw [Reader.byte_before hflags.first]
  dsimp only [bind_some]
  rw [Reader.byte_before hversion.first]
  dsimp only [bind_some]
  rw [Reader.u32_before (show 4 % 4 = 0 from rfl) hbodyLen.first]
  dsimp only [bind_some]
  rw [Reader.u32_before (show 8 % 4 = 0 from rfl) hserial.first]
  dsimp only [bind_some]
  rw [Reader.u32_before (show 12 % 4 = 0 from rfl) hfieldsLen.first]
  dsimp only [bind_some]
  have hread := readFields_written (r := ⟨raw, 16⟩) (fits_fields hm) hfields.first
    (⟨m.kind, m.flags, serial, [], [], [], [], [], [], [], 0, [], []⟩, 0)
  rw [foldl_set_fields] at hread
  rw [toNat_ofNat_length hm.fields, show readFields ⟨raw, 0 + 1 + 1 + 1 + 1 + 4 + 4 + 4⟩ (16 + m.fieldsOf.length) _ = _ from hread]
  dsimp only [bind_some]
  have hrange := hbody.range
  rw [length_padding] at hrange
  have hplace : (16 + m.fieldsOf.length + 7) / 8 * 8 = 16 + m.fieldsOf.length + (8 - (16 + m.fieldsOf.length) % 8) % 8 := by omega
  rw [toNat_ofNat_length hm.body, hplace, hrange]
  rfl

end Message

end HamixOS.Dbus
