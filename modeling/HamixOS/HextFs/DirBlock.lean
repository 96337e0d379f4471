import HamixOS.HextFs.Codec

namespace HamixOS.HextFs

open Lib List Nat

/-!
# Directory blocks

A directory block is a chain of records that covers it: an inode number (zero for a free record),
the length of the record, and a name.  `Chain` relates a block to its records; the three loops over
a block, `dirEntriesFrom`, `addInBlock` and `removeInBlock`, are specified by what they do to the
chain (`dirEntriesFrom_eq`, `addInBlock_spec`, `removeInBlock_spec`).
-/

def get8 (b : Bytes) (o : Nat) : Nat := getLE 1 b o
def put8 (b : Bytes) (o v : Nat) : Bytes := putLE 1 b o v

/-! ### Names -/

/-- The UTF-8 bytes of a name. -/
def utf8 (name : String) : Bytes := name.toByteArray.data.toList

/-- Whether byte `x` continues a character. -/
def isContinuation (x : Nat) : Bool := 0x80 ≤ x && x ≤ 0xBF

/-- The first character of a buffer: its length and whether it is well formed; a malformed one
spans the bytes that could begin a character. -/
def scanChar : Bytes → Bool × Nat
  | [] => (true, 0)
  | x :: rest =>
    let x := x.toNat
    let y := (byteAt rest 0).toNat
    let z := (byteAt rest 1).toNat
    let w := (byteAt rest 2).toNat
    if x < 0x80 then (true, 1)
    else if 0xC2 ≤ x ∧ x ≤ 0xDF then (if isContinuation y then (true, 2) else (false, 1))
    else if 0xE0 ≤ x ∧ x ≤ 0xEF then
      if (if x = 0xE0 then 0xA0 else 0x80) ≤ y ∧ y ≤ (if x = 0xED then 0x9F else 0xBF) then
        (if isContinuation z then (true, 3) else (false, 2))
      else (false, 1)
    else if 0xF0 ≤ x ∧ x ≤ 0xF4 then
      if (if x = 0xF0 then 0x90 else 0x80) ≤ y ∧ y ≤ (if x = 0xF4 then 0x8F else 0xBF) then
        if isContinuation z then (if isContinuation w then (true, 4) else (false, 3))
        else (false, 2)
      else (false, 1)
    else (false, 1)

/-- The bytes of a buffer with every malformed part replaced by U+FFFD. -/
def lossyBytes : (fuel : Nat) → Bytes → Bytes
  | 0, _ => []
  | _ + 1, [] => []
  | fuel + 1, x :: rest =>
    let (ok, n) := scanChar (x :: rest)
    (if ok then (x :: rest).take n else [0xEF, 0xBF, 0xBD]) ++
      lossyBytes fuel ((x :: rest).drop n)

/-- The text of a byte sequence, malformed parts replaced. -/
def fromUtf8Lossy (b : Bytes) : String :=
  match String.fromUTF8? ⟨b.toArray⟩ with
  | some name => name
  | none => (String.fromUTF8? ⟨(lossyBytes b.length b).toArray⟩).getD ""

/-- A well-formed name reads back. -/
theorem fromUtf8Lossy_utf8 (name : String) : fromUtf8Lossy (utf8 name) = name := by
  have harr : (⟨(utf8 name).toArray⟩ : ByteArray) = name.toByteArray := by
    apply ByteArray.ext
    simp [utf8]
  have hvalid : name.toByteArray.IsValidUTF8 := name.isValidUTF8
  rw [fromUtf8Lossy, harr, String.fromUTF8?, dif_pos hvalid]
  rfl

/-! ### The loops over a block -/

/-- A directory entry. -/
structure DirEntry where
  name : String
  ino : Nat
  fileType : Nat
deriving DecidableEq, Repr

namespace DirEntry

def isDir (e : DirEntry) : Bool := e.fileType == 2

end DirEntry

/-- The entries of a block from `offset` on, the two fixed ones left out. -/
def dirEntriesFrom (bs : Nat) (data : Bytes) : (fuel offset : Nat) → Except Error (List DirEntry)
  | 0, _ => .ok []
  | fuel + 1, offset =>
    if offset + 8 ≤ bs then
      let child := get32 data offset
      let recLen := get16 data (offset + 4)
      let nameLen := get8 data (offset + 6)
      if recLen < 8 ∨ bs < offset + recLen then .error .corrupt
      else do
        let rest ← dirEntriesFrom bs data fuel (offset + recLen)
        if child ≠ 0 ∧ offset + 8 + nameLen ≤ bs then
          let name := fromUtf8Lossy (slice data (offset + 8) nameLen)
          if name ≠ "." ∧ name ≠ ".." then
            pure ({ name, ino := child, fileType := get8 data (offset + 7) } :: rest)
          else pure rest
        else pure rest
    else .ok []

/-- Fill in a record at `at_` of length `len`. -/
def putEntry (data : Bytes) (at_ child len fileType : Nat) (name : Bytes) : Bytes :=
  let data := put32 data at_ child
  let data := put16 data (at_ + 4) len
  let data := put8 data (at_ + 6) name.length
  let data := put8 data (at_ + 7) fileType
  splice data (at_ + 8) name

/-- Put an entry into the first record from `offset` on with room for it. -/
def addInBlock (bs : Nat) (name : Bytes) (child fileType : Nat) (data : Bytes) :
    (fuel offset : Nat) → Except Error (Option Bytes)
  | 0, _ => .ok none
  | fuel + 1, offset =>
    if offset + 8 ≤ bs then
      let entryIno := get32 data offset
      let recLen := get16 data (offset + 4)
      if recLen < 8 then .error .corrupt
      else
        let used := if entryIno = 0 then 0 else align4 (8 + get8 data (offset + 6))
        if used + align4 (8 + name.length) ≤ recLen then
          if entryIno = 0 then .ok (some (putEntry data offset child recLen fileType name))
          else .ok (some (putEntry (put16 data (offset + 4) used) (offset + used) child
            (recLen - used) fileType name))
        else addInBlock bs name child fileType data fuel (offset + recLen)
    else .ok none

/-- Take the entry with a name out of a block: its record is merged into the one before, or
marked free if it is the first. -/
def removeInBlock (bs : Nat) (name : Bytes) (data : Bytes) :
    (fuel offset : Nat) → (previous : Option Nat) → Except Error (Option Bytes)
  | 0, _, _ => .ok none
  | fuel + 1, offset, previous =>
    if offset + 8 ≤ bs then
      let entryIno := get32 data offset
      let recLen := get16 data (offset + 4)
      if recLen < 8 then .error .corrupt
      else
        let nameLen := get8 data (offset + 6)
        if entryIno ≠ 0 ∧ slice data (offset + 8) nameLen = name then
          match previous with
          | some prev => .ok (some (put16 data (prev + 4) (get16 data (prev + 4) + recLen)))
          | none => .ok (some (put32 data offset 0))
        else removeInBlock bs name data fuel (offset + recLen) (some offset)
    else .ok none

/-! ### Records -/

/-- A record of a directory block. -/
structure Rec where
  ino : Nat
  len : Nat
  name : Bytes
  fileType : Nat

/-- The entry of a record, if it has one. -/
def Rec.entry (r : Rec) : Option DirEntry :=
  if r.ino ≠ 0 ∧ fromUtf8Lossy r.name ≠ "." ∧ fromUtf8Lossy r.name ≠ ".." then
    some { name := fromUtf8Lossy r.name, ino := r.ino, fileType := r.fileType }
  else none

/-- Record `r` stands at offset `o` of the block `b`. -/
structure RecAt (bs : Nat) (b : Bytes) (o : Nat) (r : Rec) : Prop where
  ino : get32 b o = r.ino
  len : get16 b (o + 4) = r.len
  eight : 8 ≤ r.len
  quad : r.len % 4 = 0
  inside : o + r.len ≤ bs
  nameLen : r.ino ≠ 0 → get8 b (o + 6) = r.name.length
  fits : r.ino ≠ 0 → align4 (8 + r.name.length) ≤ r.len
  name : r.ino ≠ 0 → slice b (o + 8) r.name.length = r.name
  fileType : r.ino ≠ 0 → get8 b (o + 7) = r.fileType

/-- The records `rs` stand one after the other from `o` to `o'`. -/
def Chain (bs : Nat) (b : Bytes) : Nat → List Rec → Nat → Prop
  | o, [], o' => o = o'
  | o, r :: rs, o' => RecAt bs b o r ∧ Chain bs b (o + r.len) rs o'

/-- Two buffers agree between two offsets. -/
def AgreeOn (a b : Bytes) (lo hi : Nat) : Prop := ∀ p n, lo ≤ p → p + n ≤ hi → slice a p n = slice b p n

theorem AgreeOn.getLE {a b : Bytes} {lo hi : Nat} (h : AgreeOn a b lo hi) {n o : Nat} (hlo : lo ≤ o)
    (hhi : o + n ≤ hi) : getLE n a o = getLE n b o := by
  rw [Lib.getLE, Lib.getLE, h o n hlo hhi]

theorem AgreeOn.mono {a b : Bytes} {lo hi lo' hi' : Nat} (h : AgreeOn a b lo hi) (hlo : lo ≤ lo')
    (hhi : hi' ≤ hi) : AgreeOn a b lo' hi' :=
  fun p n hp hn => h p n (by omega) (by omega)

theorem AgreeOn.trans {a b c : Bytes} {lo hi : Nat} (h : AgreeOn a b lo hi) (h' : AgreeOn b c lo hi) :
    AgreeOn a c lo hi :=
  fun p n hp hn => (h p n hp hn).trans (h' p n hp hn)

theorem agreeOn_splice {b src : Bytes} {o lo hi : Nat} (h : o + src.length ≤ b.length)
    (hd : hi ≤ o ∨ o + src.length ≤ lo) : AgreeOn (splice b o src) b lo hi :=
  fun p n hp hn => slice_splice_of_disjoint h (by omega)

theorem align4_le (n : Nat) : n ≤ align4 n := by
  rw [align4]
  omega

theorem align4_quad (n : Nat) : align4 n % 4 = 0 := mul_mod_left _ _

theorem align4_lt (n : Nat) : align4 n < n + 4 := by
  rw [align4]
  omega

variable {bs : Nat} {r : Rec}

/-- A record is read from its own bytes only. -/
theorem RecAt.congr {a b : Bytes} {o : Nat} (h : RecAt bs b o r)
    (heq : AgreeOn a b o (o + r.len)) : RecAt bs a o r := by
  have h8 := h.eight
  refine ⟨?_, ?_, h8, h.quad, h.inside, ?_, h.fits, ?_, ?_⟩
  · rw [← h.ino]
    exact heq.getLE le_rfl (by omega)
  · rw [← h.len]
    exact heq.getLE (by omega) (by omega)
  · intro hne
    rw [← h.nameLen hne]
    exact heq.getLE (by omega) (by omega)
  · intro hne
    have hfit := h.fits hne
    have hal := align4_le (8 + r.name.length)
    have heq' := heq (o + 8) r.name.length (by omega) (by omega)
    rw [heq', h.name hne]
  · intro hne
    rw [← h.fileType hne]
    exact heq.getLE (by omega) (by omega)

variable {b : Bytes} {o o' : Nat} {rs : List Rec}

theorem Chain.le (h : Chain bs b o rs o') :
    o ≤ o' := by
  induction rs generalizing o with
  | nil => exact le_of_eq h
  | cons r rs ih =>
    have := ih h.2
    omega

theorem Chain.append {rs rs' : List Rec} :
    Chain bs b o (rs ++ rs') o' ↔ ∃ m, Chain bs b o rs m ∧ Chain bs b m rs' o' := by
  induction rs generalizing o with
  | nil =>
    constructor
    · exact fun h => ⟨o, rfl, h⟩
    · rintro ⟨m, rfl, h⟩
      exact h
  | cons r rs ih =>
    constructor
    · rintro ⟨hr, hrest⟩
      obtain ⟨m, h1, h2⟩ := ih.mp hrest
      exact ⟨m, ⟨hr, h1⟩, h2⟩
    · rintro ⟨m, ⟨hr, h1⟩, h2⟩
      exact ⟨hr, ih.mpr ⟨m, h1, h2⟩⟩

theorem Chain.congr {a b : Bytes} (h : Chain bs b o rs o')
    (heq : AgreeOn a b o o') : Chain bs a o rs o' := by
  induction rs generalizing o with
  | nil => exact h
  | cons r rs ih =>
    have hle := h.2.le
    exact ⟨h.1.congr (heq.mono le_rfl hle), ih h.2 (heq.mono (by omega) le_rfl)⟩

/-- A chain to the end of a block needs no more steps than the block has bytes. -/
theorem Chain.length_le (h : Chain bs b o rs o') : 8 * rs.length + o ≤ o' := by
  induction rs generalizing o with
  | nil => simpa [Chain] using le_of_eq h
  | cons r rs ih =>
    have h1 := ih h.2
    have h8 := h.1.eight
    rw [length_cons]
    omega

/-! ### What the loops do to a chain -/

/-- The entries read are those of the records. -/
theorem dirEntriesFrom_eq {fuel o : Nat}
    (h : Chain bs b o rs bs) (hfuel : rs.length < fuel) :
    dirEntriesFrom bs b fuel o = .ok (rs.filterMap Rec.entry) := by
  induction rs generalizing fuel o with
  | nil =>
    have ho : o = bs := h
    cases fuel with
    | zero => rfl
    | succ fuel =>
      rw [dirEntriesFrom, if_neg (by omega)]
      rfl
  | cons r rs ih =>
    cases fuel with
    | zero => cases hfuel
    | succ fuel =>
      obtain ⟨hr, hrest⟩ := h
      have h8 := hr.eight
      have hin := hr.inside
      rw [length_cons] at hfuel
      have hstep : dirEntriesFrom bs b fuel (o + r.len) = .ok (rs.filterMap Rec.entry) :=
        ih hrest (by omega)
      rw [dirEntriesFrom, if_pos (by omega), hr.len, if_neg (by omega), hr.ino, hstep]
      by_cases hne : r.ino ≠ 0
      · have hfit := hr.fits hne
        have hal := align4_le (8 + r.name.length)
        rw [hr.nameLen hne, hr.name hne, hr.fileType hne]
        show (if r.ino ≠ 0 ∧ o + 8 + r.name.length ≤ bs then _ else _) = _
        rw [if_pos ⟨hne, by omega⟩]
        by_cases hdot : fromUtf8Lossy r.name ≠ "." ∧ fromUtf8Lossy r.name ≠ ".."
        · rw [if_pos hdot, filterMap_cons, Rec.entry, if_pos ⟨hne, hdot⟩]
          rfl
        · rw [if_neg hdot, filterMap_cons, Rec.entry, if_neg (fun hc => hdot hc.2)]
          rfl
      · show (if r.ino ≠ 0 ∧ _ then _ else _) = _
        rw [if_neg (fun hc => hne hc.1), filterMap_cons, Rec.entry, if_neg (fun hc => hne hc.1)]
        rfl

/-- A record filled in, and what it leaves alone. -/
theorem putEntry_spec (o child len ft : Nat) (name : Bytes) (hb : b.length = bs)
    (hin : o + len ≤ bs) (hfit : align4 (8 + name.length) ≤ len) (hquad : len % 4 = 0) (hchild : child < 2 ^ 32)
    (hlen : len < 2 ^ 16) (hname : name.length < 256) (hft : ft < 256) :
    (putEntry b o child len ft name).length = bs ∧
      RecAt bs (putEntry b o child len ft name) o ⟨child, len, name, ft⟩ ∧
      ∀ lo hi, hi ≤ o ∨ o + len ≤ lo → AgreeOn (putEntry b o child len ft name) b lo hi := by
  have hal := align4_le (8 + name.length)
  let fs : List (Nat × Nat × Nat) :=
    [(o, 4, child), (o + 4, 2, len), (o + 6, 1, name.length), (o + 7, 1, ft)]
  have hfs : ∀ f ∈ fs, f.1 + f.2.1 ≤ b.length := by
    intro f hf
    simp only [fs, mem_cons, not_mem_nil, or_false] at hf
    rcases hf with rfl | rfl | rfl | rfl <;> simp only <;> omega
  have hap : fs.Pairwise FieldsApart := by
    simp [fs, FieldsApart]
  have heq : putEntry b o child len ft name = splice (putFields b fs) (o + 8) name := rfl
  have hflen : (putFields b fs).length = bs := by rw [length_putFields hfs, hb]
  have hsfit : o + 8 + name.length ≤ (putFields b fs).length := by
    rw [hflen]
    omega
  have hfield : ∀ p w v, (p, w, v) ∈ fs → getLE w (putEntry b o child len ft name) p = v % 256 ^ w := by
    intro p w v hf
    have hp : p + w ≤ o + 8 := by
      simp only [fs, mem_cons, Prod.mk.injEq, not_mem_nil, or_false] at hf
      omega
    rw [heq, getLE_splice_of_disjoint hsfit (.inl hp)]
    exact getLE_putFields hfs hap hf
  refine ⟨by rw [heq, length_splice hsfit, hflen], ⟨?_, ?_, by simp only; omega, hquad, hin, ?_, ?_, ?_, ?_⟩, ?_⟩
  · rw [get32, hfield o 4 child (by simp [fs])]
    exact mod_eq_of_lt hchild
  · rw [get16, hfield (o + 4) 2 len (by simp [fs])]
    exact mod_eq_of_lt hlen
  · intro _
    rw [get8, hfield (o + 6) 1 name.length (by simp [fs])]
    exact mod_eq_of_lt hname
  · exact fun _ => hfit
  · intro _
    show slice (putEntry b o child len ft name) (o + 8) name.length = name
    rw [heq]
    exact slice_splice_self hsfit
  · intro _
    rw [get8, hfield (o + 7) 1 ft (by simp [fs])]
    exact mod_eq_of_lt hft
  · intro lo hi hd p n hp hn
    rw [heq, slice_splice_of_disjoint hsfit (by omega), slice_putFields_of_disjoint hfs]
    intro f hf
    simp only [fs, mem_cons, not_mem_nil, or_false] at hf
    rcases hf with rfl | rfl | rfl | rfl <;> simp only <;> omega

/-- What a store of a number leaves alone. -/
theorem agreeOn_putLE {w o v : Nat} {lo hi : Nat} (h : o + w ≤ b.length)
    (hd : hi ≤ o ∨ o + w ≤ lo) : AgreeOn (putLE w b o v) b lo hi :=
  agreeOn_splice (by simpa using h) (by simpa using hd)

/-- The outcome of putting an entry into the records `rs` from `o` on: no record has room, or one
of them gives its free end to the new record. -/
def Added (bs : Nat) (name : Bytes) (child ft : Nat) (b : Bytes) (o : Nat) (rs : List Rec)
    (res : Except Error (Option Bytes)) : Prop :=
  res = .ok none ∨
  ∃ b' rs₁ rs₂ len, res = .ok (some b') ∧ b'.length = bs ∧ AgreeOn b' b 0 o ∧
    Chain bs b' o (rs₁ ++ ⟨child, len, name, ft⟩ :: rs₂) bs ∧
    rs.filterMap Rec.entry = rs₁.filterMap Rec.entry ++ rs₂.filterMap Rec.entry ∧
    ∀ r ∈ rs₁ ++ rs₂, r.ino ≠ 0 → ∃ r₀ ∈ rs, r₀.ino ≠ 0 ∧ r₀.name = r.name

/-- A record without room is passed over. -/
theorem Added.skip {name b : Bytes} {child ft o : Nat}
    {res : Except Error (Option Bytes)} (hr : RecAt bs b o r)
    (h : Added bs name child ft b (o + r.len) rs res) : Added bs name child ft b o (r :: rs) res := by
  rcases h with hnone | ⟨b', rs₁, rs₂, len, heq, hlen', hag, hch, hes, hnames⟩
  · exact .inl hnone
  · refine .inr ⟨b', r :: rs₁, rs₂, len, heq, hlen', hag.mono le_rfl (by omega),
      ⟨hr.congr (hag.mono (by omega) le_rfl), hch⟩, ?_, ?_⟩
    · rw [filterMap_cons, filterMap_cons, hes]
      cases r.entry <;> rfl
    · intro q hq hne
      rcases mem_cons.mp hq with rfl | hq
      · exact ⟨q, by simp, hne, rfl⟩
      · obtain ⟨r₀, hr₀, h1, h2⟩ := hnames q hq hne
        exact ⟨r₀, by simp [hr₀], h1, h2⟩

/-- A record whose length is written anew. -/
theorem RecAt.resize {o len : Nat} (h : RecAt bs b o r) (hb : b.length = bs) (hlen : len < 2 ^ 16) (h8 : 8 ≤ len)
    (hquad : len % 4 = 0) (hin : o + len ≤ bs) (hfits : r.ino ≠ 0 → align4 (8 + r.name.length) ≤ len) :
    RecAt bs (put16 b (o + 4) len) o { r with len := len } := by
  have hag : ∀ lo hi, hi ≤ o + 4 ∨ o + 6 ≤ lo → AgreeOn (put16 b (o + 4) len) b lo hi :=
    fun lo hi hd => agreeOn_putLE (by omega) (by omega)
  have hagr := hag (o + 6) bs (.inr le_rfl)
  refine ⟨?_, ?_, h8, hquad, hin, ?_, hfits, ?_, ?_⟩
  · rw [← h.ino]
    exact (hag 0 (o + 4) (.inl le_rfl)).getLE (by omega) (by omega)
  · show getLE 2 (putLE 2 b (o + 4) _) (o + 4) = _
    rw [getLE_putLE_self (by omega)]
    exact mod_eq_of_lt hlen
  · intro hne
    rw [← h.nameLen hne]
    exact hagr.getLE (by omega) (by omega)
  · intro hne
    have hfit := h.fits hne
    have hall := h.inside
    have hal := align4_le (8 + r.name.length)
    have hslice := hagr (o + 8) r.name.length (by omega) (by omega)
    rw [hslice]
    exact h.name hne
  · intro hne
    rw [← h.fileType hne]
    exact hagr.getLE (by omega) (by omega)

/-- A record cut down to the bytes it needs. -/
theorem RecAt.shorten {o : Nat} (h : RecAt bs b o r)
    (hb : b.length = bs) (hbs : bs < 2 ^ 16) (hne : r.ino ≠ 0) :
    RecAt bs (put16 b (o + 4) (align4 (8 + r.name.length))) o
      { r with len := align4 (8 + r.name.length) } := by
  have hin := h.inside
  have hfit := h.fits hne
  have hal := align4_le (8 + r.name.length)
  exact h.resize hb (by omega) (by omega) (align4_quad _) (by omega) fun _ => le_refl _

/-- Putting an entry into a block. -/
theorem addInBlock_spec {b name : Bytes} {child ft fuel o : Nat}
    (h : Chain bs b o rs bs) (hb : b.length = bs) (hbs : bs < 2 ^ 16) (hfuel : rs.length < fuel)
    (hchild : child < 2 ^ 32) (hname : name.length < 256) (hft : ft < 256) :
    Added bs name child ft b o rs (addInBlock bs name child ft b fuel o) := by
  induction rs generalizing fuel o with
  | nil =>
    left
    have ho : o = bs := h
    cases fuel with
    | zero => rfl
    | succ fuel => rw [addInBlock, if_neg (by omega)]
  | cons r rs ih =>
    cases fuel with
    | zero => cases hfuel
    | succ fuel =>
      obtain ⟨hr, hrest⟩ := h
      have h8 := hr.eight
      have hin := hr.inside
      have hfuel' : rs.length < fuel := by
        rw [length_cons] at hfuel
        omega
      have hskip := Added.skip hr (ih hrest hfuel')
      rw [addInBlock, if_pos (by omega), hr.len, if_neg (by omega), hr.ino]
      by_cases hzero : r.ino = 0
      · simp only [hzero, if_true, zero_add]
        by_cases hfit : align4 (8 + name.length) ≤ r.len
        · right
          rw [if_pos hfit]
          obtain ⟨hlen', hrec, hagree⟩ := putEntry_spec _ _ _ _ _ hb hin hfit hr.quad hchild (by omega) hname
            hft
          refine ⟨_, [], rs, r.len, rfl, hlen', hagree 0 o (.inl le_rfl), ?_, ?_, ?_⟩
          · exact ⟨hrec, hrest.congr (hagree _ _ (.inr le_rfl))⟩
          · rw [filterMap_cons, Rec.entry, if_neg (fun hc => hc.1 hzero)]
            rfl
          · exact fun q hq hne => ⟨q, by simp at hq; simp [hq], hne, rfl⟩
        · rw [if_neg hfit]
          exact hskip
      · simp only [hzero, if_false]
        have hfit0 := hr.fits hzero
        have hal := align4_le (8 + r.name.length)
        rw [hr.nameLen hzero]
        by_cases hfit : align4 (8 + r.name.length) + align4 (8 + name.length) ≤ r.len
        · right
          rw [if_pos hfit]
          have hb1 : (put16 b (o + 4) (align4 (8 + r.name.length))).length = bs := by
            rw [put16, length_putLE (by omega), hb]
          have hroom : o + align4 (8 + r.name.length) + (r.len - align4 (8 + r.name.length)) ≤ bs := by
            omega
          obtain ⟨hlen', hrec, hagree⟩ := putEntry_spec _ _ _ _ _ hb1 hroom (by omega)
            (by have := hr.quad; have := align4_quad (8 + r.name.length); omega) hchild (by omega) hname hft
          have hag1 : ∀ lo hi, hi ≤ o + 4 ∨ o + 6 ≤ lo →
              AgreeOn (put16 b (o + 4) (align4 (8 + r.name.length))) b lo hi :=
            fun lo hi hd => agreeOn_putLE (by omega) (by omega)
          refine ⟨_, [{ r with len := align4 (8 + r.name.length) }], rs, _, rfl, hlen', ?_,
            ⟨?_, hrec, ?_⟩, ?_, ?_⟩
          · exact (hagree 0 o (.inl (by omega))).trans (hag1 0 o (.inl (by omega)))
          · -- the record that gave its end keeps its head and its name
            exact (hr.shorten hb hbs hzero).congr (hagree _ _ (.inl (by simp only; omega)))
          · rw [show o + align4 (8 + r.name.length) + (r.len - align4 (8 + r.name.length)) = o + r.len
              by omega]
            exact hrest.congr ((hagree _ _ (.inr (by omega))).trans (hag1 _ _ (.inr (by omega))))
          · have hsame : Rec.entry { r with len := align4 (8 + r.name.length) } = r.entry := rfl
            rw [filterMap_cons, filterMap_cons, hsame, filterMap_nil]
            cases r.entry <;> rfl
          · intro q hq hne
            rcases mem_append.mp hq with hq | hq
            · rw [mem_singleton] at hq
              exact ⟨r, by simp, by rw [hq] at hne; exact hne, by rw [hq]⟩
            · exact ⟨q, by simp [hq], hne, rfl⟩
        · rw [if_neg hfit]
          exact hskip

/-! ### Taking an entry out -/

/-- The outcome of taking a name out of the records `rs`, the record before them being `pre`. -/
def Removed (bs : Nat) (name b : Bytes) (start : Nat) (pre rs : List Rec)
    (res : Except Error (Option Bytes)) : Prop :=
  (res = .ok none ∧ ∀ r ∈ rs, r.ino ≠ 0 → r.name ≠ name) ∨
  ∃ b' rs' rs₁ r rs₂, res = .ok (some b') ∧ b'.length = bs ∧ AgreeOn b' b 0 start ∧
    Chain bs b' start rs' bs ∧ rs = rs₁ ++ r :: rs₂ ∧ r.ino ≠ 0 ∧ r.name = name ∧
    rs'.filterMap Rec.entry = (pre ++ rs₁ ++ rs₂).filterMap Rec.entry ∧
    ∀ q ∈ rs', q.ino ≠ 0 → ∃ q₀ ∈ pre ++ rs₁ ++ rs₂, q₀.ino ≠ 0 ∧ q₀.name = q.name

/-- A record grown by the one behind it. -/
theorem RecAt.merge {o n : Nat} (h : RecAt bs b o r)
    (hb : b.length = bs) (hbs : bs < 2 ^ 16) (hin : o + r.len + n ≤ bs) (hn : n % 4 = 0) :
    RecAt bs (put16 b (o + 4) (r.len + n)) o { r with len := r.len + n } := by
  have h8 := h.eight
  have hquad := h.quad
  exact h.resize hb (by omega) (by omega) (by omega) (by omega) fun hne =>
    le_trans (h.fits hne) (Nat.le_add_right _ _)

/-- A record marked free. -/
theorem RecAt.clear {o : Nat} (h : RecAt bs b o r)
    (hb : b.length = bs) : RecAt bs (put32 b o 0) o { r with ino := 0 } := by
  have h8 := h.eight
  have hin := h.inside
  refine ⟨?_, ?_, h8, h.quad, hin, ?_, ?_, ?_, ?_⟩
  · show getLE 4 (putLE 4 b o 0) o = 0
    rw [getLE_putLE_self (by omega)]
    exact zero_mod _
  · show getLE 2 (putLE 4 b o 0) (o + 4) = r.len
    rw [getLE_putLE_of_disjoint (by omega) (by omega)]
    exact h.len
  · exact fun hne => absurd rfl hne
  · exact fun hne => absurd rfl hne
  · exact fun hne => absurd rfl hne
  · exact fun hne => absurd rfl hne

/-- Taking a name out of a block. -/
theorem removeInBlock_spec {b name : Bytes} {fuel start o : Nat} {pre rs : List Rec}
    {previous : Option Nat} (hpre : Chain bs b start pre o) (h : Chain bs b o rs bs)
    (hprev : (pre = [] ∧ previous = none) ∨ ((∃ r, pre = [r]) ∧ previous = some start))
    (hb : b.length = bs) (hbs : bs < 2 ^ 16) (hfuel : rs.length < fuel) :
    Removed bs name b start pre rs (removeInBlock bs name b fuel o previous) := by
  induction rs generalizing fuel o start pre previous with
  | nil =>
    have ho : o = bs := h
    refine .inl ⟨?_, by simp⟩
    cases fuel with
    | zero => rfl
    | succ fuel => rw [removeInBlock, if_neg (by omega)]
  | cons r rs ih =>
    cases fuel with
    | zero => cases hfuel
    | succ fuel =>
      obtain ⟨hr, hrest⟩ := h
      have h8 := hr.eight
      have hin := hr.inside
      have hstart := hpre.le
      have hfuel' : rs.length < fuel := by
        rw [length_cons] at hfuel
        omega
      rw [removeInBlock, if_pos (by omega), hr.len, if_neg (by omega), hr.ino]
      by_cases hmatch : r.ino ≠ 0 ∧ slice b (o + 8) (get8 b (o + 6)) = name
      · right
        have hname : r.name = name := by
          have hm := hmatch.2
          rw [hr.nameLen hmatch.1, hr.name hmatch.1] at hm
          exact hm
        simp only [if_pos hmatch]
        rcases hprev with ⟨rfl, rfl⟩ | ⟨⟨rp, rfl⟩, rfl⟩
        · have hso : start = o := hpre
          subst hso
          have hag : AgreeOn (put32 b start 0) b (start + r.len) bs :=
            agreeOn_putLE (by omega) (by omega)
          refine ⟨put32 b start 0, { r with ino := 0 } :: rs, [], r, rs, rfl, ?_, ?_, ?_, rfl,
            hmatch.1, hname, ?_, ?_⟩
          · rw [put32, length_putLE (by omega), hb]
          · exact agreeOn_putLE (by omega) (.inl le_rfl)
          · exact ⟨hr.clear hb, hrest.congr hag⟩
          · rw [filterMap_cons, Rec.entry, if_neg (fun hc => hc.1 rfl)]
            rfl
          · intro q hq hne
            rcases mem_cons.mp hq with rfl | hq
            · exact absurd rfl hne
            · exact ⟨q, by simpa using hq, hne, rfl⟩
        · obtain ⟨hrp, hso⟩ := hpre
          have hso' : start + rp.len = o := hso
          subst hso'
          have hrp8 := hrp.eight
          have hag : AgreeOn (put16 b (start + 4) (rp.len + r.len)) b (start + rp.len) bs :=
            agreeOn_putLE (by omega) (by omega)
          refine ⟨put16 b (start + 4) (rp.len + r.len), { rp with len := rp.len + r.len } :: rs, [],
            r, rs, by simp only [hrp.len], ?_, ?_, ⟨hrp.merge hb hbs (by omega) hr.quad, ?_⟩, rfl, hmatch.1,
            hname, ?_, ?_⟩
          · rw [put16, length_putLE (by omega), hb]
          · exact agreeOn_putLE (by omega) (.inl (by omega))
          · have hrest' := hrest.congr (hag.mono (by omega) le_rfl)
            rw [add_assoc] at hrest'
            exact hrest'
          · have hsame : Rec.entry { rp with len := rp.len + r.len } = rp.entry := rfl
            rw [filterMap_cons, hsame]
            simp only [List.append_nil, singleton_append, filterMap_cons]
          · intro q hq hne
            rcases mem_cons.mp hq with rfl | hq
            · exact ⟨rp, by simp, hne, rfl⟩
            · exact ⟨q, by simp [hq], hne, rfl⟩
      · simp only [if_neg hmatch]
        have hone : Chain bs b o [r] (o + r.len) := ⟨hr, rfl⟩
        have hstep := ih hone hrest (.inr ⟨⟨r, rfl⟩, rfl⟩) hfuel'
        rcases hstep with ⟨hres, hno⟩ | ⟨b', rs', rs₁, r', rs₂, hres, hlen', hag, hch, hrs, hne, hname, hes, hnames⟩
        · refine .inl ⟨hres, ?_⟩
          intro q hq hqne
          rcases mem_cons.mp hq with rfl | hq
          · intro hqn
            apply hmatch
            refine ⟨hqne, ?_⟩
            rw [hr.nameLen hqne, hr.name hqne]
            exact hqn
          · exact hno q hq hqne
        · refine .inr ⟨b', pre ++ rs', r :: rs₁, r', rs₂, hres, hlen',
            hag.mono le_rfl hstart, ?_, by rw [hrs]; rfl, hne, hname, ?_, ?_⟩
          · rw [Chain.append]
            exact ⟨o, hpre.congr (hag.mono (zero_le _) (le_refl _)), hch⟩
          · rw [filterMap_append, hes]
            simp only [filterMap_append, append_assoc, filterMap_cons, cons_append]
            cases r.entry <;> rfl
          · intro q hq hqne
            rcases mem_append.mp hq with hq | hq
            · exact ⟨q, by simp [hq], hqne, rfl⟩
            · obtain ⟨q₀, hq₀, h1, h2⟩ := hnames q hq hqne
              refine ⟨q₀, ?_, h1, h2⟩
              simp only [mem_append, mem_cons, not_mem_nil, or_false] at hq₀ ⊢
              rcases hq₀ with (h | h) | h
              · exact .inl (.inr (.inl h))
              · exact .inl (.inr (.inr h))
              · exact .inr h

end HamixOS.HextFs
