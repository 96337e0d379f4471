import HamixOS.Kernel.Frame
import HamixOS.Kernel.Pte

namespace HamixOS.Kernel

open Lib

/-!
# Address spaces (`memory/aspace.rs`)

An address space is its page tables, a radix tree of four levels over `Pte`, with the
regions its lazy entries refer to.  A page is named by its number, the address divided by
`PAGE_SIZE`.  The slots of the top table outside `USER_TOP` belong to the kernel and are
left out, and so is what concerns the translation buffers (`barrier`, `flush_page`,
`sync_code`).

The functions that change the tables take the physical memory and give it back; `bool`
results are kept.  `entry(page, false)` and a zero entry are both `none` here: no function
of the source tells them apart.
-/

/-- `ANON_NODE`. -/
def anonNode : Nat := 2 ^ 64 - 1

structure LazyRegion where
  node : Nat
  start : Nat
  offset : Nat
  fileLen : Nat
  isPrivate : Bool
  prot : Prot

/-- `MAX_SPANS`. -/
def maxSpans : Nat := 4096

/-- `pte::index`, with levels counted from the leaves. -/
def index (level page : Nat) : Nat := page / 512 ^ level % 512

/-- `AddressSpace`; `root` is the frame of the top table. -/
structure AddressSpace where
  tables : Table Pte 3
  lazy : List LazyRegion
  spans : List (Nat × Nat × Nat)

/-- The pages a range touches, rounded out to whole pages. -/
def pagesOf (start len : Nat) : List Nat :=
  List.range' (start / pageSize) ((start + len + pageSize - 1) / pageSize - start / pageSize)

namespace AddressSpace

def root (a : AddressSpace) : Nat := Dir.frame (α := Table Pte 2) a.tables

/-- The entry of a page, `none` where it is zero or its table is missing. -/
def leaf (a : AddressSpace) (page : Nat) : Option Pte := Table.get index 3 a.tables page

def setLeaf (a : AddressSpace) (page : Nat) (o : Option Pte) : AddressSpace :=
  { a with tables := Table.set index 3 a.tables page o }

/-- `entry(page, true)`: the tables on the way are made. -/
def makeEntry (p : Phys) (a : AddressSpace) (page : Nat) : Phys × AddressSpace × Bool :=
  let r := Table.ensure index Phys.allocZeroedFrame 3 p a.tables page
  (r.1, { a with tables := r.2.1 }, r.2.2)

/-- The frame behind an address, as `translate` finds it. -/
def translate (a : AddressSpace) (virt : Nat) : Option Nat :=
  if isUserRange virt 1 then ((a.leaf (virt / pageSize)).filter (·.valid)).map (·.addr) else none

/-- A page that is replaced or unmapped gives up its frame at the next `sync`. -/
def deferLeaf (p : Phys) (root : Nat) : Option Pte → Phys
  | some e => if e.valid && e.owned then p.deferFree root e.addr else p
  | none => p

/-! ### Reserving -/

def LazyRegion.same (r s : LazyRegion) : Bool :=
  r.node = s.node ∧ r.start = s.start ∧ r.offset = s.offset ∧ r.fileLen = s.fileLen ∧ r.isPrivate = s.isPrivate

/-- The index of a region, and the list with it. -/
def regionIndex (lazy : List LazyRegion) (region : LazyRegion) : Nat × List LazyRegion :=
  match lazy.findIdx? (fun r => LazyRegion.same r region) with
  | some i => (i, lazy)
  | none => (lazy.length, lazy ++ [region])

/-- The loop of `map_lazy_prot`; it ends early where a table cannot be made. -/
def lazyPages (entry : Pte) : List Nat → Phys → AddressSpace → Phys × AddressSpace × Bool
  | [], p, a => (p, a, true)
  | page :: rest, p, a =>
    let r := makeEntry p a page
    if r.2.2 then
      lazyPages entry rest (deferLeaf r.1 r.2.1.root (r.2.1.leaf page)) (r.2.1.setLeaf page (some entry))
    else (r.1, r.2.1, false)

def mapLazyProt (p : Phys) (a : AddressSpace) (start len : Nat) (region : LazyRegion) (prot : Prot) :
    Phys × AddressSpace × Bool :=
  let found := regionIndex a.lazy region
  let a := { a with lazy := found.2 }
  let first := start / pageSize * pageSize
  let last := (start + len + pageSize - 1) / pageSize * pageSize
  if isUserRange first (last - first) then
    let spans :=
      if (found.2[found.1]?.map (·.node)) = some anonNode then a.spans
      else (if a.spans.length ≥ maxSpans then a.spans.drop 1 else a.spans) ++ [(first, last, found.1)]
    lazyPages (Pte.lazyProt p.nx found.1 prot) (pagesOf start len) p { a with spans := spans }
  else (p, a, false)

def mapLazy (p : Phys) (a : AddressSpace) (start len : Nat) (region : LazyRegion) :
    Phys × AddressSpace × Bool :=
  mapLazyProt p a start len region region.prot

def zeroRegion : LazyRegion := ⟨anonNode, 0, 0, 0, true, Prot.all⟩

def mapZero (p : Phys) (a : AddressSpace) (start len : Nat) : Phys × AddressSpace × Bool :=
  mapLazy p a start len zeroRegion

/-! ### Filling -/

/-- The loop of `alloc_range`. -/
def allocPages : List Nat → Phys → AddressSpace → Phys × AddressSpace × Bool
  | [], p, a => (p, a, true)
  | page :: rest, p, a =>
    let r := makeEntry p a page
    if r.2.2 then
      if (r.2.1.leaf page).any (·.valid) then allocPages rest r.1 r.2.1
      else
        match r.1.allocZeroedFrame with
        | none => (r.1, r.2.1, false)
        | some f => allocPages rest f.2 (r.2.1.setLeaf page (some (Pte.userPage f.1 true)))
    else (r.1, r.2.1, false)

def allocRange (p : Phys) (a : AddressSpace) (start len : Nat) : Phys × AddressSpace × Bool :=
  let first := start / pageSize * pageSize
  let last := (start + len + pageSize - 1) / pageSize * pageSize
  if isUserRange first (last - first) then allocPages (pagesOf start len) p a else (p, a, false)

/-! ### Protecting and unmapping -/

/-- One page of `protect_range`. -/
def protectPage (p : Phys) (prot : Prot) (a : AddressSpace) (page : Nat) : AddressSpace :=
  match a.leaf page with
  | none => a
  | some e => a.setLeaf page (some (Pte.withProt p.nx e prot (e.valid && e.owned && p.isShared e.addr)))

def protectRange (p : Phys) (a : AddressSpace) (start len : Nat) (prot : Prot) : AddressSpace :=
  let first := start / pageSize * pageSize
  let last := (start + len + pageSize - 1) / pageSize * pageSize
  if isUserRange first (last - first) then (pagesOf start len).foldl (protectPage p prot) a else a

/-! ### Copying -/

/-! ### Writing -/

/-- `resolve_cow` on the entry of a page that is copy-on-write. -/
def breakCow (p : Phys) (a : AddressSpace) (page : Nat) (e : Pte) : Phys × AddressSpace × Bool :=
  if p.isShared e.addr then
    match p.allocWith (p.bytes e.addr) with
    | none => (p, a, false)
    | some r => (r.2.freeFrame e.addr, a.setLeaf page (some (e.makePrivate r.1)), true)
  else (p, a.setLeaf page (some (e.makePrivate e.addr)), true)

/-- `resolve_cow`: whether the page can be written now. -/
def resolveCow (p : Phys) (a : AddressSpace) (virt : Nat) : Phys × AddressSpace × Bool :=
  if isUserRange virt 1 then
    match a.leaf (virt / pageSize) with
    | none => (p, a, false)
    | some e =>
      if e.valid then
        if e.isCow then breakCow p a (virt / pageSize) e else (p, a, e.writable)
      else (p, a, false)
  else (p, a, false)

/-- The bytes of `data`, stored from address `virt` on, as far as they lie in `page`. -/
def overlay (old : Page) (page virt : Nat) (data : List UInt8) : Page := fun i =>
  if i < pageSize ∧ virt ≤ page * pageSize + i ∧ page * pageSize + i < virt + data.length then
    data.getD (page * pageSize + i - virt) 0
  else old i

/-- The loop of `write_bytes`, page by page.  What `resolve_cow` answers is not looked at. -/
def writePages (virt : Nat) (data : List UInt8) : List Nat → Phys → AddressSpace → Phys × AddressSpace × Bool
  | [], p, a => (p, a, true)
  | page :: rest, p, a =>
    let addr := max virt (page * pageSize)
    let r := resolveCow p a addr
    match r.2.1.translate addr with
    | none => (r.1, r.2.1, false)
    | some f => writePages virt data rest (r.1.store f (overlay (r.1.bytes f) page virt data)) r.2.1

def writeBytes (p : Phys) (a : AddressSpace) (virt : Nat) (data : List UInt8) : Phys × AddressSpace × Bool :=
  if data.isEmpty then (p, a, true) else writePages virt data (pagesOf virt data.length) p a

end AddressSpace

end HamixOS.Kernel
