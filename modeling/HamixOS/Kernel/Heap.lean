import HamixOS.Lib.Ranges
import Mathlib.Data.Nat.Log

namespace HamixOS.Kernel

open Lib

/-!
# The kernel heap (`memory/heap.rs`)

The block allocator with its boundary tags, its free lists in bins and its chunks, and the operations of the locked
allocator on it.  The memory is a map from the addresses of words to their values; the words a block has for itself lie at
multiples of eight.  The allocator's state holds the memory and the calls of `corrupted` so far.

Addresses and sizes are natural numbers: the heap's memory lies in the lower half, and a layout's size and alignment add
up to at most `2^63`, so that no sum of the source overflows.

Large requests, which go to `vmalloc` and to whole frames, the totals of `stats` and the copying of `realloc` are left out.
-/

namespace Heap

def growChunk : Nat := 2 * 1024 * 1024

def maxChunks : Nat := 1024

def keepFree : Nat := 2 * 1024 * 1024

def staticHeapSize : Nat := 2 * 1024 * 1024

def pageSize : Nat := 4096

/-- `ALIGN`. -/
def blockAlign : Nat := 16

def header : Nat := 16

def minBlock : Nat := 32

def fence : Nat := 16

def flagInuse : Nat := 1

def flagPrevInuse : Nat := 2

def flagMask : Nat := 3

def smallBins : Nat := 64

/-- `BINS`. -/
def binCount : Nat := smallBins + 32

def large : Nat := 256 * 1024

/-- For powers of two. -/
def alignUp (value align : Nat) : Nat := (value + align - 1) / align * align

def binFor (size : Nat) : Nat :=
  let slot := size / blockAlign
  if slot < smallBins then slot else min (smallBins + Nat.log2 size - 10) (binCount - 1)

structure Layout where
  size : Nat
  align : Nat
  align_pow : ∃ k, align = 2 ^ k
  fits : size + align ≤ 2 ^ 63

structure BlockAllocator where
  bins : Nat → Nat
  bitmap : Nat → Bool
  /-- `chunks[..chunk_count]`. -/
  chunks : List (Nat × Nat)
  freeBytes : Nat
  lo : Nat
  hi : Nat
  memory : Nat → Nat
  corruptions : List (String × Nat)

namespace BlockAllocator

variable (h : BlockAllocator)

def write (address value : Nat) : BlockAllocator := { h with memory := Function.update h.memory address value }

def head (block : Nat) : Nat := h.memory block

def setHead (block value : Nat) : BlockAllocator := h.write block value

/-- `head(block) & !FLAG_MASK`. -/
def blockSize (block : Nat) : Nat := h.head block - (h.head block &&& flagMask)

def isInuse (block : Nat) : Bool := (h.head block &&& flagInuse) ≠ 0

def setNext (block value : Nat) : BlockAllocator := h.write (block + 8) value

def nextLink (block : Nat) : Nat := h.memory (block + 8)

def setPrev (block value : Nat) : BlockAllocator := h.write (block + 16) value

def prevLink (block : Nat) : Nat := h.memory (block + 16)

def writeFooter (block size : Nat) : BlockAllocator := h.write (block + size - 8) size

def previousSize (block : Nat) : Nat := h.memory (block - 8)

def corrupted (what : String) (address : Nat) : BlockAllocator :=
  { h with corruptions := h.corruptions ++ [(what, address)] }

def isPlausible (block : Nat) : Bool := block % blockAlign = 0 ∧ h.lo ≤ block ∧ block + minBlock ≤ h.hi

def saneFree (block : Nat) : Bool :=
  h.isPlausible block ∧ minBlock ≤ h.blockSize block ∧ h.blockSize block % blockAlign = 0 ∧
    block + h.blockSize block ≤ h.hi ∧ h.isInuse block = false ∧
    h.memory (block + h.blockSize block - 8) = h.blockSize block

def markBin (bin : Nat) (occupied : Bool) : BlockAllocator := { h with bitmap := Function.update h.bitmap bin occupied }

def setBin (bin block : Nat) : BlockAllocator := { h with bins := Function.update h.bins bin block }

def linkFree (block size : Nat) : BlockAllocator :=
  let bin := binFor size
  let headBlock := h.bins bin
  let h := (h.setNext block headBlock).setPrev block 0
  let h := if headBlock ≠ 0 then h.setPrev headBlock block else h
  (h.setBin bin block).markBin bin true

/-- `unlink_free`, when the links to the neighbours have been read and found sane or cut. -/
def spliceOut (bin next prev : Nat) : BlockAllocator :=
  let h := if prev ≠ 0 then h.setNext prev next else h.setBin bin next
  let h := if next ≠ 0 then h.setPrev next prev else h
  if h.bins bin = 0 then h.markBin bin false else h

def unlinkFree (block size : Nat) : BlockAllocator :=
  let bin := binFor size
  let next := h.nextLink block
  let prev := h.prevLink block
  let lost := next ≠ 0 ∧ h.isPlausible next = false
  let h := if lost then h.corrupted "free-list next link overwritten" block else h
  let next := if lost then 0 else next
  if prev ≠ 0 ∧ h.isPlausible prev = false then
    ((h.corrupted "free-list prev link overwritten" block).setBin bin next).spliceOut bin next 0
  else h.spliceOut bin next prev

/-- The tags that `make_free` writes. -/
def tagFree (block size prevFlag : Nat) : BlockAllocator :=
  let h := (h.setHead block (size ||| prevFlag)).writeFooter block size
  let after := block + size
  h.setHead after (h.head after - (h.head after &&& flagPrevInuse))

def makeFree (block size prevFlag : Nat) : BlockAllocator :=
  let h := (h.tagFree block size prevFlag).linkFree block size
  { h with freeBytes := h.freeBytes + size }

def takeFree (block size : Nat) : BlockAllocator :=
  let h := h.unlinkFree block size
  { h with freeBytes := h.freeBytes - size }

def insertRegion (base size : Nat) : BlockAllocator :=
  let start := alignUp base blockAlign
  let stop := (base + size) / blockAlign * blockAlign
  if stop < start + fence * 2 + minBlock then h
  else
    let body := start + fence
    let h := h.setHead start (fence ||| flagInuse ||| flagPrevInuse)
    let h := h.setHead (stop - fence) (fence ||| flagInuse)
    h.makeFree body (stop - fence - body) flagPrevInuse

/-- The loop over the blocks of a bin, of which `room` more are looked at. -/
def scan (need align bin : Nat) : Nat → Nat → Nat → BlockAllocator → Option (Nat × Nat × Nat) × BlockAllocator
  | 0, _, _, h => (none, h)
  | room + 1, block, previous, h =>
    if block = 0 then (none, h)
    else if h.saneFree block = false then
      let h := h.corrupted "free block header overwritten" block
      (none, if previous = 0 then (h.setBin bin 0).markBin bin false else h.setNext previous 0)
    else
      let size := h.blockSize block
      let payload := alignUp (block + header) align
      if payload + need ≤ block + size then (some (block, size, payload), h)
      else scan need align bin room (h.nextLink block) block h

def scanBins (need align : Nat) : List Nat → BlockAllocator → Option (Nat × Nat × Nat) × BlockAllocator
  | [], h => (none, h)
  | bin :: bins, h =>
    if h.bitmap bin = false then scanBins need align bins h
    else
      match scan need align bin 64 (h.bins bin) 0 h with
      | (some fit, h) => (some fit, h)
      | (none, h) => scanBins need align bins h

/-- The block, its size and the address of the payload in it. -/
def findFit (need align : Nat) : Option (Nat × Nat × Nat) × BlockAllocator :=
  let first := binFor (max (need + header) minBlock)
  scanBins need align (List.range' first (binCount - first)) h

/-- The end of `alloc` and of `realloc`: of the `size` bytes at `block`, `taken` are in use and the rest is free. -/
def occupy (block size taken : Nat) : BlockAllocator :=
  let prevFlag := h.head block &&& flagPrevInuse
  let h := h.setHead block (taken ||| flagInuse ||| prevFlag)
  let after := block + taken
  if taken ≠ size then h.makeFree after (size - taken) flagPrevInuse
  else h.setHead after (h.head after ||| flagPrevInuse)

/-- The part of `alloc` from where the block is found. -/
def place (need block size payload : Nat) : BlockAllocator :=
  let h := h.takeFree block size
  let usedEnd := alignUp (payload + need) blockAlign
  let leftover := block + size - usedEnd
  let taken := if minBlock ≤ leftover then usedEnd - block else size
  (h.occupy block size taken).write (payload - 8) block

/-- The pointer is null, which is `0`, where no block fits. -/
def alloc (layout : Layout) : Nat × BlockAllocator :=
  let align := max layout.align blockAlign
  let need := alignUp (max layout.size 1) blockAlign
  match h.findFit need align with
  | (none, h) => (0, h)
  | (some (block, size, payload), h) => (payload, h.place need block size payload)

/-- The free block after a block is taken, if there is one; the size of both. -/
def mergeAfter (block size : Nat) : BlockAllocator × Nat :=
  let after := block + size
  if h.isInuse after = false then
    let afterSize := h.blockSize after
    (h.takeFree after afterSize, size + afterSize)
  else (h, size)

def dealloc (address : Nat) : BlockAllocator :=
  let block := h.memory (address - 8)
  if h.isPlausible block = false ∨ address < block + header ∨ 2 ^ 20 < address - block then
    h.corrupted "free of a pointer whose header is overwritten" address
  else if h.isInuse block = false then h.corrupted "double free" address
  else
    let size := h.blockSize block
    if size < minBlock ∨ h.hi < block + size ∨ block + size ≤ address then
      h.corrupted "free of a block with a broken size" address
    else
      let prevFlag := h.head block &&& flagPrevInuse
      let (h, size) := h.mergeAfter block size
      if prevFlag = 0 then
        let beforeSize := h.previousSize block
        let before := block - beforeSize
        let h := h.takeFree before beforeSize
        h.makeFree before (size + beforeSize) (h.head before &&& flagPrevInuse)
      else h.makeFree block size prevFlag

/-- The part of `realloc` that is done in place, under the lock: whether it was. -/
def reallocInPlace (pointer newSize : Nat) : Bool × BlockAllocator :=
  let block := h.memory (pointer - 8)
  let size := h.blockSize block
  let slack := block + size - pointer
  if newSize ≤ slack then (true, h)
  else
    let after := block + size
    if h.isInuse after then (false, h)
    else
      let afterSize := h.blockSize after
      if slack + afterSize < alignUp newSize blockAlign then (false, h)
      else
        let h := h.takeFree after afterSize
        let merged := size + afterSize
        let wanted := alignUp (pointer + newSize) blockAlign - block
        let taken := if minBlock ≤ merged - wanted then wanted else merged
        (true, h.occupy block merged taken)

def addChunk (base size : Nat) : Bool × BlockAllocator :=
  if maxChunks ≤ h.chunks.length then (false, h)
  else
    let h := { h with chunks := h.chunks ++ [(base, size)], lo := min h.lo base, hi := max h.hi (base + size) }
    (true, h.insertRegion base size)

def wholeChunkFree (base size : Nat) : Option (Nat × Nat) :=
  let start := alignUp base blockAlign
  let stop := (base + size) / blockAlign * blockAlign
  if stop < start + fence * 2 + minBlock then none
  else
    let body := start + fence
    let bodySize := stop - fence - body
    if h.isInuse body ∨ h.blockSize body ≠ bodySize then none else some (body, bodySize)

/-- The loop of `trim` over the first `i` chunks; the chunks that are released. -/
def trimLoop (storage : Nat) : Nat → Nat → List (Nat × Nat) → BlockAllocator → List (Nat × Nat) × BlockAllocator
  | 0, _, released, h => (released, h)
  | i + 1, spare, released, h =>
    if 64 ≤ released.length then (released, h)
    else
      let (base, size) := h.chunks.getD i (0, 0)
      if base = storage ∨ spare < size + keepFree then trimLoop storage i spare released h
      else
        match h.wholeChunkFree base size with
        | none => trimLoop storage i spare released h
        | some (body, bodySize) =>
          let h := h.takeFree body bodySize
          trimLoop storage i (spare - bodySize) (released ++ [(base, size)]) { h with chunks := swapRemove h.chunks i }

def trim (storage : Nat) : List (Nat × Nat) × BlockAllocator := trimLoop storage h.chunks.length h.freeBytes [] h

end BlockAllocator

/-- `BlockAllocator::new`, over some memory. -/
def new (memory : Nat → Nat) : BlockAllocator := ⟨fun _ => 0, fun _ => false, [], 0, 2 ^ 64 - 1, 0, memory, []⟩

/-- What `frame::alloc_contiguous` gives for a number of frames and `vmalloc::alloc` for a size. -/
structure Env where
  contiguous : Nat → Option Nat
  vmalloc : Nat → Option Nat

def chunkSize (needed : Nat) : Nat := max (alignUp (needed + fence * 2 + minBlock) pageSize) growChunk

/-- A chunk that finds no place in the table is released again. -/
def grow (env : Env) (h : BlockAllocator) (needed : Nat) : Bool × BlockAllocator :=
  match env.contiguous (chunkSize needed / pageSize) <|> env.vmalloc (chunkSize needed) with
  | none => (false, h)
  | some base => h.addChunk base (chunkSize needed)

/-- `LockedAllocator::alloc`, for what is not large. -/
def lockedAlloc (env : Env) (h : BlockAllocator) (layout : Layout) : Nat × BlockAllocator :=
  let (pointer, h) := h.alloc layout
  if pointer ≠ 0 then (pointer, h)
  else
    match grow env h (layout.size + layout.align + header * 2) with
    | (false, h) => (0, h)
    | (true, h) => h.alloc layout

end Heap

end HamixOS.Kernel
