import HamixOS.HextFs.Commit

namespace HamixOS.HextFs.Hext

open Lib

/-!
# Reading part of a file

`read_range` reads the blocks a range touches, staged blocks from the cache and the others in runs,
and cuts the range out of them.
-/

variable {D : Type} [BlockDevice D]

/-- The block list of a file and its size. -/
def fileBlocks (ino : Nat) : HextM D (List Nat × Nat) := do
  let inode ← readInode ino
  if inode.isDir then throw .isDir
  else do
    let blocks ← blockList inode false
    pure (blocks, inode.size)

/-- The contents of a list of blocks, where block 0 stands for zeros. -/
def rangeRuns : (fuel : Nat) → List Nat → HextM D Bytes
  | 0, _ => pure []
  | _ + 1, [] => pure []
  | fuel + 1, block :: rest => do
    let s ← get
    match s.cache[block]? with
    | some cached => do
      let tail ← rangeRuns fuel rest
      pure (cached ++ tail)
    | none => do
      let run := extendRun s.cache.contains block rest 1
      let buf ← if block = 0 then pure (zeros (run * s.bs)) else readRaw block (run * s.bs)
      let tail ← rangeRuns fuel (rest.drop (run - 1))
      pure (buf ++ tail)

/-- At most `want` bytes from `offset` on of a file of `size` bytes. -/
def readRange (blocks : List Nat) (size offset want : Nat) : HextM D Bytes :=
  if size ≤ offset then pure []
  else do
    let s ← get
    let len := min want (size - offset)
    let first := offset / s.bs
    let last := min (divCeil (offset + len) s.bs) blocks.length
    if last ≤ first then pure []
    else do
      let scratch ← rangeRuns (last - first) ((blocks.take last).drop first)
      pure ((scratch.drop (offset - first * s.bs)).take len)

end HamixOS.HextFs.Hext
