import HamixOS.HextFs.Pointers

namespace HamixOS.HextFs

open Lib

/-!
# The journal

The records of the journal, the transactions `commit` writes and the scan that finds them again at
the next mount.
-/

/-! ### Records -/

/-- The first block of the journal: the sequence number of the next transaction. -/
def headerBlock (bs seq : Nat) : Bytes :=
  let header := put64 (put32 (put32 (zeros bs) 0 journalHeader) 4 1) 8 seq
  put32 header 16 (crc32 (header.take 16))

/-- The number of targets a descriptor has room for. -/
def descriptorCapacity (bs : Nat) : Nat := (bs - 24) / 4

/-- The descriptor of a part of a transaction. -/
def descriptorBlock (bs seq : Nat) (targets : List Nat) : Bytes :=
  let desc := put32 (put64 (put32 (zeros bs) 0 journalDescriptor) 4 seq) 12 targets.length
  let desc := putWords desc 24 targets
  let desc := put32 desc 16 (crc32 (desc.take 16))
  put32 desc 20 (crc32 (slice desc 24 (targets.length * 4)))

/-- The record that commits a transaction. -/
def commitBlock (bs seq count dataCrc : Nat) : Bytes :=
  let commit := put32 (put32 (put64 (put32 (zeros bs) 0 journalCommit) 4 seq) 12 count) 16 dataCrc
  put32 commit 20 (crc32 (commit.take 20))

/-- The blocks of a transaction as they stand in the journal, the commit record apart. -/
def logBlocks (bs seq : Nat) (entries : List (Nat × Bytes)) : List Bytes :=
  (chunks (descriptorCapacity bs) entries).flatMap (fun chunk =>
    descriptorBlock bs seq (chunk.map Prod.fst) :: chunk.map Prod.snd)

/-! ### Writing -/

namespace Hext

variable {D : Type} [BlockDevice D]

/-- Block `position` of the journal. -/
def journalAt (s : Hext D) (position : Nat) : Nat := s.journal.getD position 0

/-- Write blocks to the journal from `position` on. -/
def writeLog : (position : Nat) → List Bytes → HextM D Unit
  | _, [] => pure ()
  | position, block :: blocks => do
    let s ← get
    writeRaw (s.journalAt position) block
    writeLog (position + 1) blocks

/-- Write blocks to the places they belong. -/
def writeHome : List (Nat × Bytes) → HextM D Unit
  | [] => pure ()
  | (target, data) :: entries => do
    writeRaw target data
    writeHome entries

/-- Write the header of the journal. -/
def writeJournalHeader : HextM D Unit := do
  let s ← get
  writeRaw (s.journalAt 0) (headerBlock s.bs s.nextSeq)

/-- Write one transaction: to the journal, then to its place. -/
def writeTransaction (entries : List (Nat × Bytes)) : HextM D Unit := do
  let s ← get
  let blocks := logBlocks s.bs s.nextSeq entries
  writeLog 1 blocks
  flushDevice
  writeRaw (s.journalAt (1 + blocks.length))
    (commitBlock s.bs s.nextSeq entries.length (crc32 (entries.map Prod.snd).flatten))
  flushDevice
  writeHome entries
  flushDevice
  modify (fun s => { s with nextSeq := (s.nextSeq + 1) % 2 ^ 64 })
  writeJournalHeader
  flushDevice

end Hext

/-! ### Finding a transaction -/

/-- What a scan of the journal ends with: no transaction, or its writes. -/
abbrev Found := Option (List (Nat × Bytes))

namespace Hext

variable {D : Type} [BlockDevice D]

/-- Read the blocks of a descriptor's targets; nothing if the journal ends or a target is none of
the volume. -/
def readTargets : (position : Nat) → List Nat → (writes : List (Nat × Bytes)) →
    HextM D (Option (Nat × List (Nat × Bytes)))
  | position, [], writes => pure (some (position, writes))
  | position, target :: targets, writes => do
    let s ← get
    if s.journal.length ≤ position ∨ s.blocksCount ≤ target then pure none
    else do
      let data ← readBlock (s.journalAt position)
      readTargets (position + 1) targets (writes ++ [(target, data)])

/-- Scan the journal from `position` on for the transaction `seq`. -/
def scanJournal (seq : Nat) : (fuel position : Nat) → (writes : List (Nat × Bytes)) → HextM D Found
  | 0, _, _ => pure none
  | fuel + 1, position, writes => do
    let s ← get
    if s.journal.length ≤ position then pure none
    else do
      let desc ← readBlock (s.journalAt position)
      if get32 desc 0 = journalCommit then
        if get64 desc 4 ≠ seq ∨ get32 desc 12 ≠ writes.length ∨
            get32 desc 16 ≠ crc32 (writes.map Prod.snd).flatten ∨ get32 desc 20 ≠ crc32 (desc.take 20) then
          pure none
        else pure (some writes)
      else if get32 desc 0 ≠ journalDescriptor ∨ get64 desc 4 ≠ seq then pure none
      else
        let count := get32 desc 12
        if descriptorCapacity s.bs < count ∨ get32 desc 16 ≠ crc32 (desc.take 16) then pure none
        else
          let targets := (List.range count).map (fun i => get32 desc (24 + i * 4))
          if get32 desc 20 ≠ crc32 (slice desc 24 (count * 4)) then pure none
          else do
            match ← readTargets (position + 1) targets writes with
            | none => pure none
            | some (position, writes) => scanJournal seq fuel position writes

/-- Finish the transaction a power loss left in the journal. -/
def replay : HextM D Unit := do
  let s ← get
  let header ← readBlock (s.journalAt 0)
  if get32 header 0 ≠ journalHeader ∨ crc32 (header.take 16) ≠ get32 header 16 then throw .corrupt
  else do
    let seq := get64 header 8
    modify (fun s => { s with nextSeq := seq })
    match ← scanJournal seq s.journal.length 1 [] with
    | none => pure ()
    | some writes => do
      writeHome writes
      flushDevice
      modify (fun s => { s with nextSeq := (s.nextSeq + 1) % 2 ^ 64 })
      writeJournalHeader
      flushDevice
      modify (fun s => { s with replayed := true })
      let sb ← onDevice (BlockDevice.read 2 1024)
      modify (fun s => { s with sb })

end Hext

end HamixOS.HextFs
