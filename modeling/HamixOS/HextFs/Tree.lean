import HamixOS.HextFs.Directory
import HamixOS.Lib.Forest

namespace HamixOS.HextFs

open Lib Hext

/-!
# The invariant of the tree

`Own` says which blocks each inode owns: its data blocks and its pointer blocks, all of them used,
in the room for files, and owned once.  `Good` adds the directories: their blocks are well formed,
their entries form a `Forest` over the used inodes beyond the reserved ones, and the counts of
directories are right.  The inodes in `lost` are used and have no name: the ones an operation has
taken and not yet named, or has failed to name.
-/

/-- The blocks of every inode. -/
structure Owners where
  data : Nat → List Nat
  ptrs : Nat → List Nat

namespace Owners

/-- All blocks of inode `i`. -/
def all (o : Owners) (i : Nat) : List Nat := o.data i ++ o.ptrs i

theorem mem_all_data {o : Owners} {i b : Nat} (h : b ∈ o.data i) : b ∈ o.all i :=
  List.mem_append_left _ h

theorem mem_all_ptrs {o : Owners} {i b : Nat} (h : b ∈ o.ptrs i) : b ∈ o.all i :=
  List.mem_append_right _ h

end Owners

namespace View

/-- Inode `i` is a directory in use. -/
def Dir (v : View) (i : Nat) : Prop := v.iused i = true ∧ (v.inode i).isDir = true

/-- Inode `i` is in use and not reserved. -/
def Live (v : View) (i : Nat) : Prop := v.iused i = true ∧ firstIno ≤ i

/-- The entries of directory `i`. -/
def entries (v : View) (bs : Nat) (o : Owners) (i : Nat) : List DirEntry :=
  (o.data i).flatMap (fun b => blockEntries bs (v.data b))

/-- The number of directories among the inodes of group `g`. -/
def dirCount (v : View) (ipg g : Nat) : Nat :=
  ((Finset.range ipg).filter (fun k => v.iused (g * ipg + k + 1) = true ∧
    (v.inode (g * ipg + k + 1)).isDir = true)).card

end View

/-- The file that holds the journal: its record and its blocks do not change. -/
structure JournalFile where
  data : List Nat
  ptrs : List Nat
  size : Nat
  block : List Nat
  table : Nat → Bytes

/-- The journal inode is that of the volume. -/
structure JournalFile.Held (jf : JournalFile) (v : View) (o : Owners) : Prop where
  iused : v.iused journalIno = true
  data : o.data journalIno = jf.data
  ptrs : o.ptrs journalIno = jf.ptrs
  size : (v.inode journalIno).size = jf.size
  block : (v.inode journalIno).block = jf.block
  file : (v.inode journalIno).isDir = false
  table : ∀ b ∈ jf.ptrs, v.data b = jf.table b

/-- Every inode owns its blocks, and no block is owned twice. -/
structure Own (G : Geometry) (v : View) (o : Owners) : Prop where
  rep : ∀ i, G.Ino i → InodeRep v.data G.bs (v.inode i) (o.data i) (o.ptrs i)
  room : ∀ i, G.Ino i → ∀ b ∈ o.all i, G.Room b ∧ v.used b = true
  nodup : ∀ i, G.Ino i → (o.all i).Nodup
  apart : ∀ i j, G.Ino i → G.Ino j → i ≠ j → ∀ b ∈ o.all i, b ∉ o.all j

/-- The entries of the directories form a forest. -/
abbrev View.Linked (v : View) (bs : Nat) (o : Owners) (lost : Nat → Prop) : Prop :=
  Forest DirEntry.name DirEntry.ino v.Live v.Dir (v.entries bs o) lost

/-- The invariant of a volume. -/
structure Good (G : Geometry) (jf : JournalFile) (v : View) (o : Owners) (lost : Nat → Prop) :
    Prop where
  own : Own G v o
  ino : ∀ i, v.iused i = true → G.Ino i
  journal : jf.Held v o
  root : v.Dir rootIno
  plain : ∀ i, G.Ino i → v.iused i = false → (v.inode i).isDir = false
  size : ∀ i, v.Dir i → (v.inode i).size = (o.data i).length * G.bs
  blocks : ∀ i, v.Dir i → ∀ b ∈ o.data i, DirBlock G.bs (v.data b)
  linked : v.Linked G.bs o lost
  dirs : ∀ g < G.groups, v.dirs g = v.dirCount G.ipg g

end HamixOS.HextFs
