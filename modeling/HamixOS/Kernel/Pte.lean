import Mathlib.Tactic.Common

namespace HamixOS.Kernel

/-!
# Page-table entries (`arch/x86_64/paging.rs`)

The user half of the address space and the leaf entries of its page tables.  An entry is
kept as its flags and the number in its address field: the frame of a page that is
present, the index of the region of one that is lazily reserved.  The cache-attribute bit
of device mappings plays no part here.
-/

def pageSize : Nat := 4096
def userBase : Nat := 0x8000000000
def userEnd : Nat := 0x10000000000
def userMmapBase : Nat := 0xA000000000
def userShmBase : Nat := 0xC000000000
def userFbBase : Nat := 0xE000000000

/-- `is_user_range`. -/
def isUserRange (addr len : Nat) : Bool :=
  userBase ≤ addr ∧ len ≤ userEnd - userBase ∧ addr + len ≤ userEnd

/-- The protection bits `PROT_READ`, `PROT_WRITE` and `PROT_EXEC`. -/
structure Prot where
  read : Bool
  write : Bool
  exec : Bool
  deriving DecidableEq

def Prot.all : Prot := ⟨true, true, true⟩

structure Pte where
  present : Bool
  writable : Bool
  user : Bool
  noExecute : Bool
  owned : Bool
  isLazy : Bool
  cow : Bool
  addr : Nat
  deriving DecidableEq

namespace Pte

/-- `pte::valid`. -/
def valid (e : Pte) : Bool := e.present

/-- `pte::is_cow`. -/
def isCow (e : Pte) : Bool := e.present && e.cow

/-- `pte::user_page`. -/
def userPage (phys : Nat) (owned : Bool) : Pte where
  present := true
  writable := true
  user := true
  noExecute := false
  owned := owned
  isLazy := false
  cow := false
  addr := phys

def makePrivate (e : Pte) (phys : Nat) : Pte := { e with addr := phys, writable := true, cow := false }

/-- The flags `prot_bits` sets; `nx` says whether the processor can forbid execution. -/
def protBits (nx : Bool) (prot : Prot) (e : Pte) : Pte :=
  { e with
    user := prot.read || prot.write || prot.exec
    writable := prot.write
    noExecute := !prot.exec && nx }

def none : Pte := ⟨false, false, false, false, false, false, false, 0⟩

/-- `pte::lazy_prot`. -/
def lazyProt (nx : Bool) (index : Nat) (prot : Prot) : Pte :=
  protBits nx prot { none with isLazy := true, addr := index }

/-- `pte::prot_of`. -/
def protOf (e : Pte) : Prot where
  read := e.user
  write := e.writable || (e.present && e.cow)
  exec := e.user && !e.noExecute

/-- `pte::with_prot`: write permission on a page that may be shared is left to the first
    write. -/
def withProt (nx : Bool) (e : Pte) (prot : Prot) (shared : Bool) : Pte :=
  let base := protBits nx prot { e with cow := false }
  if e.present && prot.write && (e.cow || shared) then { base with writable := false, cow := true }
  else base

end Pte

end HamixOS.Kernel
