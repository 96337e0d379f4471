import Mathlib.Data.List.Forall2
import HamixOS.Lib.Bytes

namespace HamixOS.Lib.Memory

open List Option Nat

/-!
# The stack of a new process

What the System V ABI puts on the stack that a program starts with: the number of arguments, pointers to them,
a null word, pointers to the environment, a null word, and the auxiliary vector up to its `AT_NULL`.  A memory is
a function `rd` that gives the byte at an address, if there is one.

* `Memory.readStart` — the reader of a start-up routine;
* `readStart_of_words` — it recovers what a table of words was built from.
-/

variable {rd : Nat → Option UInt8}

/-- The bytes `b` are at `addr`. -/
def Holds (rd : Nat → Option UInt8) (addr : Nat) (b : Bytes) : Prop := ∀ i, i < b.length → rd (addr + i) = b[i]?

/-- A memory with `b` written at `addr`. -/
def poke (rd : Nat → Option UInt8) (addr : Nat) (b : Bytes) : Nat → Option UInt8 := fun x =>
  if addr ≤ x ∧ x < addr + b.length then b[x - addr]? else rd x

theorem holds_poke (rd : Nat → Option UInt8) (addr : Nat) (b : Bytes) : Holds (poke rd addr b) addr b := by
  intro i hi
  unfold poke
  rw [if_pos ⟨Nat.le_add_right .., Nat.add_lt_add_left hi addr⟩, Nat.add_sub_cancel_left]

theorem poke_of_outside {addr x : Nat} {b : Bytes} (h : x < addr ∨ addr + b.length ≤ x) : poke rd addr b x = rd x :=
  if_neg (by omega)

variable {b c : Bytes}

theorem Holds.poke_of_disjoint {addr base : Nat} (h : Holds rd addr b)
    (hdisjoint : base + c.length ≤ addr ∨ addr + b.length ≤ base) : Holds (poke rd base c) addr b := by
  intro i hi
  rw [poke_of_outside (by omega)]
  exact h i hi

variable {addr : Nat}

theorem Holds.left (h : Holds rd addr (b ++ c)) : Holds rd addr b := by
  intro i hi
  rw [h i (by rw [length_append]; omega), getElem?_append_left hi]

theorem Holds.right (h : Holds rd addr (b ++ c)) : Holds rd (addr + b.length) c := by
  intro i hi
  rw [add_assoc, h (b.length + i) (by rw [length_append]; omega),
    getElem?_append_right (Nat.le_add_right ..), Nat.add_sub_cancel_left]

/-- A part of what is held. -/
theorem Holds.part {addr off : Nat} (h : Holds rd addr b) (hpart : c <+: b.drop off) (hoff : off ≤ b.length) :
    Holds rd (addr + off) c := by
  obtain ⟨rest, hrest⟩ := hpart
  have hsplit : b = b.take off ++ (c ++ rest) := by rw [hrest, take_append_drop]
  rw [hsplit] at h
  have := h.right.left
  rwa [length_take, min_eq_left hoff] at this

/-! ### Words and strings -/

/-- The `n` bytes from `addr` on. -/
def readBytes (rd : Nat → Option UInt8) : Nat → Nat → Option Bytes
  | 0, _ => some []
  | n + 1, addr =>
    match rd addr with
    | none => none
    | some b => (readBytes rd n (addr + 1)).map (b :: ·)

def readWord (rd : Nat → Option UInt8) (addr : Nat) : Option Nat := (readBytes rd 8 addr).map ofLE

/-- The first byte of what is held, and the rest. -/
theorem Holds.cons {x : UInt8} {b : Bytes} (h : Holds rd addr (x :: b)) :
    rd addr = some x ∧ Holds rd (addr + 1) b := ⟨h 0 (succ_pos _), Holds.right (b := [x]) h⟩

theorem readBytes_of_holds {b : Bytes} (h : Holds rd addr b) : readBytes rd b.length addr = some b := by
  induction b generalizing addr with
  | nil => rfl
  | cons x b ih =>
    obtain ⟨hx, hb⟩ := h.cons
    rw [length_cons, readBytes, hx]
    rw [ih hb]
    rfl

theorem readWord_of_holds {addr v : Nat} (h : Holds rd addr (toLE 8 v)) (hv : v < 2 ^ 64) : readWord rd addr = some v := by
  have hbytes := readBytes_of_holds h
  rw [length_toLE] at hbytes
  unfold readWord
  rw [hbytes, map_some, ofLE_toLE]
  exact congrArg some (mod_eq_of_lt hv)

/-- A string ends at its first zero byte. -/
def readString (rd : Nat → Option UInt8) : Nat → Nat → Option Bytes
  | 0, _ => none
  | fuel + 1, addr =>
    match rd addr with
    | none => none
    | some b => if b = 0 then some [] else (readString rd fuel (addr + 1)).map (b :: ·)

theorem readString_of_holds {fuel addr : Nat} {s : Bytes} (h : Holds rd addr (s ++ [0])) (hs : (0 : UInt8) ∉ s)
    (hfuel : s.length < fuel) : readString rd fuel addr = some s := by
  induction s generalizing fuel addr with
  | nil =>
    obtain ⟨fuel, rfl⟩ := exists_eq_succ_of_ne_zero (ne_zero_of_lt hfuel)
    unfold readString
    rw [show rd addr = some 0 from h 0 (zero_lt_one)]
    exact if_pos rfl
  | cons b s ih =>
    obtain ⟨fuel, rfl⟩ := exists_eq_succ_of_ne_zero (ne_zero_of_lt hfuel)
    obtain ⟨hb, hs⟩ := not_or.mp (mt mem_cons.mpr hs)
    obtain ⟨hfirst, hrest⟩ := Holds.cons h
    unfold readString
    rw [hfirst]
    dsimp only
    rw [if_neg (Ne.symm hb), ih hrest hs (lt_of_succ_lt_succ hfuel)]
    rfl

/-! ### The table of words -/

/-- The words `ws` are at `addr`, eight bytes each. -/
def HoldsWords (rd : Nat → Option UInt8) : Nat → List Nat → Prop
  | _, [] => True
  | addr, w :: ws => readWord rd addr = some w ∧ HoldsWords rd (addr + 8) ws

theorem holdsWords_of_holds {ws : List Nat} (h : Holds rd addr (ws.flatMap (toLE 8)))
    (hws : ∀ w ∈ ws, w < 2 ^ 64) : HoldsWords rd addr ws := by
  induction ws generalizing addr with
  | nil => trivial
  | cons w ws ih =>
    obtain ⟨hw, hws⟩ := forall_mem_cons.mp hws
    rw [flatMap_cons] at h
    refine ⟨readWord_of_holds h.left hw, ih ?_ hws⟩
    have := h.right
    rwa [length_toLE] at this

theorem HoldsWords.append {ws vs : List Nat} (h : HoldsWords rd addr (ws ++ vs)) :
    HoldsWords rd addr ws ∧ HoldsWords rd (addr + 8 * ws.length) vs := by
  induction ws generalizing addr with
  | nil => exact ⟨trivial, h⟩
  | cons w ws ih =>
    obtain ⟨hw, hrest⟩ := h
    obtain ⟨hleft, hright⟩ := ih hrest
    refine ⟨⟨hw, hleft⟩, ?_⟩
    rw [length_cons, mul_succ, add_comm (8 * _), ← add_assoc]
    exact hright

/-! ### The reader -/

/-- The strings at `n` pointers. -/
def readArgs (rd : Nat → Option UInt8) (fuel : Nat) : Nat → Nat → Option (List Bytes)
  | 0, _ => some []
  | n + 1, addr => do
    let ptr ← readWord rd addr
    let s ← readString rd fuel ptr
    let rest ← readArgs rd fuel n (addr + 8)
    some (s :: rest)

/-- The strings at the pointers up to a null word, and the address behind it. -/
def readEnv (rd : Nat → Option UInt8) (fuel : Nat) : Nat → Nat → Option (List Bytes × Nat)
  | 0, _ => none
  | n + 1, addr => do
    let ptr ← readWord rd addr
    if ptr = 0 then some ([], addr + 8)
    else do
      let s ← readString rd fuel ptr
      let r ← readEnv rd fuel n (addr + 8)
      some (s :: r.1, r.2)

/-- The pairs up to `AT_NULL`. -/
def readAuxv (rd : Nat → Option UInt8) : Nat → Nat → Option (List (Nat × Nat))
  | 0, _ => none
  | n + 1, addr => do
    let key ← readWord rd addr
    if key = 0 then some []
    else do
      let value ← readWord rd (addr + 8)
      let rest ← readAuxv rd n (addr + 16)
      some ((key, value) :: rest)

structure StartUp where
  args : List Bytes
  envp : List Bytes
  auxv : List (Nat × Nat)
  deriving DecidableEq

/-- What a start-up routine finds from the stack pointer on; `fuel` bounds each of its loops. -/
def readStart (rd : Nat → Option UInt8) (fuel sp : Nat) : Option StartUp := do
  let argc ← readWord rd sp
  let args ← readArgs rd fuel argc (sp + 8)
  let null ← readWord rd (sp + 8 + 8 * argc)
  if null ≠ 0 then none
  else do
    let env ← readEnv rd fuel fuel (sp + 8 + 8 * argc + 8)
    let auxv ← readAuxv rd fuel env.2
    some ⟨args, env.1, auxv⟩

/-- The strings `l` are at the pointers `ptrs`, none of which is null. -/
def Point (rd : Nat → Option UInt8) (fuel : Nat) (l : List Bytes) (ptrs : List Nat) : Prop :=
  List.Forall₂ (fun s ptr => ptr ≠ 0 ∧ readString rd fuel ptr = some s) l ptrs

theorem readArgs_of_words {fuel addr : Nat} {l : List Bytes} {ptrs : List Nat} (hl : Point rd fuel l ptrs)
    (h : HoldsWords rd addr ptrs) : readArgs rd fuel l.length addr = some l := by
  induction hl generalizing addr with
  | nil => rfl
  | cons hs _ ih =>
    simp only [length_cons, readArgs, h.1, hs.2, ih h.2, bind_eq_bind, bind_some]

theorem readEnv_of_words {fuel n addr : Nat} {l : List Bytes} {ptrs : List Nat} (hl : Point rd fuel l ptrs)
    (h : HoldsWords rd addr (ptrs ++ [0])) (hn : l.length < n) :
    readEnv rd fuel n addr = some (l, addr + 8 * ptrs.length + 8) := by
  induction hl generalizing addr n with
  | nil =>
    obtain ⟨n, rfl⟩ := exists_eq_succ_of_ne_zero (ne_zero_of_lt hn)
    unfold readEnv
    rw [h.1]
    rfl
  | cons hs _ ih =>
    obtain ⟨n, rfl⟩ := exists_eq_succ_of_ne_zero (ne_zero_of_lt hn)
    have hrest := ih h.2 (lt_of_succ_lt_succ hn)
    simp only [readEnv, h.1, hs.1, hs.2, hrest, bind_eq_bind, bind_some, if_false,
      length_cons, some.injEq, Prod.mk.injEq, true_and]
    omega

theorem readAuxv_of_words {n addr : Nat} {auxv : List (Nat × Nat)} (hkeys : ∀ p ∈ auxv, p.1 ≠ 0)
    (h : HoldsWords rd addr (auxv.flatMap (fun p => [p.1, p.2]) ++ [0, 0])) (hn : auxv.length < n) :
    readAuxv rd n addr = some auxv := by
  induction auxv generalizing addr n with
  | nil =>
    obtain ⟨n, rfl⟩ := exists_eq_succ_of_ne_zero (ne_zero_of_lt hn)
    unfold readAuxv
    rw [h.1]
    rfl
  | cons p auxv ih =>
    obtain ⟨n, rfl⟩ := exists_eq_succ_of_ne_zero (ne_zero_of_lt hn)
    obtain ⟨hp, hkeys⟩ := forall_mem_cons.mp hkeys
    have hrest := ih hkeys h.2.2 (lt_of_succ_lt_succ hn)
    simp only [readAuxv, h.1, h.2.1, hp, hrest, bind_eq_bind, bind_some, if_false]

/-- A table of words, read back. -/
theorem readStart_of_words {fuel sp : Nat} {args envp : List Bytes} {argPtrs envPtrs : List Nat} {auxv : List (Nat × Nat)}
    (hargs : Point rd fuel args argPtrs) (henvp : Point rd fuel envp envPtrs) (hkeys : ∀ p ∈ auxv, p.1 ≠ 0)
    (h : HoldsWords rd sp (args.length :: (argPtrs ++ (0 :: (envPtrs ++ (0 :: (auxv.flatMap (fun p => [p.1, p.2]) ++ [0, 0])))))))
    (henv : envp.length < fuel) (hauxv : auxv.length < fuel) : readStart rd fuel sp = some ⟨args, envp, auxv⟩ := by
  obtain ⟨hargc, h⟩ := h
  obtain ⟨hargWords, hnull, h⟩ := h.append
  have hlen : argPtrs.length = args.length := hargs.length_eq.symm
  rw [hlen] at hnull h
  rw [← singleton_append, ← append_assoc] at h
  obtain ⟨henvWords, h⟩ := h.append
  rw [length_append, length_singleton, mul_succ, ← add_assoc] at h
  simp only [readStart, hargc, readArgs_of_words hargs hargWords, hnull, readEnv_of_words henvp henvWords henv,
    readAuxv_of_words hkeys h hauxv, bind_eq_bind, bind_some, ne_eq, not_true_eq_false, if_false]

end HamixOS.Lib.Memory
