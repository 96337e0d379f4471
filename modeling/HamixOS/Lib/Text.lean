import Mathlib.Tactic.Ring

namespace HamixOS.Lib

open List

/-!
# Text

Strings as lists of characters, with the operations of the standard library that parsers of
line-oriented formats use:

* `splitOnce` / `rsplitOnce` — the text around the first or the last occurrence of a pattern;
* `stripPrefix` — the rest behind a prefix;
* `isWhitespace` — the characters that separate words;
* `not_mem_splitOn` — what `splitOn` leaves in its parts.
-/

/-- A string. -/
abbrev Text := List Char

instance instLawfulBEqText : LawfulBEq Text := inferInstance

namespace Text

def isDigit (c : Char) : Bool := '0' ≤ c ∧ c ≤ '9'

/-- `is_ascii_alphabetic`. -/
def isAlphabetic (c : Char) : Bool := ('a' ≤ c ∧ c ≤ 'z') ∨ ('A' ≤ c ∧ c ≤ 'Z')

/-- `char::is_whitespace`: the characters with the Unicode property `White_Space`. -/
def isWhitespace (c : Char) : Bool :=
  (9 ≤ c.toNat ∧ c.toNat ≤ 13) ∨ c.toNat = 0x20 ∨ c.toNat = 0x85 ∨ c.toNat = 0xA0 ∨ c.toNat = 0x1680 ∨
    (0x2000 ≤ c.toNat ∧ c.toNat ≤ 0x200A) ∨ c.toNat = 0x2028 ∨ c.toNat = 0x2029 ∨ c.toNat = 0x202F ∨
    c.toNat = 0x205F ∨ c.toNat = 0x3000

/-- What is left of `t` behind `pre`, if `t` starts with it. -/
def stripPrefix : Text → Text → Option Text
  | [], t => some t
  | _ :: _, [] => none
  | c :: pre, d :: t => if c = d then stripPrefix pre t else none

/-- The text before and behind the first `c`. -/
def splitOnce (c : Char) : Text → Option (Text × Text)
  | [] => none
  | d :: t => if d = c then some ([], t) else (splitOnce c t).map fun r => (d :: r.1, r.2)

/-- The text before and behind the last occurrence of `pat`. -/
def rsplitOnce (pat : Text) : Text → Option (Text × Text)
  | [] => none
  | d :: t =>
    match rsplitOnce pat t with
    | some r => some (d :: r.1, r.2)
    | none => (stripPrefix pat (d :: t)).map fun rest => ([], rest)

/-- The number a text of digits denotes. -/
def number (t : Text) : Nat := t.foldl (fun n c => n * 10 + (c.toNat - 48)) 0

theorem splitOnce_eq_some {c : Char} {t a b : Text} (h : splitOnce c t = some (a, b)) :
    t = a ++ c :: b ∧ c ∉ a := by
  induction t generalizing a with
  | nil => cases h
  | cons d t ih =>
    unfold splitOnce at h
    split_ifs at h with hd
    · cases h
      exact ⟨by rw [hd]; rfl, by simp⟩
    · obtain ⟨⟨a', b'⟩, hr, heq⟩ := Option.map_eq_some_iff.mp h
      cases heq
      obtain ⟨ht, hc⟩ := ih hr
      exact ⟨by rw [ht]; rfl, by simp [Ne.symm hd, hc]⟩

/-- The parts a text is split into hold no separator. -/
theorem not_mem_splitOn {c : Char} {t part : Text} (h : part ∈ t.splitOn c) : c ∉ part := by
  induction t generalizing part with
  | nil =>
    rw [splitOn_nil, mem_singleton] at h
    rw [h]
    exact not_mem_nil
  | cons d t ih =>
    rw [splitOn_cons_eq_if_modifyHead] at h
    split_ifs at h with hd
    · rcases mem_cons.mp h with rfl | hrest
      · exact not_mem_nil
      · exact ih hrest
    · have hdc : c ≠ d := fun heq => hd (beq_iff_eq.mpr heq.symm)
      cases hs : t.splitOn c with
      | nil => exact absurd hs (splitOn_ne_nil c t)
      | cons first rest =>
        rw [hs] at h ih
        rcases mem_cons.mp h with rfl | hrest
        · exact fun hmem => (mem_cons.mp hmem).elim hdc (ih mem_cons_self)
        · exact ih (mem_cons_of_mem _ hrest)

end Text

end HamixOS.Lib
