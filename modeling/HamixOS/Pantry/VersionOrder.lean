import HamixOS.Lib.Comparisons
import HamixOS.Pantry.Version

namespace HamixOS.Pantry

open Lib List Text

/-!
# The order of versions (`index.rs`)

`compareToken` looks at both digits strings before it decides how to compare two numbers.  It is still
the comparison of a key of each token alone: a number with a leading zero comes before every number
without one.  `compareVersions` compares the keys of two versions place by place.
-/

/-- What `scan` makes: a number has its digits. -/
def Token.Scanned (t : Token) : Prop := t.cls = .number → ∃ c rest, t.digits = c :: rest ∧ Text.isDigit c = true

/-- What two tokens of one place are compared by. -/
structure Token.Key where
  cls : Nat
  plain : Nat
  digits : Text
  value : Nat

namespace Token

/-- `after`: the token stands right behind a number. -/
def key (after : Bool) (t : Token) : Key :=
  if t.cls = .number ∧ after = true ∧ t.digits.head? = some '0' then ⟨t.cls.rank, 0, t.digits, 0⟩
  else ⟨t.cls.rank, 1, [], t.value⟩

namespace Key

def cmp : Key → Key → Ordering :=
  compareLex (compareOn cls) (compareLex (compareOn plain) (compareLex (compareOn digits) (compareOn value)))

instance : Std.TransCmp cmp := inferInstanceAs (Std.TransCmp (compareLex (compareOn cls)
  (compareLex (compareOn plain) (compareLex (compareOn digits) (compareOn value)))))

theorem cls_of_cmp {k k' : Key} (h : cmp k k' = .eq) : k.cls = k'.cls := by
  rw [cmp, compareLex, Ordering.then_eq_eq] at h
  exact Std.LawfulEqOrd.eq_of_compare h.1

end Key

theorem key_cls (after : Bool) (t : Token) : (t.key after).cls = t.cls.rank := by
  unfold key
  split_ifs
  · rfl
  · rfl

end Token

theorem Class.rank_injective {c d : Class} (h : c.rank = d.rank) : c = d := by
  cases c <;> cases d <;> first | rfl | cases h

/-- A digit that is not zero comes behind zero. -/
theorem compare_zero {c : Char} {s t : Text} (hc : isDigit c = true) (h : c ≠ '0') :
    compare ('0' :: s) (c :: t) = .lt := by
  have hdigit : '0' ≤ c ∧ c ≤ '9' := by simpa [isDigit] using hc
  have hlt : compare '0' c = .lt := by
    show compareOfLessAndEq '0' c = .lt
    rw [compareOfLessAndEq, if_pos (Char.not_le.mp fun hle => h (Char.le_antisymm hle hdigit.1))]
  rw [List.compare_cons_cons, hlt]
  rfl

theorem compareToken_eq (after : Bool) {x y : Token} (hx : x.Scanned) (hy : y.Scanned) :
    compareToken after x y = Token.Key.cmp (x.key after) (y.key after) := by
  unfold compareToken
  by_cases hcls : x.cls = y.cls
  · rw [if_neg (not_not_intro hcls)]
    by_cases hnumber : x.cls = .number ∧ after = true
    · obtain ⟨c, s, hs, hc⟩ := hx hnumber.1
      obtain ⟨d, t, ht, hd⟩ := hy (hcls ▸ hnumber.1)
      have hynumber := hcls ▸ hnumber.1
      by_cases hxz : c = '0'
      · by_cases hyz : d = '0'
        · simp [Token.key, Token.Key.cmp, compareLex, compareOn, hnumber.1, hnumber.2, hynumber, hs, ht, hxz, hyz]
        · have hlt : compare x.digits y.digits = .lt := by rw [hs, ht, hxz]; exact compare_zero hd hyz
          simp [Token.key, Token.Key.cmp, compareLex, compareOn, hnumber.1, hnumber.2, hynumber, hs, ht, hxz, hyz] at hlt ⊢
          exact hlt
      · by_cases hyz : d = '0'
        · have hgt : compare x.digits y.digits = .gt := by
            rw [Std.OrientedOrd.eq_swap, hs, ht, hyz, compare_zero hc hxz]
            rfl
          simp [Token.key, Token.Key.cmp, compareLex, compareOn, hnumber.1, hnumber.2, hynumber, hs, ht, hxz, hyz] at hgt ⊢
          exact hgt
        · simp [Token.key, Token.Key.cmp, compareLex, compareOn, hnumber.1, hnumber.2, hynumber, hs, ht, hxz, hyz]
    · have hy' : ¬ (y.cls = .number ∧ after = true) := hcls ▸ hnumber
      rw [if_neg fun h => hnumber ⟨h.1, h.2.1⟩, Token.key, if_neg fun h => hnumber ⟨h.1, h.2.1⟩, Token.key,
        if_neg fun h => hy' ⟨h.1, h.2.1⟩, hcls]
      simp [Token.Key.cmp, compareLex, compareOn]
  · rw [if_pos hcls, Token.Key.cmp, compareLex, compareOn, Token.key_cls, Token.key_cls]
    have hne : compare x.cls.rank y.cls.rank ≠ .eq := fun h => hcls (Class.rank_injective (Std.LawfulEqOrd.eq_of_compare h))
    generalize compare x.cls.rank y.cls.rank = o at hne ⊢
    cases o with
    | lt => rfl
    | eq => exact absurd rfl hne
    | gt => rfl

/-! ### The tokens of a version -/

theorem scanTokens_scanned (fuel : Nat) (t : Text) : ∀ k ∈ scanTokens fuel t, k.Scanned := by
  induction fuel generalizing t with
  | zero => simp [scanTokens]
  | succ fuel ih =>
    cases t with
    | nil => simp [scanTokens]
    | cons c rest =>
      rw [scanTokens]
      split_ifs with hdigit hunder hletter
      · refine forall_mem_cons.mpr ⟨fun _ => ⟨c, rest.takeWhile isDigit, ?_, hdigit⟩, ih _⟩
        exact takeWhile_cons_of_pos hdigit
      · refine forall_mem_cons.mpr ⟨fun hcls => ?_, ih _⟩
        -- the class of a suffix is that of a suffix
        unfold suffixRank at hcls
        split_ifs at hcls
      · exact forall_mem_cons.mpr ⟨fun hcls => (nomatch hcls), ih _⟩
      · exact ih rest

theorem tokens_scanned (version : Text) : ∀ k ∈ tokens version, k.Scanned := by
  unfold tokens
  split
  next m r _ =>
    by_cases hr : r.all isDigit ∧ r ≠ []
    · rw [if_pos hr]
      refine forall_mem_append.mpr ⟨scanTokens_scanned _ _, ?_⟩
      exact forall_mem_singleton.mpr fun hcls => (nomatch hcls)
    · rw [if_neg hr]
      exact scanTokens_scanned _ _
  next => exact scanTokens_scanned _ _

/-- The token at place `i`, or the end. -/
def tokenAt (ts : List Token) (i : Nat) : Token := ts[i]?.getD endToken

/-- The token at place `i` stands right behind a number. -/
def afterNumber (ts : List Token) : Nat → Bool
  | 0 => false
  | i + 1 => (tokenAt ts i).cls = .number

def keyAt (ts : List Token) (i : Nat) : Token.Key := (tokenAt ts i).key (afterNumber ts i)

variable {ts : List Token}

theorem tokenAt_scanned (h : ∀ k ∈ ts, k.Scanned) (i : Nat) : (tokenAt ts i).Scanned := by
  unfold tokenAt
  cases hi : ts[i]? with
  | none => exact fun hcls => (nomatch hcls)
  | some t => exact h t (mem_of_getElem? hi)

theorem afterNumber_eq (ts : List Token) (i : Nat) :
    (decide (0 < i) && (ts[i - 1]?).any fun t => t.cls = .number) = afterNumber ts i := by
  cases i with
  | zero => rfl
  | succ i =>
    rw [Nat.add_sub_cancel, afterNumber, tokenAt]
    cases ts[i]? with
    | none => rfl
    | some t => simp

/-- Places with equal keys are followed by places that are compared alike. -/
theorem afterNumber_congr {ta tb : List Token} {i : Nat} (h : Token.Key.cmp (keyAt ta i) (keyAt tb i) = .eq) :
    afterNumber ta (i + 1) = afterNumber tb (i + 1) := by
  have hcls := Token.Key.cls_of_cmp h
  rw [keyAt, keyAt, Token.key_cls, Token.key_cls] at hcls
  rw [afterNumber, afterNumber, Class.rank_injective hcls]

theorem compareFrom_eq {ta tb : List Token} (ha : ∀ k ∈ ta, k.Scanned) (hb : ∀ k ∈ tb, k.Scanned) (n : Nat) {i : Nat}
    (h : afterNumber ta i = afterNumber tb i) :
    compareFrom ta tb n i = lexUpTo Token.Key.cmp n (fun j => keyAt ta (j + i)) fun j => keyAt tb (j + i) := by
  induction n generalizing i with
  | zero => rfl
  | succ n ih =>
    have hstep : compareToken (afterNumber ta i) (tokenAt ta i) (tokenAt tb i) =
        Token.Key.cmp (keyAt ta i) (keyAt tb i) := by
      rw [compareToken_eq _ (tokenAt_scanned ha i) (tokenAt_scanned hb i), keyAt, keyAt, h]
    rw [compareFrom, lexUpTo, afterNumber_eq, ← tokenAt, ← tokenAt, hstep, zero_add]
    cases ho : Token.Key.cmp (keyAt ta i) (keyAt tb i) with
    | lt => rfl
    | gt => rfl
    | eq =>
      have hshift : ∀ j, j + 1 + i = j + (i + 1) := fun j => by omega
      simpa only [hshift, Ordering.eq_then] using ih (afterNumber_congr ho)

/-- What a version is compared by: the keys of its tokens, and the end for ever. -/
def versionKey (version : Text) (i : Nat) : Token.Key := keyAt (tokens version) i

theorem tokenAt_end {i : Nat} (h : ts.length ≤ i) : tokenAt ts i = endToken := by
  rw [tokenAt, getElem?_eq_none h]
  rfl

theorem keyAt_end {i : Nat} (h : ts.length ≤ i) : keyAt ts i = endToken.key false := by
  rw [keyAt, tokenAt_end h]
  rfl

/-- As many places as the longer version has, or more, are enough. -/
theorem compareVersions_eq (a b : Text) {n : Nat} (ha : (tokens a).length ≤ n) (hb : (tokens b).length ≤ n) :
    compareVersions a b = lexUpTo Token.Key.cmp n (versionKey a) (versionKey b) := by
  rw [compareVersions, compareFrom_eq (tokens_scanned a) (tokens_scanned b) _ rfl]
  refine (lexUpTo_extend (Nat.max_le.mpr ⟨ha, hb⟩) fun i hi => ?_).symm
  have heq : keyAt (tokens a) i = keyAt (tokens b) i := (keyAt_end (by omega)).trans (keyAt_end (by omega)).symm
  rw [add_zero, heq]
  exact Std.ReflCmp.compare_self

/-- `compare_versions` is a total preorder. -/
instance : Std.TransCmp compareVersions where
  eq_swap := by
    intro a b
    have ha := Nat.le_max_left (tokens a).length (tokens b).length
    have hb := Nat.le_max_right (tokens a).length (tokens b).length
    rw [compareVersions_eq a b ha hb, compareVersions_eq b a hb ha]
    exact Std.OrientedCmp.eq_swap
  isLE_trans := by
    intro a b c
    obtain ⟨n, ha, hb, hc⟩ : ∃ n, (tokens a).length ≤ n ∧ (tokens b).length ≤ n ∧ (tokens c).length ≤ n :=
      ⟨(tokens a).length + (tokens b).length + (tokens c).length, by omega, by omega, by omega⟩
    rw [compareVersions_eq a b ha hb, compareVersions_eq b c hb hc, compareVersions_eq a c ha hc]
    exact Std.TransCmp.isLE_trans

end HamixOS.Pantry
