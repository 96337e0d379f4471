import Mathlib.Tactic.Common

namespace HamixOS.Lib

/-!
# Pairs of neighbours in a row

Some cells of a row are left halves and some are right halves of pairs; the others, and everything behind
the end of the row, are plain.

* `Whole` — every half is next to its other half;
* `Around a b` — so it is outside of `[a, b)`, and no pair reaches into that part;
* `clearAt` — a cell is given up, and its other half is plain from then on;
* `blank`, `copy`, `mend` — parts that are cleared, parts that move, and the two ends of a row.

What is known about `clearAt` is known about a place that is about to be written.
-/

structure Half where
  left : Bool
  right : Bool
  deriving DecidableEq

def Half.plain : Half := ⟨false, false⟩

namespace Half

variable {row row' : Nat → Half} {a b c d k n : Nat}

theorem eq_plain {x : Half} (hl : x.left = false) (hr : x.right = false) : x = plain := by
  cases x
  subst hl hr
  rfl

/-- Every half is next to its other half, and no cell is both. -/
structure Whole (row : Nat → Half) : Prop where
  first : (row 0).right = false
  pairs : ∀ c, (row c).left = (row (c + 1)).right
  single : ∀ c, (row c).left = true → (row c).right = false

/-- The same outside of `[a, b)`, into which no pair reaches. -/
structure Around (a b : Nat) (row : Nat → Half) : Prop where
  first : 0 < a → (row 0).right = false
  before : ∀ c, c + 1 < a → (row c).left = (row (c + 1)).right
  edge : ∀ c, c + 1 = a → (row c).left = false
  next : (row b).right = false
  behind : ∀ c, b ≤ c → (row c).left = (row (c + 1)).right
  single : ∀ c, c < a ∨ b ≤ c → (row c).left = true → (row c).right = false

/-- A row of `n` cells. -/
def Ends (n : Nat) (row : Nat → Half) : Prop := ∀ c, n ≤ c → row c = plain

def blank (a b : Nat) (row : Nat → Half) (c : Nat) : Half := if a ≤ c ∧ c < b then plain else row c

/-- The cells from `a` up to `b` are copied to `d`. -/
def copy (a b d : Nat) (row : Nat → Half) (c : Nat) : Half :=
  if d ≤ c ∧ c < d + (b - a) then row (a + (c - d)) else row c

/-- The other half of the cell at `c` is plain. -/
def clearAt (c : Nat) (row : Nat → Half) (d : Nat) : Half :=
  if d = c + 1 ∧ (row c).left = true ∨ d + 1 = c ∧ (row c).right = true then plain else row d

/-- A left half at the end and a right half at the start are plain. -/
def mend (n : Nat) (row : Nat → Half) (c : Nat) : Half :=
  if c = n - 1 ∧ (row c).left = true ∨ c = 0 ∧ (row c).right = true then plain else row c

theorem whole_plain : Whole fun _ => plain := ⟨rfl, fun _ => rfl, fun _ h => nomatch h⟩

theorem blank_in (ha : a ≤ c) (hb : c < b) : blank a b row c = plain := if_pos ⟨ha, hb⟩

theorem blank_out (h : c < a ∨ b ≤ c) : blank a b row c = row c := if_neg (by omega)

theorem copy_in (h : d ≤ c) (h' : c < d + (b - a)) : copy a b d row c = row (a + (c - d)) := if_pos ⟨h, h'⟩

theorem copy_out (h : c < d ∨ d + (b - a) ≤ c) : copy a b d row c = row c := if_neg (by omega)

theorem clearAt_far (h : d ≠ c + 1) (h' : d + 1 ≠ c) : clearAt c row d = row d := by
  refine if_neg ?_
  rintro (⟨h'', -⟩ | ⟨h'', -⟩)
  · exact h h''
  · exact h' h''

theorem clearAt_self (row : Nat → Half) (c : Nat) : clearAt c row c = row c := clearAt_far (by omega) (by omega)

/-- A cell that is no half leaves its neighbours alone. -/
theorem clearAt_plain (hl : (row c).left = false) (hr : (row c).right = false) : clearAt c row = row := by
  funext d
  refine if_neg ?_
  rintro (⟨-, h⟩ | ⟨-, h⟩)
  · rw [hl] at h
    exact nomatch h
  · rw [hr] at h
    exact nomatch h

theorem clearAt_clearAt (row : Nat → Half) (c : Nat) : clearAt c (clearAt c row) = clearAt c row := by
  funext d
  unfold clearAt
  split_ifs <;> simp_all

/-- What was plain stays so. -/
theorem clearAt_or (row : Nat → Half) (c d : Nat) : clearAt c row d = plain ∨ clearAt c row d = row d := by
  unfold clearAt
  split
  · exact .inl rfl
  · exact .inr rfl

section

variable (h : Ends n row)

include h

theorem Ends.clearAt (c : Nat) : Ends n (clearAt c row) := by
  intro d hd
  rcases clearAt_or row c d with heq | heq
  · exact heq
  · rw [heq]
    exact h d hd

/-- Clearing up to the end of the row, or all of it, or nothing of it. -/
theorem Ends.blank_toEnd (hb : n ≤ b) : blank a b row = blank a n row := by
  funext c
  by_cases hc : n ≤ c
  · rw [blank_out (b := n) (.inr hc)]
    unfold blank
    rw [h c hc, ite_self]
  · exact if_congr (by omega) rfl rfl

theorem Ends.blank_all (hb : n ≤ b) : blank 0 b row = fun _ => plain := by
  funext c
  by_cases hc : n ≤ c
  · unfold blank
    rw [h c hc, ite_self]
  · exact blank_in (Nat.zero_le c) (by omega)

theorem Ends.blank_none (hab : n ≤ a ∨ b ≤ a) : blank a b row = row := by
  funext c
  by_cases hc : n ≤ c
  · unfold blank
    rw [h c hc, ite_self]
  · exact blank_out (by omega)

end

/-! ### Places -/

/-- **A place that was given up** is not a part of any pair. -/
theorem Whole.around (h : Whole row) (c : Nat) : Around c (c + 1) (clearAt c row) := by
  obtain ⟨hfirst, hpairs, hsingle⟩ := h
  have hedge : ∀ d, d + 1 = c → (clearAt c row d).left = false := by grind [clearAt, plain]
  have hnext : (clearAt c row (c + 1)).right = false := by grind [clearAt, plain]
  exact ⟨by grind [clearAt, plain], by grind [clearAt, plain], hedge, hnext, by grind [clearAt, plain],
    by grind [clearAt, plain]⟩

namespace Around

section

variable (h : Around a b row)

include h

/-- A place grows by the cells up to one that is given up as well. -/
theorem clearAt (hab : a < b) (hd : b ≤ d) : Around a (d + 1) (clearAt d row) := by
  have hlow : ∀ c, c < a → Half.clearAt d row c = row c := fun c hc => clearAt_far (by omega) (by omega)
  have hsingle : ∀ c, c < a ∨ d + 1 ≤ c → (Half.clearAt d row c).left = true → (Half.clearAt d row c).right = false := by
    intro c hc hl
    rcases clearAt_or row d c with heq | heq
    · rw [heq]
      rfl
    · rw [heq] at hl ⊢
      exact h.single c (by omega) hl
  have hnext : (Half.clearAt d row (d + 1)).right = false := by
    by_cases hl : (row d).left = true
    · have hplain : Half.clearAt d row (d + 1) = plain := if_pos (.inl ⟨rfl, hl⟩)
      rw [hplain]
      rfl
    · rcases clearAt_or row d (d + 1) with heq | heq
      · rw [heq]
        rfl
      · rw [heq, ← h.behind d hd]
        exact Bool.eq_false_iff.mpr hl
  have hbehind : ∀ c, d + 1 ≤ c → (Half.clearAt d row c).left = (Half.clearAt d row (c + 1)).right := by
    intro c hc
    rw [clearAt_far (d := c + 1) (by omega) (by omega), ← h.behind c (by omega)]
    by_cases hl : (row d).left = true ∧ c = d + 1
    · -- The right half that became plain was not a left half.
      have hplain : Half.clearAt d row c = plain := if_pos (.inl ⟨hl.2, hl.1⟩)
      rw [hplain]
      by_contra hc'
      have hr := h.single c (by omega) (Bool.of_not_eq_false (Ne.symm hc'))
      rw [hl.2, ← h.behind d hd, hl.1] at hr
      exact nomatch hr
    · have hkept : Half.clearAt d row c = row c := by
        refine if_neg ?_
        rintro (⟨heq, hl'⟩ | ⟨heq, -⟩)
        · exact hl ⟨hl', heq⟩
        · omega
      rw [hkept]
  refine ⟨fun ha => ?_, fun c hc => ?_, fun c hc => ?_, hnext, hbehind, hsingle⟩
  · rw [hlow 0 ha]
    exact h.first ha
  · rw [hlow c (by omega), hlow (c + 1) hc]
    exact h.before c hc
  · rw [hlow c (by omega)]
    exact h.edge c hc

/-- What is in the place does not matter. -/
theorem congr (hsame : ∀ c, c < a ∨ b ≤ c → row' c = row c) : Around a b row' := by
  obtain ⟨hfirst, hbefore, hedge, hnext, hbehind, hsingle⟩ := h
  exact ⟨by grind, by grind, by grind, by grind, by grind, by grind⟩

theorem toStart : Around 0 b row :=
  ⟨fun h => absurd h (Nat.lt_irrefl 0), fun _ h => absurd h (Nat.not_lt_zero _), fun _ h => absurd h (Nat.succ_ne_zero _),
    h.next, h.behind, fun c hc => h.single c (.inr (hc.resolve_left (Nat.not_lt_zero c)))⟩

theorem toEnd (hend : Ends n row) : Around a n row := by
  have hplain : ∀ c, n ≤ c → row c = plain := hend
  obtain ⟨hfirst, hbefore, hedge, hnext, hbehind, hsingle⟩ := h
  exact ⟨hfirst, hbefore, hedge, by grind [plain], by grind [plain], by grind [plain]⟩

/-- A place that is filled with whole pairs. -/
theorem whole (hfirst : (row a).right = false) (hlast : (row (b - 1)).left = false)
    (hpairs : ∀ c, a ≤ c → c + 1 < b → (row c).left = (row (c + 1)).right)
    (hsingle : ∀ c, a ≤ c → c < b → (row c).left = true → (row c).right = false) : Whole row := by
  refine ⟨?_, fun c => ?_, fun c => ?_⟩
  · by_cases ha : 0 < a
    · exact h.first ha
    · rw [show 0 = a by omega]
      exact hfirst
  · -- A pair is on one side of the place, or inside, or would reach over one of its ends.
    by_cases hlow : c + 1 < a
    · exact h.before c hlow
    by_cases hedge : c + 1 = a
    · rw [h.edge c hedge, hedge, hfirst]
    by_cases hhigh : b ≤ c
    · exact h.behind c hhigh
    by_cases hinner : c + 1 < b
    · exact hpairs c (by omega) hinner
    · have hlast' : c + 1 = b := by omega
      rw [hlast', h.next, ← hlast, ← hlast', Nat.add_sub_cancel]
  · -- A cell is inside or outside.
    by_cases hin : a ≤ c ∧ c < b
    · exact hsingle c hin.1 hin.2
    · exact h.single c (by omega)

theorem blank (hab : a < b) : Whole (blank a b row) := by
  have hin : ∀ c, a ≤ c → c < b → Half.blank a b row c = plain := fun c ha hb => blank_in ha hb
  refine (h.congr fun c hc => blank_out hc).whole ?_ ?_ ?_ ?_
  · rw [hin a (Nat.le_refl a) hab]
    rfl
  · rw [hin (b - 1) (by omega) (by omega)]
    rfl
  · intro c ha hb
    rw [hin c ha (by omega), hin (c + 1) (by omega) hb]
    rfl
  · intro c ha hb hl
    rw [hin c ha hb] at hl
    exact nomatch hl

end

end Around

/-! ### Writing -/

/-- A plain cell or a pair is written. -/
def place (c w : Nat) (row : Nat → Half) (d : Nat) : Half :=
  if w = 2 ∧ d = c then ⟨true, false⟩ else if w = 2 ∧ d = c + 1 then ⟨false, true⟩ else if d = c then plain else row d

/-- Its cells are given up. -/
def opened (c w : Nat) (row : Nat → Half) : Nat → Half :=
  if w = 2 then clearAt (c + 1) (clearAt c row) else clearAt c row

theorem Around.place {w : Nat} (h : Around c (c + w) row) (hw : w = 1 ∨ w = 2) : Whole (place c w row) := by
  have hout : ∀ d, d < c ∨ c + w ≤ d → Half.place c w row d = row d := by
    intro d hd
    unfold Half.place
    rw [if_neg (by omega), if_neg (by omega), if_neg (by omega)]
  refine (h.congr hout).whole ?_ ?_ ?_ ?_
  · grind [Half.place, plain]
  · grind [Half.place, plain]
  · grind [Half.place, plain]
  · grind [Half.place, plain]

theorem Whole.opened {w : Nat} (h : Whole row) (c : Nat) (hw : w = 1 ∨ w = 2) : Around c (c + w) (opened c w row) := by
  rcases hw with rfl | rfl
  · exact h.around c
  · exact (h.around c).clearAt (Nat.lt_succ_self c) (Nat.le_refl _)

/-- **A character is written** over whatever was there. -/
theorem Whole.place {w : Nat} (h : Whole row) (c : Nat) (hw : w = 1 ∨ w = 2) : Whole (place c w (Half.opened c w row)) :=
  (h.opened c hw).place hw

/-! ### Moving -/

theorem mend_or (n : Nat) (row : Nat → Half) (c : Nat) : mend n row c = plain ∨ mend n row c = row c := by
  unfold mend
  split
  · exact .inl rfl
  · exact .inr rfl

theorem mend_inside (hn : c ≠ n - 1) (h : c = 0 → (row 0).right = false) : mend n row c = row c := by
  refine if_neg ?_
  rintro (⟨h', -⟩ | ⟨rfl, h'⟩)
  · exact hn h'
  · rw [h rfl] at h'
    exact nomatch h'

theorem mend_last (n : Nat) (row : Nat → Half) : (mend n row (n - 1)).left = false := by
  by_cases h : (row (n - 1)).left = true
  · have hplain : mend n row (n - 1) = plain := if_pos (.inl ⟨rfl, h⟩)
    rw [hplain]
    rfl
  · rcases mend_or n row (n - 1) with heq | heq
    · rw [heq]
      rfl
    · rw [heq]
      exact Bool.eq_false_iff.mpr h

theorem mend_first (n : Nat) (row : Nat → Half) : (mend n row 0).right = false := by
  by_cases h : (row 0).right = true
  · have hplain : mend n row 0 = plain := if_pos (.inr ⟨rfl, h⟩)
    rw [hplain]
    rfl
  · rcases mend_or n row 0 with heq | heq
    · rw [heq]
      rfl
    · rw [heq]
      exact Bool.eq_false_iff.mpr h

/-- What is cleared does not have to be mended. -/
theorem mend_blank (a b n : Nat) (row : Nat → Half) : mend n (blank a b row) = blank a b (mend n row) := by
  funext c
  by_cases hc : a ≤ c ∧ c < b
  · rw [blank_in hc.1 hc.2]
    rcases mend_or n (blank a b row) c with heq | heq
    · exact heq
    · rw [heq, blank_in hc.1 hc.2]
  · rw [blank_out (by omega)]
    unfold mend
    rw [blank_out (by omega)]

theorem mend_eq (hlast : (row (n - 1)).left = false) (hfirst : (row 0).right = false) : mend n row = row := by
  funext c
  refine if_neg ?_
  rintro (⟨rfl, h⟩ | ⟨rfl, h⟩)
  · rw [hlast] at h
    exact nomatch h
  · rw [hfirst] at h
    exact nomatch h

section

variable (h : Whole row)

include h

/-- The rest of a row moves right, where no pair lies across its start. -/
theorem Whole.moveRight (hend : Ends n row) (hk : 0 < k) (hfit : c + k < n) (hc : (row c).right = false) :
    Around c (c + k) (mend n (copy c (n - k) (c + k) row)) := by
  have hmoved : ∀ d, c + k ≤ d → d < n → copy c (n - k) (c + k) row d = row (d - k) := by
    intro d hd hd'
    rw [copy_in hd (by omega)]
    congr 1
    omega
  have hlow : ∀ d, d < c + k → mend n (copy c (n - k) (c + k) row) d = row d := by
    intro d hd
    rw [mend_inside (by omega), copy_out (.inl hd)]
    rintro rfl
    rw [copy_out (.inl hd)]
    exact h.first
  -- The last cell apart, what moved is what was `k` cells to the left.
  have hmid : ∀ d, c + k ≤ d → d < n - 1 → mend n (copy c (n - k) (c + k) row) d = row (d - k) := by
    intro d hd hd'
    rw [mend_inside (by omega) (by omega), hmoved d hd (by omega)]
  have hhigh : ∀ d, n ≤ d → mend n (copy c (n - k) (c + k) row) d = plain := by
    intro d hd
    rw [mend_inside (by omega) (by omega), copy_out (by omega)]
    exact hend d hd
  have hlast := mend_last n (copy c (n - k) (c + k) row)
  -- The cell that ends up last was not both halves, so its right half is what it was.
  have hsame : (mend n (copy c (n - k) (c + k) row) (n - 1)).right = (row (n - 1 - k)).right := by
    unfold mend
    rw [hmoved (n - 1) (by omega) (by omega)]
    split
    · rename_i hcut
      rcases hcut with ⟨-, hcut⟩ | ⟨hzero, -⟩
      · exact (h.single _ hcut).symm
      · omega
    · rfl
  generalize mend n (copy c (n - k) (c + k) row) = moved at hlow hmid hhigh hlast hsame
  obtain ⟨hfirst, hpairs, hsingle⟩ := h
  refine ⟨fun _ => ?_, fun d hd => ?_, fun d hd => ?_, ?_, fun d hd => ?_, fun d hd => ?_⟩
  · rw [hlow 0 (by omega)]
    exact hfirst
  · rw [hlow d (by omega), hlow (d + 1) (by omega)]
    exact hpairs d
  · rw [hlow d (by omega), hpairs d, hd]
    exact hc
  · by_cases hedge : c + k = n - 1
    · rw [hedge, hsame, ← hedge, Nat.add_sub_cancel]
      exact hc
    · rw [hmid (c + k) (Nat.le_refl _) (by omega), Nat.add_sub_cancel]
      exact hc
  · by_cases hmore : d + 1 < n - 1
    · rw [hmid d hd (by omega), hmid (d + 1) (by omega) hmore, hpairs (d - k), show d + 1 - k = d - k + 1 by omega]
    by_cases hedge : d + 1 = n - 1
    · rw [hedge, hsame, ← hedge, hmid d hd (by omega), hpairs (d - k), show d + 1 - k = d - k + 1 by omega]
    by_cases heq : d = n - 1
    · rw [heq, hlast, hhigh (n - 1 + 1) (by omega)]
      rfl
    · rw [hhigh d (by omega), hhigh (d + 1) (by omega)]
      rfl
  · intro hl
    by_cases hbelow : d < c
    · rw [hlow d (by omega)] at hl ⊢
      exact hsingle d hl
    by_cases hmore : d < n - 1
    · rw [hmid d (by omega) hmore] at hl ⊢
      exact hsingle _ hl
    by_cases heq : d = n - 1
    · rw [heq, hlast] at hl
      exact nomatch hl
    · rw [hhigh d (by omega)] at hl
      exact nomatch hl

/-- **Cells are inserted** where a pair lies neither across the place nor on what moves behind it. -/
theorem Whole.insert (hend : Ends n row) (hk : 0 < k) (hfit : c + k ≤ n)
    (hright : (row c).right = true → n ≤ c + k) (hleft : (row c).left = true → n ≤ c + k + 1) :
    Whole (mend n (blank c (c + k) (copy c (n - k) (c + k) (clearAt c row)))) := by
  rw [mend_blank]
  by_cases hplain : (row c).left = false ∧ (row c).right = false ∧ c + k < n
  · rw [clearAt_plain hplain.1 hplain.2.1]
    exact (h.moveRight hend hk hplain.2.2 hplain.2.1).blank (by omega)
  · have hcleared : Around c n (clearAt c row) := (h.around c).toEnd (hend.clearAt c)
    have heq : blank c (c + k) (mend n (copy c (n - k) (c + k) (clearAt c row))) = blank c n (clearAt c row) := by
      funext d
      by_cases hlow : d < c
      · rw [blank_out (.inl hlow), blank_out (.inl hlow), mend_inside (by omega), copy_out (by omega)]
        rintro rfl
        rw [copy_out (by omega)]
        exact hcleared.first hlow
      by_cases hin : d < c + k
      · rw [blank_in (by omega) hin, blank_in (by omega) (by omega)]
      rw [blank_out (by omega)]
      by_cases hend' : n ≤ d
      · rw [blank_out (.inr hend'), mend_inside (by omega) (by omega), copy_out (by omega)]
      · -- Nothing but the cell at `c` itself moves, and it is mended, being a left half.
        have hd : d = n - 1 ∧ d = c + k := by
          rcases Bool.eq_false_or_eq_true (row c).right with hr | hr
          · have := hright hr
            omega
          rcases Bool.eq_false_or_eq_true (row c).left with hl | hl
          · have := hleft hl
            omega
          · exact absurd ⟨hl, hr, by omega⟩ hplain
        have hl : (row c).left = true := by
          by_contra hno
          refine hplain ⟨Bool.eq_false_iff.mpr hno, ?_, by omega⟩
          by_contra hr
          have := hright (Bool.of_not_eq_false hr)
          omega
        have hcopy : copy c (n - k) (c + k) (clearAt c row) d = row c := by
          rw [copy_in (by omega) (by omega), hd.2, Nat.sub_self, Nat.add_zero, clearAt_self]
        rw [blank_in (by omega) (by omega)]
        refine if_pos (.inl ⟨hd.1, ?_⟩)
        rw [hcopy]
        exact hl
    rw [heq]
    exact hcleared.blank (by omega)

/-- **Cells are deleted**, unless the first one that stays is the right half of one that goes. -/
theorem Whole.delete (hend : Ends n row) (hk : 0 < k) (hfit : c + k ≤ n)
    (hcut : (row (c + k)).right = true → k = 1 ∨ c = 0) :
    Whole (mend n (blank (n - k) n (copy (c + k) n c (clearAt c row)))) := by
  have haround := h.around c
  have hends := hend.clearAt c
  have hlow : ∀ d, d < c → blank (n - k) n (copy (c + k) n c (clearAt c row)) d = clearAt c row d := by
    intro d hd
    rw [blank_out (by omega), copy_out (.inl hd)]
  have hmoved : ∀ d, c ≤ d → blank (n - k) n (copy (c + k) n c (clearAt c row)) d = clearAt c row (d + k) := by
    intro d hd
    by_cases hin : n - k ≤ d
    · rw [hends (d + k) (by omega)]
      by_cases hn : d < n
      · exact blank_in hin hn
      · rw [blank_out (by omega), copy_out (by omega)]
        exact hends d (by omega)
    · rw [blank_out (by omega), copy_in hd (by omega)]
      congr 1
      omega
  -- A right half that comes to the place has lost its left half, which is seen in the first column only.
  have hplace : 0 < c → (clearAt c row (c + k)).right = false := by
    intro hc
    rcases clearAt_or row c (c + k) with heq | heq
    · rw [heq]
      rfl
    by_contra hr
    have hr' := Bool.of_not_eq_false hr
    have hcut' := hcut (by rw [← heq]; exact hr')
    rw [hcut'.resolve_right (by omega), haround.next] at hr'
    exact nomatch hr'
  generalize blank (n - k) n (copy (c + k) n c (clearAt c row)) = moved at hlow hmoved
  have hsingle : ∀ d, (moved d).left = true → (moved d).right = false := by
    intro d hl
    by_cases hd : d < c
    · rw [hlow d hd] at hl ⊢
      exact haround.single d (.inl hd) hl
    · rw [hmoved d (by omega)] at hl ⊢
      exact haround.single (d + k) (.inr (by omega)) hl
  have hlast : (moved (n - 1)).left = false := by
    rw [hmoved (n - 1) (by omega), hends _ (by omega)]
    rfl
  -- Only right halves are mended, and only in the first column.
  have hleft : ∀ d, (mend n moved d).left = (moved d).left := by
    intro d
    unfold mend
    split
    · rename_i hmend
      rcases hmend with ⟨rfl, -⟩ | ⟨rfl, hr⟩
      · exact hlast.symm
      · by_contra hl
        rw [hsingle 0 (Bool.of_not_eq_false (Ne.symm hl))] at hr
        exact nomatch hr
    · rfl
  have hright : ∀ d, (mend n moved (d + 1)).right = (moved (d + 1)).right := by
    intro d
    unfold mend
    split
    · rename_i hmend
      rcases hmend with ⟨hd, hl⟩ | ⟨hd, -⟩
      · rw [hd, hlast] at hl
        exact nomatch hl
      · exact nomatch hd
    · rfl
  refine ⟨mend_first n moved, fun d => ?_, fun d hl => ?_⟩
  · rw [hleft, hright]
    by_cases hbelow : d + 1 < c
    · rw [hlow d (by omega), hlow (d + 1) hbelow]
      exact haround.before d hbelow
    by_cases hedge : d + 1 = c
    · rw [hlow d (by omega), hmoved (d + 1) (by omega), hedge, hplace (by omega)]
      exact haround.edge d hedge
    · rw [hmoved d (by omega), hmoved (d + 1) (by omega), show d + 1 + k = d + k + 1 by omega]
      exact haround.behind (d + k) (by omega)
  · rw [hleft] at hl
    cases d with
    | zero => exact mend_first n moved
    | succ d =>
      rw [hright]
      exact hsingle (d + 1) hl

/-- **A character is inserted**, under the same condition as cells are, and if no pair lies across the cells that
    the row loses. -/
theorem Whole.place_moved {w : Nat} (hend : Ends n row) (hw : w = 1 ∨ w = 2) (hfit : c + w < n)
    (hright : (row c).right = false) (hleft : w = 1 → (row c).left = true → n ≤ c + 2)
    (hlast : (row (n - 1 - w)).left = true → w = 1 ∧ n - 1 - w = c) :
    Whole (Half.place c w (Half.opened c w (copy c (n - w) (c + w) row))) := by
  have hlow : ∀ d, d < c + w → copy c (n - w) (c + w) row d = row d := fun d hd => copy_out (.inl hd)
  have hmoved : ∀ d, c + w ≤ d → d < n → copy c (n - w) (c + w) row d = row (d - w) := by
    intro d hd hd'
    rw [copy_in hd (by omega)]
    congr 1
    omega
  by_cases hpair : w = 1 ∧ (row c).left = true
  · -- The copy of the left half is given up with the cell that is written, and the row ends behind it.
    obtain ⟨rfl, hl⟩ := hpair
    have hn : c + 2 = n := by
      have := hleft rfl hl
      omega
    refine ((h.around c).congr fun d hd => ?_).place (.inl rfl)
    show clearAt c _ d = _
    unfold clearAt
    rw [hlow c (by omega)]
    split
    · rfl
    · rename_i hkept
      have hnext : d ≠ c + 1 := fun heq => hkept (.inl ⟨heq, hl⟩)
      exact copy_out (by omega)
  · have hsame : mend n (copy c (n - w) (c + w) row) = copy c (n - w) (c + w) row := by
      refine mend_eq ?_ ?_
      · rw [hmoved (n - 1) (by omega) (by omega)]
        by_contra hl
        have hl' := Bool.of_not_eq_false hl
        obtain ⟨hone, hc⟩ := hlast hl'
        rw [hc] at hl'
        exact hpair ⟨hone, hl'⟩
      · rw [hlow 0 (by omega)]
        exact h.first
    -- Nothing is lost at the end, so there is nothing to mend.
    have haround := h.moveRight hend (by omega) hfit hright
    rw [hsame] at haround
    have hout : ∀ d, d < c ∨ c + w ≤ d → Half.opened c w (copy c (n - w) (c + w) row) d = copy c (n - w) (c + w) row d := by
      intro d hd
      have hnear : ∀ d, d ≠ c + 1 → clearAt c (copy c (n - w) (c + w) row) d = copy c (n - w) (c + w) row d := by
        intro d hd
        refine if_neg ?_
        rw [hlow c (by omega), hright]
        rintro (⟨heq, -⟩ | ⟨-, hr⟩)
        · exact hd heq
        · exact nomatch hr
      unfold Half.opened
      rcases hw with rfl | rfl
      · have hl : (row c).left = false := Bool.eq_false_iff.mpr fun hl => hpair ⟨rfl, hl⟩
        rw [if_neg (by decide), clearAt_plain]
        · rw [hlow c (by omega)]
          exact hl
        · rw [hlow c (by omega)]
          exact hright
      rw [if_pos rfl]
      by_cases hnext : d = c + 2
      · subst hnext
        by_cases hl : (clearAt c (copy c (n - 2) (c + 2) row) (c + 1)).left = true
        · -- What is given up is a copy of the cell in front of a left half, which is plain.
          have hl' : (row (c + 1)).left = true := by
            rcases clearAt_or (copy c (n - 2) (c + 2) row) c (c + 1) with heq | heq
            · rw [heq] at hl
              exact nomatch hl
            · rw [heq, hlow (c + 1) (by omega)] at hl
              exact hl
          have hcopied : copy c (n - 2) (c + 2) row (c + 2) = plain := by
            rw [hmoved (c + 2) (Nat.le_refl _) hfit, Nat.add_sub_cancel]
            exact eq_plain ((h.pairs c).trans (h.single (c + 1) hl')) hright
          rw [hcopied]
          exact if_pos (.inl ⟨rfl, hl⟩)
        · rw [← hnear (c + 2) (by omega)]
          refine if_neg ?_
          rintro (⟨-, hl'⟩ | ⟨heq, -⟩)
          · exact hl hl'
          · omega
      · rw [clearAt_far (by omega) (by omega), hnear d (by omega)]
    exact (haround.congr hout).place hw

end

end Half

end HamixOS.Lib
