import HamixOS.Vt.Bounds
import HamixOS.Vt.Rows

namespace HamixOS.Vt

open Lib List

/-!
# Damage

A user of the terminal draws the rows that are dirty and clears the flags.  Every row that changed since is
dirty then, and so is every row that the cursor left or entered by `set_row`, which every line feed,
reverse index and vertical motion goes through.

* `Damaged` — what one step, and so any number of them, says about the rows;
* `damage_complete` — nothing that was fed is missed.
-/

namespace Term

variable {s s' s'' : Term}

/-- Cells that changed and rows that were visited are in dirty rows. -/
structure Damaged (s s' : Term) : Prop where
  cols : s'.cols = s.cols
  rows : s'.rows = s.rows
  marked : ∀ r : Nat, s.dirty[r]? = some true → s'.dirty[r]? = some true
  cells : ∀ r c : Nat, r < s.rows → c < s.cols → s'.grid[r * s.cols + c]? ≠ s.grid[r * s.cols + c]? →
    s'.dirty[r]? = some true
  visited : ∀ r ∈ s'.visited, r ∈ s.visited ∨ s'.dirty[r]? = some true

namespace Damaged

theorem trans (h : Damaged s s') (h' : Damaged s' s'') : Damaged s s'' := by
  refine ⟨h'.cols.trans h.cols, h'.rows.trans h.rows, fun r hr => h'.marked r (h.marked r hr), fun r c hr hc hne => ?_,
    fun r hr => ?_⟩
  · by_cases hfirst : s'.grid[r * s.cols + c]? = s.grid[r * s.cols + c]?
    · refine h'.cells r c (by rw [h.rows]; exact hr) (by rw [h.cols]; exact hc) ?_
      rw [h.cols, hfirst]
      exact hne
    · exact h'.marked r (h.cells r c hr hc hfirst)
  · rcases h'.visited r hr with hmem | hmark
    · exact (h.visited r hmem).imp id (h'.marked r)
    · exact .inr hmark

section

variable (hcols : s'.cols = s.cols)

include hcols

section

variable (hrows : s'.rows = s.rows)

include hrows

/-- The grid is as before. -/
theorem still (hgrid : s'.grid = s.grid)
    (hmarked : ∀ r : Nat, s.dirty[r]? = some true → s'.dirty[r]? = some true)
    (hvisited : ∀ r ∈ s'.visited, r ∈ s.visited ∨ s'.dirty[r]? = some true) : Damaged s s' :=
  ⟨hcols, hrows, hmarked, fun r c _ _ hne => absurd (by rw [hgrid]) hne, hvisited⟩

/-- Neither the grid nor the flags are different. -/
theorem unmoved (hgrid : s'.grid = s.grid) (hdirty : s'.dirty = s.dirty)
    (hvisited : s'.visited = s.visited) : Damaged s s' :=
  still hcols hrows hgrid (fun r hr => by rw [hdirty]; exact hr) (fun r hr => .inl (hvisited ▸ hr))

/-- Every row is dirty. -/
theorem all (hdirty : ∀ r < s.rows, s'.dirty[r]? = some true)
    (hlen : s.dirty.length = s.rows) (hvisited : s'.visited = s.visited) : Damaged s s' := by
  refine ⟨hcols, hrows, fun r hr => hdirty r ?_, fun r _ hr _ _ => hdirty r hr, fun r hr => .inl (hvisited ▸ hr)⟩
  by_contra hge
  rw [getElem?_eq_none (by omega)] at hr
  cases hr

end

end

end Damaged

theorem set_marked {dirty : List Bool} {i r : Nat} (h : dirty[r]? = some true) : (dirty.set i true)[r]? = some true := by
  by_cases heq : i = r
  · rw [heq]
    refine getElem?_set_self ?_
    by_contra hge
    rw [getElem?_eq_none (by omega)] at h
    cases h
  · rw [getElem?_set_ne heq]
    exact h

theorem markAllDirty_marked (hs : Inv s) {r : Nat} (hr : r < s.rows) : s.markAllDirty.dirty[r]? = some true :=
  all_marked (by rw [hs.dirty]; exact hr)

variable {may : Special → Prop}

/-- One step leaves no row behind. -/
theorem Effect.damaged (h : Effect may s s') (hs : Inv s) : Damaged s s' := by
  have hrows := hs.rows
  cases h with
  | quiet h => exact .unmoved h.cols h.rows h.grid h.dirty h.visited
  | edits h =>
    refine ⟨h.cols, h.rows, h.marked, h.damage, fun r hr => .inl ?_⟩
    rw [h.frame] at hr
    exact hr
  | column col h => exact .unmoved rfl rfl rfl rfl rfl
  | setRow row =>
    have hrow : s.cursor.row < s.dirty.length := by
      rw [hs.dirty]
      exact hs.cursor.1
    have hmin : min row (s.rows - 1) < (s.dirty.set s.cursor.row true).length := by
      rw [length_set, hs.dirty]
      omega
    rw [setRow_eq hs]
    refine .still rfl rfl rfl (fun r hr => set_marked (set_marked hr)) fun r hr => ?_
    -- The history grows by the two rows that are marked.
    rcases mem_cons.mp hr with rfl | hr
    · exact .inr (set_marked (getElem?_set_self hrow))
    rcases mem_cons.mp hr with rfl | hr
    · exact .inr (getElem?_set_self hmin)
    · exact .inl hr
  | margins top bottom h => exact .unmoved rfl rfl rfl rfl rfl
  | saveCursor =>
    unfold Term.saveCursor
    split
    · exact .unmoved rfl rfl rfl rfl rfl
    · exact .unmoved rfl rfl rfl rfl rfl
  | restoreCursor =>
    rw [restoreCursor_eq hs]
    exact .still rfl rfl rfl (fun r hr => set_marked (set_marked hr)) (fun r hr => .inl hr)
  | enterAlt clear h =>
    rw [enterAltScreen_eq h]
    exact .all rfl rfl (fun r hr => all_marked (by dsimp only; rw [hs.dirty]; exact hr)) hs.dirty rfl
  | saveMain => exact .unmoved rfl rfl rfl rfl rfl
  | leaveAlt =>
    unfold leaveAltScreen
    split
    · exact .all rfl rfl (fun r hr => all_marked (by dsimp only; rw [hs.dirty]; exact hr)) hs.dirty rfl
    · exact .unmoved rfl rfl rfl rfl rfl
  | restoreMain => exact .unmoved rfl rfl rfl rfl rfl
  | softReset => exact .unmoved rfl rfl rfl rfl rfl
  | reset =>
    have hc : max s.cols 2 = s.cols := max_eq_left hs.cols
    have hr : max s.rows 2 = s.rows := max_eq_left hs.rows
    refine .all hc hr (fun r hr => ?_) hs.dirty rfl
    refine markAllDirty_marked (reset_inv hs) ?_
    show r < max s.rows 2
    omega
  | clearScrollback => exact .unmoved rfl rfl rfl rfl rfl

theorem Effects.damaged (h : Effects may s s') (hs : Inv s) : Damaged s s' := by
  induction h with
  | refl => exact .unmoved rfl rfl rfl rfl rfl
  | tail hsteps hlast ih => exact ih.trans (hlast.damaged (Effects.inv hsteps hs))

theorem feed_damaged (hs : Inv s) (bytes : Bytes) : Damaged s (s.feed bytes) := by
  induction bytes generalizing s with
  | nil => exact .unmoved rfl rfl rfl rfl rfl
  | cons b bytes ih =>
    have hparsed : Damaged s (s.parsed b) := .unmoved rfl rfl rfl rfl rfl
    have heffects : Effects (fun _ => True) (s.parsed b) (s.byte b) := byte_effects hs fun _ _ _ _ => trivial
    have hbyte := Effects.damaged heffects (inv_parsed hs b)
    exact (hparsed.trans hbyte).trans (ih (inv_byte hs b))

/-- The cursor is in the same row, or both rows are dirty. -/
def Followed (s s' : Term) : Prop :=
  s'.cursor.row = s.cursor.row ∨ s'.dirty[s.cursor.row]? = some true ∧ s'.dirty[s'.cursor.row]? = some true

theorem Followed.trans (h : Followed s s') (h' : Followed s' s'') (hmarked : Damaged s' s'') : Followed s s'' := by
  rcases h with heq | ⟨hleft, hentered⟩
  · unfold Followed at h' ⊢
    rw [heq] at h'
    exact h'
  · refine .inr ⟨hmarked.marked _ hleft, ?_⟩
    rcases h' with heq' | ⟨-, hentered'⟩
    · rw [heq']
      exact hmarked.marked _ hentered
    · exact hentered'

/-- The cursor leaves no row behind but when the main screen comes back. -/
theorem Effect.followed (h : Effect may s s') (hmay : ¬ may .leaveAlt) (hs : Inv s) : Followed s s' := by
  have hrows := hs.rows
  have hrow : s.cursor.row < s.dirty.length := by
    rw [hs.dirty]
    exact hs.cursor.1
  have hmoved (row : Nat) : ((s.dirty.set s.cursor.row true).set (min row (s.rows - 1)) true)[s.cursor.row]? = some true ∧
      ((s.dirty.set s.cursor.row true).set (min row (s.rows - 1)) true)[min row (s.rows - 1)]? = some true := by
    refine ⟨set_marked (getElem?_set_self hrow), getElem?_set_self ?_⟩
    rw [length_set, hs.dirty]
    omega
  cases h with
  | quiet h => exact .inl h.row
  | edits h =>
    have hcursor : s'.cursor = s.cursor := by rw [h.frame]
    exact .inl (by rw [hcursor])
  | column col h => exact .inl rfl
  | setRow row =>
    rw [setRow_eq hs]
    exact .inr (hmoved row)
  | margins top bottom h => exact .inl rfl
  | saveCursor =>
    unfold Term.saveCursor
    split
    · exact .inl rfl
    · exact .inl rfl
  | restoreCursor =>
    rw [restoreCursor_eq hs]
    exact .inr (hmoved _)
  | enterAlt clear h =>
    rw [enterAltScreen_eq h]
    exact .inl rfl
  | saveMain => exact .inl rfl
  | leaveAlt h => exact absurd h hmay
  | restoreMain h => exact absurd h hmay
  | softReset => exact .inl rfl
  | reset =>
    have hreset := reset_inv hs
    -- Every row is marked behind a reset.
    have hr : s.reset.rows = s.rows := max_eq_left hs.rows
    refine .inr ⟨markAllDirty_marked hreset ?_, markAllDirty_marked hreset hreset.cursor.1⟩
    rw [hr]
    exact hs.cursor.1
  | clearScrollback => exact .inl rfl

theorem Effects.followed (h : Effects may s s') (hmay : ¬ may .leaveAlt) (hs : Inv s) : Followed s s' := by
  induction h with
  | refl => exact .inl rfl
  | tail hsteps hlast ih =>
    have hinv := Effects.inv hsteps hs
    exact ih.trans (hlast.followed hmay hinv) (hlast.damaged hinv)

theorem byte_followed (hs : Inv s) {b : UInt8} (hstay : ¬ Asks .leaveAlt s b) : Followed s (s.byte b) := by
  have hfollowed : Followed (s.parsed b) (s.byte b) := Effects.followed (byte_effects_asks hs b) hstay (inv_parsed hs b)
  exact hfollowed

def isDirty (s : Term) (r : Nat) : Bool := s.dirty.getD r false

/-- **Damage is complete**: of what is fed after the flags were cleared, no row that changed is missed, no
    row that `set_row` left or entered, and no row in which the cursor was before or after a byte that moved it
    out of its row, unless the byte asks to leave the alternate screen. -/
theorem damage_complete (h : Reached Fits (fun _ c => c.Fits) s) (bytes : Bytes) :
    (∀ r < s.rows, (s.clearDirty.feed bytes).row r ≠ s.clearDirty.row r → (s.clearDirty.feed bytes).isDirty r = true) ∧
    (∀ r ∈ (s.clearDirty.feed bytes).visited, (s.clearDirty.feed bytes).isDirty r = true) ∧
    ∀ before b after, bytes = before ++ b :: after → ¬ Asks .leaveAlt (s.clearDirty.feed before) b →
      ((s.clearDirty.feed before).byte b).cursor.row ≠ (s.clearDirty.feed before).cursor.row →
      (s.clearDirty.feed bytes).isDirty (s.clearDirty.feed before).cursor.row = true ∧
      (s.clearDirty.feed bytes).isDirty ((s.clearDirty.feed before).byte b).cursor.row = true := by
  have hs := inv_reached h
  -- The flags are clear and the history is empty.
  have hcleared : Inv s.clearDirty := inv_step (c := .clearDirty) hs trivial
  have hfed := feed_damaged hcleared bytes
  have hdirty {r : Nat} (hmark : (s.clearDirty.feed bytes).dirty[r]? = some true) :
      (s.clearDirty.feed bytes).isDirty r = true := by
    unfold isDirty
    rw [getD_eq_getElem?_getD, hmark]
    rfl
  refine ⟨?_, ?_, ?_⟩
  · intro r hr hne
    by_contra hclean
    refine hne (ext_getElem? fun c => ?_)
    by_cases hc : c < s.cols
    · rw [getElem?_row _ (by rw [hfed.cols]; exact hc), getElem?_row _ (show c < s.clearDirty.cols from hc), hfed.cols]
      by_contra hcell
      exact hclean (hdirty (hfed.cells r c hr hc hcell))
    · unfold row
      rw [getElem?_take, if_neg (by rw [hfed.cols]; exact hc), getElem?_take,
        if_neg (show ¬ c < s.clearDirty.cols from hc)]
  · intro r hr
    rcases hfed.visited r hr with hmem | hmark
    · exact nomatch hmem
    · exact hdirty hmark
  · rintro before b after rfl hstay hmoved
    have hbefore := inv_feed hcleared before
    -- What the byte marked is dirty to the end.
    have hrest := (feed_damaged (inv_byte hbefore b) after).marked
    have hsplit : s.clearDirty.feed (before ++ b :: after) = ((s.clearDirty.feed before).byte b).feed after := by
      unfold feed
      rw [foldl_append]
      rfl
    rcases byte_followed hbefore hstay with heq | ⟨hleft, hentered⟩
    · exact absurd heq hmoved
    · rw [hsplit] at hdirty ⊢
      exact ⟨hdirty (hrest _ hleft), hdirty (hrest _ hentered)⟩

/-- Output of a program on a console. -/
theorem damage_complete_console : ((new 80 25 0).clearDirty.feed [0x41]).isDirty 0 = true :=
  (damage_complete (Reach.start ⟨80, 25, 0, ⟨by decide, by decide⟩, rfl⟩) [0x41]).1 0 (by decide) (by decide +kernel)

end Term

end HamixOS.Vt
