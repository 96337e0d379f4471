import HamixOS.Vt.Operations
import HamixOS.Lib.Machine

namespace HamixOS.Vt

open Lib List Option Nat

/-!
# No output crashes the terminal

Whatever bytes are fed and however the screen is resized in between, nothing is accessed out of range, as
long as the number of rows is not a multiple of `2 ^ 32`: the default of the bottom margin is that number
as a 32-bit number, and one is subtracted from it.

* `Parser.byte_safe` — a byte keeps the parser in shape;
* `inv_step` — every call keeps the screen in shape;
* `safe_reached` — so is every screen reached.
-/

namespace Parser

variable {p q : Parser}

theorem check_of {ok : Prop} [Decidable ok] (h : ok) (p : Parser) : p.check ok = p := by
  unfold check
  rw [decide_eq_true h, Bool.not_true, Bool.or_false]

/-- The parser changed its state and what it read last, and waits for no byte of a character. -/
theorem Safe.same (hp : p.Safe) (h0 : p.utf8Need = 0) (hparams : q.params.length = p.params.length)
    (hcolon : q.colon.length = p.colon.length) (hcount : q.paramCount ≤ MAX_PARAMS) (hutf8 : q.utf8 = p.utf8)
    (hlen : q.utf8Len = p.utf8Len) (hneed : q.utf8Need = p.utf8Need) (hcrashed : q.crashed = p.crashed) : q.Safe where
  params := hparams.trans hp.params
  colon := hcolon.trans hp.colon
  count := hcount
  utf8 := by rw [hutf8]; exact hp.utf8
  pending := by rw [hlen, hneed]; exact hp.pending
  ground := fun hne => absurd (hneed.trans h0) hne
  crashed := hcrashed.trans hp.crashed

/-- What a parser in shape answers. -/
structure Good (r : Parser × List Op) : Prop where
  safe : r.1.Safe
  proper : ∀ op ∈ r.2, op.Proper

theorem proper_nil : ∀ op ∈ ([] : List Op), op.Proper := fun _ h => nomatch h

theorem proper_one {op : Op} (h : op.Proper) : ∀ o ∈ [op], o.Proper := by
  intro o ho
  rw [mem_singleton.mp ho]
  exact h

theorem good_control (hp : p.Safe) (h0 : p.utf8Need = 0) (b : UInt8) : Good (p.control b) := by
  unfold control
  split_ifs
  · exact ⟨hp.same h0 rfl rfl hp.count rfl rfl rfl rfl, proper_nil⟩
  · exact ⟨hp, proper_one (by trivial)⟩
  · exact ⟨hp, proper_one (by trivial)⟩
  · exact ⟨hp, proper_one (by trivial)⟩
  · exact ⟨hp, proper_one (by trivial)⟩
  · exact ⟨hp, proper_one (by trivial)⟩
  · exact ⟨hp, proper_one (by trivial)⟩
  · exact ⟨hp, proper_one (by trivial)⟩
  · exact ⟨hp.same h0 rfl rfl hp.count rfl rfl rfl rfl, proper_nil⟩
  · exact ⟨hp, proper_nil⟩

theorem good_escape (hp : p.Safe) (h0 : p.utf8Need = 0) (b : UInt8) : Good (p.escape b) := by
  have hground : ({ p with state := .ground } : Parser).Safe := hp.same h0 rfl rfl hp.count rfl rfl rfl rfl
  unfold escape
  split
  · exact ⟨hp.same h0 (length_replicate.trans hp.params.symm) (length_replicate.trans hp.colon.symm)
      (zero_le _) rfl rfl rfl rfl, proper_nil⟩
  · exact ⟨hp.same h0 rfl rfl hp.count rfl rfl rfl rfl, proper_nil⟩
  iterate 4
    exact ⟨hp.same h0 rfl rfl hp.count rfl rfl rfl rfl, proper_nil⟩
  iterate 11
    exact ⟨hground, proper_one (by trivial)⟩
  split
  · exact ⟨hp.same h0 rfl rfl hp.count rfl rfl rfl rfl, proper_nil⟩
  · exact ⟨hground, proper_nil⟩

theorem good_escapeIntermediate (hp : p.Safe) (h0 : p.utf8Need = 0) (b : UInt8) : Good (p.escapeIntermediate b) := by
  have hground : ({ p with state := .ground } : Parser).Safe := hp.same h0 rfl rfl hp.count rfl rfl rfl rfl
  unfold escapeIntermediate
  split
  · exact ⟨hp, proper_nil⟩
  · dsimp only
    split
    iterate 7
      exact ⟨hground, proper_one (by trivial)⟩
    · refine ⟨hground, ?_⟩
      split
      · exact proper_one (by trivial)
      · exact proper_nil
    · exact ⟨hground, proper_nil⟩

/-- A count is one by default, and zero stands for the default. -/
theorem proper_csiDispatch (p : Parser) (command : UInt8) : ∀ op ∈ p.csiDispatch command, op.Proper := by
  -- A count that is not given, or given as zero, is one.
  have hn : 1 ≤ p.param 0 1 := Term.param_pos p (by decide)
  have hmode (f : Nat → Bool → Op) (hf : ∀ a on, (f a on).Proper) (on : Bool) :
      ∀ op ∈ (List.range (max p.paramCount 1)).map fun i => f (p.paramRaw i) on, op.Proper := by
    intro op hop
    obtain ⟨i, -, rfl⟩ := mem_map.mp hop
    exact hf _ on
  unfold csiDispatch
  dsimp only
  split
  · split
    · exact hmode .privateMode (fun _ _ => trivial) true
    · exact hmode .privateMode (fun _ _ => trivial) false
    · split
      · exact proper_one (by trivial)
      · exact proper_nil
    · exact proper_nil
  split
  · split
    · exact proper_one (by trivial)
    · exact proper_nil
  split
  · exact proper_nil
  split
  · split
    · exact proper_one (by trivial)
    · exact proper_nil
  split
  all_goals first
    | exact proper_one hn
    | exact proper_one (by trivial)
    | exact hmode .ansiMode (fun _ _ => trivial) true
    | exact hmode .ansiMode (fun _ _ => trivial) false
    | exact proper_nil
    | (split
       · exact proper_one (by trivial)
       · exact proper_nil)
    | (split
       · exact proper_one (by trivial)
       · exact proper_one (by trivial)
       · exact proper_nil)

theorem good_csiByte (hp : p.Safe) (h0 : p.utf8Need = 0) (b : UInt8) : Good (p.csiByte b) := by
  have hcount := hp.count
  have hparams := hp.params
  have hcolon := hp.colon
  have hmax : MAX_PARAMS = 32 := rfl
  unfold csiByte
  dsimp only
  split
  · rw [check_of (by omega)]
    exact ⟨hp.same h0 length_set rfl (by dsimp only; omega) rfl rfl rfl rfl, proper_nil⟩
  split
  · split
    · rename_i hroom
      rw [check_of (by omega)]
      exact ⟨hp.same h0 rfl length_set (by dsimp only; omega) rfl rfl rfl rfl, proper_nil⟩
    · exact ⟨hp.same h0 rfl rfl (by dsimp only; omega) rfl rfl rfl rfl, proper_nil⟩
  split
  · split
    · exact ⟨hp.same h0 rfl rfl hp.count rfl rfl rfl rfl, proper_nil⟩
    · exact ⟨hp.same h0 rfl rfl hp.count rfl rfl rfl rfl, proper_nil⟩
  split
  · exact ⟨hp.same h0 rfl rfl hp.count rfl rfl rfl rfl, proper_nil⟩
  split
  · rw [check_of (by omega)]
    exact ⟨hp.same h0 rfl rfl hp.count rfl rfl rfl rfl, proper_csiDispatch p b⟩
  · exact ⟨hp.same h0 rfl rfl hp.count rfl rfl rfl rfl, proper_nil⟩

theorem good_start (hp : p.Safe) (h0 : p.utf8Need = 0) (b : UInt8) : Good (p.start b) := by
  unfold start
  split
  · exact good_control hp h0 b
  split
  · rename_i hground
    split
    · exact ⟨hp, proper_one (by trivial)⟩
    dsimp only
    -- A first byte is followed by one to three others, or is none.
    have hneed : (if 0xC2 ≤ b ∧ b ≤ 0xDF then 2 else if 0xE0 ≤ b ∧ b ≤ 0xEF then 3 else if 0xF0 ≤ b ∧ b ≤ 0xF4 then 4 else 0) = 0 ∨
        1 < (if 0xC2 ≤ b ∧ b ≤ 0xDF then 2 else if 0xE0 ≤ b ∧ b ≤ 0xEF then 3 else if 0xF0 ≤ b ∧ b ≤ 0xF4 then 4 else 0) ∧
        (if 0xC2 ≤ b ∧ b ≤ 0xDF then 2 else if 0xE0 ≤ b ∧ b ≤ 0xEF then 3 else if 0xF0 ≤ b ∧ b ≤ 0xF4 then 4 else 0) ≤ 4 := by
      split_ifs
      · exact .inr (by decide)
      · exact .inr (by decide)
      · exact .inr (by decide)
      · exact .inl rfl
    generalize (if 0xC2 ≤ b ∧ b ≤ 0xDF then 2 else if 0xE0 ≤ b ∧ b ≤ 0xEF then 3 else if 0xF0 ≤ b ∧ b ≤ 0xF4 then 4 else 0) = need
      at hneed
    split
    · exact ⟨hp, proper_one (by trivial)⟩
    · rename_i hne
      rw [check_of (by rw [hp.utf8]; decide)]
      refine ⟨⟨hp.params, hp.colon, hp.count, length_set.trans hp.utf8, ?_, fun _ => hground, hp.crashed⟩, proper_nil⟩
      dsimp only
      omega
  · exact good_escape hp h0 b
  · exact good_escapeIntermediate hp h0 b
  · exact good_csiByte hp h0 b
  · split
    · exact ⟨hp.same h0 rfl rfl hp.count rfl rfl rfl rfl, proper_nil⟩
    · exact ⟨hp, proper_nil⟩
  · exact ⟨hp, proper_nil⟩

theorem proper_printing (p : Parser) (ch : Char) : ∀ op ∈ p.printing ch, op.Proper := by
  unfold printing
  split
  · exact proper_one (by trivial)
  · exact proper_nil

theorem good_text (hp : p.Safe) (b : UInt8) : Good (p.text b) := by
  have hutf8 := hp.utf8
  unfold text
  split
  · rename_i hpos
    -- Some bytes of a character were read, and not all of them.
    have hpending : p.utf8Len < p.utf8Need ∧ p.utf8Need ≤ 4 := by
      rcases hp.pending with h | h
      · exact h
      · omega
    have hstate := hp.ground (by omega)
    split
    · rw [check_of (by omega)]
      dsimp only
      split
      · rename_i hfull
        rw [check_of (by rw [length_set]; omega)]
        exact ⟨⟨hp.params, hp.colon, hp.count, length_set.trans hutf8, .inr ⟨rfl, rfl⟩, fun hne => absurd rfl hne,
          hp.crashed⟩, proper_printing _ _⟩
      · rename_i hmore
        refine ⟨⟨hp.params, hp.colon, hp.count, length_set.trans hutf8, .inl ?_, fun _ => hstate, hp.crashed⟩, proper_nil⟩
        dsimp only
        omega
    · -- The character is broken off; the byte is read as if it were the first.
      have hdropped : ({ p with utf8Need := 0, utf8Len := 0 } : Parser).Safe :=
        ⟨hp.params, hp.colon, hp.count, hutf8, .inr ⟨rfl, rfl⟩, fun hne => absurd rfl hne, hp.crashed⟩
      have hstart := good_start hdropped rfl b
      refine ⟨hstart.safe, fun op hop => ?_⟩
      rcases mem_append.mp hop with h | h
      · exact proper_printing _ _ op h
      · exact hstart.proper op h
  · rename_i hzero
    exact good_start hp (by omega) b

/-- In a state other than the ground, no byte of a character is waited for. -/
theorem Safe.need_zero (hp : p.Safe) (h : p.state ≠ .ground) : p.utf8Need = 0 := by
  by_contra hne
  exact h (hp.ground hne)

/-- A byte keeps the parser in shape, and what it asks for is proper. -/
theorem byte_safe (hp : p.Safe) (b : UInt8) : Good (p.byte b) := by
  unfold byte
  split
  · rename_i hstate
    have h0 := hp.need_zero (by rw [hstate]; exact nofun)
    split_ifs
    · exact ⟨hp.same h0 rfl rfl hp.count rfl rfl rfl rfl, proper_one (by trivial)⟩
    · exact ⟨hp.same h0 rfl rfl hp.count rfl rfl rfl rfl, proper_nil⟩
    · exact ⟨hp.same h0 rfl rfl hp.count rfl rfl rfl rfl, proper_nil⟩
    · exact ⟨hp, proper_nil⟩
  · rename_i hstate
    have h0 := hp.need_zero (by rw [hstate]; exact nofun)
    have hclosed : ({ p with osc := [], state := .ground } : Parser).Safe := hp.same h0 rfl rfl hp.count rfl rfl rfl rfl
    dsimp only
    split
    · exact ⟨hclosed, proper_one (by trivial)⟩
    · -- The string ends where a sequence starts.
      have hopened := good_text hclosed 0x1b
      have hnext := good_text hopened.safe b
      refine ⟨hnext.safe, fun op hop => ?_⟩
      rcases mem_append.mp hop with h | h
      · rcases mem_cons.mp h with rfl | h
        · trivial
        · exact hopened.proper op h
      · exact hnext.proper op h
  · rename_i hstate
    have h0 := hp.need_zero (by rw [hstate]; exact nofun)
    split_ifs
    · exact ⟨hp.same h0 rfl rfl hp.count rfl rfl rfl rfl, proper_nil⟩
    · exact ⟨hp.same h0 rfl rfl hp.count rfl rfl rfl rfl, proper_nil⟩
    · exact ⟨hp, proper_nil⟩
  · rename_i hstate
    have h0 := hp.need_zero (by rw [hstate]; exact nofun)
    exact ⟨hp.same h0 rfl rfl hp.count rfl rfl rfl rfl, proper_nil⟩
  · exact good_text hp b

end Parser

namespace Term

variable {s : Term}

/-! ### Bytes -/

/-- The operations of a byte, one after the other. -/
theorem ops_effects {may : Special → Prop} (hs : Inv s) {ops : List Op} (hproper : ∀ op ∈ ops, op.Proper)
    (hmay : ∀ op ∈ ops, ∀ k, op.May k → may k) : Effects may s (ops.foldl apply s) := by
  induction ops generalizing s with
  | nil => exact .refl
  | cons op ops ih =>
    have hop : Effects may s (s.apply op) := apply_effects hs (hproper op mem_cons_self) (hmay op mem_cons_self)
    exact Relation.ReflTransGen.trans hop (ih (Effects.inv hop hs) (fun o ho => hproper o (mem_cons_of_mem op ho))
      (fun o ho => hmay o (mem_cons_of_mem op ho)))

/-- The parser has read a byte, and the screen was not asked for anything yet. -/
def parsed (s : Term) (b : UInt8) : Term := { s with parser := (s.parser.byte b).1 }

theorem inv_parsed (hs : Inv s) (b : UInt8) : Inv (s.parsed b) := { hs with parser := (Parser.byte_safe hs.parser b).safe }

theorem byte_effects {may : Special → Prop} (hs : Inv s) {b : UInt8} (hmay : ∀ op ∈ (s.parser.byte b).2, ∀ k, op.May k → may k) :
    Effects may (s.parsed b) (s.byte b) :=
  ops_effects (inv_parsed hs b) (Parser.byte_safe hs.parser b).proper hmay

/-- A byte asks for something special. -/
def Asks (k : Special) (s : Term) (b : UInt8) : Prop := ∃ op ∈ (s.parser.byte b).2, op.May k

/-- A byte does nothing special but what it asks for. -/
theorem byte_effects_asks (hs : Inv s) (b : UInt8) : Effects (fun k => Asks k s b) (s.parsed b) (s.byte b) :=
  byte_effects hs fun op hop _ hk => ⟨op, hop, hk⟩

theorem inv_byte (hs : Inv s) (b : UInt8) : Inv (s.byte b) := by
  have heffects : Effects (fun _ => True) (s.parsed b) (s.byte b) := byte_effects hs fun _ _ _ _ => trivial
  exact Effects.inv heffects (inv_parsed hs b)

theorem inv_feed (hs : Inv s) (bytes : Bytes) : Inv (s.feed bytes) := by
  induction bytes generalizing s with
  | nil => exact hs
  | cons b bytes ih => exact ih (inv_byte hs b)

/-! ### Other calls -/

/-- A line that is put into a row of a grid, cut to its width. -/
theorem length_overwriteRow {grid : List Cell} {cols rows r : Nat} (hgrid : grid.length = cols * rows) (hr : r < rows)
    (line : List Cell) : (overwrite grid (r * cols) (line.take cols)).length = cols * rows := by
  have htake : (line.take cols).length ≤ cols := length_take_le _ _
  have hrow : (r + 1) * cols ≤ rows * cols := mul_le_mul_right _ hr
  rw [succ_mul, mul_comm rows] at hrow
  rw [length_overwrite (by omega), hgrid]

theorem length_pulledGrid {cols rows pull : Nat} (hfit : cols * rows < 2 ^ 64) (hpull : pull ≤ rows) (s : Term) :
    (s.pulledGrid cols rows pull).length = cols * rows := by
  refine length_foldl (fun grid hgrid i hi => ?_) (length_replicate.trans (size_of_fits hfit))
  have hlt := mem_range.mp hi
  exact length_overwriteRow hgrid (by omega) _

theorem length_movedGrid {cols rows pull : Nat} (shift : Nat) (s : Term) {grid : List Cell} (hgrid : grid.length = cols * rows) :
    (s.movedGrid cols rows pull shift grid).length = cols * rows := by
  refine length_foldl (fun grid hgrid r hr => ?_) hgrid
  have hlt := mem_range.mp hr
  split
  · exact hgrid
  · exact length_overwriteRow hgrid (by omega) _

theorem length_resizedScreen {cols rows : Nat} (hfit : Fits cols rows) (s : Term) (saved : List Cell) :
    (s.resizedScreen cols rows saved).length = cols * rows := by
  refine length_foldl (fun grid hgrid r hr => ?_) (length_replicate.trans (size_of_fits hfit.1))
  have hlt := mem_range.mp hr
  exact length_overwriteRow hgrid (by omega) _

theorem inv_fixWideEdges (hs : Inv s) {rs : List Nat} (h : ∀ r ∈ rs, r < s.rows) :
    Inv (rs.foldl (fun s r => s.fixWideEdge r) s) := by
  induction rs generalizing s with
  | nil => exact hs
  | cons r rs ih =>
    have hedge := fixWideEdge_touches hs.sized (h r mem_cons_self)
    refine ih (hedge.inv hs) fun r' hr' => ?_
    rw [hedge.rows]
    exact h r' (mem_cons_of_mem r hr')

theorem shiftFor_le (s : Term) (rows : Nat) : s.shiftFor rows ≤ s.cursor.row := by
  unfold shiftFor
  split
  · exact min_le_right _ _
  · exact zero_le _

theorem pullFor_le (s : Term) (rows : Nat) : s.pullFor rows ≤ rows ∧ s.pullFor rows ≤ s.scrollback.length := by
  unfold pullFor
  split
  · omega
  · exact ⟨zero_le _, zero_le _⟩

theorem inv_resize (hs : Inv s) {cols rows : Nat} (hfit : Fits (max cols 2) (max rows 2)) : Inv (s.resize cols rows) := by
  have hcols : 2 ≤ max cols 2 := le_max_right _ _
  have hrows : 2 ≤ max rows 2 := le_max_right _ _
  have hall := hs.sized.rows_le (le_refl s.rows)
  unfold resize
  dsimp only
  split
  · exact hs
  generalize max cols 2 = cols at hfit hcols
  generalize max rows 2 = rows at hfit hrows
  -- The rows that go into the scrollback are above the cursor.
  have hshift : s.shiftFor rows * s.cols ≤ s.grid.length :=
    hs.sized.rows_le (le_of_lt (lt_of_le_of_lt (shiftFor_le s rows) hs.cursor.1))
  have hlength := length_pushRows hs.scrollback (s.shiftFor rows)
  generalize s.shiftFor rows = shift at hshift hlength
  have hpushed : s.pushRows shift = { s with scrollback := (s.pushRows shift).scrollback } := by
    unfold pushRows
    rw [check_of hshift]
  rw [hpushed]
  generalize (s.pushRows shift).scrollback = lines at hlength
  -- What comes back out of it fits into the new rows.
  have hpull := pullFor_le { s with scrollback := lines } rows
  generalize Term.pullFor rows { s with scrollback := lines } = pull at hpull
  -- Every range of the copies is inside of its grid.
  have hok : s.rows * s.cols ≤ s.grid.length ∧ rows * cols ≤ size cols rows ∧ pull ≤ lines.length ∧ pull ≤ rows ∧
      ∀ saved, s.savedScreen = some saved → s.rows * s.cols ≤ saved.length := by
    refine ⟨hall, ?_, hpull.2, hpull.1, fun saved hsaved => ?_⟩
    · rw [size_of_fits hfit.1, mul_comm]
    · rw [hs.saved saved hsaved, mul_comm]
  rw [check_of (s := { s with scrollback := lines }) hok]
  refine inv_fixWideEdges ?_ fun r hr => mem_range.mp hr
  refine { hs with
    cols := hcols, rows := hrows, fits := hfit, dirty := length_replicate
    grid := length_movedGrid _ _ (length_pulledGrid hfit.1 hpull.1 _), tabs := ?_, cursor := ?_, margins := ?_, savedMain := ?_
    savedAlt := ?_, altScreen := ?_, saved := fun saved hsaved => ?_, scrollback := ?_ }
  · unfold defaultTabs
    rw [length_map, length_range]
  · unfold Cursor.Inside
    dsimp only
    omega
  · dsimp only
    omega
  · unfold Cursor.Inside
    dsimp only
    omega
  · unfold Cursor.Inside
    dsimp only
    omega
  · dsimp only
    rw [isSome_map]
    exact hs.altScreen
  · obtain ⟨screen, -, rfl⟩ := map_eq_some_iff.mp hsaved
    exact length_resizedScreen hfit _ _
  · dsimp only
    rw [length_take]
    omega

end Term

/-- The sizes that a call gives. -/
def Call.Fits : Call → Prop
  | .resize cols rows => Term.Fits (max cols 2) (max rows 2)
  | _ => True

namespace Term

variable {s : Term}

theorem inv_step (hs : Inv s) {c : Call} (hc : c.Fits) : Inv (s.step c) := by
  cases c with
  | feed bytes => exact inv_feed hs bytes
  | resize cols rows => exact inv_resize hs hc
  | reset => exact reset_inv hs
  | setScrollbackLimit limit =>
    have hlength : (s.scrollback.drop (s.scrollback.length - limit)).length ≤ limit := by
      rw [length_drop]
      omega
    exact { hs with scrollback := hlength }
  | clearScrollback => exact { hs with scrollback := zero_le _ }
  | setPen pen => exact { hs with cursor := hs.cursor }
  | clearDirty =>
    -- There is a flag for each row still.
    have hdirty : (s.dirty.map fun _ => false).length = s.rows := by rw [length_map, hs.dirty]
    exact { hs with dirty := hdirty }
  | markAllDirty => exact markAllDirty_inv hs
  | markDirty row =>
    unfold step
    dsimp only
    split
    · rename_i hrow
      have hmark : Touches 0 0 s (s.mark row) := mark_touches (by rw [hs.dirty]; exact hrow)
      exact hmark.inv hs
    · exact hs
  | takeScrolled => exact { hs with }
  | takeScrollbackCleared => exact { hs with }
  | takeResponses => exact { hs with }
  | takeTitle => exact { hs with }
  | takeBell => exact { hs with }

/-- A new terminal of some size. -/
def Starts (ok : Nat → Nat → Prop) (s : Term) : Prop :=
  ∃ cols rows limit, ok (max cols 2) (max rows 2) ∧ s = new cols rows limit

/-- The terminals reached by calls that meet `ok`. -/
def Reached (sizes : Nat → Nat → Prop) (ok : Term → Call → Prop) : Term → Prop :=
  Reach (Starts sizes) (fun s c => some (s.step c)) ok

theorem inv_reached (h : Reached Fits (fun _ c => c.Fits) s) : Inv s := by
  refine Reach.invariant (I := Inv) ?_ ?_ h
  · rintro _ ⟨cols, rows, limit, hfit, rfl⟩
    exact inv_new limit hfit
  · rintro s c _ hs hok hstep
    obtain rfl := some.inj hstep
    exact inv_step hs hok

end Term

end HamixOS.Vt
