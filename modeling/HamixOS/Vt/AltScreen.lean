import HamixOS.Vt.Bounds

namespace HamixOS.Vt

open Lib List Parser

/-!
# The alternate screen

A full-screen program switches to the alternate screen and back.  What it prints in between reaches neither
the main grid nor the scrollback, and if it does not ask for the switch again, nor the saved cursor.

* `Away` — the main screen is put away, and what it was is known;
* `Parser.opens` — a request is read in every state of the parser but inside of an ignored string;
* `alt_screen_isolated` — the main screen comes back.
-/

namespace Parser

variable {p q : Parser}

/-- Inside of a string that is ignored (DCS, SOS, PM or APC), where `ESC [` starts nothing. -/
def InString (p : Parser) : Prop := p.state = .stringIgnore ∨ p.state = .stringEscape

/-- Right behind `ESC [`. -/
structure Opened (p : Parser) : Prop where
  state : p.state = .csi
  params : p.params = List.replicate MAX_PARAMS 0
  colon : p.colon = List.replicate MAX_PARAMS false
  paramCount : p.paramCount = 0
  paramStarted : p.paramStarted = false
  private_ : p.private = 0
  intermediate : p.intermediate = 0
  utf8Need : p.utf8Need = 0

/-- What `ESC [` may ask for: the end of an unfinished character or string. -/
def Leftover (p : Parser) (op : Op) : Prop := (∃ ch, op = .print ch ∧ p.utf8Need ≠ 0) ∨ ∃ bytes, op = .osc bytes

theorem text_escape (h0 : p.utf8Need = 0) : p.text 0x1b = ({ p with state := .escape, intermediate := 0 }, []) := by
  unfold text
  rw [if_neg (by omega)]
  rfl

theorem text_bracket (h0 : p.utf8Need = 0) (hstate : p.state = .escape) : Opened (p.text 0x5b).1 ∧ (p.text 0x5b).2 = [] := by
  unfold text
  rw [if_neg (by omega)]
  unfold start
  rw [if_neg (by decide), hstate]
  exact ⟨⟨rfl, rfl, rfl, rfl, rfl, rfl, rfl, h0⟩, rfl⟩

/-- Outside of the ignored strings, `ESC [` starts a sequence. -/
theorem opens (hp : p.Safe) (hstring : ¬ p.InString) :
    Opened ((p.byte 0x1b).1.byte 0x5b).1 ∧ ∀ op ∈ (p.byte 0x1b).2 ++ ((p.byte 0x1b).1.byte 0x5b).2, p.Leftover op := by
  -- In a sequence, the escape starts another one.
  have hescape (h0 : p.utf8Need = 0) (hbyte : p.byte 0x1b = p.text 0x1b) :
      Opened ((p.byte 0x1b).1.byte 0x5b).1 ∧ ∀ op ∈ (p.byte 0x1b).2 ++ ((p.byte 0x1b).1.byte 0x5b).2, p.Leftover op := by
    rw [hbyte, text_escape h0]
    obtain ⟨hopened, hops⟩ := text_bracket (p := { p with state := .escape, intermediate := 0 }) h0 rfl
    refine ⟨hopened, fun op hop => ?_⟩
    rw [show (byte { p with state := .escape, intermediate := 0 } 0x5b).2 = [] from hops] at hop
    cases hop
  cases hstate : p.state with
  | ground =>
    have hbyte : p.byte 0x1b = p.text 0x1b := by
      unfold byte
      rw [hstate]
    by_cases h0 : p.utf8Need = 0
    · exact hescape h0 hbyte
    · -- An unfinished character is printed first.
      have htext : p.text 0x1b =
          ({ p with utf8Need := 0, utf8Len := 0, state := .escape, intermediate := 0 }, [.print Utf8.replacement]) := by
        unfold text
        rw [if_pos (pos_of_ne_zero h0), if_neg (by decide)]
        unfold printing
        dsimp only
        rw [hstate]
        rfl
      rw [hbyte, htext]
      obtain ⟨hopened, hops⟩ := text_bracket
        (p := { p with utf8Need := 0, utf8Len := 0, state := .escape, intermediate := 0 }) rfl rfl
      refine ⟨hopened, fun op hop => ?_⟩
      rw [show (byte { p with utf8Need := 0, utf8Len := 0, state := .escape, intermediate := 0 } 0x5b).2 = [] from hops] at hop
      rw [mem_singleton.mp hop]
      exact .inl ⟨_, rfl, h0⟩
  | escape => exact hescape (hp.need_zero (by rw [hstate]; exact nofun)) (by unfold byte; rw [hstate])
  | escapeIntermediate => exact hescape (hp.need_zero (by rw [hstate]; exact nofun)) (by unfold byte; rw [hstate])
  | csi => exact hescape (hp.need_zero (by rw [hstate]; exact nofun)) (by unfold byte; rw [hstate])
  | csiIgnore => exact hescape (hp.need_zero (by rw [hstate]; exact nofun)) (by unfold byte; rw [hstate])
  | osc =>
    have h0 := hp.need_zero (by rw [hstate]; exact nofun)
    have hfirst : p.byte 0x1b = ({ p with state := .oscEscape }, []) := by
      unfold byte
      rw [hstate]
      rfl
    have hsecond : byte { p with state := .oscEscape } 0x5b =
        ((text { p with osc := [], state := .escape, intermediate := 0 } 0x5b).1,
          .osc p.osc :: [] ++ (text { p with osc := [], state := .escape, intermediate := 0 } 0x5b).2) := by
      unfold byte
      dsimp only
      rw [if_neg (by decide), text_escape (p := { p with osc := [], state := .ground }) h0]
    obtain ⟨hopened, hops⟩ := text_bracket (p := { p with osc := [], state := .escape, intermediate := 0 }) h0 rfl
    rw [hfirst, hsecond, hops]
    refine ⟨hopened, fun op hop => .inr ⟨p.osc, mem_singleton.mp hop⟩⟩
  | oscEscape =>
    have h0 := hp.need_zero (by rw [hstate]; exact nofun)
    have hfirst : p.byte 0x1b = ({ p with osc := [], state := .escape, intermediate := 0 }, [.osc p.osc]) := by
      unfold byte
      rw [hstate]
      dsimp only
      rw [if_neg (by decide), text_escape (p := { p with osc := [], state := .ground }) h0]
      dsimp only
      rw [text_escape (p := { p with osc := [], state := .escape, intermediate := 0 }) h0]
      rfl
    obtain ⟨hopened, hops⟩ := text_bracket (p := { p with osc := [], state := .escape, intermediate := 0 }) h0 rfl
    rw [hfirst]
    refine ⟨hopened, fun op hop => ?_⟩
    rw [show (byte { p with osc := [], state := .escape, intermediate := 0 } 0x5b).2 = [] from hops] at hop
    exact .inr ⟨p.osc, mem_singleton.mp hop⟩
  | stringIgnore => exact absurd (.inl hstate) hstring
  | stringEscape => exact absurd (.inr hstate) hstring

end Parser

namespace Term

variable {s s' t : Term}

/-! ### Requests -/

/-- `CSI ? 1049 h` and `CSI ? 1049 l`. -/
def altRequest (on : Bool) : Bytes := [0x1b, 0x5b, 0x3f, 0x31, 0x30, 0x34, 0x39, if on then 0x68 else 0x6c]

/-- Only a reset changes the parser. -/
theorem Effect.parser {may : Special → Prop} (h : Effect may s s') (hmay : ¬ may .reset) (hs : Inv s) : s'.parser = s.parser := by
  cases h with
  | quiet h => exact h.parser
  | edits h => rw [h.frame]
  | column col h => rfl
  | setRow row => rw [setRow_eq hs]
  | margins top bottom h => rfl
  | saveCursor =>
    unfold Term.saveCursor
    split
    · rfl
    · rfl
  | restoreCursor => rw [restoreCursor_eq hs]
  | enterAlt clear h => rw [enterAltScreen_eq h]; rfl
  | saveMain => rfl
  | leaveAlt =>
    unfold leaveAltScreen
    split
    · rfl
    · rfl
  | restoreMain => rfl
  | softReset => rfl
  | reset h => exact absurd h hmay
  | clearScrollback => rfl

theorem parser_after (hs : Inv s) {b : UInt8} (hreset : ¬ Asks .reset s b) : (s.byte b).parser = (s.parser.byte b).1 := by
  have hsteps := byte_effects_asks hs b
  have hinv := inv_parsed hs b
  generalize s.byte b = t at hsteps
  induction hsteps with
  | refl => rfl
  | tail hfirst hlast ih => exact (hlast.parser hreset (Effects.inv hfirst hinv)).trans ih

end Term

namespace Parser

variable {p q : Parser}

/-- Behind `ESC [ ?` and digits of the first parameter, which make the number `n`. -/
structure Reading (n : Nat) (p : Parser) : Prop where
  state : p.state = .csi
  utf8Need : p.utf8Need = 0
  private_ : p.private = '?'.toUInt8
  count : p.paramCount ≤ 1
  started : n ≠ 0 → p.paramCount = 1
  params : p.params.length = MAX_PARAMS
  value : p.params.getD 0 0 = n

theorem byte_csi (hstate : p.state = .csi) (h0 : p.utf8Need = 0) {b : UInt8} (hb : ¬ (b < 0x20 ∨ b = 0x7f)) :
    p.byte b = p.csiByte b := by
  unfold byte
  rw [hstate]
  dsimp only
  unfold text
  rw [if_neg (by omega)]
  unfold start
  rw [if_neg hb, hstate]

theorem Opened.reading (h : p.Opened) : Reading 0 (p.byte 0x3f).1 ∧ (p.byte 0x3f).2 = [] := by
  rw [byte_csi h.state h.utf8Need (by decide)]
  unfold csiByte
  rw [if_neg (by decide), if_neg (by decide), if_pos (by decide), if_pos ⟨h.paramStarted, h.private_⟩]
  refine ⟨⟨h.state, h.utf8Need, rfl, ?_, fun hne => absurd rfl hne, ?_, ?_⟩, rfl⟩
  · rw [h.paramCount]
    exact Nat.zero_le 1
  · rw [h.params]
    rfl
  · rw [h.params]
    rfl

theorem Reading.digit {n : Nat} (h : Reading n p) {b : UInt8} (hb : '0'.toUInt8 ≤ b ∧ b ≤ '9'.toUInt8)
    (hb' : ¬ (b < 0x20 ∨ b = 0x7f)) (hn : n * 10 + (b.toNat - '0'.toNat) ≤ 65535) :
    Reading (n * 10 + (b.toNat - '0'.toNat)) (p.byte b).1 ∧ (p.byte b).2 = [] := by
  have hcount := h.count
  have hlen := h.params
  have hmax : MAX_PARAMS = 32 := rfl
  have hfirst : max p.paramCount 1 = 1 := by omega
  rw [byte_csi h.state h.utf8Need hb']
  unfold csiByte
  rw [if_pos hb]
  dsimp only
  rw [hfirst, check_of (by omega), h.value, min_eq_left hn]
  refine ⟨⟨h.state, h.utf8Need, h.private_, le_refl 1, fun _ => rfl, length_set.trans hlen, ?_⟩, rfl⟩
  dsimp only
  rw [getD_eq_getElem?_getD, getElem?_set_self (by omega)]
  rfl

theorem dispatch_mode (hprivate : p.private = '?'.toUInt8) (hcount : p.paramCount = 1) :
    p.csiDispatch 0x68 = [.privateMode (p.paramRaw 0) true] ∧ p.csiDispatch 0x6c = [.privateMode (p.paramRaw 0) false] := by
  unfold csiDispatch
  rw [if_pos hprivate, if_pos hprivate, hcount]
  exact ⟨rfl, rfl⟩

/-- The last byte of the request. -/
theorem Reading.request {n : Nat} (h : Reading n p) (hn : n ≠ 0) (hcolon : p.paramCount ≤ p.colon.length) (on : Bool) :
    p.byte (if on then 0x68 else 0x6c) = ({ p with state := .ground }, [.privateMode n on]) := by
  have hcount := h.started hn
  have hraw : p.paramRaw 0 = n := by
    unfold paramRaw
    rw [if_pos (by omega), h.value]
  have hlen : p.paramCount ≤ p.params.length ∧ p.paramCount ≤ p.colon.length := by
    refine ⟨?_, hcolon⟩
    rw [h.params, hcount]
    decide
  obtain ⟨hset, hreset⟩ := dispatch_mode h.private_ hcount
  cases on with
  | true =>
    rw [if_pos rfl, byte_csi h.state h.utf8Need (by decide)]
    unfold csiByte
    rw [if_neg (by decide), if_neg (by decide), if_neg (by decide), if_neg (by decide), if_pos (by decide), check_of hlen,
      hset, hraw]
  | false =>
    rw [if_neg (by decide), byte_csi h.state h.utf8Need (by decide)]
    unfold csiByte
    rw [if_neg (by decide), if_neg (by decide), if_neg (by decide), if_neg (by decide), if_pos (by decide), check_of hlen,
      hreset, hraw]

end Parser

namespace Term

variable {s s' t : Term}

variable {b : UInt8}

/-- A byte that asks for nothing. -/
theorem feed_quiet (h : (s.parser.byte b).2 = []) (bytes : Bytes) :
    s.feed (b :: bytes) = { s with parser := (s.parser.byte b).1 }.feed bytes := by
  have hbyte : s.byte b = { s with parser := (s.parser.byte b).1 } := by
    unfold byte
    rw [h]
    rfl
  show (s.byte b).feed bytes = _
  rw [hbyte]

/-- The rest of a request behind `ESC [`. -/
theorem feed_mode (hs : Inv s) (hopened : s.parser.Opened) (on : Bool) :
    ∃ q : Parser, q.Safe ∧ s.feed ((altRequest on).drop 2) = { s with parser := q }.privateMode 1049 on := by
  obtain ⟨h0, hops0⟩ := hopened.reading
  obtain ⟨h1, hops1⟩ := h0.digit (b := 0x31) (by decide) (by decide) (by decide)
  obtain ⟨h2, hops2⟩ := h1.digit (b := 0x30) (by decide) (by decide) (by decide)
  obtain ⟨h3, hops3⟩ := h2.digit (b := 0x34) (by decide) (by decide) (by decide)
  obtain ⟨h4, hops4⟩ := h3.digit (b := 0x39) (by decide) (by decide) (by decide)
  have hp0 := (byte_safe hs.parser 0x3f).safe
  have hp1 := (byte_safe hp0 0x31).safe
  have hp2 := (byte_safe hp1 0x30).safe
  have hp3 := (byte_safe hp2 0x34).safe
  have hp4 := (byte_safe hp3 0x39).safe
  have hlast := h4.request (by decide) (by rw [hp4.colon]; exact hp4.count) on
  have hp5 := (byte_safe hp4 (if on then 0x68 else 0x6c)).safe
  show ∃ q : Parser, q.Safe ∧ s.feed [0x3f, 0x31, 0x30, 0x34, 0x39, if on then 0x68 else 0x6c] = _
  rw [feed_quiet hops0, feed_quiet hops1, feed_quiet hops2, feed_quiet hops3, feed_quiet hops4]
  rw [hlast] at hp5
  refine ⟨_, hp5, ?_⟩
  unfold feed byte
  dsimp only [List.foldl]
  rw [hlast]
  rfl

/-! ### Putting the screen away -/

/-- The main screen is put away, with its grid and its scrollback. -/
structure Away (home s : Term) : Prop where
  altScreen : s.modes.altScreen = true
  savedScreen : s.savedScreen = some home.grid
  scrollback : s.scrollback = home.scrollback

variable {home : Term} {may : Special → Prop}

/-- Nothing brings it back but a request to leave. -/
theorem Effect.away (h : Effect may s s') (hmay : ∀ k, may k → k = .saveMain) (hs : Inv s)
    (haway : Away home s) : Away home s' := by
  obtain ⟨halt, hsaved, hlines⟩ := haway
  cases h with
  | quiet h =>
    exact ⟨h.altScreen.trans halt, h.savedScreen.trans hsaved, h.scrollback.trans hlines⟩
  | edits h =>
    have hscrollback : s'.scrollback = s.scrollback := by
      rcases h.scrollback with heq | ⟨hmain, -⟩
      · exact heq
      · exact absurd (halt.symm.trans hmain) (by decide)
    have hmodes : s'.modes = s.modes := by rw [h.frame]
    have hscreen : s'.savedScreen = s.savedScreen := by rw [h.frame]
    exact ⟨by rw [hmodes]; exact halt, hscreen.trans hsaved, hscrollback.trans hlines⟩
  | column col h => exact ⟨halt, hsaved, hlines⟩
  | setRow row =>
    rw [setRow_eq hs]
    exact ⟨halt, hsaved, hlines⟩
  | margins top bottom h => exact ⟨halt, hsaved, hlines⟩
  | saveCursor =>
    unfold Term.saveCursor
    rw [if_pos halt]
    exact ⟨halt, hsaved, hlines⟩
  | restoreCursor =>
    rw [restoreCursor_eq hs]
    exact ⟨halt, hsaved, hlines⟩
  | enterAlt clear h => exact absurd (halt.symm.trans h) (by decide)
  | saveMain => exact ⟨halt, hsaved, hlines⟩
  | leaveAlt h => exact absurd (hmay _ h) (by decide)
  | restoreMain h => exact absurd (hmay _ h) (by decide)
  | softReset h => exact absurd (hmay _ h) (by decide)
  | reset h => exact absurd (hmay _ h) (by decide)
  | clearScrollback h => exact absurd (hmay _ h) (by decide)

/-- Nor does anything but a request to enter it again touch the cursor that was saved. -/
theorem Effect.savedMain (h : Effect may s s') (hmay : ∀ k, ¬ may k) (hs : Inv s)
    (halt : s.modes.altScreen = true) : s'.savedMain = s.savedMain := by
  cases h with
  | quiet h => exact h.savedMain
  | edits h => rw [h.frame]
  | column col h => rfl
  | setRow row => rw [setRow_eq hs]
  | margins top bottom h => rfl
  | saveCursor =>
    unfold Term.saveCursor
    rw [if_pos halt]
  | restoreCursor => rw [restoreCursor_eq hs]
  | enterAlt clear h => exact absurd (halt.symm.trans h) (by decide)
  | saveMain h => exact absurd h (hmay _)
  | leaveAlt h => exact absurd h (hmay _)
  | restoreMain h => exact absurd h (hmay _)
  | softReset h => exact absurd h (hmay _)
  | reset h => exact absurd h (hmay _)
  | clearScrollback h => exact absurd h (hmay _)

theorem Effects.away (h : Effects may s s') (hmay : ∀ k, may k → k = .saveMain)
    (hs : Inv s) (haway : Away home s) : Away home s' := by
  induction h with
  | refl => exact haway
  | tail hsteps hlast ih => exact hlast.away hmay (Effects.inv hsteps hs) ih

theorem Effects.savedMain (h : Effects may s s') (hmay : ∀ k, ¬ may k) (hs : Inv s)
    (haway : Away home s) : s'.savedMain = s.savedMain := by
  induction h with
  | refl => rfl
  | tail hsteps hlast ih =>
    have hmiddle := Effects.away hsteps (fun k hk => absurd hk (hmay k)) hs haway
    exact (hlast.savedMain hmay (Effects.inv hsteps hs) hmiddle.altScreen).trans ih

/-- None of these bytes asks for it, each in the state in which it is read. -/
def Never (k : Special) (s : Term) (bytes : Bytes) : Prop :=
  ∀ before b after, bytes = before ++ b :: after → ¬ Asks k (s.feed before) b

theorem Never.nil (k : Special) (s : Term) : Never k s [] := by
  intro before b after heq
  exact absurd heq (append_ne_nil_of_right_ne_nil before (cons_ne_nil b after)).symm

variable {bytes : Bytes} {k : Special}

theorem Never.cons (hb : ¬ Asks k s b) (h : Never k (s.byte b) bytes) :
    Never k s (b :: bytes) := by
  intro before b' after heq
  cases before with
  | nil =>
    rw [← (List.cons.inj heq).1]
    exact hb
  | cons b₁ before =>
    obtain ⟨rfl, hrest⟩ := List.cons.inj heq
    exact h before b' after hrest

theorem Never.head (h : Never k s (b :: bytes)) : ¬ Asks k s b :=
  h [] b bytes rfl

theorem Never.tail (h : Never k s (b :: bytes)) : Never k (s.byte b) bytes := by
  intro before b' after heq
  exact h (b :: before) b' after (by rw [heq]; rfl)

theorem feed_away (hs : Inv s) (haway : Away home s) (hnever : ∀ k, k ≠ .saveMain → Never k s bytes) :
    Away home (s.feed bytes) ∧ (Never .saveMain s bytes → (s.feed bytes).savedMain = s.savedMain) := by
  induction bytes generalizing s with
  | nil => exact ⟨haway, fun _ => rfl⟩
  | cons b bytes ih =>
    have hparsed : Away home (s.parsed b) := ⟨haway.altScreen, haway.savedScreen, haway.scrollback⟩
    have hsteps := byte_effects_asks hs b
    have hbyte := Effects.away hsteps (fun k hk => by_contra fun hne => (hnever k hne).head hk) (inv_parsed hs b) hparsed
    obtain ⟨hrest, hsaved⟩ := ih (inv_byte hs b) hbyte (fun k hk => (hnever k hk).tail)
    refine ⟨hrest, fun hmain => (hsaved hmain.tail).trans ?_⟩
    have hsame : (s.byte b).savedMain = (s.parsed b).savedMain := by
      refine Effects.savedMain hsteps (fun k hk => ?_) (inv_parsed hs b) hparsed
      by_cases heq : k = .saveMain
      · rw [heq] at hk
        exact hmain.head hk
      · exact (hnever k heq).head hk
    exact hsame

/-! ### There and back -/

theorem leftover_may {p : Parser} {op : Op} (h : p.Leftover op) (k : Special) : ¬ op.May k := by
  rcases h with ⟨ch, rfl, -⟩ | ⟨bytes, rfl⟩
  · exact id
  · exact id

/-- `ESC [` asks for nothing special, and the parser is ready for a request behind it. -/
theorem feed_open (hs : Inv s) (hstring : ¬ s.parser.InString) :
    (∀ k, Never k s [0x1b, 0x5b]) ∧ (s.feed [0x1b, 0x5b]).parser.Opened := by
  obtain ⟨hopened, hops⟩ := Parser.opens hs.parser hstring
  have hfirst (k : Special) : ¬ Asks k s 0x1b := by
    rintro ⟨op, hop, hk⟩
    exact leftover_may (hops op (mem_append_left _ hop)) k hk
  have hparser : (s.byte 0x1b).parser = (s.parser.byte 0x1b).1 := parser_after hs (hfirst .reset)
  have hsecond (k : Special) : ¬ Asks k (s.byte 0x1b) 0x5b := by
    rintro ⟨op, hop, hk⟩
    rw [hparser] at hop
    exact leftover_may (hops op (mem_append_right _ hop)) k hk
  have hlast : (s.feed [0x1b, 0x5b]).parser = ((s.byte 0x1b).parser.byte 0x5b).1 :=
    parser_after (inv_byte hs 0x1b) (hsecond .reset)
  refine ⟨fun k => .cons (hfirst k) (.cons (hsecond k) (Never.nil k _)), ?_⟩
  rw [hlast, hparser]
  exact hopened

/-- What a user sees is the same, whatever the title and the answers are. -/
structure SamePage (s s' : Term) : Prop where
  grid : s'.grid = s.grid
  scrollback : s'.scrollback = s.scrollback
  cursor : s'.cursor = s.cursor
  modes : s'.modes = s.modes

theorem samePage_ops {ops : List Op} (h : ∀ op ∈ ops, ∃ bytes, op = .osc bytes) : SamePage s (ops.foldl apply s) := by
  induction ops generalizing s with
  | nil => exact ⟨rfl, rfl, rfl, rfl⟩
  | cons op ops ih =>
    obtain ⟨bytes, rfl⟩ := h op mem_cons_self
    have hosc : SamePage s (s.oscDispatch bytes) := by
      unfold oscDispatch
      dsimp only
      split
      · exact ⟨rfl, rfl, rfl, rfl⟩
      split
      · exact ⟨rfl, rfl, rfl, rfl⟩
      · exact ⟨rfl, rfl, rfl, rfl⟩
    have hrest := ih (s := s.oscDispatch bytes) fun o ho => h o (mem_cons_of_mem _ ho)
    exact ⟨hrest.grid.trans hosc.grid, hrest.scrollback.trans hosc.scrollback, hrest.cursor.trans hosc.cursor,
      hrest.modes.trans hosc.modes⟩

theorem samePage_open (hs : Inv s) (hstring : ¬ s.parser.InString) (hchar : s.parser.utf8Need = 0) :
    SamePage s (s.feed [0x1b, 0x5b]) := by
  obtain ⟨-, hops⟩ := Parser.opens hs.parser hstring
  have hosc (op : Op) (hop : op ∈ (s.parser.byte 0x1b).2 ++ ((s.parser.byte 0x1b).1.byte 0x5b).2) : ∃ bytes, op = .osc bytes := by
    rcases hops op hop with ⟨-, -, hne⟩ | hbytes
    · exact absurd hchar hne
    · exact hbytes
  have hparser : (s.byte 0x1b).parser = (s.parser.byte 0x1b).1 :=
    parser_after hs fun ⟨op, hop, hk⟩ => leftover_may (hops op (mem_append_left _ hop)) .reset hk
  have hfirst : SamePage s (s.byte 0x1b) :=
    have h := samePage_ops (s := s.parsed 0x1b) fun op hop => hosc op (mem_append_left _ hop)
    ⟨h.grid, h.scrollback, h.cursor, h.modes⟩
  have hsecond : SamePage (s.byte 0x1b) ((s.byte 0x1b).byte 0x5b) :=
    have h : SamePage ((s.byte 0x1b).parsed 0x5b) (((s.byte 0x1b).parser.byte 0x5b).2.foldl apply ((s.byte 0x1b).parsed 0x5b)) :=
      samePage_ops fun op hop => hosc op (mem_append_right _ (by rw [← hparser]; exact hop))
    ⟨h.grid, h.scrollback, h.cursor, h.modes⟩
  exact ⟨hsecond.grid.trans hfirst.grid, hsecond.scrollback.trans hfirst.scrollback, hsecond.cursor.trans hfirst.cursor,
    hsecond.modes.trans hfirst.modes⟩

theorem feed_request (s : Term) (on : Bool) : s.feed (altRequest on) = (s.feed [0x1b, 0x5b]).feed ((altRequest on).drop 2) := by
  unfold feed
  rw [← foldl_append]
  rfl

/-- The request to enter puts the main screen away. -/
theorem away_entered (hs : Inv s) (hmain : s.modes.altScreen = false) (hstring : ¬ s.parser.InString)
    (hchar : s.parser.utf8Need = 0) :
    Away s (s.feed (altRequest true)) ∧ (s.feed (altRequest true)).savedMain = s.cursor := by
  obtain ⟨-, hopened⟩ := feed_open hs hstring
  have hpage := samePage_open hs hstring hchar
  have hinv := inv_feed hs [0x1b, 0x5b]
  obtain ⟨q, hq, hmode⟩ := feed_mode hinv hopened true
  rw [feed_request, hmode]
  generalize s.feed [0x1b, 0x5b] = t at hpage hinv
  have hsave : Inv { t with parser := q, savedMain := t.cursor } := { hinv with parser := hq, savedMain := hinv.cursor }
  have halt : ({ t with parser := q, savedMain := t.cursor } : Term).modes.altScreen = false := by
    dsimp only
    rw [hpage.modes]
    exact hmain
  have henter := enterAltScreen_inv hsave halt true
  have haway : Away s ({ t with parser := q, savedMain := t.cursor }.enterAltScreen true) := by
    rw [enterAltScreen_eq halt]
    exact ⟨rfl, congrArg some hpage.grid, hpage.scrollback⟩
  have hsaved : ({ t with parser := q, savedMain := t.cursor }.enterAltScreen true).savedMain = s.cursor := by
    rw [enterAltScreen_eq halt]
    exact hpage.cursor
  show Away s (Term.clearCells 0 _ ({ t with parser := q, savedMain := t.cursor }.enterAltScreen true)) ∧
    (Term.clearCells 0 _ ({ t with parser := q, savedMain := t.cursor }.enterAltScreen true)).savedMain = s.cursor
  generalize Term.enterAltScreen true { t with parser := q, savedMain := t.cursor } = u at henter haway hsaved
  have hclear : Effect (fun _ => False) u (u.clearCells 0 u.grid.length) := .edits (clearAll_edits henter)
  exact ⟨hclear.away (fun _ hk => hk.elim) henter haway,
    (hclear.savedMain (fun _ => id) henter haway.altScreen).trans hsaved⟩

/-- The request to leave brings it back, with the cursor that was saved. -/
theorem left_home (hs : Inv s) (haway : Away home s) (hstring : ¬ s.parser.InString) :
    (s.feed (altRequest false)).grid = home.grid ∧ (s.feed (altRequest false)).scrollback = home.scrollback ∧
    (s.feed (altRequest false)).cursor.row = s.savedMain.row ∧ (s.feed (altRequest false)).cursor.col = s.savedMain.col ∧
    (s.feed (altRequest false)).cursor.pen = s.savedMain.pen := by
  obtain ⟨hnever, hopened⟩ := feed_open hs hstring
  obtain ⟨hopen, hsaved⟩ := feed_away hs haway fun k _ => hnever k
  have hcursor := hsaved (hnever .saveMain)
  have hinv := inv_feed hs [0x1b, 0x5b]
  obtain ⟨q, -, hmode⟩ := feed_mode hinv hopened false
  rw [feed_request, hmode]
  generalize s.feed [0x1b, 0x5b] = t at hopen hcursor hinv
  have hinside := hinv.savedMain
  have hleave : { t with parser := q }.leaveAltScreen = { t with
      parser := q
      grid := home.grid
      savedScreen := none
      modes := { t.modes with altScreen := false }
      top := 0
      bottom := t.rows - 1 }.markAllDirty := by
    unfold leaveAltScreen
    rw [if_pos hopen.altScreen]
    dsimp only
    rw [hopen.savedScreen]
    rfl
  unfold privateMode
  dsimp only
  rw [if_neg (by decide), hleave]
  refine ⟨rfl, hopen.scrollback, ?_, ?_, ?_⟩
  · rw [← hcursor]
    exact min_eq_left (Nat.le_sub_one_of_lt hinside.1)
  · rw [← hcursor]
    exact min_eq_left (Nat.le_sub_one_of_lt hinside.2)
  · rw [← hcursor]
    rfl

/-- **The alternate screen is isolated**: between the two requests, nothing that asks neither to leave nor for
    a reset nor to forget the scrollback changes the main grid and the scrollback; if nothing asks to enter
    again either, the cursor comes back where it was, with its pen. -/
theorem alt_screen_isolated (h : Reached Fits (fun _ c => c.Fits) s) (hmain : s.modes.altScreen = false)
    (hstring : ¬ s.parser.InString) (hchar : s.parser.utf8Need = 0) (bytes : Bytes)
    (hnever : ∀ k, k ≠ .saveMain → Never k (s.feed (altRequest true)) bytes)
    (hend : ¬ ((s.feed (altRequest true)).feed bytes).parser.InString) :
    let back := ((s.feed (altRequest true)).feed bytes).feed (altRequest false)
    back.grid = s.grid ∧ back.scrollback = s.scrollback ∧
      (Never .saveMain (s.feed (altRequest true)) bytes →
        back.cursor.row = s.cursor.row ∧ back.cursor.col = s.cursor.col ∧ back.cursor.pen = s.cursor.pen) := by
  have hs := inv_reached h
  obtain ⟨haway, hcursor⟩ := away_entered hs hmain hstring hchar
  have hentered := inv_feed hs (altRequest true)
  obtain ⟨hstill, hsaved⟩ := feed_away hentered haway hnever
  obtain ⟨hgrid, hlines, hrow, hcol, hpen⟩ := left_home (inv_feed hentered bytes) hstill hend
  refine ⟨hgrid, hlines, fun honce => ?_⟩
  have hhome := (hsaved honce).trans hcursor
  rw [hhome] at hrow hcol hpen
  exact ⟨hrow, hcol, hpen⟩

theorem not_asks_of_nil (h : (s.parser.byte b).2 = []) : ¬ Asks k s b := by
  rintro ⟨op, hop, -⟩
  rw [h] at hop
  cases hop

/-- A prompt, and a program that clears its screen. -/
theorem alt_screen_isolated_prompt :
    let home := (new 8 4 0).feed [0x24]
    ((((home.feed (altRequest true)).feed [0x0d]).feed (altRequest false)).cursor.col = 1) := by
  have hreached : Reached Fits (fun _ c => c.Fits) ((new 8 4 0).feed [0x24]) :=
    Reach.next (a := .feed [0x24]) (Reach.start ⟨8, 4, 0, ⟨by decide, by decide⟩, rfl⟩) trivial rfl
  have hops : ((((new 8 4 0).feed [0x24]).feed (altRequest true)).parser.byte 0x0d).2 = [.carriageReturn] := by rfl
  have hnever (k : Special) : Never k (((new 8 4 0).feed [0x24]).feed (altRequest true)) [0x0d] := by
    refine .cons ?_ (.nil k _)
    rintro ⟨op, hop, hk⟩
    rw [hops, mem_singleton] at hop
    subst hop
    exact hk
  have hback := alt_screen_isolated hreached rfl (by rintro (h | h) <;> cases h) rfl [0x0d] (fun k _ => hnever k)
    (by rintro (h | h) <;> cases h)
  exact (hback.2.2 (hnever .saveMain)).2.1

/-- In a string that is ignored, the request to leave is ignored. -/
theorem request_in_string :
    ¬ ∀ s, Reached (fun _ _ => True) (fun _ _ => True) s → s.modes.altScreen = false → ∀ bytes,
      (∀ k, k ≠ .saveMain → Never k (s.feed (altRequest true)) bytes) →
      let back := ((s.feed (altRequest true)).feed bytes).feed (altRequest false)
      back.grid = s.grid ∧ back.scrollback = s.scrollback ∧ back.cursor.row = s.cursor.row ∧
        back.cursor.col = s.cursor.col ∧ back.cursor.pen = s.cursor.pen := by
  intro h
  have hreached : Reached (fun _ _ => True) (fun _ _ => True) ((new 2 2 0).feed [0x24]) :=
    Reach.next (a := .feed [0x24]) (Reach.start ⟨2, 2, 0, trivial, rfl⟩) trivial rfl
  have hnever (k : Special) : Never k (((new 2 2 0).feed [0x24]).feed (altRequest true)) [0x1b, 0x50] :=
    .cons (not_asks_of_nil rfl) (.cons (not_asks_of_nil rfl) (.nil k _))
  have hback := (h _ hreached rfl [0x1b, 0x50] fun k _ => hnever k).1
  exact absurd hback (by decide +kernel)

/-- The second of two requests to enter saves the cursor of the alternate screen in the place of the other. -/
example :
    ((((new 4 4 0).feed (altRequest true)).feed (0x24 :: altRequest true)).feed (altRequest false)).cursor.col = 1 := by
  decide +kernel

end Term

end HamixOS.Vt
