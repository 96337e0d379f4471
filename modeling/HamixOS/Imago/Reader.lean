import HamixOS.Imago.Inflate
import Mathlib.Tactic.IntervalCases

namespace HamixOS.Imago

open Lib List Nat UInt8

/-!
# What the reader has read

`Bits.read` counts the bits taken from the data; every operation of the reader adds to it, and as long as
the reader is not exhausted it is bounded by the length of the data.  With this bound the loops of the
decoder come to an end: `inflateCounted` and `inflateStream` always return.
-/

namespace Bits

variable {data : Bytes} {r r' r'' : Bits}

structure Ok (data : Bytes) (r : Bits) : Prop where
  count : r.count ≤ 64
  behind : r.count ≤ 8 * r.pos
  overrun : r.overrun = r.pos - data.length

/-- The bits that have been taken. -/
def read (r : Bits) : Nat := 8 * r.pos - r.count

/-- The reader has taken at least `n` bits. -/
structure Reads (data : Bytes) (n : Nat) (r r' : Bits) : Prop where
  ok : Ok data r'
  read : r.read + n ≤ r'.read
  overrun : r.overrun ≤ r'.overrun

theorem Reads.refl (h : Ok data r) : Reads data 0 r r := ⟨h, le_refl _, le_refl _⟩

theorem Reads.trans {n m : Nat} (h : Reads data n r r') (h' : Reads data m r' r'') : Reads data (n + m) r r'' := by
  refine ⟨h'.ok, ?_, h.overrun.trans h'.overrun⟩
  have h1 := h.read
  have h2 := h'.read
  omega

theorem Reads.mono {n m : Nat} (h : Reads data n r r') (hle : m ≤ n) : Reads data m r r' := by
  refine ⟨h.ok, ?_, h.overrun⟩
  have h1 := h.read
  omega

theorem Reads.exhausted {n : Nat} (h : Reads data n r r') (hr : r.exhausted) : r'.exhausted := lt_of_lt_of_le hr h.overrun

theorem new_ok : Ok data new := ⟨zero_le _, zero_le _, (Nat.zero_sub _).symm⟩

/-- The most that has been read while the reader is not exhausted. -/
def most (data : Bytes) : Nat := 8 * (data.length + 8)

theorem Ok.exhausted (h : Ok data r) (hmost : most data < r.read) : r.exhausted := by
  have h1 := h.overrun
  unfold most Bits.read at hmost
  unfold Bits.exhausted
  omega

theorem refillSlow_reads (turns : Nat) (h : Ok data r) :
    Reads data 0 r (refillSlow data turns r) ∧ (56 < r.count + 8 * turns → 56 < (refillSlow data turns r).count) := by
  induction turns generalizing r with
  | zero => exact ⟨.refl h, fun hc => hc⟩
  | succ turns ih =>
    unfold refillSlow
    split
    next hcount =>
      obtain ⟨hc, hb, ho⟩ := h
      have hok : Ok data { pos := r.pos + 1
                           buffer := r.buffer ||| (((data.getD r.pos 0).toNat <<< r.count) % 2 ^ 64)
                           count := r.count + 8
                           overrun := if r.pos < data.length then r.overrun else r.overrun + 1 } := by
        refine ⟨?_, ?_, ?_⟩
        · dsimp only
          omega
        · dsimp only
          omega
        · dsimp only
          split <;> omega
      obtain ⟨hreads, hfull⟩ := ih hok
      refine ⟨⟨hreads.ok, ?_, ?_⟩, fun hc => hfull ?_⟩
      · have hread := hreads.read
        unfold Bits.read at hread ⊢
        dsimp only at hread
        omega
      · refine le_trans ?_ hreads.overrun
        dsimp only
        split <;> omega
      · dsimp only
        omega
    next hcount => exact ⟨.refl h, fun _ => not_le.mp hcount⟩

theorem or_56 (count : Nat) (h : count < 64) : count ||| 56 = 56 + count % 8 := by
  have hall : ∀ c < 64, c ||| 56 = 56 + c % 8 := by decide
  exact hall count h

theorem refill_reads (h : Ok data r) (hcount : r.count < 64) : Reads data 0 r (r.refill data) ∧ 55 < (r.refill data).count := by
  unfold refill
  split
  next hfast =>
    obtain ⟨hc, hb, ho⟩ := h
    have hor := or_56 r.count hcount
    refine ⟨⟨⟨?_, ?_, ?_⟩, ?_, ?_⟩, ?_⟩
    · dsimp only
      omega
    · dsimp only
      omega
    · dsimp only
      omega
    · unfold Bits.read
      dsimp only
      omega
    · exact le_refl _
    · dsimp only
      omega
  next =>
    obtain ⟨hreads, hfull⟩ := refillSlow_reads 8 h
    exact ⟨hreads, lt_of_succ_lt (hfull (by omega))⟩

theorem consume_reads {n : Nat} (h : Ok data r) (hn : n ≤ r.count) : Reads data n r (r.consume n) := by
  obtain ⟨hc, hb, ho⟩ := h
  unfold consume
  refine ⟨⟨?_, ?_, ho⟩, ?_, le_refl _⟩
  · dsimp only
    omega
  · dsimp only
    omega
  · unfold Bits.read
    dsimp only
    omega

theorem peek_lt (r : Bits) (n : Nat) : r.peek n < 2 ^ n := mod_lt _ (Nat.two_pow_pos n)

theorem take_lt (data : Bytes) (r : Bits) (n : Nat) : (r.take data n).1 < 2 ^ n := peek_lt _ n

/-- The reader with enough bits in its buffer. -/
theorem filled_reads {n : Nat} (h : Ok data r) (hn : n ≤ 55) :
    Reads data 0 r (if r.count < n then r.refill data else r) ∧ n ≤ (if r.count < n then r.refill data else r).count := by
  split
  next hlt =>
    obtain ⟨hreads, hcount⟩ := refill_reads h (show r.count < 64 by omega)
    exact ⟨hreads, by omega⟩
  next hge => exact ⟨.refl h, not_lt.mp hge⟩

theorem take_reads {n : Nat} (h : Ok data r) (hn : n ≤ 55) : Reads data n r (r.take data n).2 := by
  obtain ⟨hreads, hcount⟩ := filled_reads h hn
  exact (hreads.trans (consume_reads hreads.ok hcount)).mono (by omega)

theorem align_reads (h : Ok data r) : Reads data 0 r r.align :=
  (consume_reads h (mod_le _ _)).mono (zero_le _)

end Bits

/-! ### Tables -/

/-- Every entry takes at least one bit, and at most 15. -/
def Table.Steps (t : Table) : Prop := ∀ e ∈ t, 1 ≤ e.length ∧ e.length ≤ 15

theorem Table.Steps.getD {t : Table} (h : t.Steps) (i : Nat) : 1 ≤ (t.getD i invalid).length ∧ (t.getD i invalid).length ≤ 15 := by
  rw [getD_eq_getElem?_getD]
  cases hi : t[i]? with
  | none => exact ⟨le_refl 1, by decide⟩
  | some e => exact h e (mem_of_getElem? hi)

namespace Bits

variable {data : Bytes} {r r' : Bits}

theorem decode_reads {t : Table} (ht : t.Steps) (h : Ok data r) : Reads data 1 r (r.decode data t).2 := by
  obtain ⟨hreads, hcount⟩ := filled_reads h (show 32 ≤ 55 by omega)
  unfold decode
  dsimp only
  generalize (if r.count < 32 then r.refill data else r) = r₁ at hreads hcount ⊢
  split
  · have hten : primaryBits = 10 := rfl
    have hfirst := consume_reads hreads.ok (show primaryBits ≤ r₁.count by omega)
    obtain ⟨h1, h2⟩ := ht.getD ((t.getD (r₁.peek primaryBits) Table.invalid).value +
      (r₁.consume primaryBits).peek ((t.getD (r₁.peek primaryBits) Table.invalid).extra % 16))
    have hleft : (r₁.consume primaryBits).count = r₁.count - primaryBits := rfl
    exact ((hreads.trans hfirst).trans (consume_reads hfirst.ok (by omega))).mono (by omega)
  · obtain ⟨h1, h2⟩ := ht.getD (r₁.peek primaryBits)
    exact (hreads.trans (consume_reads hreads.ok (by omega))).mono (by omega)

end Bits

namespace Table

variable {P : Entry → Prop}

theorem forall_set {t : Table} (h : ∀ e ∈ t, P e) {e : Entry} (he : P e) (i : Nat) : ∀ e' ∈ t.set i e, P e' := by
  intro e' hmem
  rcases mem_or_eq_of_mem_set hmem with hmem | rfl
  · exact h e' hmem
  · exact he

theorem forall_fill {e : Entry} (he : P e) (offset step bound turns i : Nat) {t : Table} (h : ∀ e ∈ t, P e) :
    ∀ e' ∈ fill e offset step bound turns i t, P e' := by
  induction turns generalizing i t with
  | zero => exact h
  | succ turns ih =>
    unfold fill
    split
    · exact ih _ (forall_set h he _)
    · exact h

theorem forall_foldl {α β : Type} {Q : β → Prop} {f : β → α → β} {l : List α} (hf : ∀ b, Q b → ∀ a ∈ l, Q (f b a)) {b : β}
    (hb : Q b) : Q (l.foldl f b) := by
  induction l generalizing b with
  | nil => exact hb
  | cons a l ih =>
    exact ih (fun b hb a' ha' => hf b hb a' (mem_cons_of_mem a ha')) (hf b hb a mem_cons_self)

theorem forall_heads (hinvalid : P invalid) (hhead : ∀ bits offset, P ⟨primaryBits, bits, .subtable, offset⟩) (sub : List Nat) :
    ∀ e ∈ heads sub, P e := by
  refine forall_foldl (Q := fun t : Table => ∀ e ∈ t, P e) (fun t ht i _ => ?_) fun e he => ?_
  · dsimp only
    split
    · refine forall_set (fun e he => ?_) (hhead _ _) i
      rcases mem_append.mp he with he | he
      · exact ht e he
      · rw [eq_of_mem_replicate he]
        exact hinvalid
    · exact ht
  · rw [eq_of_mem_replicate he]
    exact hinvalid

theorem mem_codes {lengths : List Nat} {sym : Nat} {next : List Nat} {c : Code} (h : c ∈ codes lengths sym next) :
    c.len ≠ 0 ∧ c.len ∈ lengths := by
  induction lengths generalizing sym next with
  | nil => exact absurd h not_mem_nil
  | cons len lengths ih =>
    unfold codes at h
    split at h
    next => exact (ih h).imp_right (mem_cons_of_mem len)
    next hne =>
      rcases mem_cons.mp h with rfl | h
      · exact ⟨hne, mem_cons_self⟩
      · exact (ih h).imp_right (mem_cons_of_mem len)

/-- What holds of the invalid entry, of the heads of subtables and of the entries of symbols holds of a
whole table. -/
theorem build_forall {lengths : List Nat} {symbol : Symbol} {t : Table} (hinvalid : P invalid)
    (hhead : ∀ bits offset, P ⟨primaryBits, bits, .subtable, offset⟩)
    (hsymbol : ∀ len sym, 1 ≤ len → len ≤ 15 → P ⟨len, (symbol sym).1, (symbol sym).2.1, (symbol sym).2.2⟩)
    (hlengths : ∀ l ∈ lengths, l ≤ 15) (h : build lengths symbol = .ok t) : ∀ e ∈ t, P e := by
  unfold build at h
  split at h
  · cases h
  · cases h
    refine forall_foldl (Q := fun t : Table => ∀ e ∈ t, P e) (fun t ht c hc => ?_) (forall_heads hinvalid hhead _)
    obtain ⟨hne, hmem⟩ := mem_codes hc
    have hle := hlengths c.len hmem
    unfold place
    dsimp only
    split
    · exact forall_fill (hsymbol c.len c.sym (by omega) hle) _ _ _ _ _ ht
    next hlong => exact forall_fill (hsymbol (c.len - primaryBits) c.sym (by omega) (by omega)) _ _ _ _ _ ht

theorem build_steps {lengths : List Nat} {symbol : Symbol} {t : Table} (hlengths : ∀ l ∈ lengths, l ≤ 15)
    (h : build lengths symbol = .ok t) : t.Steps :=
  build_forall (by decide) (fun _ _ => ⟨le_add_left 1 9, le_add_right 10 5⟩) (fun _ _ h1 h2 => ⟨h1, h2⟩) hlengths h

/-- No distance of the table is above 32768. -/
def Near (t : Table) : Prop := ∀ e ∈ t, e.kind = .length → e.value + 2 ^ (e.extra % 16) ≤ window + 1

theorem build_near {lengths : List Nat} {t : Table} (hlengths : ∀ l ∈ lengths, l ≤ 15)
    (h : build lengths distanceSymbol = .ok t) : t.Near := by
  refine build_forall (fun hk => by cases hk) (fun _ _ hk => by cases hk) (fun _ sym _ _ => ?_) hlengths h
  have hall : ∀ sym < 30, distBase.getD sym 0 + 2 ^ (distExtra.getD sym 0 % 16) ≤ window + 1 := by decide
  unfold distanceSymbol
  split
  next hsym => exact fun _ => hall sym hsym
  next => exact fun hk => by cases hk

end Table

namespace Bits

/-- What is decoded is an entry of the table. -/
theorem decode_mem {data : Bytes} {t : Table} {r : Bits} : (r.decode data t).1 ∈ t ∨ (r.decode data t).1 = Table.invalid := by
  have hget (i : Nat) : t.getD i Table.invalid ∈ t ∨ t.getD i Table.invalid = Table.invalid := by
    rw [getD_eq_getElem?_getD]
    cases hi : t[i]? with
    | none => exact .inr rfl
    | some e => exact .inl (mem_of_getElem? hi)
  unfold decode
  dsimp only
  generalize (if r.count < 32 then r.refill data else r) = r₁
  split
  · exact hget _
  · exact hget _

end Bits

/-- What both tables of a block satisfy. -/
structure Tables (lit dist : Table) : Prop where
  litSteps : lit.Steps
  distSteps : dist.Steps
  near : dist.Near

theorem fixedTables_ok {lit dist : Table} (h : fixedTables = .ok (lit, dist)) : Tables lit dist := by
  unfold fixedTables at h
  simp only [bind, Except.bind, pure, Except.pure] at h
  split at h
  · cases h
  next lit' hlit =>
    split at h
    · cases h
    next dist' hdist =>
      cases h
      have hlengths : ∀ l ∈ replicate 144 8 ++ replicate 112 9 ++ replicate 24 7 ++ replicate 8 8, l ≤ 15 := by
        intro l hl
        simp only [mem_append, mem_replicate] at hl
        omega
      have hfive : ∀ l ∈ replicate 30 5, l ≤ 15 := by decide
      exact ⟨Table.build_steps hlengths hlit, Table.build_steps hfive hdist, Table.build_near hfive hdist⟩

section

variable {data : Bytes} {r r' : Bits}

theorem codeLengths_reads {order lengths : List Nat} (hr : r.Ok data) (hlengths : ∀ l ∈ lengths, l ≤ 15) :
    Bits.Reads data 0 r (codeLengths data order lengths r).2 ∧ ∀ l ∈ (codeLengths data order lengths r).1, l ≤ 15 := by
  induction order generalizing lengths r with
  | nil => exact ⟨.refl hr, hlengths⟩
  | cons index order ih =>
    have htake := Bits.take_reads (n := 3) hr (by omega)
    have hlt := Bits.take_lt data r 3
    have hset : ∀ l ∈ lengths.set index (r.take data 3).1, l ≤ 15 := fun l hl => by
      rcases mem_or_eq_of_mem_set hl with hl | heq
      · exact hlengths l hl
      · omega
    obtain ⟨hreads, hle⟩ := ih htake.ok hset
    exact ⟨(htake.trans hreads).mono (zero_le _), hle⟩

theorem fillLengths_le {prev n i : Nat} {lengths : List Nat} (hprev : prev ≤ 15) (hlengths : ∀ l ∈ lengths, l ≤ 15) :
    ∀ l ∈ fillLengths prev n i lengths, l ≤ 15 := by
  induction n generalizing i lengths with
  | zero => exact hlengths
  | succ n ih =>
    refine ih fun l hl => ?_
    rcases mem_or_eq_of_mem_set hl with hl | rfl
    · exact hlengths l hl
    · exact hprev

theorem getD_le {lengths : List Nat} (hlengths : ∀ l ∈ lengths, l ≤ 15) (i : Nat) : lengths.getD i 0 ≤ 15 := by
  rw [getD_eq_getElem?_getD]
  cases hi : lengths[i]? with
  | none => exact zero_le _
  | some l => exact hlengths l (mem_of_getElem? hi)

theorem lengthSymbol_reads {sym i n : Nat} {lengths : List Nat} {value : Option Nat} (hr : r.Ok data)
    (hlengths : ∀ l ∈ lengths, l ≤ 15) (h : lengthSymbol data sym i lengths r = .ok (n, value, r')) :
    Bits.Reads data 0 r r' ∧ ∀ v ∈ value, v ≤ 15 := by
  unfold lengthSymbol at h
  split at h
  next hsym =>
    cases h
    exact ⟨.refl hr, fun v hv => by cases hv; exact hsym⟩
  · split at h
    · split at h
      · cases h
      · cases h
        exact ⟨(Bits.take_reads hr (by omega)).mono (zero_le _), fun v hv => by cases hv; exact getD_le hlengths _⟩
    · split at h
      · cases h
        exact ⟨(Bits.take_reads hr (by omega)).mono (zero_le _), fun v hv => by cases hv⟩
      · split at h
        · cases h
          exact ⟨(Bits.take_reads hr (by omega)).mono (zero_le _), fun v hv => by cases hv⟩
        · cases h

theorem readLengths_reads {codes : Table} (hcodes : codes.Steps) {total turns i : Nat} {lengths lengths' : List Nat} (hr : r.Ok data)
    (hlengths : ∀ l ∈ lengths, l ≤ 15) (h : readLengths data codes total turns i lengths r = .ok (lengths', r')) :
    Bits.Reads data 0 r r' ∧ ∀ l ∈ lengths', l ≤ 15 := by
  induction turns generalizing i lengths r with
  | zero =>
    cases h
    exact ⟨.refl hr, hlengths⟩
  | succ turns ih =>
    unfold readLengths at h
    split at h
    · dsimp only at h
      have hdecode := Bits.decode_reads hcodes hr
      generalize r.decode data codes = p at h hdecode
      split at h
      · cases h
      next n value r₁ hsym =>
        obtain ⟨hreads, hvalue⟩ := lengthSymbol_reads hdecode.ok hlengths hsym
        split at h
        · cases h
        · split at h
          · cases h
          · have hle : ∀ l ∈ value.elim lengths fun v => fillLengths v n i lengths, l ≤ 15 := by
              cases value with
              | none => exact hlengths
              | some v => exact fillLengths_le (hvalue v rfl) hlengths
            obtain ⟨hrest, hle'⟩ := ih hreads.ok hle (by cases value <;> exact h)
            exact ⟨((hdecode.trans hreads).trans hrest).mono (zero_le _), hle'⟩
    · cases h
      exact ⟨.refl hr, hlengths⟩

theorem dynamicTables_ok {lit dist : Table} (hr : r.Ok data) (h : dynamicTables data r = .ok (lit, dist, r')) :
    Tables lit dist ∧ Bits.Reads data 0 r r' := by
  unfold dynamicTables at h
  dsimp only at h
  have h1 := Bits.take_reads (n := 5) hr (by omega)
  have h2 := Bits.take_reads (n := 5) h1.ok (by omega)
  have h3 := Bits.take_reads (n := 4) h2.ok (by omega)
  generalize r.take data 5 = p1 at h h1 h2 h3
  generalize p1.2.take data 5 = p2 at h h2 h3
  generalize p2.2.take data 4 = p3 at h h3
  obtain ⟨h4, hcode⟩ := @codeLengths_reads data p3.2 (codeOrder.take (p3.1 + 4)) (replicate 19 0) h3.ok
    fun l hl => by rw [eq_of_mem_replicate hl]; exact zero_le _
  generalize codeLengths data (codeOrder.take (p3.1 + 4)) (replicate 19 0) p3.2 = p4 at h h4 hcode
  split at h
  · cases h
  next codes hcodes =>
    split at h
    · cases h
    next lengths r₁ hread =>
      obtain ⟨h5, hlengths⟩ := readLengths_reads (Table.build_steps hcode hcodes) h4.ok
        (fun l hl => by rw [eq_of_mem_replicate hl]; exact zero_le _) hread
      split at h
      · cases h
      · split at h
        · cases h
        next lit' hlit =>
          split at h
          · cases h
          next dist' hdist =>
            cases h
            have hlitLe : ∀ l ∈ lengths.take (p1.1 + 257), l ≤ 15 := fun l hl => hlengths l (mem_of_mem_take hl)
            have hdistLe : ∀ l ∈ (lengths.drop (p1.1 + 257)).take (p2.1 + 1), l ≤ 15 := fun l hl =>
              hlengths l (mem_of_mem_drop (mem_of_mem_take hl))
            exact ⟨⟨Table.build_steps hlitLe hlit, Table.build_steps hdistLe hdist, Table.build_near hdistLe hdist⟩,
              ((((h1.trans h2).trans h3).trans h4).trans h5).mono (zero_le _)⟩

/-! ### Blocks come to an end -/

theorem storedBits_reads {n : Nat} {got : Bytes} (hr : r.Ok data) : Bits.Reads data 0 r (storedBits data n r got).2.1 := by
  induction n generalizing r got with
  | zero => exact .refl hr
  | succ n ih =>
    unfold storedBits
    split
    · have htake := Bits.take_reads (n := 8) hr (by omega)
      exact (htake.trans (ih htake.ok)).mono (zero_le _)
    · exact .refl hr

/-- Behind a stored block the reader starts anew, further on. -/
theorem stored_reads {got : Bytes} (hr : r.Ok data) (h : stored data r = .ok (got, r')) :
    r'.Ok data ∧ r.read ≤ r'.read ∧ ¬ r'.exhausted := by
  unfold stored at h
  dsimp only at h
  have h0 := Bits.align_reads hr
  have h1 := Bits.take_reads (n := 16) h0.ok (by omega)
  have h2 := Bits.take_reads (n := 16) h1.ok (by omega)
  split at h
  · cases h
  · have h3 := @storedBits_reads data ((r.align.take data 16).2.take data 16).2 (r.align.take data 16).1 [] h2.ok
    generalize storedBits data (r.align.take data 16).1 ((r.align.take data 16).2.take data 16).2 [] = p at h h3
    obtain ⟨remaining, r₃, got₃⟩ := p
    dsimp only at h h3
    split at h
    · cases h
    next hle =>
      cases h
      have hread := (((h0.trans h1).trans h2).trans h3).read
      have hbehind := h3.ok.behind
      refine ⟨⟨zero_le _, zero_le _, ?_⟩, ?_, fun hex => absurd hex (not_lt_zero 8)⟩
      · dsimp only
        omega
      · unfold Bits.read at hread ⊢
        dsimp only
        omega

theorem readCopy_reads {dist : Table} (hdist : dist.Steps) {e : Entry} {distance length : Nat} (hr : r.Ok data)
    (h : readCopy data dist e r = .ok (distance, length, r')) : Bits.Reads data 1 r r' := by
  unfold readCopy at h
  dsimp only at h
  have h1 := Bits.take_reads (n := e.extra % 16) hr (by omega)
  have h2 := Bits.decode_reads hdist h1.ok
  generalize r.take data (e.extra % 16) = p1 at h h1 h2
  generalize p1.2.decode data dist = p2 at h h2
  have h3 := Bits.take_reads (n := p2.1.extra % 16) h2.ok (by omega)
  split at h
  · cases h
  · cases h
    exact ((h1.trans h2).trans h3).mono (by omega)

/-- A distance that has been read is at most the window. -/
theorem readCopy_near {dist : Table} (hdist : dist.Near) {e : Entry} {distance length : Nat}
    (h : readCopy data dist e r = .ok (distance, length, r')) : distance ≤ window := by
  unfold readCopy at h
  dsimp only at h
  generalize r.take data (e.extra % 16) = p1 at h
  split at h
  · cases h
  next hkind =>
    cases h
    have hfar := Bits.take_lt data (p1.2.decode data dist).2 ((p1.2.decode data dist).1.extra % 16)
    have hmem : (p1.2.decode data dist).1 ∈ dist ∨ (p1.2.decode data dist).1 = Table.invalid := Bits.decode_mem
    rcases hmem with hmem | heq
    · have hle := hdist _ hmem (not_not.mp hkind)
      omega
    · rw [heq] at hkind
      exact absurd (not_not.mp hkind) (by decide)

theorem afterLiteral_cases {out out' : Sink} (h : afterLiteral r out = .ok out') :
    (out.out.length % 4096 ≠ 0 ∧ out' = out) ∨ ¬ r.exhausted := by
  unfold afterLiteral at h
  split at h
  · split at h
    · cases h
    · split at h
      · cases h
      next hex => exact .inr hex
  next hne =>
    cases h
    exact .inl ⟨hne, rfl⟩

theorem afterCopy_ok {out out' : Sink} (h : afterCopy r out = .ok out') : ¬ r.exhausted := by
  unfold afterCopy at h
  split at h
  · cases h
  · split at h
    · cases h
    next hex => exact hex

theorem block_reads {lit dist : Table} (ht : Tables lit dist) {turns : Nat} {out out' : Sink} (hr : r.Ok data)
    (h : block data lit dist turns r out = some (.ok (r', out'))) : Bits.Reads data 1 r r' := by
  induction turns generalizing r out with
  | zero => cases h
  | succ turns ih =>
    unfold block at h
    dsimp only at h
    have hdecode := Bits.decode_reads ht.litSteps hr
    generalize r.decode data lit = p at h hdecode
    split at h
    · split at h
      · cases h
      · exact (hdecode.trans (ih hdecode.ok h)).mono (by omega)
    · split at h
      · cases h
      · cases h
        exact hdecode
    · split at h
      · cases h
      next distance length r₁ hcopy =>
        have hreads := readCopy_reads ht.distSteps hdecode.ok hcopy
        split at h
        · cases h
        · split at h
          · cases h
          · exact ((hdecode.trans hreads).trans (ih hreads.ok h)).mono (by omega)

/-- The turns that a block can still take: while there are bits each turn takes one, and behind them the
next check is at most 4096 literals away. -/
def blockTurns (data : Bytes) (r : Bits) (held : Nat) : Nat :=
  if Bits.most data < r.read then 4096 - held % 4096 else Bits.most data + 1 - r.read + 4096

theorem block_returns {lit dist : Table} (ht : Tables lit dist) {turns : Nat} {out : Sink} (hr : r.Ok data)
    (hturns : blockTurns data r out.out.length < turns) : ∃ res, block data lit dist turns r out = some res := by
  induction turns generalizing r out with
  | zero => exact absurd hturns (not_lt_zero _)
  | succ turns ih =>
    have hdecode := Bits.decode_reads ht.litSteps hr
    unfold block
    dsimp only
    generalize r.decode data lit = p at hdecode ⊢
    split
    · cases hlit : afterLiteral p.2 (out.push [ofNat p.1.value]) with
      | error e => exact ⟨_, rfl⟩
      | ok out' =>
        refine ih hdecode.ok ?_
        have hread := hdecode.read
        have hlen : (out.push [ofNat p.1.value]).out.length = out.out.length + 1 := by
          simp [Sink.push]
        unfold blockTurns at hturns ⊢
        rcases afterLiteral_cases hlit with ⟨hne, rfl⟩ | hex
        · rw [hlen] at hne ⊢
          split at hturns <;> split <;> omega
        · have hle := not_lt.mp fun hlt => hex (hdecode.ok.exhausted hlt)
          split at hturns <;> split <;> omega
    · split
      · exact ⟨_, rfl⟩
      · exact ⟨_, rfl⟩
    · cases hcopy : readCopy data dist p.1 p.2 with
      | error e => exact ⟨_, rfl⟩
      | ok c =>
        obtain ⟨distance, length, r₁⟩ := c
        have hreads := readCopy_reads ht.distSteps hdecode.ok hcopy
        dsimp only
        cases hmade : out.copy distance length with
        | error e => exact ⟨_, rfl⟩
        | ok out₁ =>
          dsimp only
          cases hafter : afterCopy r₁ out₁ with
          | error e => exact ⟨_, rfl⟩
          | ok out₂ =>
            refine ih hreads.ok ?_
            have hle := not_lt.mp fun hlt => afterCopy_ok hafter (hreads.ok.exhausted hlt)
            have hread := (hdecode.trans hreads).read
            unfold blockTurns at hturns ⊢
            split at hturns <;> split <;> omega

theorem blockTurns_lt (data : Bytes) (r : Bits) (held : Nat) : blockTurns data r held < turnsFor data := by
  have hmost : turnsFor data = Bits.most data + 4098 := rfl
  unfold blockTurns
  split <;> omega

/-- A block comes to an end, and behind it at least nothing has been put back. -/
theorem oneBlock_returns {kind : Nat} {out : Sink} (hr : r.Ok data) :
    ∃ res, oneBlock data (turnsFor data) kind r out = some res ∧
      ∀ r' out', res = .ok (r', out') → r'.Ok data ∧ r.read ≤ r'.read := by
  unfold oneBlock
  split
  · cases hstored : stored data r with
    | error e => exact ⟨_, rfl, fun _ _ h => by cases h⟩
    | ok got =>
      obtain ⟨got, r₁⟩ := got
      obtain ⟨hok, hread, -⟩ := stored_reads hr hstored
      dsimp only
      cases (out.push got).check with
      | error e => exact ⟨_, rfl, fun _ _ h => by cases h⟩
      | ok out' => exact ⟨_, rfl, fun _ _ h => by cases h; exact ⟨hok, hread⟩⟩
  · split
    · cases hfixed : fixedTables with
      | error e => exact ⟨_, rfl, fun _ _ h => by cases h⟩
      | ok t =>
        obtain ⟨lit, dist⟩ := t
        have ht := fixedTables_ok hfixed
        obtain ⟨res, hres⟩ := @block_returns data r lit dist ht (turnsFor data) out hr (blockTurns_lt data r _)
        refine ⟨res, hres, fun r' out' h => ?_⟩
        have hreads := block_reads ht hr (h ▸ hres)
        exact ⟨hreads.ok, (le_add_right _ _).trans hreads.read⟩
    · split
      · cases hdynamic : dynamicTables data r with
        | error e => exact ⟨_, rfl, fun _ _ h => by cases h⟩
        | ok t =>
          obtain ⟨lit, dist, r₁⟩ := t
          obtain ⟨ht, hfirst⟩ := dynamicTables_ok hr hdynamic
          obtain ⟨res, hres⟩ := @block_returns data r₁ lit dist ht (turnsFor data) out hfirst.ok (blockTurns_lt data r₁ _)
          refine ⟨res, hres, fun r' out' h => ?_⟩
          have hreads := hfirst.trans (block_reads ht hfirst.ok (h ▸ hres))
          exact ⟨hreads.ok, (le_add_right _ _).trans hreads.read⟩
      · exact ⟨_, rfl, fun _ _ h => by cases h⟩

theorem run_returns {turns : Nat} {out : Sink} (hr : r.Ok data) (hturns : Bits.most data + 1 - r.read < turns) :
    ∃ res, run data turns r out = some res := by
  induction turns generalizing r out with
  | zero => exact absurd hturns (not_lt_zero _)
  | succ turns ih =>
    have h1 := Bits.take_reads (n := 1) hr (by omega)
    have h2 := h1.trans (Bits.take_reads (n := 2) h1.ok (by omega))
    unfold run
    dsimp only
    generalize r.take data 1 = p1 at h1 h2 ⊢
    generalize p1.2.take data 2 = p2 at h2 ⊢
    obtain ⟨res, hres, hblock⟩ := @oneBlock_returns data p2.2 p2.1 out h2.ok
    rw [hres]
    cases res with
    | error e => exact ⟨_, rfl⟩
    | ok s =>
      obtain ⟨r', out'⟩ := s
      obtain ⟨hok, hread⟩ := hblock r' out' rfl
      dsimp only
      split
      · exact ⟨_, rfl⟩
      next hex =>
        split
        · exact ⟨_, rfl⟩
        · refine ih hok ?_
          have hle := not_lt.mp fun hlt => hex (hok.exhausted hlt)
          have hfirst := h2.read
          omega

/-- The decoder returns for every data and every sink. -/
theorem run_total (data : Bytes) (out : Sink) : ∃ res, run data (turnsFor data) .new out = some res := by
  refine run_returns Bits.new_ok ?_
  have hmost : turnsFor data = Bits.most data + 4098 := rfl
  omega

end

end HamixOS.Imago
