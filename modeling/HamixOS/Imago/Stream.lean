import HamixOS.Imago.Reader

namespace HamixOS.Imago

open Lib List Sink Bits Nat

/-!
# Streaming inflate

The sink that hands its output out in chunks, next to the one that keeps it: `Follows o t` says that the
chunks and what `t` still holds are the output of `o`, and that `t` holds a whole window as soon as it has
handed something out.  Both go through the same blocks with the same reader; the only difference is when they
look whether the input has run out, and an exhausted reader never gets to the end of `run`.
-/

structure Follows (o t : Sink) : Prop where
  whole : o.emit = none
  accepts : ∃ emit, t.emit = some emit ∧ ∀ n b, emit n b = true
  failed : t.failed = false
  out : o.out = t.chunks.flatten ++ t.out
  emitted : t.emitted = t.chunks.flatten.length
  kept : t.chunks.flatten = [] ∨ window ≤ t.out.length

namespace Follows

variable {o t : Sink}

section

variable (h : Follows o t)

include h

theorem push (b : Bytes) : Follows (o.push b) (t.push b) where
  whole := h.whole
  accepts := h.accepts
  failed := h.failed
  out := by
    unfold Sink.push
    rw [h.out, append_assoc]
  emitted := h.emitted
  kept := h.kept.imp_right fun hk => by
    unfold Sink.push
    dsimp only
    rw [length_append]
    omega

/-- Handing out all but the last `keep` bytes. -/
theorem flush (keep : Nat) : (t.flush keep).emit = t.emit ∧ (t.flush keep).failed = false ∧
    o.out = (t.flush keep).chunks.flatten ++ (t.flush keep).out ∧
    (t.flush keep).emitted = (t.flush keep).chunks.flatten.length ∧ (t.flush keep).out.length = min t.out.length keep := by
  obtain ⟨emit, hemit, hall⟩ := h.accepts
  unfold Sink.flush
  rw [hemit]
  dsimp only
  split
  next hle => exact ⟨hemit, h.failed, h.out, h.emitted, (min_eq_left hle).symm⟩
  next hlt =>
    have hcut : t.out.length - (t.out.length - keep) = min t.out.length keep := by omega
    refine ⟨rfl, ?_, ?_, ?_, ?_⟩
    · rw [h.failed, hall]
      rfl
    · rw [h.failed, h.out]
      simp
    · rw [h.failed, h.emitted]
      simp
    · rw [length_drop, hcut]

theorem check : ∃ t', t.check = .ok t' ∧ Follows o t' := by
  obtain ⟨emit, hemit, hall⟩ := h.accepts
  unfold Sink.check
  rw [if_pos (by rw [hemit]; rfl)]
  split
  next hlong =>
    obtain ⟨h1, h2, h3, h4, h5⟩ := h.flush window
    rw [h2, if_neg Bool.false_ne_true]
    refine ⟨_, rfl, ⟨h.whole, ⟨emit, h1.trans hemit, hall⟩, h2, h3, h4, .inr ?_⟩⟩
    omega
  next => exact ⟨t, rfl, h⟩

theorem check_whole : o.check = .ok o ∨ o.check = .error tooLarge := by
  unfold Sink.check
  rw [if_neg (by rw [h.whole]; exact Bool.false_ne_true)]
  split
  · exact .inr rfl
  · exact .inl rfl

end

end Follows

/-! ### Copies -/

theorem copyLoop_append (pre : Bytes) (start turns remaining : Nat) (out : Bytes) :
    copyLoop (pre.length + start) turns remaining (pre ++ out) = pre ++ copyLoop start turns remaining out := by
  induction turns generalizing remaining out with
  | zero => rfl
  | succ turns ih =>
    unfold copyLoop
    split
    · dsimp only
      have hlen : (pre ++ out).length - (pre.length + start) = out.length - start := by
        rw [length_append]
        omega
      rw [hlen, drop_length_add_append, append_assoc, ih]
    · rfl

theorem length_le_copyLoop (start turns remaining : Nat) (out : Bytes) :
    out.length ≤ (copyLoop start turns remaining out).length := by
  induction turns generalizing remaining out with
  | zero => exact le_refl _
  | succ turns ih =>
    unfold copyLoop
    split
    · refine le_trans ?_ (ih _ _)
      rw [length_append]
      exact le_add_right _ _
    · exact le_refl _

/-- A copy from within the window does the same to both outputs. -/
theorem Follows.copy {o t : Sink} (h : Follows o t) {distance : Nat} (hd : distance ≤ window) (length : Nat) :
    (∃ o' t', o.copy distance length = .ok o' ∧ t.copy distance length = .ok t' ∧ Follows o' t') ∨
      ∃ e, o.copy distance length = .error e ∧ t.copy distance length = .error e := by
  have hlen : o.out.length = t.chunks.flatten.length + t.out.length := by rw [h.out, length_append]
  have hsame : (distance = 0 ∨ o.out.length < distance) ↔ (distance = 0 ∨ t.out.length < distance) := by
    rcases h.kept with hnil | hkept
    · rw [hlen, hnil, length_nil, zero_add]
    · omega
  unfold Sink.copy
  dsimp only
  by_cases hbad : distance = 0 ∨ t.out.length < distance
  · rw [if_pos hbad, if_pos (hsame.mpr hbad)]
    exact .inr ⟨_, rfl, rfl⟩
  · rw [if_neg hbad, if_neg (mt hsame.mp hbad)]
    have hstart : o.out.length - distance = t.chunks.flatten.length + (t.out.length - distance) := by omega
    refine .inl ?_
    split
    · refine ⟨_, _, rfl, rfl, h.whole, h.accepts, h.failed, ?_, h.emitted, h.kept.imp_right fun hk => ?_⟩
      · dsimp only
        rw [hstart, h.out, drop_length_add_append, append_assoc]
      · dsimp only
        rw [length_append]
        omega
    · split
      · refine ⟨_, _, rfl, rfl, h.whole, h.accepts, h.failed, ?_, h.emitted, h.kept.imp_right fun hk => ?_⟩
        · dsimp only
          have hlast : o.out.length - 1 = t.chunks.flatten.length + (t.out.length - 1) := by omega
          rw [hlast, h.out, getD_append_right _ _ _ _ (Nat.le_add_right _ _), Nat.add_sub_cancel_left, append_assoc]
        · dsimp only
          rw [length_append]
          omega
      · refine ⟨_, _, rfl, rfl, h.whole, h.accepts, h.failed, ?_, h.emitted, h.kept.imp_right fun hk => ?_⟩
        · dsimp only
          rw [hstart, h.out, copyLoop_append]
        · dsimp only
          exact hk.trans (length_le_copyLoop _ _ _ _)

/-! ### Checks -/

variable {data : Bytes} {r : Bits} {o t : Sink}

/-- The two outcomes of the checks behind a literal or a copy: an error of one side comes from its limit or
from an exhausted reader. -/
structure Checked (r : Bits) (o : Sink) (ro rt : Except Error Sink) : Prop where
  whole : ro = .ok o ∨ ∃ e, ro = .error e ∧ (e = tooLarge ∨ r.exhausted)
  stream : (∃ t', rt = .ok t' ∧ Follows o t') ∨ ∃ e, rt = .error e ∧ r.exhausted

theorem Checked.skip (h : Follows o t) (r : Bits) : Checked r o (.ok o) (.ok t) := ⟨.inl rfl, .inl ⟨t, rfl, h⟩⟩

theorem afterCopy_checked (h : Follows o t) (r : Bits) : Checked r o (afterCopy r o) (afterCopy r t) := by
  obtain ⟨t', ht, hfollows⟩ := h.check
  unfold afterCopy
  constructor
  · rcases h.check_whole with hok | herr
    · rw [hok]
      dsimp only
      split
      next hex => exact .inr ⟨_, rfl, .inr hex⟩
      next => exact .inl rfl
    · rw [herr]
      exact .inr ⟨_, rfl, .inl rfl⟩
  · rw [ht]
    dsimp only
    split
    next hex => exact .inr ⟨_, rfl, hex⟩
    next => exact .inl ⟨t', rfl, hfollows⟩

/-- Behind a literal each side looks at its own moments. -/
theorem afterLiteral_checked (h : Follows o t) (r : Bits) : Checked r o (afterLiteral r o) (afterLiteral r t) := by
  have hcopy := afterCopy_checked h r
  have hskip := Checked.skip h r
  have heq (s : Sink) : afterLiteral r s = if s.out.length % 4096 = 0 then afterCopy r s else .ok s := rfl
  rw [heq, heq]
  constructor
  · split
    · exact hcopy.whole
    · exact hskip.whole
  · split
    · exact hcopy.stream
    · exact hskip.stream

/-! ### Blocks -/

/-- The results of a block on both sides. -/
def Matches : Except Error (Bits × Sink) → Except Error (Bits × Sink) → Prop
  | .ok (r, o), .ok (r', t) => r = r' ∧ Follows o t
  | .ok (r, _), .error _ => r.exhausted
  | .error e, .ok (r, _) => e = tooLarge ∨ r.exhausted
  | .error _, .error _ => True

/-- The block behind a check. -/
def blockAfter (data : Bytes) (lit dist : Table) (turns : Nat) (r : Bits) : Except Error Sink → Option (Except Error (Bits × Sink))
  | .error e => some (.error e)
  | .ok out => block data lit dist turns r out

section

variable {lit dist : Table} (ht : Tables lit dist) {turns : Nat} {ro rt : Except Error (Bits × Sink)}

include ht

/-- The one side has failed: the other one fails as well or ends with an exhausted reader. -/
theorem matches_error_left {e : Error} (hr : r.Ok data) (he : e = tooLarge ∨ r.exhausted)
    (h : block data lit dist turns r t = some rt) : Matches (.error e) rt := by
  cases rt with
  | error e' => trivial
  | ok s =>
    obtain ⟨r', t'⟩ := s
    exact he.imp_right (block_reads ht hr h).exhausted

theorem matches_error_right {e : Error} (hr : r.Ok data) (hex : r.exhausted)
    (h : block data lit dist turns r o = some ro) : Matches ro (.error e) := by
  cases ro with
  | error e' => trivial
  | ok s =>
    obtain ⟨r', o'⟩ := s
    exact (block_reads ht hr h).exhausted hex

/-- Behind a check both sides go on, or one has failed. -/
theorem Checked.matches {co ct : Except Error Sink} (hc : Checked r o co ct) (hr : r.Ok data)
    (hgo : ∀ t', Follows o t' → block data lit dist turns r o = some ro → block data lit dist turns r t' = some rt → Matches ro rt)
    (ho : blockAfter data lit dist turns r co = some ro) (hs : blockAfter data lit dist turns r ct = some rt) :
    Matches ro rt := by
  rcases hc.whole with rfl | ⟨e, rfl, he⟩
  · rcases hc.stream with ⟨t', rfl, hfollows⟩ | ⟨e', rfl, hex⟩
    · exact hgo t' hfollows ho hs
    · cases hs
      exact matches_error_right ht hr hex ho
  · cases ho
    rcases hc.stream with ⟨t', rfl, hfollows⟩ | ⟨e', rfl, hex⟩
    · exact matches_error_left ht hr he hs
    · cases hs
      trivial

theorem block_matches (hr : r.Ok data) (h : Follows o t) (ho : block data lit dist turns r o = some ro)
    (hs : block data lit dist turns r t = some rt) : Matches ro rt := by
  induction turns generalizing r o t with
  | zero => cases ho
  | succ turns ih =>
    unfold block at ho hs
    have hdecode := decode_reads ht.litSteps hr
    generalize r.decode data lit = p at ho hs hdecode
    obtain ⟨e, r₁⟩ := p
    dsimp only at ho hs hdecode
    cases hkind : e.kind with
    | literal =>
      rw [hkind] at ho hs
      exact (afterLiteral_checked (h.push [UInt8.ofNat e.value]) r₁).matches ht hdecode.ok
        (fun t' hfollows => ih hdecode.ok hfollows) ho hs
    | «end» =>
      rw [hkind] at ho hs
      dsimp only at ho hs
      split at ho
      next hbad =>
        rw [if_pos hbad] at hs
        cases ho
        cases hs
        trivial
      next hgood =>
        rw [if_neg hgood] at hs
        cases ho
        cases hs
        exact ⟨rfl, h⟩
    | _ =>
      rw [hkind] at ho hs
      dsimp only at ho hs
      cases hcopy : readCopy data dist e r₁ with
      | error e' =>
        rw [hcopy] at ho hs
        cases ho
        cases hs
        trivial
      | ok c =>
        obtain ⟨distance, length, r₂⟩ := c
        rw [hcopy] at ho hs
        dsimp only at ho hs
        have hreads := readCopy_reads ht.distSteps hdecode.ok hcopy
        rcases h.copy (readCopy_near ht.near hcopy) length with ⟨o', t', ho', ht', hfollows⟩ | ⟨e', ho', ht'⟩
        · rw [ho'] at ho
          rw [ht'] at hs
          exact (afterCopy_checked hfollows r₂).matches ht hreads.ok (fun t'' hf => ih hreads.ok hf) ho hs
        · rw [ho'] at ho
          rw [ht'] at hs
          cases ho
          cases hs
          trivial

end

theorem oneBlock_matches {kind : Nat} {ro rt : Except Error (Bits × Sink)} (hr : r.Ok data) (h : Follows o t)
    (ho : oneBlock data (turnsFor data) kind r o = some ro) (hs : oneBlock data (turnsFor data) kind r t = some rt) :
    Matches ro rt := by
  unfold oneBlock at ho hs
  split at ho
  next hkind =>
    rw [if_pos hkind] at hs
    cases hstored : stored data r with
    | error e =>
      rw [hstored] at ho hs
      cases ho
      cases hs
      trivial
    | ok got =>
      obtain ⟨got, r₁⟩ := got
      rw [hstored] at ho hs
      dsimp only at ho hs
      obtain ⟨t', ht', hfollows⟩ := (h.push got).check
      rw [ht'] at hs
      cases hs
      rcases (h.push got).check_whole with hok | herr
      · rw [hok] at ho
        cases ho
        exact ⟨rfl, hfollows⟩
      · rw [herr] at ho
        cases ho
        exact .inl rfl
  next hkind =>
    rw [if_neg hkind] at hs
    split at ho
    next hone =>
      rw [if_pos hone] at hs
      cases hfixed : fixedTables with
      | error e =>
        rw [hfixed] at ho hs
        cases ho
        cases hs
        trivial
      | ok tables =>
        obtain ⟨lit, dist⟩ := tables
        rw [hfixed] at ho hs
        exact block_matches (fixedTables_ok hfixed) hr h ho hs
    next hone =>
      rw [if_neg hone] at hs
      split at ho
      next htwo =>
        rw [if_pos htwo] at hs
        cases hdynamic : dynamicTables data r with
        | error e =>
          rw [hdynamic] at ho hs
          cases ho
          cases hs
          trivial
        | ok tables =>
          obtain ⟨lit, dist, r₁⟩ := tables
          rw [hdynamic] at ho hs
          obtain ⟨htables, hreads⟩ := dynamicTables_ok hr hdynamic
          exact block_matches htables hreads.ok h ho hs
      next htwo =>
        rw [if_neg htwo] at hs
        cases ho
        cases hs
        trivial

/-- The results of `run` on both sides. -/
def RunMatches : Except Error (Nat × Sink) → Except Error (Nat × Sink) → Prop
  | .ok (used, o), .ok (used', t) => used = used' ∧ Follows o t
  | .ok _, .error _ => False
  | .error e, .ok _ => e = tooLarge
  | .error _, .error _ => True

theorem oneBlock_ok {kind : Nat} {out out' : Sink} {r' : Bits} (hr : r.Ok data)
    (h : oneBlock data (turnsFor data) kind r out = some (.ok (r', out'))) : r'.Ok data := by
  obtain ⟨res, hres, hok⟩ := @oneBlock_returns data r kind out hr
  exact (hok r' out' (Option.some.inj (hres.symm.trans h))).1

theorem run_matches {turns : Nat} {ro rt : Except Error (Nat × Sink)} (hr : r.Ok data) (h : Follows o t)
    (ho : run data turns r o = some ro) (hs : run data turns r t = some rt) : RunMatches ro rt := by
  induction turns generalizing r o t with
  | zero => cases ho
  | succ turns ih =>
    unfold run at ho hs
    dsimp only at ho hs
    have h1 := take_reads (n := 1) hr (by omega)
    have h2 := take_reads (n := 2) h1.ok (by omega)
    generalize r.take data 1 = p1 at ho hs h1 h2
    generalize p1.2.take data 2 = p2 at ho hs h2
    obtain ⟨bo, hbo, -⟩ := @oneBlock_returns data p2.2 p2.1 o h2.ok
    obtain ⟨bt, hbt, -⟩ := @oneBlock_returns data p2.2 p2.1 t h2.ok
    have hmatches := oneBlock_matches h2.ok h hbo hbt
    rw [hbo] at ho
    rw [hbt] at hs
    rcases bo with e | ⟨r₁, o₁⟩ <;> rcases bt with e' | ⟨r₂, t₂⟩
    · cases ho
      cases hs
      trivial
    · cases ho
      dsimp only at hs
      split at hs
      · cases hs
        trivial
      next hgood =>
        have hlarge : e = tooLarge := hmatches.resolve_right hgood
        cases rt with
        | error e' => trivial
        | ok used => exact hlarge
    · have hex : r₁.exhausted := hmatches
      cases hs
      dsimp only at ho
      rw [if_pos hex] at ho
      cases ho
      trivial
    · obtain ⟨rfl, hfollows⟩ := hmatches
      dsimp only at ho hs
      split at ho
      next hex =>
        rw [if_pos hex] at hs
        cases ho
        cases hs
        trivial
      next hgood =>
        rw [if_neg hgood] at hs
        split at ho
        next hlast =>
          rw [if_pos hlast] at hs
          cases ho
          cases hs
          exact ⟨rfl, hfollows⟩
        next hlast =>
          rw [if_neg hlast] at hs
          exact ih (oneBlock_ok h2.ok hbo) hfollows ho hs

/-- With a sink that accepts everything, streaming gives what decoding at once gives, unless that meets its
limit. -/
theorem inflateStream_eq (data : Bytes) (emit : Nat → Bytes → Bool) (hemit : ∀ n b, emit n b = true)
    (hlimit : inflateCounted data ≠ some (.error tooLarge)) :
    (∃ out used chunks, inflateCounted data = some (.ok (out, used)) ∧
      inflateStream data emit = some (.ok (used, out.length, chunks)) ∧ chunks.flatten = out) ∨
    ∃ e e', inflateCounted data = some (.error e) ∧ inflateStream data emit = some (.error e') := by
  have hfollows : Follows ⟨[], none, [], 0, false, 1 <<< 31⟩ ⟨[], some emit, [], 0, false, 2 ^ 64 - 1⟩ :=
    ⟨rfl, ⟨emit, rfl, hemit⟩, rfl, rfl, rfl, .inl rfl⟩
  obtain ⟨ro, hro⟩ := run_total data ⟨[], none, [], 0, false, 1 <<< 31⟩
  obtain ⟨rt, hrt⟩ := run_total data ⟨[], some emit, [], 0, false, 2 ^ 64 - 1⟩
  have hmatches := run_matches Bits.new_ok hfollows hro hrt
  unfold inflateCounted at hlimit ⊢
  unfold inflateStream
  rw [hro] at hlimit ⊢
  rw [hrt]
  match ro, rt with
  | .error e, .error e' => exact .inr ⟨e, e', rfl, rfl⟩
  | .error e, .ok (used, t) =>
    have hlarge : e = tooLarge := hmatches
    exact absurd (by rw [hlarge]) hlimit
  | .ok (used, o), .error e => exact hmatches.elim
  | .ok (used, o), .ok (used', t) =>
    obtain ⟨rfl, hfollows⟩ := hmatches
    obtain ⟨-, hfailed, hout, hemitted, hlength⟩ := hfollows.flush 0
    have hnil : (t.flush 0).out = [] := eq_nil_of_length_eq_zero (hlength.trans (Nat.min_zero _))
    rw [hnil, List.append_nil] at hout
    refine .inl ⟨o.out, used, (t.flush 0).chunks, rfl, ?_, hout.symm⟩
    dsimp only
    rw [hfailed, if_neg Bool.false_ne_true, hemitted, hout]

/-- A stored block of one byte, with a byte behind the stream. -/
theorem inflateStream_eq_stored :
    (∃ out used chunks, inflateCounted [1, 1, 0, 254, 255, 65, 7] = some (.ok (out, used)) ∧
      inflateStream [1, 1, 0, 254, 255, 65, 7] (fun _ _ => true) = some (.ok (used, out.length, chunks)) ∧ chunks.flatten = out) ∨
    ∃ e e', inflateCounted [1, 1, 0, 254, 255, 65, 7] = some (.error e) ∧
      inflateStream [1, 1, 0, 254, 255, 65, 7] (fun _ _ => true) = some (.error e') :=
  inflateStream_eq _ _ (fun _ _ => rfl) (by decide)

end HamixOS.Imago
