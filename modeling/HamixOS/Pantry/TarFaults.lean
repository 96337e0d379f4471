import HamixOS.Pantry.TarChunks

namespace HamixOS.Pantry

open Lib List Header TarStream Nat

/-!
# Faults on hostile archives (`archive.rs`)

Exactly which bytes the readers of archives get through without a slice out of order or a number that does not fit:

* `parsePax_isSome_iff` — a metadata record;
* `entriesChecked_iff` — an archive, for `tar_entries`;
* `feedAll_iff` — an archive in any chunks, for `TarStream`.
-/

/-- The records of `rest`, which begins at `pos`, are in order up to the one at which `parse_pax` stops: a record is
    longer than its own length field, and ends at a number of 64 bits. -/
inductive PaxFits : Nat → Bytes → Prop
  | ends {pos : Nat} {rest : Bytes} : rest.findIdx? (· = 0x20) = none → PaxFits pos rest
  | stops {pos space : Nat} {rest : Bytes} : rest.findIdx? (· = 0x20) = some space →
      pos + (parseUsize (rest.take space)).getD 0 < 2 ^ 64 →
      (parseUsize (rest.take space)).getD 0 = 0 ∨ rest.length < (parseUsize (rest.take space)).getD 0 → PaxFits pos rest
  | next {pos space : Nat} {rest : Bytes} : rest.findIdx? (· = 0x20) = some space →
      pos + (parseUsize (rest.take space)).getD 0 < 2 ^ 64 → space + 1 ≤ (parseUsize (rest.take space)).getD 0 →
      PaxFits (pos + (parseUsize (rest.take space)).getD 0) (rest.drop ((parseUsize (rest.take space)).getD 0)) →
      PaxFits pos rest

theorem paxLoop_isSome_iff {fuel pos : Nat} {rest : Bytes} {map : List (Text × Text)} (hfuel : rest.length ≤ fuel) :
    (paxLoop fuel pos rest map).isSome ↔ PaxFits pos rest := by
  induction fuel generalizing pos rest map with
  | zero =>
    obtain rfl : rest = [] := eq_nil_of_length_eq_zero (le_zero.mp hfuel)
    exact ⟨fun _ => .ends rfl, fun _ => rfl⟩
  | succ fuel ih =>
    rw [paxLoop]
    cases hspace : rest.findIdx? (· = 0x20) with
    | none => exact ⟨fun _ => .ends hspace, fun _ => rfl⟩
    | some space =>
      dsimp only
      by_cases hlarge : 2 ^ 64 ≤ pos + (parseUsize (rest.take space)).getD 0
      · rw [if_pos hlarge]
        refine ⟨fun h => (nomatch h), fun h => ?_⟩
        cases h with
        | ends hs => rw [hspace] at hs; cases hs
        | stops hs hlt _ => rw [hspace] at hs; cases hs; omega
        | next hs hlt _ _ => rw [hspace] at hs; cases hs; omega
      by_cases hstop : (parseUsize (rest.take space)).getD 0 = 0 ∨ rest.length < (parseUsize (rest.take space)).getD 0
      · rw [if_neg hlarge, if_pos hstop]
        exact ⟨fun _ => .stops hspace (by omega) hstop, fun _ => rfl⟩
      by_cases horder : (parseUsize (rest.take space)).getD 0 < space + 1
      · rw [if_neg hlarge, if_neg hstop, if_pos horder]
        refine ⟨fun h => (nomatch h), fun h => ?_⟩
        cases h with
        | ends hs => rw [hspace] at hs; cases hs
        | stops hs _ hstop' => rw [hspace] at hs; cases hs; exact absurd hstop' hstop
        | next hs _ hle _ => rw [hspace] at hs; cases hs; omega
      · rw [if_neg hlarge, if_neg hstop, if_neg horder, ih (by rw [length_drop]; omega)]
        refine ⟨fun h => .next hspace (by omega) (by omega) h, fun h => ?_⟩
        cases h with
        | ends hs => rw [hspace] at hs; cases hs
        | stops hs _ hstop' => rw [hspace] at hs; cases hs; exact absurd hstop' hstop
        | next hs _ _ h => rw [hspace] at hs; cases hs; exact h

/-- The loop ends: every round takes a byte. -/
theorem paxLoop_fuel {fuel pos : Nat} {rest : Bytes} {map : List (Text × Text)} (hfuel : rest.length ≤ fuel) :
    paxLoop fuel pos rest map = paxLoop rest.length pos rest map := by
  have hmore : ∀ fuel pos (rest : Bytes) map, rest.length ≤ fuel → paxLoop (fuel + 1) pos rest map = paxLoop fuel pos rest map := by
    intro fuel
    induction fuel with
    | zero =>
      intro pos rest map h
      obtain rfl : rest = [] := eq_nil_of_length_eq_zero (le_zero.mp h)
      rfl
    | succ fuel ih =>
      intro pos rest map h
      rw [paxLoop, paxLoop]
      cases rest.findIdx? (· = 0x20) with
      | none => rfl
      | some space =>
        dsimp only
        split_ifs with _ hstop
        · rfl
        · rfl
        · rfl
        all_goals exact ih _ _ _ (by rw [length_drop]; omega)
  induction fuel, hfuel using le_induction with
  | base => rfl
  | succ fuel hle ih => rw [hmore fuel pos rest map hle, ih]

theorem parsePax_isSome_iff (body : Bytes) : (parsePax body).isSome ↔ PaxFits 0 body :=
  paxLoop_isSome_iff le_rfl

theorem note_isSome_iff (p : Pending) (flag : UInt8) (body : Bytes) :
    (p.note flag body).isSome ↔ (flag = 0x78 → PaxFits 0 body) := by
  unfold Pending.note
  split_ifs with hx hl hk
  · rw [Option.isSome_map, parsePax_isSome_iff]
    exact ⟨fun h _ => h, fun h => h hx⟩
  · simp [hx]
  · simp [hx]
  · simp [hx]

/-- The headers of `rest`, which begins at `pos`, up to the end or a damaged one: the size of each `fits`, and
    metadata records that are there as a whole are in order. -/
inductive Sound (fits : Nat → Bytes → Prop) : Nat → Bytes → Prop
  | short {pos : Nat} {rest : Bytes} : rest.length < 512 → Sound fits pos rest
  | zero {pos : Nat} {rest : Bytes} : Header.isZero (rest.take 512) = true → Sound fits pos rest
  | damaged {pos : Nat} {rest : Bytes} : Header.stored (rest.take 512) ≠ Header.sum (rest.take 512) → Sound fits pos rest
  | next {pos : Nat} {rest : Bytes} : fits pos (rest.take 512) →
      (Header.flag (rest.take 512) = 0x78 → Header.size (rest.take 512) ≤ (rest.drop 512).length →
        PaxFits 0 ((rest.drop 512).take (Header.size (rest.take 512)))) →
      Sound fits (pos + 512 + roundUp (Header.size (rest.take 512)))
        ((rest.drop 512).drop (roundUp (Header.size (rest.take 512)))) →
      Sound fits pos rest

namespace Sound

variable {fits : Nat → Bytes → Prop} {pos : Nat} {rest : Bytes}

/-- At a header that is neither the end nor damaged. -/
theorem next_iff (hlen : ¬ rest.length < 512) (hz : ¬ isZero (rest.take 512) = true)
    (hsum : ¬ Header.stored (rest.take 512) ≠ Header.sum (rest.take 512)) : Sound fits pos rest ↔
      fits pos (rest.take 512) ∧ (Header.flag (rest.take 512) = 0x78 → Header.size (rest.take 512) ≤ (rest.drop 512).length →
        PaxFits 0 ((rest.drop 512).take (Header.size (rest.take 512)))) ∧
      Sound fits (pos + 512 + roundUp (Header.size (rest.take 512)))
        ((rest.drop 512).drop (roundUp (Header.size (rest.take 512)))) := by
  refine ⟨fun h => ?_, fun h => .next h.1 h.2.1 h.2.2⟩
  cases h with
  | short h => exact absurd h hlen
  | zero h => exact absurd h hz
  | damaged h => exact absurd h hsum
  | next h h' h'' => exact ⟨h, h', h''⟩

theorem nil : Sound fits pos [] := .short (by decide)

end Sound

/-! ### `tar_entries` -/

/-- The loop of `tar_entries` on the bytes from `pos` on, with its faults. -/
def entriesChecked : Nat → Nat → Bytes → Pending → Except Fault (Except TarError (List Entry))
  | 0, _, _, _ => .error .endless
  | fuel + 1, pos, rest, p =>
    if rest.length < 512 then .ok (.ok [])
    else
      let header := rest.take 512
      if Header.isZero header then .ok (.ok [])
      else if Header.stored header ≠ Header.sum header then .ok (.error .checksum)
      else if 2 ^ 64 ≤ pos + 512 + Header.size header then .error .overflow
      else if rest.length < 512 + Header.size header then .ok (.error .truncated)
      else if 2 ^ 64 ≤ pos + 512 + roundUp (Header.size header) then .error .overflow
      else
        let body := (rest.drop 512).take (Header.size header)
        let next := (rest.drop 512).drop (roundUp (Header.size header))
        if Header.isMeta header then
          match p.note (Header.flag header) body with
          | some p => entriesChecked fuel (pos + 512 + roundUp (Header.size header)) next p
          | none => .error .outOfRange
        else (entriesChecked fuel (pos + 512 + roundUp (Header.size header)) next .none).map fun r =>
          r.map fun entries => if p.skips header then entries else ⟨p.path header, body⟩ :: entries

/-- Without a fault it is `tar_entries`. -/
theorem tarLoop_of_checked {fuel pos : Nat} {rest : Bytes} {p : Pending} {r : Except TarError (List Entry)}
    (hfuel : rest.length / 512 ≤ fuel) (h : entriesChecked (fuel + 1) pos rest p = .ok r) : tarLoop fuel rest p = r := by
  induction fuel generalizing pos rest p r with
  | zero =>
    rw [entriesChecked, if_pos (by omega)] at h
    cases h
    rfl
  | succ fuel ih =>
    have hnext : ((rest.drop 512).drop (roundUp (Header.size (rest.take 512)))).length / 512 ≤ fuel := by
      simp only [length_drop]
      omega
    rw [entriesChecked] at h
    rw [tarLoop]
    simp only [← drop_drop] at *
    split_ifs at h ⊢ with hlen hz hsum hlarge hshort hround hm
    · cases h; rfl
    · cases h; rfl
    · cases h; rfl
    · cases h; rfl
    · cases hp : p.note (Header.flag (rest.take 512)) ((rest.drop 512).take (Header.size (rest.take 512))) with
      | none => rw [hp] at h; cases h
      | some q => rw [hp] at h; exact ih hnext h
    all_goals
      cases he : entriesChecked (fuel + 1) (pos + 512 + roundUp (Header.size (rest.take 512)))
        ((rest.drop 512).drop (roundUp (Header.size (rest.take 512)))) .none with
      | error f => rw [he] at h; cases h
      | ok r' =>
        rw [he] at h
        cases h
        rw [ih hnext he]
        cases r' with
        | error e => rfl
        | ok entries => rfl

/-- The size of an entry and its place add up to a number of 64 bits. -/
def fileFits (pos : Nat) (header : Bytes) : Prop := pos + 512 + Header.size header < 2 ^ 64

theorem entriesChecked_iff {fuel pos : Nat} {rest : Bytes} {p : Pending} (hfuel : rest.length / 512 ≤ fuel)
    (hlen : rest.length < 512 ∨ pos + rest.length < 2 ^ 63) :
    (∃ r, entriesChecked (fuel + 1) pos rest p = .ok r) ↔ Sound fileFits pos rest := by
  induction fuel generalizing pos rest p with
  | zero =>
    rw [entriesChecked, if_pos (by omega)]
    exact ⟨fun _ => .short (by omega), fun _ => ⟨_, rfl⟩⟩
  | succ fuel ih =>
    rw [entriesChecked]
    by_cases hshort : rest.length < 512
    · rw [if_pos hshort]
      exact ⟨fun _ => .short hshort, fun _ => ⟨_, rfl⟩⟩
    by_cases hz : isZero (rest.take 512) = true
    · rw [if_neg hshort, if_pos hz]
      exact ⟨fun _ => .zero hz, fun _ => ⟨_, rfl⟩⟩
    by_cases hsum : Header.stored (rest.take 512) ≠ Header.sum (rest.take 512)
    · rw [if_neg hshort, if_neg hz, if_pos hsum]
      exact ⟨fun _ => .damaged hsum, fun _ => ⟨_, rfl⟩⟩
    rw [if_neg hshort, if_neg hz, if_neg hsum, Sound.next_iff hshort hz hsum, fileFits]
    have hround := le_roundUp (Header.size (rest.take 512))
    have hround' : roundUp (Header.size (rest.take 512)) ≤ Header.size (rest.take 512) + 511 := div_mul_le_self _ _
    have hdrop : ((rest.drop 512).drop (roundUp (Header.size (rest.take 512)))).length =
        rest.length - 512 - roundUp (Header.size (rest.take 512)) := by rw [length_drop, length_drop]
    by_cases hlarge : 2 ^ 64 ≤ pos + 512 + Header.size (rest.take 512)
    · rw [if_pos hlarge]
      exact ⟨fun ⟨r, h⟩ => (nomatch h), fun h => absurd h.1 (not_lt.mpr hlarge)⟩
    rw [if_neg hlarge]
    by_cases hcut : rest.length < 512 + Header.size (rest.take 512)
    · rw [if_pos hcut, eq_nil_of_length_eq_zero (hdrop.trans (by omega))]
      refine ⟨fun _ => ⟨by omega, fun _ hle => ?_, Sound.nil⟩, fun _ => ⟨_, rfl⟩⟩
      rw [length_drop] at hle
      omega
    rw [if_neg hcut, if_neg (by omega)]
    have hrest (q : Pending) : (∃ r, entriesChecked (fuel + 1) (pos + 512 + roundUp (Header.size (rest.take 512)))
        ((rest.drop 512).drop (roundUp (Header.size (rest.take 512)))) q = .ok r) ↔
        Sound fileFits (pos + 512 + roundUp (Header.size (rest.take 512)))
          ((rest.drop 512).drop (roundUp (Header.size (rest.take 512)))) := ih (by omega) (by omega)
    have hnote := note_isSome_iff p (Header.flag (rest.take 512)) ((rest.drop 512).take (Header.size (rest.take 512)))
    have hle : Header.size (rest.take 512) ≤ (rest.drop 512).length := by rw [length_drop]; omega
    by_cases hm : isMeta (rest.take 512) = true
    · dsimp only
      rw [if_pos hm]
      cases hp : p.note (Header.flag (rest.take 512)) ((rest.drop 512).take (Header.size (rest.take 512))) with
      | none =>
        rw [hp] at hnote
        exact ⟨fun ⟨r, h⟩ => (nomatch h), fun h => (nomatch hnote.mpr fun hx => h.2.1 hx hle)⟩
      | some q =>
        rw [hp] at hnote
        exact (hrest q).trans ⟨fun h => ⟨by omega, fun hx _ => hnote.mp rfl hx, h⟩, fun h => h.2.2⟩
    · have hflag : ¬ Header.flag (rest.take 512) = 0x78 := fun hx => hm (by simp [isMeta, hx])
      dsimp only
      rw [if_neg hm]
      refine Iff.trans ⟨?_, ?_⟩ ((hrest .none).trans ⟨fun h => ⟨by omega, fun hx => absurd hx hflag, h⟩, fun h => h.2.2⟩)
      · rintro ⟨r, h⟩
        cases he : entriesChecked (fuel + 1) (pos + 512 + roundUp (Header.size (rest.take 512)))
            ((rest.drop 512).drop (roundUp (Header.size (rest.take 512)))) .none with
        | error f => rw [he] at h; cases h
        | ok r' => exact ⟨r', rfl⟩
      · rintro ⟨r, h⟩
        rw [h]
        exact ⟨_, rfl⟩

/-! ### `TarStream` -/

namespace TarStream

/-- The callback that takes everything and keeps nothing. -/
def accept (_ : Unit) (_ : TarEvent) : Unit × Bool := ((), true)

theorem accept_logical : Logical accept := ⟨fun _ _ => rfl, fun _ _ _ => rfl⟩

/-- The stream answers, with `true` or with `false`. -/
def Unfaulted {σ : Type} (r : Except (Halt σ) (TarStream × σ)) : Prop := ∀ f, r ≠ .error (.fault f)

theorem unfaulted_ok {σ : Type} (p : TarStream × σ) : Unfaulted (.ok p) := fun _ h => (nomatch h)

section Refusing

variable {σ : Type} {on : σ → TarEvent → σ × Bool}

/-- A round for a callback that may refuse is one for a callback that does not, or the last. -/
theorem feedStep_same (s : TarStream) (c : σ) (data : Bytes) :
    (feedStep on s c data).2.2.2 = some false ∨ ((feedStep on s c data).1 = (feedStep accept s () data).1 ∧
      (feedStep on s c data).2.2 = (feedStep accept s () data).2.2) := by
  obtain ⟨es, -, -, h⟩ := feedStep_follows (f := on) s c [] data
  obtain ⟨es', -, -, h'⟩ := feedStep_follows (f := accept) s () [] data
  have hall : ∀ es : List TarEvent, (deliver accept () es).2 = true := fun es => by
    induction es with
    | nil => rfl
    | cons e es ih => exact ih
  rw [if_pos (hall es')] at h'
  by_cases hd : (deliver on c es).2 = true
  · rw [if_pos hd] at h
    exact .inr ⟨h.1.trans h'.1.symm, h.2.trans h'.2.symm⟩
  · rw [if_neg hd] at h
    exact .inl h

theorem feedChecked_unfaulted (fuel : Nat) {s : TarStream} (c : σ) {data : Bytes}
    (h : Unfaulted (feedChecked accept fuel s () data)) : Unfaulted (feedChecked on fuel s c data) ∧
      ∀ s' c', feedChecked on fuel s c data = .ok (s', c') → feedChecked accept fuel s () data = .ok (s', ()) := by
  induction fuel generalizing s c data with
  | zero => exact absurd rfl (h .endless)
  | succ fuel ih =>
    rw [feedChecked] at h ⊢
    rw [feedChecked]
    split_ifs at h ⊢ with hd
    · exact ⟨unfaulted_ok _, fun s' c' hs => by cases hs; rfl⟩
    cases hf : stepFault s data with
    | some f => rw [hf] at h; exact absurd rfl (h f)
    | none =>
      rw [hf] at h
      dsimp only at h ⊢
      rcases @feedStep_same σ on s c data with hrefused | ⟨hs, hrest⟩
      · rw [hrefused]
        exact ⟨fun f h => (by cases h), fun s' c' h => by cases h⟩
      · rw [← hrest, ← hs] at h ⊢
        cases ho : (feedStep on s c data).2.2.2 with
        | none => rw [ho] at h; exact ih _ h
        | some b =>
          cases b with
          | false => exact ⟨fun f h => (by cases h), fun s' c' h => by cases h⟩
          | true => exact ⟨unfaulted_ok _, fun s' c' h => by cases h; rfl⟩

theorem feedAll_unfaulted (chunks : List Bytes) {s : TarStream} (c : σ) (h : Unfaulted (feedAll accept s () chunks)) :
    Unfaulted (feedAll on s c chunks) := by
  induction chunks generalizing s c with
  | nil => exact unfaulted_ok _
  | cons chunk chunks ih =>
    rw [feedAll, foldlM_cons] at h ⊢
    obtain ⟨hno, hsame⟩ := @feedChecked_unfaulted σ on (chunk.length + 1) s c chunk fun f hf => by
      rw [feedChunk, hf] at h
      exact absurd rfl (h f)
    cases hr : feedChunk on (s, c) chunk with
    | error e => exact fun f hf => hno f (hr.trans hf)
    | ok p =>
      have hp : feedChunk accept (s, ()) chunk = .ok (p.1, ()) := hsame p.1 p.2 hr
      rw [hp] at h
      exact ih p.2 h

end Refusing

/-- The stream gets through `rest`. -/
def Passes (s : TarStream) (rest : Bytes) : Prop := Unfaulted (feedChunk accept (s, ()) rest)

theorem passes_nil (s : TarStream) : Passes s [] := unfaulted_ok _

/-- One round, and what it leaves. -/
theorem passes_iff {s : TarStream} (hs : Ready s) {rest : Bytes} (h : rest ≠ []) : Passes s rest ↔ stepFault s rest = none ∧
    ((feedStep accept s () rest).2.2.2 = none → Passes (feedStep accept s () rest).1 (feedStep accept s () rest).2.2.1) := by
  rw [Passes, feedChunk, feedChecked, if_neg h]
  cases stepFault s rest with
  | some f => exact ⟨fun hno => absurd rfl (hno f), fun hno => (by cases hno.1)⟩
  | none =>
    dsimp only
    cases ho : (feedStep accept s () rest).2.2.2 with
    | none =>
      obtain ⟨hready, hlt⟩ := (feedStep_ready accept_logical hs () h).2 ho
      rw [(feedChecked_fuel accept_logical hready hlt (lt_succ_self _)).1]
      exact ⟨fun hno => ⟨rfl, fun _ => hno⟩, fun hno => hno.2 rfl⟩
    | some b =>
      cases b with
      | false => exact ⟨fun _ => ⟨rfl, fun h => (by cases h)⟩, fun _ f h => by cases h⟩
      | true => exact ⟨fun _ => ⟨rfl, fun h => (by cases h)⟩, fun _ => unfaulted_ok _⟩

theorem passes_pad {s : TarStream} (hs : s.header.length < 512) (left : Nat) (rest : Bytes) :
    Passes { s with state := pad left } rest ↔ Passes { s with state := .header } (rest.drop left) := by
  by_cases hl : 0 < left
  · by_cases hrest : rest = []
    · rw [hrest, drop_nil]
      exact ⟨fun _ => passes_nil _, fun _ => passes_nil _⟩
    rw [passes_iff (ready_pad hs left) hrest, pad, if_pos hl]
    simp only [stepFault, feedStep, true_and, forall_const]
    by_cases hle : left ≤ rest.length
    · rw [min_eq_left hle, Nat.sub_self]
      rfl
    · rw [min_eq_right (by omega), drop_length, drop_eq_nil_of_le (by omega)]
      exact ⟨fun _ => passes_nil _, fun _ => passes_nil _⟩
  · obtain rfl : left = 0 := by omega
    rfl

theorem passes_body {s : TarStream} (hs : s.header.length < 512) {remaining : Nat} (h : 0 < remaining) (padding : Nat)
    (rest : Bytes) : Passes { s with state := .body remaining padding } rest ↔
      Passes { s with current := none, state := .header } (rest.drop (remaining + padding)) := by
  by_cases hrest : rest = []
  · rw [hrest, drop_nil]
    exact ⟨fun _ => passes_nil _, fun _ => passes_nil _⟩
  have hpos := length_pos_iff.mpr hrest
  have hready : Ready { s with state := .body remaining padding } := ⟨hs, h⟩
  rw [passes_iff hready hrest, ← drop_drop, ← passes_pad (s := { s with current := none }) hs]
  have hn : 0 < min remaining rest.length := by omega
  simp only [stepFault, feedStep, accept, hn, if_true, true_and]
  by_cases hle : remaining ≤ rest.length
  · rw [min_eq_left hle, if_pos (Nat.sub_self _)]
    exact ⟨fun hp => hp rfl, fun hp _ => hp⟩
  · rw [if_neg (by omega), min_eq_right (by omega), drop_length, drop_eq_nil_of_le (by omega)]
    exact ⟨fun _ => passes_nil _, fun _ _ => passes_nil _⟩

theorem passes_metadata {s : TarStream} (hs : s.header.length < 512) {size : Nat} (h : 0 < size) (flag : UInt8)
    (rest : Bytes) : Passes { s with state := .metadata flag size [] } rest ↔
      (size ≤ rest.length → (s.pending.note flag (rest.take size)).isSome) ∧
        ∀ p, s.pending.note flag (rest.take size) = some p →
          Passes { s with pending := p, state := .header } (rest.drop (roundUp size)) := by
  have hround := le_roundUp size
  by_cases hrest : rest = []
  · rw [hrest, drop_nil]
    exact ⟨fun _ => ⟨fun hle => absurd hle (not_le.mpr h), fun p _ => passes_nil _⟩, fun _ => passes_nil _⟩
  have hready : Ready { s with state := .metadata flag size [] } := ⟨hs, h⟩
  rw [passes_iff hready hrest]
  simp only [stepFault, feedStep, nil_append, length_nil, Nat.sub_zero]
  by_cases hle : size ≤ rest.length
  · have hlen : (rest.take size).length = size := by rw [length_take, min_eq_left hle]
    simp only [min_eq_left hle, hlen, if_true, true_and, hle, forall_const]
    cases hnote : s.pending.note flag (rest.take size) with
    | none => simp
    | some q =>
      have hpad := passes_pad (s := { s with pending := q }) hs (roundUp size - size) (rest.drop size)
      rw [drop_drop, Nat.add_sub_cancel' hround] at hpad
      simpa using hpad
  · have hmin : min size rest.length = rest.length := by omega
    have hne : ¬ rest.length = size := by omega
    simp only [hmin, take_length, hne, false_and, if_false, drop_length, true_and, forall_const]
    rw [drop_eq_nil_of_le (by omega)]
    exact ⟨fun _ => ⟨fun hle' => absurd hle' hle, fun p _ => passes_nil _⟩, fun _ => passes_nil _⟩

/-- The padded size of an entry is a number of 64 bits. -/
def streamFits (_ : Nat) (header : Bytes) : Prop := Header.isMeta header = true ∨ roundUp (Header.size header) < 2 ^ 64

theorem passes_header {rest : Bytes} {pos : Nat} {s : TarStream} (hs : s.state = .header) (hh : s.header = []) :
    Passes s rest ↔ Sound streamFits pos rest := by
  induction hn : rest.length using Nat.strong_induction_on generalizing rest pos s with
  | _ n ih =>
  have hready : Ready s := ⟨by rw [hh]; decide, by rw [hs]; trivial⟩
  by_cases hrest : rest = []
  · rw [hrest]
    exact ⟨fun _ => Sound.nil, fun _ => passes_nil s⟩
  rw [passes_iff hready hrest]
  simp only [stepFault, feedStep, hs, hh, nil_append, length_nil, sub_zero, length_take]
  by_cases hshort : rest.length < 512
  · rw [if_pos (by omega), if_pos (by omega), min_eq_right (by omega), drop_length]
    exact ⟨fun _ => .short hshort, fun _ => ⟨rfl, fun _ => passes_nil _⟩⟩
  rw [if_neg (by omega), if_neg (by omega), min_eq_left (by omega)]
  by_cases hz : isZero (rest.take 512) = true
  · refine ⟨fun _ => .zero hz, fun _ => ⟨by simp [headerFault, hz], fun _ => ?_⟩⟩
    rw [startEntry, if_pos hz]
    exact fun f h => by cases (feedChecked_done rfl _ _ _).symm.trans h
  by_cases hsum : Header.stored (rest.take 512) ≠ Header.sum (rest.take 512)
  · refine ⟨fun _ => .damaged hsum, fun _ => ⟨by simp [headerFault, hsum], ?_⟩⟩
    rw [startEntry, if_neg hz, if_pos hsum]
    exact fun h => by cases h
  rw [Sound.next_iff hshort hz hsum, startEntry, if_neg hz, if_neg hsum]
  -- what comes behind the record, once its header is read
  have hnext : ∀ s' : TarStream, s'.state = .header → s'.header = [] →
      (Passes s' ((rest.drop 512).drop (roundUp (Header.size (rest.take 512)))) ↔
        Sound streamFits (pos + 512 + roundUp (Header.size (rest.take 512)))
          ((rest.drop 512).drop (roundUp (Header.size (rest.take 512))))) := fun s' hs' hh' =>
    ih _ (by rw [length_drop, length_drop]; omega) hs' hh' rfl
  have hfault : headerFault (rest.take 512) = none ↔ streamFits pos (rest.take 512) := by
    simp [headerFault, streamFits, hz, not_not.mp hsum]
    by_cases hm : isMeta (rest.take 512) = true <;> simp [hm]
  rw [hfault]
  have hround := le_roundUp (Header.size (rest.take 512))
  by_cases hm : isMeta (rest.take 512) = true
  · rw [and_congr_right_iff]
    intro _
    by_cases h0 : Header.size (rest.take 512) = 0
    · have hr : roundUp 0 = 0 := rfl
      have hnext := hnext { s with header := [], state := .header } rfl rfl
      rw [h0, hr, drop_zero] at hnext ⊢
      simp only [hm, if_true, forall_const, hnext]
      exact ⟨fun h => ⟨fun _ _ => .ends rfl, h⟩, fun h => h.2⟩
    · simp only [hm, if_true, h0, if_false, forall_const]
      rw [passes_metadata (s := { s with header := [] }) (succ_pos 511) (pos_of_ne_zero h0)]
      constructor
      · rintro ⟨hsome, hgo⟩
        refine ⟨fun hx hle => (note_isSome_iff _ _ _).mp (hsome hle) hx, ?_⟩
        by_cases hle : Header.size (rest.take 512) ≤ (rest.drop 512).length
        · obtain ⟨q, hq⟩ := Option.isSome_iff_exists.mp (hsome hle)
          exact (hnext _ rfl rfl).mp (hgo q hq)
        · rw [drop_eq_nil_of_le (by omega)]
          exact Sound.nil
      · exact fun h => ⟨fun hle => (note_isSome_iff _ _ _).mpr fun hx => h.1 hx hle, fun q _ => (hnext _ rfl rfl).mpr h.2⟩
  · have hflag : ¬ Header.flag (rest.take 512) = 0x78 := fun hx => hm (by simp [isMeta, hx])
    have hsplit : Header.size (rest.take 512) + (roundUp (Header.size (rest.take 512)) - Header.size (rest.take 512)) =
        roundUp (Header.size (rest.take 512)) := Nat.add_sub_cancel' hround
    simp only [hm, hflag, false_imp_iff, true_and, Bool.false_eq_true, if_false]
    rw [and_congr_right_iff]
    intro _
    by_cases hskip : s.pending.skips (rest.take 512) = true
    · simp only [hskip, if_true, forall_const]
      rw [passes_pad (s := { s with header := [], pending := .none }) (succ_pos 511), hsplit, hnext _ rfl rfl]
    · simp only [hskip, Bool.false_eq_true, if_false, accept, if_true]
      by_cases h0 : Header.size (rest.take 512) = 0
      · have hr : roundUp 0 = 0 := rfl
        have hnext := hnext { s with header := [], pending := .none, current := none, state := .header } rfl rfl
        rw [h0, hr, drop_zero] at hnext ⊢
        simpa using hnext
      · simp only [h0, if_false, if_true, forall_const]
        rw [passes_body (s := { s with header := [], pending := .none, current := some _ }) (succ_pos 511)
          (pos_of_ne_zero h0), hsplit, hnext _ rfl rfl]

end TarStream

/-- `tar_entries`. -/
def tarEntriesChecked (tar : Bytes) : Except Fault (Except TarError (List Entry)) :=
  entriesChecked (tar.length / 512 + 1) 0 tar .none

/-- The bytes on which `parse_pax`, `tar_entries` and `TarStream`, in any chunks and for any callback, run into no
    fault. -/
theorem archives_sound_iff (bytes : Bytes) (hlen : bytes.length < 2 ^ 63) :
    (∀ fuel, bytes.length ≤ fuel → paxLoop fuel 0 bytes [] = parsePax bytes) ∧
      ((parsePax bytes).isSome ↔ PaxFits 0 bytes) ∧
      ((∃ r, tarEntriesChecked bytes = .ok r) ↔ Sound fileFits 0 bytes) ∧
      ∀ chunks : List Bytes, chunks.flatten = bytes →
        ((∀ (σ : Type) (on : σ → TarEvent → σ × Bool) (c : σ), TarStream.Unfaulted (TarStream.feedAll on .new c chunks)) ↔
          Sound TarStream.streamFits 0 bytes) := by
  refine ⟨fun _ => paxLoop_fuel, parsePax_isSome_iff bytes, entriesChecked_iff le_rfl (.inr (by omega)), ?_⟩
  intro chunks hc
  have hwhole : TarStream.feedAll TarStream.accept .new () chunks = TarStream.feedChunk TarStream.accept (.new, ()) bytes := by
    rw [TarStream.feedAll_eq TarStream.accept_logical chunks TarStream.ready_new, hc,
      TarStream.feedChunk_eq TarStream.accept_logical bytes TarStream.ready_new]
  rw [← TarStream.passes_header (s := .new) rfl rfl, TarStream.Passes, ← hwhole]
  exact ⟨fun h => h Unit TarStream.accept (), fun h _ _ c => TarStream.feedAll_unfaulted chunks c h⟩

theorem archives_sound_iff_small : smallTar.length < 2 ^ 63 ∧ ((parsePax smallTar).isSome ↔ PaxFits 0 smallTar) :=
  ⟨by decide +kernel, (archives_sound_iff smallTar (by decide +kernel)).2.1⟩

/-- A record whose length is that of its first byte: the slice behind the blank ends before it begins. -/
theorem parsePax_faults : ¬ ∀ bytes : Bytes, bytes.length < 2 ^ 63 → (parsePax bytes).isSome := fun h =>
  absurd (h [0x31, 0x20, 0x61] (by decide)) (by decide +kernel)

end HamixOS.Pantry
