import HamixOS.Pantry.Tar

namespace HamixOS.Pantry

open Lib List Option Header

/-!
# The tar reader for streams (`archive.rs`)

`TarStream` takes an archive in pieces of any size and reports its entries to a callback.  It
repeats what `tar_entries` does with a whole archive, but for metadata records of length zero,
which it does not heed.

Both are compared with a third reading, `records`, that cuts an archive into its records first;
`Expect` says what a stream in the middle of an archive still has to report.
-/

/-- `StreamEntry`. -/
structure StreamEntry where
  path : Text
  kind : Kind
  mode : Nat
  deriving DecidableEq

inductive TarEvent where
  | begins (entry : StreamEntry)
  | data (chunk : List UInt8)
  | ends
  deriving DecidableEq

inductive TarState where
  | header
  | metadata (flag : UInt8) (size : Nat) (body : List UInt8)
  | body (remaining padding : Nat)
  | padding (left : Nat)
  | done
  deriving DecidableEq

/-- `pending` holds `pax`, `long_name` and `long_link`. -/
structure TarStream where
  state : TarState
  header : List UInt8
  pending : Pending
  current : Option StreamEntry
  error : Option TarError
  deriving DecidableEq

namespace TarStream

def new : TarStream := ⟨.header, [], .none, none, none⟩

variable {σ : Type} (on : σ → TarEvent → σ × Bool)

/-- The state for what is not looked at, `left` bytes of it. -/
def pad (left : Nat) : TarState := if 0 < left then .padding left else .header

/-- `start_entry`, with the callback `on` and its state `c`. -/
def startEntry (s : TarStream) (c : σ) (header : List UInt8) : TarStream × σ × Bool :=
  if Header.isZero header then ({ s with state := .done }, c, true)
  else if Header.stored header ≠ Header.sum header then ({ s with error := some .checksum }, c, false)
  else
    let size := Header.size header
    if Header.isMeta header then
      ({ s with state := if size = 0 then .header else .metadata (Header.flag header) size [] }, c, true)
    else
      let entry : StreamEntry := ⟨s.pending.path header, s.pending.kind header, Header.mode header⟩
      let padding := roundUp size - size
      if s.pending.skips header then ({ s with pending := .none, state := pad (size + padding) }, c, true)
      else
        let s := { s with pending := .none, current := some entry }
        let r := on c (.begins entry)
        if r.2 then
          if size = 0 then
            let r' := on r.1 .ends
            if r'.2 then ({ s with current := none, state := .header }, r'.1, true)
            else ({ s with current := none }, r'.1, false)
          else ({ s with state := .body size padding }, r.1, true)
        else (s, r.1, false)

/-- One round of `feed`: what is left of the data, and what `feed` answers if it ends here. -/
def feedStep (s : TarStream) (c : σ) (data : List UInt8) : TarStream × σ × List UInt8 × Option Bool :=
  match s.state with
  | .done => (s, c, data, some true)
  | .padding left =>
    let n := min left data.length
    ({ s with state := pad (left - n) }, c, data.drop n, none)
  | .body remaining padding =>
    let n := min remaining data.length
    let r := if 0 < n then on c (.data (data.take n)) else (c, true)
    if r.2 then
      if remaining - n = 0 then
        let r' := on r.1 .ends
        if r'.2 then ({ s with current := none, state := pad padding }, r'.1, data.drop n, none)
        else ({ s with state := .body 0 padding }, r'.1, data.drop n, some false)
      else ({ s with state := .body (remaining - n) padding }, r.1, data.drop n, none)
    else (s, r.1, data, some false)
  | .metadata flag size body =>
    let n := min (size - body.length) data.length
    let body := body ++ data.take n
    if body.length = size then
      match s.pending.note flag body with
      | some p => ({ s with pending := p, state := pad (roundUp body.length - body.length) }, c, data.drop n, none)
      | none => ({ s with error := some .aborted }, c, data.drop n, some false)
    else ({ s with state := .metadata flag size body }, c, data.drop n, none)
  | .header =>
    let n := min (512 - s.header.length) data.length
    let header := s.header ++ data.take n
    if header.length < 512 then ({ s with header }, c, data.drop n, none)
    else
      let r := startEntry on { s with header := [] } c header
      (r.1, r.2.1, data.drop n, if r.2.2 then none else some false)

/-- The rounds of `feed`. -/
def feedLoop : Nat → TarStream → σ → List UInt8 → TarStream × σ × Bool
  | 0, s, c, _ => (s, c, true)
  | fuel + 1, s, c, data =>
    if data = [] then (s, c, true)
    else
      let r := feedStep on s c data
      match r.2.2.2 with
      | some b => (r.1, r.2.1, b)
      | none => feedLoop fuel r.1 r.2.1 r.2.2.1

/-- `feed`.  A round that takes no byte is followed by one that does. -/
def feed (s : TarStream) (c : σ) (data : List UInt8) : TarStream × σ × Bool :=
  feedLoop on (2 * data.length + 1) s c data

/-- The chunks of a stream, one after the other, until one is refused. -/
def feedChunks : TarStream → σ → List (List UInt8) → TarStream × σ × Bool
  | s, c, [] => (s, c, true)
  | s, c, chunk :: chunks =>
    let r := feed on s c chunk
    if r.2.2 then feedChunks r.1 r.2.1 chunks else r

/-- The callback that writes down what it is told, and goes on. -/
def collect (events : List TarEvent) (e : TarEvent) : List TarEvent × Bool := (events ++ [e], true)

/-! ### Callbacks that refuse -/

/-- Events handled one after the other, until one is refused. -/
def deliver : σ → List TarEvent → σ × Bool
  | c, [] => (c, true)
  | c, e :: es => if (on c e).2 then deliver (on c e).1 es else on c e

section Deliver

variable {f : σ → TarEvent → σ × Bool}

theorem deliver_append {c : σ} {es : List TarEvent} (h : (deliver f c es).2 = true) (es' : List TarEvent) :
    deliver f c (es ++ es') = deliver f (deliver f c es).1 es' := by
  induction es generalizing c with
  | nil => rfl
  | cons e es ih =>
    rw [cons_append, deliver, deliver]
    rw [deliver] at h
    by_cases he : (f c e).2 = true
    · rw [if_pos he] at h ⊢
      rw [if_pos he]
      exact ih h
    · rw [if_neg he] at h
      exact absurd h he

theorem deliver_append_refused {c : σ} {es : List TarEvent} (h : (deliver f c es).2 = false) (es' : List TarEvent) :
    deliver f c (es ++ es') = deliver f c es := by
  induction es generalizing c with
  | nil => cases h
  | cons e es ih =>
    rw [cons_append, deliver, deliver]
    rw [deliver] at h
    split_ifs at h ⊢ with he
    · exact ih h
    · rfl

theorem deliver_pair (c : σ) (e e' : TarEvent) :
    deliver f c [e, e'] = if (f c e).2 then f (f c e).1 e' else f c e := by
  rw [deliver, deliver, deliver]
  split_ifs with h h'
  · exact Prod.ext rfl h'.symm
  · rfl
  · rfl

theorem deliver_one (c : σ) (e : TarEvent) : deliver f c [e] = f c e := by
  rw [deliver, deliver]
  split_ifs with h
  · exact Prod.ext rfl h.symm
  · rfl

variable {α : Type}

/-- What a stream does for a callback that may refuse, beside what it does for one that writes the
    events down: up to a refusal the same, and then it stops. -/
def Follows (f : σ → TarEvent → σ × Bool) (stop : α → Prop) (c : σ) (events : List TarEvent) (r : TarStream × σ × α)
    (r₀ : TarStream × List TarEvent × α) : Prop :=
  ∃ es, r₀.2.1 = events ++ es ∧ r.2.1 = (deliver f c es).1 ∧
    if (deliver f c es).2 then r.1 = r₀.1 ∧ r.2.2 = r₀.2.2 else stop r.2.2

/-- A step that reports nothing. -/
theorem Follows.quiet {stop : α → Prop} {c : σ} {events : List TarEvent} (s : TarStream) (a : α) :
    Follows f stop c events (s, c, a) (s, events, a) :=
  ⟨[], (append_nil _).symm, rfl, ⟨rfl, rfl⟩⟩

theorem startEntry_follows (s : TarStream) (c : σ) (events : List TarEvent) (header : List UInt8) :
    Follows f (· = false) c events (startEntry f s c header) (startEntry collect s events header) := by
  unfold startEntry
  by_cases hz : isZero header = true
  · rw [if_pos hz, if_pos hz]
    exact .quiet _ _
  rw [if_neg hz, if_neg hz]
  by_cases hsum : Header.stored header ≠ Header.sum header
  · rw [if_pos hsum, if_pos hsum]
    exact .quiet _ _
  rw [if_neg hsum, if_neg hsum]
  dsimp only [collect]
  by_cases hm : isMeta header = true
  · rw [if_pos hm, if_pos hm]
    exact .quiet _ _
  rw [if_neg hm, if_neg hm]
  by_cases hsk : s.pending.skips header = true
  · rw [if_pos hsk, if_pos hsk]
    exact .quiet _ _
  rw [if_neg hsk, if_neg hsk, if_pos rfl]
  by_cases hsize : Header.size header = 0
  · rw [if_pos hsize, if_pos hsize, if_pos rfl]
    refine ⟨[.begins ⟨s.pending.path header, s.pending.kind header, Header.mode header⟩, .ends],
      append_assoc _ _ _, ?_⟩
    rw [deliver_pair]
    by_cases hb : (f c (.begins ⟨s.pending.path header, s.pending.kind header, Header.mode header⟩)).2 = true
    · rw [if_pos hb, if_pos hb]
      split_ifs with he
      · exact ⟨rfl, rfl, rfl⟩
      · exact ⟨rfl, rfl⟩
    · rw [if_neg hb, if_neg hb, if_neg hb]
      exact ⟨rfl, rfl⟩
  · rw [if_neg hsize, if_neg hsize]
    refine ⟨[.begins ⟨s.pending.path header, s.pending.kind header, Header.mode header⟩], rfl, ?_⟩
    rw [deliver_one]
    split_ifs with hb
    · exact ⟨rfl, rfl, rfl⟩
    · exact ⟨rfl, rfl⟩

theorem feedStep_follows (s : TarStream) (c : σ) (events : List TarEvent) (data : List UInt8) :
    Follows f (fun a : List UInt8 × Option Bool => a.2 = some false) c events (feedStep f s c data)
      (feedStep collect s events data) := by
  unfold feedStep
  cases s.state with
  | done => exact .quiet _ _
  | padding left => exact .quiet _ _
  | body remaining padding =>
    dsimp only [collect]
    by_cases hn : 0 < min remaining data.length
    · rw [if_pos hn, if_pos hn, if_pos rfl]
      by_cases hlast : remaining - min remaining data.length = 0
      · rw [if_pos hlast, if_pos hlast, if_pos rfl]
        refine ⟨[.data (data.take (min remaining data.length)), .ends], append_assoc _ _ _, ?_⟩
        rw [deliver_pair]
        by_cases hd : (f c (.data (data.take (min remaining data.length)))).2 = true
        · rw [if_pos hd, if_pos hd]
          split_ifs with he
          · exact ⟨rfl, rfl, rfl⟩
          · exact ⟨rfl, rfl⟩
        · rw [if_neg hd, if_neg hd, if_neg hd]
          exact ⟨rfl, rfl⟩
      · rw [if_neg hlast, if_neg hlast]
        refine ⟨[.data (data.take (min remaining data.length))], rfl, ?_⟩
        rw [deliver_one]
        split_ifs with hd
        · exact ⟨rfl, rfl, rfl⟩
        · exact ⟨rfl, rfl⟩
    · rw [if_neg hn, if_neg hn, if_pos rfl, if_pos rfl]
      by_cases hlast : remaining - min remaining data.length = 0
      · rw [if_pos hlast, if_pos hlast, if_pos rfl]
        refine ⟨[.ends], rfl, ?_⟩
        rw [deliver_one]
        split_ifs with he
        · exact ⟨rfl, rfl, rfl⟩
        · exact ⟨rfl, rfl⟩
      · rw [if_neg hlast, if_neg hlast]
        exact .quiet _ _
  | metadata flag size body =>
    dsimp only
    split_ifs
    · cases s.pending.note flag (body ++ data.take (min (size - body.length) data.length)) with
      | some p => exact .quiet _ _
      | none => exact .quiet _ _
    · exact .quiet _ _
  | header =>
    dsimp only
    by_cases hlen : (s.header ++ data.take (min (512 - s.header.length) data.length)).length < 512
    · rw [if_pos hlen, if_pos hlen]
      exact .quiet _ _
    · rw [if_neg hlen, if_neg hlen]
      obtain ⟨es, h₀, hc, hstop⟩ := startEntry_follows (f := f) ⟨.header, [], s.pending, s.current, s.error⟩ c events
        (s.header ++ data.take (min (512 - s.header.length) data.length))
      refine ⟨es, h₀, hc, ?_⟩
      dsimp only
      by_cases hgo : (deliver f c es).2 = true
      · rw [if_pos hgo] at hstop ⊢
        rw [hstop.2]
        exact ⟨hstop.1, rfl⟩
      · rw [if_neg hgo] at hstop ⊢
        rw [hstop]
        rfl

theorem feedLoop_follows (fuel : Nat) (s : TarStream) (c : σ) (events : List TarEvent) (data : List UInt8) :
    Follows f (· = false) c events (feedLoop f fuel s c data) (feedLoop collect fuel s events data) := by
  induction fuel generalizing s c events data with
  | zero => exact .quiet _ _
  | succ fuel ih =>
    rw [feedLoop, feedLoop]
    split_ifs with hd
    · exact .quiet _ _
    obtain ⟨es, h₀, hc, hstop⟩ := feedStep_follows (f := f) s c events data
    dsimp only
    by_cases hgo : (deliver f c es).2 = true
    · rw [if_pos hgo] at hstop
      rw [hstop.1, hstop.2, hc, h₀]
      cases (feedStep collect s events data).2.2.2 with
      | some b => exact ⟨es, rfl, rfl, by rw [if_pos hgo]; exact ⟨rfl, rfl⟩⟩
      | none =>
        obtain ⟨es', h₀', hc', hstop'⟩ := ih (feedStep collect s events data).1 (deliver f c es).1 (events ++ es)
          (feedStep collect s events data).2.2.1
        refine ⟨es ++ es', h₀'.trans (append_assoc _ _ _), ?_⟩
        rw [deliver_append hgo]
        exact ⟨hc', hstop'⟩
    · rw [if_neg hgo] at hstop
      rw [hstop]
      have hfalse : (deliver f c es).2 = false := by simpa using hgo
      cases (feedStep collect s events data).2.2.2 with
      | some b => exact ⟨es, h₀, hc, by rw [if_neg hgo]⟩
      | none =>
        obtain ⟨es', h₀', -⟩ := ih (feedStep collect s events data).1 c (feedStep collect s events data).2.1
          (feedStep collect s events data).2.2.1
        refine ⟨es ++ es', by rw [h₀', h₀, append_assoc], ?_⟩
        rw [deliver_append_refused hfalse]
        exact ⟨hc, by rw [if_neg hgo]⟩

theorem feed_follows (s : TarStream) (c : σ) (events : List TarEvent) (data : List UInt8) :
    Follows f (· = false) c events (feed f s c data) (feed collect s events data) :=
  feedLoop_follows _ s c events data

/-- A stream calls back with the events that it has for a callback that refuses none, as far as
    the first that is refused. -/
theorem feedChunks_follows (chunks : List (List UInt8)) (s : TarStream) (c : σ) (events : List TarEvent) :
    Follows f (· = false) c events (feedChunks f s c chunks) (feedChunks collect s events chunks) := by
  induction chunks generalizing s c events with
  | nil => exact .quiet _ _
  | cons chunk chunks ih =>
    rw [feedChunks, feedChunks]
    obtain ⟨es, h₀, hc, hstop⟩ := feed_follows (f := f) s c events chunk
    by_cases hgo : (deliver f c es).2 = true
    · rw [if_pos hgo] at hstop
      by_cases hok : (feed collect s events chunk).2.2 = true
      · rw [if_pos hok, if_pos (hstop.2.trans hok), hstop.1, hc, h₀]
        obtain ⟨es', h₀', hc', hstop'⟩ := ih (feed collect s events chunk).1 (deliver f c es).1 (events ++ es)
        refine ⟨es ++ es', h₀'.trans (append_assoc _ _ _), ?_⟩
        rw [deliver_append hgo]
        exact ⟨hc', hstop'⟩
      · rw [if_neg hok, if_neg (hstop.2.symm ▸ hok)]
        exact ⟨es, h₀, hc, by rw [if_pos hgo]; exact hstop⟩
    · rw [if_neg hgo] at hstop
      rw [if_neg (hstop.symm ▸ Bool.false_ne_true)]
      have hfalse : (deliver f c es).2 = false := by simpa using hgo
      split_ifs with hok
      · obtain ⟨es', h₀', -⟩ := ih (feed collect s events chunk).1 c (feed collect s events chunk).2.1
        refine ⟨es ++ es', by rw [h₀', h₀, append_assoc], ?_⟩
        rw [deliver_append_refused hfalse]
        exact ⟨hc, by rw [if_neg hgo]; exact hstop⟩
      · exact ⟨es, h₀, hc, by rw [if_neg hgo]; exact hstop⟩

end Deliver

end TarStream

/-! ### What is reported -/

/-- An event after the entries that are complete and the one that has begun. -/
def absorb (t : List Entry × Option Entry) : TarEvent → Option (List Entry × Option Entry)
  | .begins entry => match t.2 with
    | none => some (t.1, some ⟨entry.path, []⟩)
    | some _ => none
  | .data chunk => t.2.map fun e => (t.1, some ⟨e.path, e.data ++ chunk⟩)
  | .ends => t.2.map fun e => (t.1 ++ [e], none)

/-- The entries of a list of events, each with its data put together; `none` where the events do
    not come in pairs of a beginning and an end with data in between. -/
def tally (events : List TarEvent) : Option (List Entry × Option Entry) := events.foldlM absorb ([], none)

def delivered (events : List TarEvent) : Option (List Entry) :=
  (tally events).bind fun t => if t.2 = none then some t.1 else none

/-! ### Records -/

structure Record where
  header : List UInt8
  body : List UInt8

/-- The records of an archive, up to its end. -/
def recordsLoop : Nat → List UInt8 → Option (List Record)
  | 0, _ => some []
  | fuel + 1, bytes =>
    if bytes.length < 512 then some []
    else
      let header := bytes.take 512
      if Header.isZero header then some []
      else if Header.stored header ≠ Header.sum header ∨ bytes.length < 512 + Header.size header then none
      else
        (recordsLoop fuel (bytes.drop (512 + roundUp (Header.size header)))).map fun rs =>
          ⟨header, (bytes.drop 512).take (Header.size header)⟩ :: rs

def records (tar : List UInt8) : Option (List Record) := recordsLoop (tar.length / 512) tar

/-- The entries of a list of records. -/
def entriesOf : Pending → List Record → Option (List Entry)
  | _, [] => some []
  | p, r :: rs =>
    if Header.isMeta r.header then (p.note (Header.flag r.header) r.body).bind fun p => entriesOf p rs
    else (entriesOf .none rs).map fun es => if p.skips r.header then es else ⟨p.path r.header, r.body⟩ :: es

/-- The record is not a metadata record of length zero. -/
def Record.heard (r : Record) : Bool := !(Header.isMeta r.header && r.body = [])

theorem recordsLoop_fuel {fuel fuel' : Nat} {bytes : List UInt8} (h : bytes.length / 512 ≤ fuel)
    (h' : bytes.length / 512 ≤ fuel') : recordsLoop fuel bytes = recordsLoop fuel' bytes := by
  induction fuel generalizing fuel' bytes with
  | zero =>
    have hlt : bytes.length < 512 := by omega
    cases fuel' with
    | zero => rfl
    | succ fuel' => rw [recordsLoop, recordsLoop, if_pos hlt]
  | succ fuel ih =>
    cases fuel' with
    | zero =>
      have hlt : bytes.length < 512 := by omega
      rw [recordsLoop, recordsLoop, if_pos hlt]
    | succ fuel' =>
      unfold recordsLoop
      dsimp only
      rw [@ih fuel']
      · rw [length_drop]
        omega
      · rw [length_drop]
        omega

/-- An archive that goes on is its first record and the rest. -/
theorem records_eq {bytes : List UInt8} (h : 512 ≤ bytes.length) :
    records bytes = if isZero (bytes.take 512) then some []
      else if Header.stored (bytes.take 512) ≠ Header.sum (bytes.take 512) ∨
          bytes.length < 512 + Header.size (bytes.take 512) then none
      else (records (bytes.drop (512 + roundUp (Header.size (bytes.take 512))))).map fun rs =>
        ⟨bytes.take 512, (bytes.drop 512).take (Header.size (bytes.take 512))⟩ :: rs := by
  have hfuel : records bytes = recordsLoop (bytes.length / 512 - 1 + 1) bytes := by
    unfold records
    congr 1
    omega
  rw [hfuel, recordsLoop, if_neg (by omega)]
  dsimp only
  unfold records
  rw [recordsLoop_fuel le_rfl]
  rw [length_drop]
  omega

theorem records_of_short {bytes : List UInt8} (h : bytes.length < 512) : records bytes = some [] := by
  unfold records
  rw [Nat.div_eq_of_lt h, recordsLoop]

/-- `tar_entries` reads the records one after the other. -/
theorem tarLoop_eq_ok {fuel : Nat} {bytes : List UInt8} {p : Pending} {es : List Entry} :
    tarLoop fuel bytes p = .ok es ↔ ∃ rs, recordsLoop fuel bytes = some rs ∧ entriesOf p rs = some es := by
  induction fuel generalizing bytes p es with
  | zero => simp [tarLoop, recordsLoop, entriesOf]
  | succ fuel ih =>
    unfold tarLoop recordsLoop
    dsimp only
    by_cases hs : bytes.length < 512
    · rw [if_pos hs, if_pos hs]
      simp [entriesOf]
    rw [if_neg hs, if_neg hs]
    by_cases hz : isZero (bytes.take 512) = true
    · rw [if_pos hz, if_pos hz]
      simp [entriesOf]
    rw [if_neg hz, if_neg hz]
    by_cases hc : Header.stored (bytes.take 512) ≠ Header.sum (bytes.take 512)
    · rw [if_pos hc, if_pos (.inl hc)]
      simp
    rw [if_neg hc]
    by_cases ht : bytes.length < 512 + Header.size (bytes.take 512)
    · rw [if_pos ht, if_pos (.inr ht)]
      simp
    rw [if_neg ht, if_neg (not_or.mpr ⟨hc, ht⟩)]
    simp only [map_eq_some_iff]
    by_cases hm : isMeta (bytes.take 512) = true
    · rw [if_pos hm]
      constructor
      · intro h
        split at h
        · next q hq =>
          obtain ⟨rs, hrs, hes⟩ := ih.mp h
          refine ⟨_, ⟨rs, hrs, rfl⟩, ?_⟩
          rw [entriesOf, if_pos hm, hq]
          exact hes
        · cases h
      · rintro ⟨_, ⟨rs, hrs, rfl⟩, hes⟩
        rw [entriesOf, if_pos hm] at hes
        obtain ⟨q, hq, hes⟩ := bind_eq_some_iff.mp hes
        rw [hq]
        exact ih.mpr ⟨rs, hrs, hes⟩
    · rw [if_neg hm]
      constructor
      · intro h
        split at h
        · next es' hes' =>
          obtain ⟨rs, hrs, he⟩ := ih.mp hes'
          refine ⟨_, ⟨rs, hrs, rfl⟩, ?_⟩
          rw [entriesOf, if_neg hm, he]
          cases h
          rfl
        · cases h
      · rintro ⟨_, ⟨rs, hrs, rfl⟩, hes⟩
        rw [entriesOf, if_neg hm] at hes
        obtain ⟨es', hes', rfl⟩ := map_eq_some_iff.mp hes
        rw [ih.mpr ⟨rs, hrs, hes'⟩]

theorem tarEntries_eq_ok {tar : List UInt8} {es : List Entry} :
    tarEntries tar = .ok es ↔ ∃ rs, records tar = some rs ∧ entriesOf .none rs = some es := tarLoop_eq_ok

theorem tally_concat (events : List TarEvent) (e : TarEvent) :
    tally (events ++ [e]) = (tally events).bind fun t => absorb t e := by
  unfold tally
  rw [foldlM_append]
  cases foldlM absorb ([], none) events with
  | none => rfl
  | some t => simp

/-! ### What a stream still has to report -/

/-- The entries that `bytes` hold for a reader that does not heed empty metadata records. -/
def Rest (p : Pending) (bytes : List UInt8) (es : List Entry) : Prop :=
  ∃ rs, records bytes = some rs ∧ entriesOf p (rs.filter Record.heard) = some es

/-- With `t` reported and `rest` still to come, the stream will have reported `es` at the end. -/
inductive Expect : TarStream → List Entry × Option Entry → List UInt8 → List Entry → Prop
  | header {buf p cur ts rest later} : buf.length < 512 → Rest p (buf ++ rest) later →
      Expect ⟨.header, buf, p, cur, none⟩ (ts, none) rest (ts ++ later)
  | metadata {flag size body p q cur ts rest later} : body.length < size → size ≤ body.length + rest.length →
      p.note flag ((body ++ rest).take size) = some q → Rest q ((body ++ rest).drop (roundUp size)) later →
      Expect ⟨.metadata flag size body, [], p, cur, none⟩ (ts, none) rest (ts ++ later)
  | body {remaining padding cur ts e rest later} : 0 < remaining → remaining ≤ rest.length →
      Rest .none (rest.drop (remaining + padding)) later →
      Expect ⟨.body remaining padding, [], .none, cur, none⟩ (ts, some e) rest
        (ts ++ ⟨e.path, e.data ++ rest.take remaining⟩ :: later)
  | padding {left p cur ts rest later} : 0 < left → Rest p (rest.drop left) later →
      Expect ⟨.padding left, [], p, cur, none⟩ (ts, none) rest (ts ++ later)
  | done {buf p cur ts rest} : Expect ⟨.done, buf, p, cur, none⟩ (ts, none) rest ts

theorem Expect.pad {left : Nat} {p : Pending} {cur : Option StreamEntry} (ts : List Entry) {rest : List UInt8} {later : List Entry}
    (h : Rest p (rest.drop left) later) : Expect ⟨TarStream.pad left, [], p, cur, none⟩ (ts, none) rest (ts ++ later) := by
  unfold TarStream.pad
  split_ifs with hl
  · exact .padding hl h
  · have hz : left = 0 := by omega
    rw [hz, drop_zero] at h
    exact .header (by simp) h

/-- Nothing is missing at the end. -/
theorem Expect.finish {s : TarStream} {t : List Entry × Option Entry} {es : List Entry} (h : Expect s t [] es) :
    s.error = none ∧ t = (es, none) := by
  have hshort : ∀ {p : Pending} {bytes : List UInt8} {later : List Entry}, bytes.length < 512 → Rest p bytes later →
      later = [] := by
    rintro p bytes later hlt ⟨rs, hrs, hes⟩
    rw [records_of_short hlt] at hrs
    cases hrs
    cases hes
    rfl
  cases h with
  | header hb hr =>
    rw [hshort (by simpa using hb) hr, append_nil]
    exact ⟨rfl, rfl⟩
  | metadata hb hs _ _ =>
    rw [length_nil] at hs
    omega
  | body h0 hl _ =>
    rw [length_nil] at hl
    omega
  | padding _ hr =>
    rw [hshort (by simp) hr, append_nil]
    exact ⟨rfl, rfl⟩
  | done => exact ⟨rfl, rfl⟩

theorem le_roundUp (size : Nat) : size ≤ roundUp size := by
  unfold roundUp
  omega

/-- The first record of what is left. -/
theorem Rest.cut {p : Pending} {header bytes : List UInt8} {later : List Entry} (hlen : header.length = 512)
    (h : Rest p (header ++ bytes) later) :
    (isZero header = true ∧ later = []) ∨
    (isZero header = false ∧ Header.stored header = Header.sum header ∧ Header.size header ≤ bytes.length ∧
      ∃ rs, records (bytes.drop (roundUp (Header.size header))) = some rs ∧
        entriesOf p ((⟨header, bytes.take (Header.size header)⟩ :: rs : List Record).filter Record.heard) = some later) := by
  obtain ⟨rs, hrs, hes⟩ := h
  have htake : (header ++ bytes).take 512 = header := by rw [← hlen, take_left]
  have hdrop : ∀ n, (header ++ bytes).drop (512 + n) = bytes.drop n := by
    intro n
    rw [← drop_drop, ← hlen, drop_left]
  have hdrop0 : (header ++ bytes).drop 512 = bytes := hdrop 0
  rw [records_eq (by rw [length_append]; omega), htake, hdrop, hdrop0] at hrs
  split_ifs at hrs with hz hc
  · cases hrs
    cases hes
    exact .inl ⟨hz, rfl⟩
  · obtain ⟨rs', hrs', rfl⟩ := map_eq_some_iff.mp hrs
    obtain ⟨hsum, hsize⟩ := not_or.mp hc
    rw [length_append] at hsize
    exact .inr ⟨by simpa using hz, not_not.mp hsum, by omega, rs', hrs', hes⟩

open TarStream

/-- `start_entry` reports the beginning of what the header announces. -/
theorem startEntry_expect {p : Pending} {cur : Option StreamEntry} {header bytes : List UInt8} {events : List TarEvent}
    {ts later : List Entry} (hlen : header.length = 512) (ht : tally events = some (ts, none))
    (h : Rest p (header ++ bytes) later) :
    (startEntry collect ⟨.header, [], p, cur, none⟩ events header).2.2 = true ∧
      ∃ t, tally (startEntry collect ⟨.header, [], p, cur, none⟩ events header).2.1 = some t ∧
        Expect (startEntry collect ⟨.header, [], p, cur, none⟩ events header).1 t bytes (ts ++ later) := by
  unfold startEntry
  rcases h.cut hlen with ⟨hz, rfl⟩ | ⟨hz, hsum, hsize, rs, hrs, hes⟩
  · rw [if_pos hz, append_nil]
    exact ⟨rfl, _, ht, .done⟩
  rw [if_neg (by simp [hz]), if_neg (by simpa using hsum)]
  dsimp only
  by_cases hm : isMeta header = true
  · rw [if_pos hm]
    refine ⟨rfl, _, ht, ?_⟩
    dsimp only
    split_ifs with h0
    · -- a record of length zero is not among those that are heard
      rw [h0] at hrs hes
      rw [filter_cons_of_neg (by simp [Record.heard, hm])] at hes
      exact .header (by simp) ⟨rs, hrs, hes⟩
    · have hbody : (bytes.take (Header.size header)).length = Header.size header := by
        rw [length_take]
        omega
      have hne : bytes.take (Header.size header) ≠ [] := by
        intro hnil
        rw [hnil] at hbody
        exact h0 hbody.symm
      rw [filter_cons_of_pos (by simp [Record.heard, hne]), entriesOf, if_pos hm] at hes
      obtain ⟨q, hq, hes⟩ := bind_eq_some_iff.mp hes
      exact .metadata (by simp; omega) (by simpa using hsize) hq ⟨rs, hrs, hes⟩
  · rw [if_neg hm]
    rw [filter_cons_of_pos (by simp [Record.heard, hm]), entriesOf, if_neg hm] at hes
    obtain ⟨es, hrest, rfl⟩ := map_eq_some_iff.mp hes
    have hround : Header.size header + (roundUp (Header.size header) - Header.size header) = roundUp (Header.size header) := by
      have := le_roundUp (Header.size header)
      omega
    have hrest : Rest .none (bytes.drop (Header.size header + (roundUp (Header.size header) - Header.size header))) es := by
      rw [hround]
      exact ⟨rs, hrs, hrest⟩
    by_cases hskip : p.skips header = true
    · rw [if_pos hskip, if_pos hskip]
      exact ⟨rfl, _, ht, .pad ts hrest⟩
    · rw [if_neg hskip, if_neg hskip]
      have hbegin : ∀ entry : StreamEntry, tally (events ++ [.begins entry]) = some (ts, some ⟨entry.path, []⟩) := by
        intro entry
        rw [tally_concat, ht]
        rfl
      simp only [TarStream.collect, if_true]
      split_ifs with h0
      · refine ⟨rfl, (ts ++ [⟨p.path header, []⟩], none), ?_, ?_⟩
        · rw [tally_concat, hbegin]
          rfl
        · rw [h0] at hrest ⊢
          have := @Expect.header [] _ none (ts ++ [⟨p.path header, []⟩]) _ _ (by simp) hrest
          simpa using this
      · exact ⟨rfl, _, hbegin _, .body (by omega) hsize hrest⟩

/-- A round of `feed` takes at least a byte and reports what it comes to, or the archive has ended. -/
theorem feedStep_expect {s : TarStream} {events : List TarEvent} {t : List Entry × Option Entry} {data rest : List UInt8}
    {es : List Entry} (hne : data ≠ []) (ht : tally events = some t) (h : Expect s t (data ++ rest) es) :
    ((feedStep collect s events data).2.2.2 = none ∧ (feedStep collect s events data).2.2.1.length < data.length ∧
      ∃ t', tally (feedStep collect s events data).2.1 = some t' ∧
        Expect (feedStep collect s events data).1 t' ((feedStep collect s events data).2.2.1 ++ rest) es) ∨
    ((feedStep collect s events data).2.2.2 = some true ∧
      ∃ t', tally (feedStep collect s events data).2.1 = some t' ∧ Expect (feedStep collect s events data).1 t' rest es) := by
  have hpos : 0 < data.length := length_pos_iff.mpr hne
  -- taking `n` bytes of the data leaves `data.drop n`
  have hshort : ∀ n, 0 < n → (data.drop n).length < data.length := by
    intro n hn
    rw [length_drop]
    omega
  have hsplit : ∀ n, data.take n ++ (data.drop n ++ rest) = data ++ rest := by
    intro n
    rw [← append_assoc, take_append_drop]
  cases h with
  | @header buf p cur ts _ later hb hr =>
    left
    unfold feedStep
    dsimp only
    have hn : 0 < min (512 - buf.length) data.length := by omega
    have hr' : Rest p ((buf ++ data.take (min (512 - buf.length) data.length)) ++
        (data.drop (min (512 - buf.length) data.length) ++ rest)) later := by
      rw [append_assoc, hsplit]
      exact hr
    by_cases hlt : (buf ++ data.take (min (512 - buf.length) data.length)).length < 512
    · rw [if_pos hlt]
      exact ⟨rfl, hshort _ hn, _, ht, .header hlt hr'⟩
    · rw [if_neg hlt]
      have hlen : (buf ++ data.take (min (512 - buf.length) data.length)).length = 512 := by
        rw [length_append, length_take] at hlt ⊢
        omega
      obtain ⟨hok, t', ht', hexp⟩ := @startEntry_expect _ cur _ _ _ _ _ hlen ht hr'
      refine ⟨?_, hshort _ hn, t', ht', hexp⟩
      dsimp only
      rw [hok]
      rfl
  | @metadata flag size body p q cur ts _ later hb hs hq hr =>
    left
    unfold feedStep
    dsimp only
    have hn : 0 < min (size - body.length) data.length := by omega
    have hcat : (body ++ data.take (min (size - body.length) data.length)) ++
        (data.drop (min (size - body.length) data.length) ++ rest) = body ++ (data ++ rest) := by
      rw [append_assoc, hsplit]
    have hlen : (body ++ data.take (min (size - body.length) data.length)).length =
        body.length + min (size - body.length) data.length := by
      rw [length_append, length_take]
      omega
    split_ifs with hfull
    · -- the record is complete
      have htake : (body ++ (data ++ rest)).take size = body ++ data.take (min (size - body.length) data.length) := by
        rw [← hcat]
        exact take_left' hfull
      rw [htake] at hq
      rw [hq]
      refine ⟨rfl, hshort _ hn, _, ht, .pad ts ?_⟩
      have hround : roundUp size = size + (roundUp size - size) := by
        have := le_roundUp size
        omega
      rw [← hcat, hround, ← drop_drop, drop_left' hfull] at hr
      rw [hfull]
      exact hr
    · refine ⟨rfl, hshort _ hn, _, ht, .metadata (q := q) ?_ ?_ ?_ ?_⟩
      · rw [hlen] at hfull ⊢
        omega
      · rw [hlen, length_append, length_drop]
        rw [length_append] at hs
        omega
      · rw [hcat]
        exact hq
      · rw [hcat]
        exact hr
  | @body remaining padding cur ts e _ later h0 hl hr =>
    left
    unfold feedStep
    dsimp only
    have hn : 0 < min remaining data.length := by omega
    have htally : tally (events ++ [.data (data.take (min remaining data.length))]) =
        some (ts, some ⟨e.path, e.data ++ data.take (min remaining data.length)⟩) := by
      rw [tally_concat, ht]
      rfl
    rw [if_pos hn]
    simp only [TarStream.collect, if_true]
    split_ifs with hfull
    · have hmin : min remaining data.length = remaining := by omega
      refine ⟨rfl, hshort _ hn, (ts ++ [⟨e.path, e.data ++ (data ++ rest).take remaining⟩], none), ?_, ?_⟩
      · rw [tally_concat, htally, hmin, take_append_of_le_length (by omega)]
        rfl
      · rw [hmin]
        have hdrop : (data.drop remaining ++ rest).drop padding = (data ++ rest).drop (remaining + padding) := by
          have hcut : (data ++ rest).drop remaining = data.drop remaining ++ rest := drop_append_of_le_length (by omega)
          rw [← hcut, drop_drop]
        have := @Expect.pad padding .none none (ts ++ [⟨e.path, e.data ++ (data ++ rest).take remaining⟩]) _ _ (hdrop ▸ hr)
        simpa using this
    · have hmin : min remaining data.length = data.length := by omega
      refine ⟨rfl, hshort _ hn, _, htally, ?_⟩
      rw [hmin, take_length, drop_length, nil_append]
      rw [length_append] at hl
      have hdrop : rest.drop (remaining - data.length + padding) = (data ++ rest).drop (remaining + padding) := by
        have hsum : remaining + padding = data.length + (remaining - data.length + padding) := by omega
        rw [hsum]
        exact (drop_length_add_append _).symm
      have := @Expect.body (remaining - data.length) padding cur ts ⟨e.path, e.data ++ data⟩ rest later (by omega) (by omega)
        (hdrop ▸ hr)
      have htake : (data ++ rest).take remaining = data ++ rest.take (remaining - data.length) := by
        rw [take_append, take_of_length_le (by omega)]
      rw [htake]
      simpa using this
  | @padding left p cur ts _ later h0 hr =>
    left
    unfold feedStep
    dsimp only
    refine ⟨rfl, hshort _ (by omega), _, ht, .pad ts ?_⟩
    have hdrop : (data.drop (min left data.length) ++ rest).drop (left - min left data.length) = (data ++ rest).drop left := by
      have hcut : (data ++ rest).drop (min left data.length) = data.drop (min left data.length) ++ rest :=
        drop_append_of_le_length (by omega)
      rw [← hcut, drop_drop, Nat.add_sub_cancel' (min_le_left _ _)]
    rw [hdrop]
    exact hr
  | done =>
    right
    exact ⟨rfl, _, ht, .done⟩

theorem feedLoop_expect {fuel : Nat} {s : TarStream} {events : List TarEvent} {t : List Entry × Option Entry}
    {data rest : List UInt8} {es : List Entry} (hf : data.length < fuel) (ht : tally events = some t)
    (h : Expect s t (data ++ rest) es) :
    (feedLoop collect fuel s events data).2.2 = true ∧ ∃ t', tally (feedLoop collect fuel s events data).2.1 = some t' ∧
      Expect (feedLoop collect fuel s events data).1 t' rest es := by
  induction fuel generalizing s events t data with
  | zero => omega
  | succ fuel ih =>
    unfold feedLoop
    split_ifs with hd
    · rw [hd, nil_append] at h
      exact ⟨rfl, t, ht, h⟩
    · rcases feedStep_expect hd ht h with ⟨hgo, hlt, t', ht', h'⟩ | ⟨hend, t', ht', h'⟩
      · dsimp only
        rw [hgo]
        exact ih (by omega) ht' h'
      · dsimp only
        rw [hend]
        exact ⟨rfl, t', ht', h'⟩

theorem feedChunks_expect {chunks : List (List UInt8)} {s : TarStream} {events : List TarEvent}
    {t : List Entry × Option Entry} {es : List Entry} (ht : tally events = some t) (h : Expect s t chunks.flatten es) :
    (feedChunks collect s events chunks).2.2 = true ∧ ∃ t', tally (feedChunks collect s events chunks).2.1 = some t' ∧
      Expect (feedChunks collect s events chunks).1 t' [] es := by
  induction chunks generalizing s events t with
  | nil => exact ⟨rfl, t, ht, h⟩
  | cons chunk chunks ih =>
    rw [flatten_cons] at h
    obtain ⟨hok, t', ht', h'⟩ := @feedLoop_expect (2 * chunk.length + 1) _ _ _ _ _ _ (by omega) ht h
    unfold feedChunks
    dsimp only
    have hok' : (feed collect s events chunk).2.2 = true := hok
    rw [hok', if_pos rfl]
    exact ih ht' h'

/-- The outcome of a stream that took everything and reported the entries `es`. -/
def Reports (r : TarStream × List TarEvent × Bool) (es : List Entry) : Prop :=
  r.2.2 = true ∧ r.1.error = none ∧ delivered r.2.1 = some es

/-- However it is cut, the stream reports the entries of the records that are heard. -/
theorem feedChunks_reports {chunks : List (List UInt8)} {es : List Entry} (h : Rest .none chunks.flatten es) :
    Reports (feedChunks collect new [] chunks) es := by
  have hstart : Expect new ([], none) chunks.flatten es := by
    exact Expect.header (by simp) (by simpa using h)
  obtain ⟨hok, t, ht, hend⟩ := @feedChunks_expect _ _ [] _ _ rfl hstart
  obtain ⟨herr, rfl⟩ := hend.finish
  refine ⟨hok, herr, ?_⟩
  unfold delivered
  rw [ht]
  rfl

/-- A reader that hears fewer records reads on wherever the other does. -/
theorem entriesOf_heard {rs : List Record} {p q : Pending} {es : List Entry} (h : entriesOf p rs = some es) :
    ∃ es', entriesOf q (rs.filter Record.heard) = some es' := by
  induction rs generalizing p q es with
  | nil => exact ⟨[], rfl⟩
  | cons r rs ih =>
    rw [entriesOf] at h
    by_cases hm : isMeta r.header = true
    · rw [if_pos hm] at h
      obtain ⟨p', hp', hes⟩ := bind_eq_some_iff.mp h
      by_cases hh : r.heard = true
      · rw [filter_cons_of_pos hh, entriesOf, if_pos hm]
        -- whether a record can be read does not depend on what came before it
        have hnote : ∃ q', q.note (Header.flag r.header) r.body = some q' := by
          unfold Pending.note at hp' ⊢
          split_ifs at hp' ⊢
          · obtain ⟨pax, hpax, -⟩ := map_eq_some_iff.mp hp'
            rw [hpax]
            exact ⟨_, rfl⟩
          · exact ⟨_, rfl⟩
          · exact ⟨_, rfl⟩
          · exact ⟨_, rfl⟩
        obtain ⟨q', hq'⟩ := hnote
        rw [hq', Option.bind_some]
        exact ih hes
      · rw [filter_cons_of_neg hh]
        exact ih hes
    · rw [if_neg hm] at h
      obtain ⟨es', hes', -⟩ := map_eq_some_iff.mp h
      rw [filter_cons_of_pos (by simp [Record.heard, hm]), entriesOf, if_neg hm]
      obtain ⟨es'', hes''⟩ := ih (q := .none) hes'
      rw [hes'']
      exact ⟨_, rfl⟩

/-- The stream agrees with `tar_entries`, however the archive is cut, if and only if the metadata
    records of length zero make no difference to the entries. -/
theorem stream_agrees (tar : List UInt8) (es : List Entry) (h : tarEntries tar = .ok es) :
    (∀ chunks : List (List UInt8), chunks.flatten = tar → Reports (feedChunks collect new [] chunks) es) ↔
      (records tar).bind (fun rs => entriesOf .none (rs.filter Record.heard)) = some es := by
  obtain ⟨rs, hrs, hes⟩ := tarEntries_eq_ok.mp h
  obtain ⟨es', hes'⟩ := entriesOf_heard (q := .none) hes
  have hall : ∀ chunks : List (List UInt8), chunks.flatten = tar → Reports (feedChunks collect new [] chunks) es' := by
    rintro chunks rfl
    exact feedChunks_reports ⟨rs, hrs, hes'⟩
  rw [hrs, Option.bind_some, hes']
  constructor
  · intro hag
    have h1 := (hag [tar] (by simp)).2.2
    have h2 := (hall [tar] (by simp)).2.2
    exact h2.symm.trans h1
  · intro heq chunks hc
    rw [← some.inj heq]
    exact hall chunks hc

/-- `width` octal digits of a number. -/
def octalDigits : Nat → Nat → List UInt8
  | 0, _ => []
  | width + 1, n => octalDigits width (n / 8) ++ [UInt8.ofNat (0x30 + n % 8)]

/-- A header with the name of one letter, as archivers write it. -/
def plainHeader (name flag : UInt8) (size : Nat) : List UInt8 :=
  let front := name :: List.replicate 123 0 ++ octalDigits 11 size ++ List.replicate 13 0
  let back := flag :: List.replicate 355 0
  front ++ octalDigits 7 ((front ++ List.replicate 8 32 ++ back).map UInt8.toNat).sum ++ [0] ++ back

/-- An archive of one file with three bytes. -/
def smallTar : List UInt8 := plainHeader 0x61 0x30 3 ++ [1, 2, 3] ++ List.replicate 509 0

theorem stream_agrees_small :
    Reports (feedChunks collect new [] [smallTar.take 300, smallTar.drop 300]) [⟨"a".toList, [1, 2, 3]⟩] :=
  (stream_agrees smallTar [⟨"a".toList, [1, 2, 3]⟩] (by decide +kernel)).mpr (by decide +kernel) _ (by simp)

/-- An archive with a long name of length zero in front of an entry. -/
def emptyName : List UInt8 := plainHeader 0x6E 0x4C 0 ++ plainHeader 0x61 0x30 0

/-- Read as a whole, the entry has no path and is left out; the stream reports it. -/
theorem empty_name_differs : tarEntries emptyName = .ok [] ∧
    ¬ Reports (feedChunks collect new [] [emptyName]) [] ∧
    Reports (feedChunks collect new [] [emptyName]) [⟨"a".toList, []⟩] := by
  unfold Reports
  decide +kernel

end HamixOS.Pantry
