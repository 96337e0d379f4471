import HamixOS.Lib.Bytes
import HamixOS.Pantry.TarStream

namespace HamixOS.Pantry

open Lib List Nat

/-!
# The tar reader does not see where chunks end (`archive.rs`)

`feedChecked` is `feed` with the faults of the program: a sum or product that does not fit, and a slice out of
order in `parse_pax`.  Chunks are taken byte by byte (`feedChecked_cons`), so that only the bytes matter
(`feedAll_eq`).
-/

/-- How the program stops short of an answer. -/
inductive Fault where
  | outOfRange
  | overflow
  | endless
  deriving DecidableEq

namespace TarStream

/-- Why a stream takes no more: a fault, or a `false` of `feed`. -/
inductive Halt (σ : Type) where
  | fault (f : Fault)
  | refused (s : TarStream) (c : σ)
  deriving DecidableEq

/-- `size.div_ceil(512) * 512` in `start_entry`. -/
def headerFault (header : Bytes) : Option Fault :=
  if Header.isZero header = false ∧ Header.stored header = Header.sum header ∧ Header.isMeta header = false ∧
      2 ^ 64 ≤ roundUp (Header.size header) then some .overflow
  else none

/-- The fault of a round: in a record that it completes, or in a header. -/
def stepFault (s : TarStream) (data : Bytes) : Option Fault :=
  match s.state with
  | .metadata flag size body =>
    let body := body ++ data.take (min (size - body.length) data.length)
    if body.length = size ∧ s.pending.note flag body = none then some .outOfRange else none
  | .header =>
    let header := s.header ++ data.take (min (512 - s.header.length) data.length)
    if header.length < 512 then none else headerFault header
  | _ => none

variable {σ : Type} (on : σ → TarEvent → σ × Bool)

/-- The rounds of `feed`, with its faults. -/
def feedChecked : Nat → TarStream → σ → Bytes → Except (Halt σ) (TarStream × σ)
  | 0, _, _, _ => .error (.fault .endless)
  | fuel + 1, s, c, data =>
    if data = [] then .ok (s, c)
    else
      match stepFault s data with
      | some f => .error (.fault f)
      | none =>
        let r := feedStep on s c data
        match r.2.2.2 with
        | some true => .ok (r.1, r.2.1)
        | some false => .error (.refused r.1 r.2.1)
        | none => feedChecked fuel r.1 r.2.1 r.2.2.1

/-- `feed` on a chunk. -/
def feedChunk (p : TarStream × σ) (chunk : Bytes) : Except (Halt σ) (TarStream × σ) :=
  feedChecked on (chunk.length + 1) p.1 p.2 chunk

/-- The chunks of a stream, one after the other. -/
def feedAll (s : TarStream) (c : σ) (chunks : List Bytes) : Except (Halt σ) (TarStream × σ) :=
  chunks.foldlM (feedChunk on) (s, c)

/-- The callback takes everything, and does the same for two pieces of data as for one. -/
structure Logical : Prop where
  accepts : ∀ c e, (on c e).2 = true
  merges : ∀ c a b, on (on c (.data a)).1 (.data b) = on c (.data (a ++ b))

/-- Something is missing before the next transition. -/
structure Ready (s : TarStream) : Prop where
  header : s.header.length < 512
  state : match s.state with
    | .metadata _ size body => body.length < size
    | .body remaining _ => 0 < remaining
    | .padding left => 0 < left
    | _ => True

theorem ready_new : Ready new := ⟨by decide, trivial⟩

variable {on}

/-- Without a fault it is `feed`. -/
theorem feedLoop_of_checked {fuel : Nat} {s s' : TarStream} {c c' : σ} {data : Bytes} :
    (feedChecked on fuel s c data = .ok (s', c') → feedLoop on fuel s c data = (s', c', true)) ∧
      (feedChecked on fuel s c data = .error (.refused s' c') → feedLoop on fuel s c data = (s', c', false)) := by
  induction fuel generalizing s c data with
  | zero => exact ⟨fun h => (by cases h), fun h => by cases h⟩
  | succ fuel ih =>
    rw [feedChecked, feedLoop]
    split_ifs with hd
    · exact ⟨fun h => by cases h; rfl, fun h => by cases h⟩
    cases stepFault s data with
    | some f => exact ⟨fun h => (by cases h), fun h => by cases h⟩
    | none =>
      dsimp only
      cases (feedStep on s c data).2.2.2 with
      | none => exact ih
      | some b =>
        cases b with
        | false => exact ⟨fun h => (by cases h), fun h => by cases h; rfl⟩
        | true => exact ⟨fun h => by cases h; rfl, fun h => by cases h⟩

variable {s : TarStream}

theorem ready_pad (h : s.header.length < 512) (left : Nat) : Ready { s with state := pad left } := by
  unfold pad
  split_ifs with hl
  · exact ⟨h, hl⟩
  · exact ⟨h, trivial⟩

/-- A header that is complete leaves the stream ready. -/
theorem startEntry_ready (hon : Logical on) (hs : s.state = .header) (h : s.header.length < 512) (c : σ)
    (header : Bytes) : Ready (startEntry on s c header).1 := by
  unfold startEntry
  simp only [hon.accepts, if_true]
  split_ifs with hz hsum hm h0 hsk h0'
  · exact ⟨h, trivial⟩
  · exact ⟨h, by rw [hs]; trivial⟩
  · exact ⟨h, trivial⟩
  · exact ⟨h, pos_of_ne_zero h0⟩
  · exact ready_pad (s := { s with pending := .none }) h _
  · exact ⟨h, trivial⟩
  · exact ⟨h, pos_of_ne_zero h0'⟩

/-- A round that goes on has taken a byte at least. -/
theorem feedStep_ready (hon : Logical on) (hs : Ready s) (c : σ) {data : Bytes} (hd : data ≠ []) :
    ((feedStep on s c data).2.2.2 = some true → s.state = .done ∧ (feedStep on s c data).1 = s) ∧
      ((feedStep on s c data).2.2.2 = none → Ready (feedStep on s c data).1 ∧
        (feedStep on s c data).2.2.1.length < data.length) := by
  have hpos := length_pos_iff.mpr hd
  obtain ⟨hheader, hstate⟩ := hs
  unfold feedStep
  cases hst : s.state with
  | done => exact ⟨fun _ => ⟨rfl, rfl⟩, fun h => (nomatch h)⟩
  | padding left =>
    rw [hst] at hstate
    exact ⟨fun h => (nomatch h), fun _ => ⟨ready_pad hheader _, by simp; omega⟩⟩
  | body remaining padding =>
    rw [hst] at hstate
    have hn : 0 < min remaining data.length := by simp only at hstate; omega
    simp only [if_pos hn, hon.accepts, if_true]
    split_ifs with hlast
    · exact ⟨fun h => (nomatch h), fun _ => ⟨ready_pad (s := { s with current := none }) hheader _, by simp; omega⟩⟩
    · exact ⟨fun h => (nomatch h), fun _ => ⟨⟨hheader, pos_of_ne_zero hlast⟩, by simp; omega⟩⟩
  | metadata flag size body =>
    rw [hst] at hstate
    simp only at hstate
    dsimp only
    split_ifs with hfull
    · cases s.pending.note flag (body ++ data.take (min (size - body.length) data.length)) with
      | none => exact ⟨fun h => (nomatch h), fun h => (nomatch h)⟩
      | some p => exact ⟨fun h => (nomatch h), fun _ => ⟨ready_pad (s := { s with pending := p }) hheader _, by simp; omega⟩⟩
    · refine ⟨fun h => (nomatch h), fun _ => ⟨⟨hheader, ?_⟩, by simp; omega⟩⟩
      simp only [length_append, length_take] at hfull ⊢
      omega
  | header =>
    dsimp only
    split_ifs with hshort hgo
    · exact ⟨fun h => (nomatch h), fun _ => ⟨⟨hshort, trivial⟩, by simp; omega⟩⟩
    · exact ⟨fun h => (nomatch h), fun _ => ⟨startEntry_ready hon rfl (by simp) c _, by simp; omega⟩⟩
    · exact ⟨fun h => (nomatch h), fun h => (nomatch h)⟩

/-- A round on more than one byte takes what a round on the first byte takes and stops there, or goes on as a round
    on the others does behind it. -/
theorem feedStep_cons (hon : Logical on) (hs : Ready s) (hdone : s.state ≠ .done) (c : σ) (x : UInt8) :
    (∀ rest, feedStep on s c (x :: rest) = ((feedStep on s c [x]).1, (feedStep on s c [x]).2.1, rest,
        (feedStep on s c [x]).2.2.2) ∧ stepFault s (x :: rest) = stepFault s [x]) ∧ (feedStep on s c [x]).2.2.1 = [] ∨
      stepFault s [x] = none ∧ ∃ s' c', feedStep on s c [x] = (s', c', [], none) ∧ s'.state ≠ .done ∧
        ∀ rest, rest ≠ [] → stepFault s (x :: rest) = stepFault s' rest ∧
          (stepFault s' rest = none → feedStep on s c (x :: rest) = feedStep on s' c' rest) := by
  obtain ⟨hheader, hstate⟩ := hs
  -- how many bytes are taken of one, and of more
  have hfirst : ∀ need, 0 < need → min need 1 = 1 := fun need h => by omega
  have hone : ∀ n, min 1 (n + 1) = 1 := fun n => by omega
  have hmin : ∀ need n, 1 < need → min need (n + 1) = min (need - 1) n + 1 := fun need n h => by omega
  cases hst : s.state with
  | done => exact absurd hst hdone
  | padding left =>
    rw [hst] at hstate
    by_cases hneed : 1 < left
    · refine .inr ⟨by rw [stepFault, hst], { s with state := .padding (left - 1) }, c, ?_, by simp, fun rest _ =>
        ⟨by simp only [stepFault, hst], fun _ => ?_⟩⟩
      · simp [feedStep, hst, hfirst left hstate, pad, hneed]
      · simp only [feedStep, hst, length_cons, hmin left _ hneed, drop_succ_cons]
        rw [show left - (min (left - 1) rest.length + 1) = left - 1 - min (left - 1) rest.length by omega]
    · obtain rfl : left = 1 := by simp only at hstate; omega
      refine .inl ⟨fun rest => ⟨?_, by simp only [stepFault, hst]⟩, ?_⟩
      · simp [feedStep, hst]
      · simp [feedStep, hst]
  | body remaining padding =>
    rw [hst] at hstate
    by_cases hneed : 1 < remaining
    · refine .inr ⟨by rw [stepFault, hst], { s with state := .body (remaining - 1) padding }, (on c (.data [x])).1, ?_,
        by simp, fun rest hrest => ⟨by simp only [stepFault, hst], fun _ => ?_⟩⟩
      · have hmore : ¬ remaining ≤ 1 := not_le.mpr hneed
        simp [feedStep, hst, hfirst remaining hstate, hon.accepts, Nat.sub_eq_zero_iff_le, hmore]
      · have hpos : 0 < min (remaining - 1) rest.length := by have := length_pos_iff.mpr hrest; omega
        simp only [feedStep, hst, length_cons, hmin remaining _ hneed, take_succ_cons, drop_succ_cons,
          succ_pos, hpos, if_true, hon.merges, singleton_append]
        rw [show remaining - (min (remaining - 1) rest.length + 1) = remaining - 1 - min (remaining - 1) rest.length by omega]
        simp only [hon.accepts, if_true]
    · obtain rfl : remaining = 1 := by simp only at hstate; omega
      refine .inl ⟨fun rest => ⟨?_, by simp only [stepFault, hst]⟩, ?_⟩
      · simp [feedStep, hst, hon.accepts]
      · simp [feedStep, hst, hon.accepts]
  | metadata flag size body =>
    rw [hst] at hstate
    by_cases hneed : 1 < size - body.length
    · have hshort : ¬ (body ++ [x]).length = size := by rw [length_append, length_singleton]; omega
      refine .inr ⟨?_, { s with state := .metadata flag size (body ++ [x]) }, c, ?_, by simp, fun rest _ => ⟨?_, fun h => ?_⟩⟩
      · simp only [stepFault, hst, length_singleton, hfirst _ (lt_of_succ_lt hneed), take_succ_cons,
          take_zero, hshort, false_and, if_false]
      · simp only [feedStep, hst, length_singleton, hfirst _ (lt_of_succ_lt hneed), take_succ_cons,
          take_zero, hshort, if_false, drop_succ_cons, drop_nil]
      · simp only [stepFault, hst, length_cons, hmin _ _ hneed, take_succ_cons, length_append, length_nil,
          zero_add, ← Nat.sub_sub, append_assoc, singleton_append]
      · simp only [stepFault, length_append, length_cons, length_nil, zero_add, ← Nat.sub_sub,
          append_assoc, singleton_append] at h
        simp only [feedStep, hst, length_cons, hmin _ _ hneed, take_succ_cons, drop_succ_cons,
          length_append, length_nil, zero_add, ← Nat.sub_sub, append_assoc, singleton_append]
        split_ifs with hfull
        · cases hnote : s.pending.note flag (body ++ x :: rest.take (min (size - body.length - 1) rest.length)) with
          | none =>
            rw [if_pos ⟨hfull, hnote⟩] at h
            cases h
          | some p => rfl
        · rfl
    · have hneed : size - body.length = 1 := by simp only at hstate; omega
      have hstep : ∀ rest, feedStep on s c (x :: rest) = ((feedStep on s c [x]).1, (feedStep on s c [x]).2.1, rest,
          (feedStep on s c [x]).2.2.2) ∧ (feedStep on s c [x]).2.2.1 = [] := by
        intro rest
        simp only [feedStep, hst, hneed, length_cons, hone, length_nil, take_succ_cons, take_zero,
          drop_succ_cons, drop_zero]
        split_ifs
        · cases s.pending.note flag (body ++ [x]) with
          | none => exact ⟨rfl, rfl⟩
          | some p => exact ⟨rfl, rfl⟩
        · exact ⟨rfl, rfl⟩
      refine .inl ⟨fun rest => ⟨(hstep rest).1, ?_⟩, (hstep []).2⟩
      simp only [stepFault, hst, hneed, length_cons, hone, length_nil, take_succ_cons, take_zero]
  | header =>
    by_cases hneed : 1 < 512 - s.header.length
    · have hshort : (s.header ++ [x]).length < 512 := by rw [length_append, length_singleton]; omega
      refine .inr ⟨?_, { s with header := s.header ++ [x] }, c, ?_, by simp [hst], fun rest _ => ⟨?_, fun _ => ?_⟩⟩
      · simp only [stepFault, hst, length_singleton, hfirst _ (lt_of_succ_lt hneed), take_succ_cons,
          take_zero, hshort, if_true]
      · simp only [feedStep, hst, length_singleton, hfirst _ (lt_of_succ_lt hneed), take_succ_cons,
          take_zero, hshort, if_true, drop_succ_cons, drop_nil]
      · simp only [stepFault, hst, length_cons, hmin _ _ hneed, take_succ_cons, length_append, length_nil,
          zero_add, ← Nat.sub_sub, append_assoc, singleton_append]
      · simp only [feedStep, hst, length_cons, hmin _ _ hneed, take_succ_cons, drop_succ_cons,
          length_append, length_nil, zero_add, ← Nat.sub_sub, append_assoc, singleton_append]
    · have hneed : 512 - s.header.length = 1 := by omega
      have hstep : ∀ rest, feedStep on s c (x :: rest) = ((feedStep on s c [x]).1, (feedStep on s c [x]).2.1, rest,
          (feedStep on s c [x]).2.2.2) ∧ (feedStep on s c [x]).2.2.1 = [] := by
        intro rest
        simp only [feedStep, hst, hneed, length_cons, hone, length_nil, take_succ_cons, take_zero,
          drop_succ_cons, drop_zero]
        split_ifs
        · exact ⟨rfl, rfl⟩
        · exact ⟨rfl, rfl⟩
        · exact ⟨rfl, rfl⟩
      refine .inl ⟨fun rest => ⟨(hstep rest).1, ?_⟩, (hstep []).2⟩
      simp only [stepFault, hst, hneed, length_cons, hone, length_nil, take_succ_cons, take_zero]

theorem feedChecked_done (h : s.state = .done) (fuel : Nat) (c : σ) (data : Bytes) :
    feedChecked on (fuel + 1) s c data = .ok (s, c) := by
  unfold feedChecked
  by_cases hd : data = []
  · rw [if_pos hd]
  · rw [if_neg hd]
    simp only [stepFault, feedStep, h]

section

variable (hon : Logical on)

include hon

/-- More fuel than bytes is enough, and what the stream is left in is ready. -/
theorem feedChecked_fuel {fuel fuel' : Nat} (hs : Ready s) {c : σ} {data : Bytes}
    (hfuel : data.length < fuel) (hfuel' : data.length < fuel') :
    feedChecked on fuel s c data = feedChecked on fuel' s c data ∧
      ∀ s' c', feedChecked on fuel s c data = .ok (s', c') → Ready s' := by
  induction fuel generalizing fuel' s c data with
  | zero => exact absurd hfuel (not_lt_zero _)
  | succ fuel ih =>
    obtain ⟨n, rfl⟩ : ∃ n, fuel' = n + 1 := ⟨fuel' - 1, by omega⟩
    rw [feedChecked, feedChecked]
    split_ifs with hd
    · exact ⟨rfl, fun s' c' h => by cases h; exact hs⟩
    cases stepFault s data with
    | some f => exact ⟨rfl, fun s' c' h => (nomatch h)⟩
    | none =>
      obtain ⟨hend, hnext⟩ := feedStep_ready hon hs c hd
      dsimp only
      cases ho : (feedStep on s c data).2.2.2 with
      | none =>
        obtain ⟨hready, hlt⟩ := hnext ho
        exact ih hready (by omega) (by omega)
      | some b =>
        cases b with
        | false => exact ⟨rfl, fun s' c' h => (nomatch h)⟩
        | true => exact ⟨rfl, fun s' c' h => by cases h; rw [(hend ho).2]; exact hs⟩

/-- The first byte of a chunk may as well be a chunk of its own. -/
theorem feedChunk_cons (hs : Ready s) (c : σ) (x : UInt8) (rest : Bytes) :
    feedChunk on (s, c) (x :: rest) = feedChunk on (s, c) [x] >>= fun p => feedChunk on p rest := by
  by_cases hdone : s.state = .done
  · rw [feedChunk, feedChunk, feedChecked_done hdone, feedChecked_done hdone]
    exact (feedChecked_done hdone _ _ _).symm
  obtain ⟨hend, hnext⟩ := feedStep_ready hon hs c (cons_ne_nil x [])
  have hx : ∀ rest : Bytes, feedChunk on (s, c) (x :: rest) = feedChecked on ((x :: rest).length + 1) s c (x :: rest) :=
    fun _ => rfl
  rcases feedStep_cons hon hs hdone c x with ⟨hall, hempty⟩ | ⟨hfault, s', c', hstep, hdone', hall⟩
  · -- the first byte completes something
    obtain ⟨hstep, hfault⟩ := hall rest
    rw [hx, hx, feedChecked, feedChecked, if_neg (cons_ne_nil _ _), if_neg (cons_ne_nil _ _), hstep, hfault]
    cases stepFault s [x] with
    | some f => rfl
    | none =>
      dsimp only
      cases ho : (feedStep on s c [x]).2.2.2 with
      | none =>
        have hready := (hnext ho).1
        have hone : feedChecked on [x].length (feedStep on s c [x]).1 (feedStep on s c [x]).2.1
            (feedStep on s c [x]).2.2.1 = .ok ((feedStep on s c [x]).1, (feedStep on s c [x]).2.1) := by
          rw [hempty]
          rfl
        rw [hone]
        exact (feedChecked_fuel hon hready (by simp) (by simp)).1
      | some b =>
        cases b with
        | false => rfl
        | true => exact absurd (hend ho).1 hdone
  · -- the first byte completes nothing
    rw [hstep] at hnext
    have hready := (hnext rfl).1
    have hone : feedChunk on (s, c) [x] = .ok (s', c') := by
      rw [hx, feedChecked, if_neg (cons_ne_nil _ _), hfault, hstep]
      rfl
    rw [hone]
    show _ = feedChunk on (s', c') rest
    by_cases hrest : rest = []
    · rw [hrest]
      exact hone
    obtain ⟨hsame, hgo⟩ := hall rest hrest
    rw [hx, feedChecked, if_neg (cons_ne_nil _ _), hsame, feedChunk, feedChecked, if_neg hrest]
    cases hf : stepFault s' rest with
    | some f => rfl
    | none =>
      rw [hgo hf]
      dsimp only
      cases ho : (feedStep on s' c' rest).2.2.2 with
      | none =>
        obtain ⟨hready', hlt⟩ := (feedStep_ready hon hready c' hrest).2 ho
        exact (feedChecked_fuel hon hready' (lt_succ_of_lt hlt) hlt).1
      | some b =>
        cases b with
        | false => rfl
        | true => rfl

/-- A chunk is its bytes, one after the other. -/
theorem feedChunk_eq (data : Bytes) (hs : Ready s) (c : σ) :
    feedChunk on (s, c) data = data.foldlM (fun p x => feedChunk on p [x]) (s, c) := by
  induction data generalizing s c with
  | nil => rfl
  | cons x rest ih =>
    rw [feedChunk_cons hon hs c x rest, foldlM_cons]
    cases h : feedChunk on (s, c) [x] with
    | error e => rfl
    | ok p => exact ih ((feedChecked_fuel hon hs (by simp) (lt_succ_self _)).2 p.1 p.2 h) p.2

/-- Chunks are their bytes, one after the other. -/
theorem feedAll_eq (chunks : List Bytes) (hs : Ready s) (c : σ) :
    feedAll on s c chunks = chunks.flatten.foldlM (fun p x => feedChunk on p [x]) (s, c) := by
  induction chunks generalizing s c with
  | nil => rfl
  | cons chunk chunks ih =>
    rw [flatten_cons, foldlM_append, ← feedChunk_eq hon chunk hs c, feedAll, foldlM_cons]
    show feedChunk on (s, c) chunk >>= _ = _
    cases h : feedChunk on (s, c) chunk with
    | error e => rfl
    | ok p => exact ih ((feedChecked_fuel hon hs (lt_succ_self _) (lt_succ_self _)).2 p.1 p.2 h) p.2

end

/-- The events as a list, with neighbouring pieces of data put together. -/
def gather (events : List TarEvent) (e : TarEvent) : List TarEvent × Bool :=
  match events.getLast?, e with
  | some (.data a), .data b => (events.dropLast ++ [.data (a ++ b)], true)
  | _, _ => (events ++ [e], true)

theorem gather_logical : Logical gather where
  accepts := by
    intro c e
    unfold gather
    split <;> rfl
  merges := by
    intro c a b
    cases h : c.getLast? with
    | none => simp [gather, h]
    | some e =>
      cases e with
      | data d => simp [gather, h]
      | begins entry => simp [gather, h]
      | ends => simp [gather, h]

/-- Two ways to cut an archive lead to the same state, error and events, the data put together. -/
theorem chunks_agree (on : σ → TarEvent → σ × Bool) (hon : Logical on) (c : σ) (chunks chunks' : List Bytes)
    (h : chunks.flatten = chunks'.flatten) :
    feedAll on new c chunks = feedAll on new c chunks' ∧ feedAll gather new [] chunks = feedAll gather new [] chunks' := by
  rw [feedAll_eq hon chunks ready_new, feedAll_eq hon chunks' ready_new, feedAll_eq gather_logical chunks ready_new,
    feedAll_eq gather_logical chunks' ready_new, h]
  exact ⟨rfl, rfl⟩

theorem chunks_agree_small :
    feedAll gather new [] [smallTar.take 300, smallTar.drop 300] = feedAll gather new [] [smallTar] :=
  (chunks_agree gather gather_logical [] [smallTar.take 300, smallTar.drop 300] [smallTar] (by simp)).1

end TarStream

end HamixOS.Pantry
