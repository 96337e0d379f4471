import HamixOS.Kernel.Tty

namespace HamixOS.Kernel

open Lib List Option Nat

/-!
# One read from a terminal pipe (`tty/mod.rs`)

A single call of `read` beside a writer that may send, close or raise a signal between any two of
its steps, in every mode of the terminal: when the call blocks, and when it returns nothing.

The signal that a character sends may be blocked or ignored, so that it becomes pending is left to
the other side.
-/

namespace Tty

open Termios

inductive Ret where
  | data (n : Nat)
  | endChar
  | eintr
  | eagain
  deriving DecidableEq

/-- Where the call is.  `idle` and `idleRaw` are in `wait_input`, behind a fetch that found nothing;
    `drain` is behind the wait of `read_raw`. -/
inductive Phase where
  | enter
  | canonical (line : List UInt8)
  | idle (line : List UInt8)
  | poll
  | wait
  | idleRaw
  | drain
  | back (r : Ret)
  deriving DecidableEq

/-- `blocked` says whether the call has executed a blocking step. -/
structure Call where
  available : List UInt8
  closed : Bool
  pending : List UInt8
  ttyLine : List UInt8
  signal : Bool
  phase : Phase
  blocked : Bool
  deriving DecidableEq

/-- A step of the writer or of a clock, or the next step of the call. -/
inductive CallAct where
  | arrive (bytes : List UInt8)
  | close
  | signal
  | expire
  | read
  deriving DecidableEq

/-- The mode in which `read` goes on. -/
def Termios.mode (t : Termios) : Phase :=
  if t.icanon then .canonical [] else if t.vmin = 0 ∧ t.vtime = 0 then .poll else .wait

namespace Call

variable (c : Call)

/-- `fill_pending` of a pipe; where nothing is available it changes nothing. -/
def fetch (t : Termios) : Call :=
  { c with available := c.available.drop 256, pending := c.pending ++ t.keep (c.available.take 256) }

def goTo (p : Phase) : Call := { c with phase := p }

/-- `deliver` of a line. -/
def deliver (count : Nat) (line : List UInt8) : Call :=
  { c with ttyLine := line.drop count ++ c.ttyLine, phase := .back (.data (min line.length count)) }

/-- A round of `read_canonical` with the byte `b` in front of `rest`. -/
def round (t : Termios) (count : Nat) (line : List UInt8) (b : UInt8) (rest : List UInt8) : Call :=
  match t.edit line b with
  | .more line => { c with pending := rest, phase := .canonical line }
  | .escape => { c with pending := skipSequence rest }
  | .done line => if line = [] then { c with pending := rest, phase := .back .endChar } else deliver { c with pending := rest } count line

/-- Whether a wait is over without input: `at_eof`, or a signal. -/
def waitOver : Bool := (c.closed && c.available = []) || c.signal

/-- The next step of `read`. -/
def read (t : Termios) (nonblock : Bool) (count : Nat) : Call :=
  match c.phase with
  | .enter =>
    if c.ttyLine ≠ [] then
      { c with ttyLine := c.ttyLine.drop count, phase := .back (.data (min c.ttyLine.length count)) }
    else if nonblock = true ∧ c.pending = [] then
      if c.available = [] then c.goTo (.back .eagain) else (c.fetch t).goTo t.mode
    else c.goTo t.mode
  | .canonical line =>
    match c.pending with
    | b :: rest => c.round t count line b rest
    | [] => if c.available = [] then c.goTo (.idle line) else c.fetch t
  | .idle line =>
    if c.waitOver then
      if c.signal then { c with pending := line ++ c.pending, phase := .back .eintr } else c.deliver count line
    else { c with blocked := true, phase := .canonical line }
  | .poll =>
    if c.pending = [] ∧ c.available = [] then c.goTo (.back (if c.signal then .eintr else .data 0))
    else if c.pending = [] then (c.fetch t).goTo .drain
    else c.goTo .drain
  | .wait =>
    if c.pending ≠ [] then c.goTo .drain
    else if c.available = [] then c.goTo .idleRaw
    else (c.fetch t).goTo .drain
  | .idleRaw =>
    if c.waitOver then c.goTo (.back (if c.signal then .eintr else .data 0))
    else { c with blocked := true, phase := .wait }
  | .drain =>
    let c := c.fetch t
    { c with pending := c.pending.drop count, phase := .back (.data (min c.pending.length count)) }
  | .back _ => c

end Call

/-- The steps of the call and of what goes on beside it; the deadline of `VTIME` may pass while the
    call waits for it. -/
def callStep (t : Termios) (nonblock : Bool) (count : Nat) (c : Call) : CallAct → Option Call
  | .arrive bytes => if c.closed then none else some { c with available := c.available ++ bytes }
  | .close => some { c with closed := true }
  | .signal => some { c with signal := true }
  | .expire => if c.phase = .idleRaw ∧ t.vmin = 0 then some (c.goTo (.back (if c.signal then .eintr else .data 0))) else none
  | .read => some (c.read t nonblock count)

/-- What `readiness` reports as `POLLIN` for a terminal. -/
def Call.pollin (c : Call) : Bool := c.available ≠ [] || c.pending ≠ [] || c.ttyLine ≠ []

/-- What a call may have done: it returned nothing at the end of the file, or in raw mode with `VMIN`
    zero, but for a `VEOF`; and it blocked only on a descriptor that may and that was not ready. -/
structure Proper (t : Termios) (nonblock ready : Bool) (c : Call) : Prop where
  nothing : c.phase = .back (.data 0) → (c.closed = true ∧ c.available = []) ∨ (t.icanon = false ∧ t.vmin = 0)
  blocked : c.blocked = true → nonblock = false ∧ ready = false

/-! ### When a line is complete -/

theorem length_skipSequence_le (rest : List UInt8) : (skipSequence rest).length ≤ rest.length := by
  induction rest with
  | nil => exact le_refl _
  | cons b rest ih =>
    unfold skipSequence
    split_ifs
    · exact ih.trans (le_succ _)
    · exact le_succ _
    · exact le_refl _

/-- The rounds of `read_canonical` on the fetched bytes: `none` where they complete the line. -/
def scan (t : Termios) (line : List UInt8) : List UInt8 → Option (List UInt8)
  | [] => some line
  | b :: rest =>
    match t.edit line b with
    | .more line => scan t line rest
    | .escape => scan t line (skipSequence rest)
    | .done _ => none
termination_by bytes => bytes.length
decreasing_by
  · exact Nat.lt_succ_self _
  · exact Nat.lt_succ_of_le (length_skipSequence_le rest)

/-- The rounds with a fetch whenever the fetched bytes run out. -/
def completes (t : Termios) (line : List UInt8) (available : List UInt8) : Bool :=
  if _h : available = [] then false
  else match scan t line (t.keep (available.take 256)) with
    | none => true
    | some line => completes t line (available.drop 256)
termination_by available.length
decreasing_by
  have := List.length_pos_of_ne_nil _h
  rw [List.length_drop]
  omega

/-- The bytes that are buffered complete the line. -/
def Call.complete (t : Termios) (line : List UInt8) (c : Call) : Bool :=
  match scan t line c.pending with
  | none => true
  | some line => completes t line c.available

/-- Before the call: nothing goes wrong whatever arrives. -/
def Sound (t : Termios) (nonblock : Bool) (c : Call) : Prop :=
  c.ttyLine ≠ [] ∨
  (t.icanon = true ∧ (c.complete t [] = true ∨ c.closed = true ∨ c.signal = true ∨
    (nonblock = false ∧ c.pending = [] ∧ c.available = []))) ∨
  (t.icanon = false ∧ (c.pending ≠ [] ∨ t.isig = false ∨
    (t.vmin = 0 ∧ (t.vtime = 0 ∨ nonblock = false ∨ c.closed = true ∨ c.signal = true ∨ 256 < c.available.length ∨
      ∃ b ∈ c.available, t.isSignal b = false)) ∨
    (t.vmin ≠ 0 ∧ ((∃ b ∈ c.available.take (if nonblock then 768 else 512), t.isSignal b = false) ∨
      (c.closed = true ∧ c.available.length ≤ if nonblock then 768 else 512)))))

section Scan

variable {t : Termios}

theorem skipSequence_append {rest : List UInt8} (h : skipSequence rest ≠ []) (more : List UInt8) :
    skipSequence (rest ++ more) = skipSequence rest ++ more := by
  induction rest with
  | nil => exact absurd rfl h
  | cons b rest ih =>
    rw [cons_append]
    unfold skipSequence at h ⊢
    split_ifs at h ⊢
    · exact ih h
    · rfl
    · rfl

/-- A line that is complete stays so when more bytes follow. -/
theorem scan_append {line bytes : List UInt8} (h : scan t line bytes = none) (more : List UInt8) :
    scan t line (bytes ++ more) = none := by
  induction line, bytes using scan.induct t with
  | case1 line =>
    rw [scan] at h
    cases h
  | case2 line b rest line' hedit ih =>
    rw [cons_append, scan, hedit]
    rw [scan, hedit] at h
    exact ih h
  | case3 line b rest hedit ih =>
    rw [cons_append, scan, hedit]
    rw [scan, hedit] at h
    have hne : skipSequence rest ≠ [] := by
      intro hnil
      rw [hnil, scan] at h
      cases h
    rw [skipSequence_append hne]
    exact ih h
  | case4 line b rest line' hedit =>
    rw [cons_append, scan, hedit]

theorem completes_nil (line : List UInt8) : completes t line [] = false := by
  rw [completes, dif_pos rfl]

theorem completes_of_ne {available : List UInt8} (h : available ≠ []) (line : List UInt8) :
    completes t line available = match scan t line (t.keep (available.take 256)) with
      | none => true
      | some line => completes t line (available.drop 256) := by
  rw [completes, dif_neg h]

theorem completes_append {line available : List UInt8} (h : completes t line available = true) (more : List UInt8) :
    completes t line (available ++ more) = true := by
  induction line, available using completes.induct t with
  | case1 line =>
    rw [completes_nil] at h
    cases h
  | case2 line available hne hscan =>
    rw [completes_of_ne (by simp [hne])]
    rcases le_total 256 available.length with hle | hle
    · rw [take_append_of_le_length hle, hscan]
    · rw [take_of_length_le hle] at hscan
      rw [take_append, take_of_length_le hle, Termios.keep, filter_append]
      rw [show scan t line (available.filter (fun b => !t.isSignal b) ++ _) = none from scan_append hscan _]
  | case3 line available hne line' hscan ih =>
    rw [completes_of_ne hne, hscan] at h
    rw [completes_of_ne (by simp [hne])]
    rcases le_total 256 available.length with hle | hle
    · rw [take_append_of_le_length hle, hscan, drop_append_of_le_length hle]
      exact ih h
    · rw [drop_eq_nil_of_le hle] at h
      dsimp only at h
      rw [completes_nil] at h
      cases h

end Scan

/-! ### Calls that nothing goes wrong in -/

/-- Something is buffered, or the wait ends by itself. -/
def Call.Supplied (c : Call) : Prop := c.pending ≠ [] ∨ c.available ≠ [] ∨ c.closed = true ∨ c.signal = true

/-- Fetches of `k` more bytes bring one that is no signal, or all there is. -/
def Call.Brings (t : Termios) (k : Nat) (c : Call) : Prop :=
  c.pending ≠ [] ∨ (∃ b ∈ c.available.take k, t.isSignal b = false) ∨ (c.closed = true ∧ c.available.length ≤ k)

/-- A fetch leaves something buffered, or the wait behind it ends by itself, whatever arrives. -/
def Call.Awake (t : Termios) (c : Call) : Prop :=
  (t.vmin = 0 ∧ t.vtime = 0) ∨ c.pending ≠ [] ∨ t.isig = false ∨ c.closed = true ∨ c.signal = true ∨
    256 < c.available.length ∨ ∃ b ∈ c.available, t.isSignal b = false

/-- What holds in each phase of a call; `calm` says that the call may block. -/
def Call.Fine (t : Termios) (nonblock : Bool) (calm : Prop) (c : Call) : Prop :=
  match c.phase with
  | .enter => c.ttyLine ≠ [] ∨
      (t.icanon = true ∧ (calm ∨ c.complete t [] = true ∨ c.closed = true ∨ c.signal = true)) ∨
      (t.icanon = false ∧ (nonblock = false → calm ∨ c.Supplied) ∧
        (nonblock = true → c.Awake t) ∧
        (t.vmin = 0 ∨ t.isig = false ∨ c.Brings t (if nonblock then 768 else 512)))
  | .canonical line => t.icanon = true ∧ (calm ∨ c.complete t line = true ∨ c.closed = true ∨ c.signal = true)
  | .idle _ => t.icanon = true ∧ (calm ∨ (c.closed = true ∧ c.available = []) ∨ c.signal = true)
  | .poll => t.icanon = false ∧ t.vmin = 0
  | .wait => t.icanon = false ∧ (calm ∨ c.Supplied) ∧ (t.vmin = 0 ∨ t.isig = false ∨ c.Brings t 512)
  | .idleRaw => t.icanon = false ∧ (calm ∨ (c.closed = true ∧ c.available = []) ∨ c.signal = true) ∧
      (t.vmin = 0 ∨ t.isig = false ∨ c.Brings t 512)
  | .drain => t.icanon = false ∧ (t.vmin = 0 ∨ c.Brings t 256)
  | .back r => r = .data 0 → (c.closed = true ∧ c.available = []) ∨ (t.icanon = false ∧ t.vmin = 0)

structure Call.Inv (t : Termios) (nonblock : Bool) (calm : Prop) (c : Call) : Prop where
  blocked : c.blocked = true → calm
  fine : c.Fine t nonblock calm

section Fetch

variable {t : Termios} {c : Call}

theorem keep_ne_nil {bytes : List UInt8} (h : ∃ b ∈ bytes, t.isSignal b = false) : t.keep bytes ≠ [] := by
  obtain ⟨b, hb, hs⟩ := h
  exact ne_nil_of_mem (mem_filter.mpr ⟨hb, by simpa using hs⟩)

theorem fetch_pending_ne (h : c.pending ≠ [] ∨ ∃ b ∈ c.available.take 256, t.isSignal b = false) :
    (c.fetch t).pending ≠ [] := by
  show c.pending ++ t.keep (c.available.take 256) ≠ []
  rcases h with h | h
  · simp [h]
  · simp [keep_ne_nil h]

/-- Without signals a fetch brings what is available. -/
theorem fetch_pending_of_not_isig (hsig : t.isig = false) (h : c.available ≠ []) : (c.fetch t).pending ≠ [] := by
  obtain ⟨b, rest, hav⟩ := exists_cons_of_ne_nil h
  refine fetch_pending_ne (.inr ⟨b, by rw [hav]; exact mem_cons_self, ?_⟩)
  unfold isSignal
  rw [hsig]
  rfl

theorem mem_take_split {b : UInt8} {k : Nat} {bytes : List UInt8} (h : b ∈ bytes.take (256 + k)) :
    b ∈ bytes.take 256 ∨ b ∈ (bytes.drop 256).take k := by
  rw [take_add] at h
  exact mem_append.mp h

/-- A fetch takes 256 bytes off what is to be brought. -/
theorem Call.Brings.fetch {k : Nat} (h : c.Brings t (256 + k)) : (c.fetch t).Brings t k := by
  rcases h with h | ⟨b, hb, hs⟩ | ⟨hc, hlen⟩
  · exact .inl (fetch_pending_ne (.inl h))
  · rcases mem_take_split hb with hb | hb
    · exact .inl (fetch_pending_ne (.inr ⟨b, hb, hs⟩))
    · exact .inr (.inl ⟨b, hb, hs⟩)
  · refine .inr (.inr ⟨hc, ?_⟩)
    show (c.available.drop 256).length ≤ k
    rw [length_drop]
    omega

theorem complete_fetch {line : List UInt8} (hp : c.pending = []) (ha : c.available ≠ []) :
    (c.fetch t).complete t line = c.complete t line := by
  show (match scan t line (c.pending ++ t.keep (c.available.take 256)) with
    | none => true
    | some line => completes t line (c.available.drop 256)) = c.complete t line
  unfold Call.complete
  rw [hp, nil_append, scan]
  exact (completes_of_ne ha line).symm

theorem complete_cons {line rest : List UInt8} {b : UInt8} (hp : c.pending = b :: rest) : c.complete t line =
    match t.edit line b with
    | .more line => Call.complete t line { c with pending := rest }
    | .escape => Call.complete t line { c with pending := skipSequence rest }
    | .done _ => true := by
  unfold Call.complete
  rw [hp, scan]
  cases t.edit line b with
  | more line' => rfl
  | escape => rfl
  | done line' => rfl

end Fetch

/-! ### What goes on beside a call -/

/-- The other side has sent more, or closed, or raised a signal. -/
structure Call.Later (c c' : Call) : Prop where
  phase : c'.phase = c.phase
  pending : c'.pending = c.pending
  ttyLine : c'.ttyLine = c.ttyLine
  blocked : c'.blocked = c.blocked
  more : ∃ more, c'.available = c.available ++ more ∧ (c.closed = true → more = [])
  closed : c.closed = true → c'.closed = true
  signal : c.signal = true → c'.signal = true

section Later

variable {t : Termios} {c c' : Call}

section

variable (h : c.Later c')

include h

theorem Call.Later.available_eq (hc : c.closed = true) : c'.available = c.available := by
  obtain ⟨more, hm, hnil⟩ := h.more
  rw [hm, hnil hc, append_nil]

theorem Call.Later.eof (hc : c.closed = true ∧ c.available = []) : c'.closed = true ∧ c'.available = [] :=
  ⟨h.closed hc.1, (h.available_eq hc.1).trans hc.2⟩

theorem Call.Later.supplied (hs : c.Supplied) : c'.Supplied := by
  rcases hs with hp | ha | hc | hs
  · exact .inl (h.pending ▸ hp)
  · obtain ⟨more, hm, -⟩ := h.more
    exact .inr (.inl (by rw [hm]; simp [ha]))
  · exact .inr (.inr (.inl (h.closed hc)))
  · exact .inr (.inr (.inr (h.signal hs)))

theorem Call.Later.brings {k : Nat} (hb : c.Brings t k) : c'.Brings t k := by
  rcases hb with hp | ⟨b, hb, hs⟩ | ⟨hc, hlen⟩
  · exact .inl (h.pending ▸ hp)
  · obtain ⟨more, hm, -⟩ := h.more
    refine .inr (.inl ⟨b, ?_, hs⟩)
    rw [hm, take_append]
    exact mem_append_left _ hb
  · exact .inr (.inr ⟨h.closed hc, (h.available_eq hc).symm ▸ hlen⟩)

theorem Call.Later.awake (ha : c.Awake t) : c'.Awake t := by
  obtain ⟨more, hm, -⟩ := h.more
  rcases ha with hz | hp | hsig | hc | hs | hlen | ⟨b, hb, hs⟩
  · exact .inl hz
  · exact .inr (.inl (h.pending ▸ hp))
  · exact .inr (.inr (.inl hsig))
  · exact .inr (.inr (.inr (.inl (h.closed hc))))
  · exact .inr (.inr (.inr (.inr (.inl (h.signal hs)))))
  · refine .inr (.inr (.inr (.inr (.inr (.inl ?_)))))
    rw [hm, length_append]
    omega
  · refine .inr (.inr (.inr (.inr (.inr (.inr ⟨b, ?_, hs⟩)))))
    rw [hm]
    exact mem_append_left _ hb

theorem Call.Later.complete {line : List UInt8} (hc : c.complete t line = true) :
    c'.complete t line = true := by
  obtain ⟨more, hm, -⟩ := h.more
  unfold Call.complete at hc ⊢
  rw [h.pending, hm]
  cases hscan : scan t line c.pending with
  | none => rfl
  | some line' =>
    rw [hscan] at hc
    exact completes_append hc more

/-- What holds in a phase stays so, whatever the other side does. -/
theorem Call.Later.fine {nonblock : Bool} {calm : Prop} (hf : c.Fine t nonblock calm) :
    c'.Fine t nonblock calm := by
  have hwait : calm ∨ c.complete t [] = true ∨ c.closed = true ∨ c.signal = true →
      calm ∨ c'.complete t [] = true ∨ c'.closed = true ∨ c'.signal = true :=
    Or.imp id (Or.imp h.complete (Or.imp h.closed h.signal))
  have hidle : calm ∨ (c.closed = true ∧ c.available = []) ∨ c.signal = true →
      calm ∨ (c'.closed = true ∧ c'.available = []) ∨ c'.signal = true :=
    Or.imp id (Or.imp h.eof h.signal)
  unfold Call.Fine at hf ⊢
  rw [h.phase]
  cases hphase : c.phase with
  | enter =>
    rw [hphase] at hf
    rcases hf with hl | ⟨hi, hf⟩ | ⟨hi, hb, hn, hm⟩
    · exact .inl (h.ttyLine ▸ hl)
    · exact .inr (.inl ⟨hi, hwait hf⟩)
    · exact .inr (.inr ⟨hi, fun h0 => (hb h0).imp id h.supplied, fun h1 => h.awake (hn h1), hm.imp id (Or.imp id h.brings)⟩)
  | canonical line =>
    rw [hphase] at hf
    exact ⟨hf.1, hf.2.imp id (Or.imp h.complete (Or.imp h.closed h.signal))⟩
  | idle line =>
    rw [hphase] at hf
    exact ⟨hf.1, hidle hf.2⟩
  | poll =>
    rw [hphase] at hf
    exact hf
  | wait =>
    rw [hphase] at hf
    exact ⟨hf.1, hf.2.1.imp id h.supplied, hf.2.2.imp id (Or.imp id h.brings)⟩
  | idleRaw =>
    rw [hphase] at hf
    exact ⟨hf.1, hidle hf.2.1, hf.2.2.imp id (Or.imp id h.brings)⟩
  | drain =>
    rw [hphase] at hf
    exact ⟨hf.1, hf.2.imp id h.brings⟩
  | back r =>
    rw [hphase] at hf
    exact fun hr => (hf hr).imp h.eof id

end

end Later

/-! ### The steps of a call -/

section Steps

variable {t : Termios} {nonblock : Bool} {count : Nat} {calm : Prop} {c : Call}

theorem fetch_supplied (hp : c.pending = []) (ha : c.available ≠ []) (h : c.Awake t) :
    (t.vmin = 0 ∧ t.vtime = 0) ∨ (c.fetch t).Supplied := by
  rcases h with hz | hne | hsig | hc | hs | hlen | ⟨b, hb, hs⟩
  · exact .inl hz
  · exact absurd hp hne
  · exact .inr (.inl (fetch_pending_of_not_isig hsig ha))
  · exact .inr (.inr (.inr (.inl hc)))
  · exact .inr (.inr (.inr (.inr hs)))
  · refine .inr (.inr (.inl fun hnil => ?_))
    have hlen' : (c.available.drop 256).length = 0 := by
      rw [show c.available.drop 256 = [] from hnil]
      rfl
    rw [length_drop] at hlen'
    omega
  · rw [← take_append_drop 256 c.available] at hb
    rcases mem_append.mp hb with hb | hb
    · exact .inr (.inl (fetch_pending_ne (.inr ⟨b, hb, hs⟩)))
    · exact .inr (.inr (.inl (ne_nil_of_mem hb)))

theorem over_spec (hover : c.waitOver = true) (hs : c.signal = false) : c.closed = true ∧ c.available = [] := by
  unfold Call.waitOver at hover
  rw [hs, Bool.or_false, Bool.and_eq_true, decide_eq_true_iff] at hover
  exact hover

theorem not_over (hover : c.waitOver = false) : ¬ ((c.closed = true ∧ c.available = []) ∨ c.signal = true) := by
  unfold Call.waitOver at hover
  rintro (⟨hc, ha⟩ | hs)
  · rw [hc, ha] at hover
    cases hover
  · rw [hs, Bool.or_true] at hover
    cases hover

/-- `read` goes on in the mode of the terminal. -/
theorem fine_mode (hcanon : t.icanon = true → calm ∨ c.complete t [] = true ∨ c.closed = true ∨ c.signal = true)
    (hraw : t.icanon = false → ¬ (t.vmin = 0 ∧ t.vtime = 0) →
      (calm ∨ c.Supplied) ∧ (t.vmin = 0 ∨ t.isig = false ∨ c.Brings t 512)) :
    (c.goTo t.mode).Fine t nonblock calm := by
  unfold Termios.mode Call.goTo
  split_ifs with hi hz
  · exact ⟨hi, hcanon hi⟩
  · exact ⟨by simpa using hi, hz.1⟩
  · exact ⟨by simpa using hi, hraw (by simpa using hi) hz⟩

theorem fine_enter (hcount : 0 < count) (hphase : c.phase = .enter)
    (hf : c.Fine t nonblock calm) : (c.read t nonblock count).Fine t nonblock calm := by
  unfold Call.Fine at hf
  unfold Call.read
  rw [hphase] at hf ⊢
  by_cases hl : c.ttyLine ≠ []
  · rw [if_pos hl]
    intro hr
    have hlen := length_pos_of_ne_nil hl
    have hzero : min c.ttyLine.length count = 0 := by simpa using hr
    omega
  rw [if_neg hl]
  have hf' := hf.resolve_left hl
  by_cases hn : nonblock = true ∧ c.pending = []
  · rw [if_pos hn]
    by_cases ha : c.available = []
    · rw [if_pos ha]
      nofun
    rw [if_neg ha]
    refine fine_mode (fun hi => ?_) (fun hi hz => ?_)
    · rcases hf' with ⟨-, h⟩ | ⟨h, -⟩
      · exact h.imp id (Or.imp (fun h => (complete_fetch hn.2 ha).trans h) id)
      · rw [hi] at h
        cases h
    · rcases hf' with ⟨h, -⟩ | ⟨-, -, haw, hb⟩
      · rw [hi] at h
        cases h
      · refine ⟨.inr ((fetch_supplied hn.2 ha (haw hn.1)).resolve_left hz), hb.imp id (Or.imp id fun h => ?_)⟩
        rw [if_pos hn.1] at h
        exact Call.Brings.fetch (by exact h)
  · rw [if_neg hn]
    refine fine_mode (fun hi => ?_) (fun hi hz => ?_)
    · rcases hf' with ⟨-, h⟩ | ⟨h, -⟩
      · exact h
      · rw [hi] at h
        cases h
    · rcases hf' with ⟨h, -⟩ | ⟨-, hblock, haw, hb⟩
      · rw [hi] at h
        cases h
      · by_cases hnb : nonblock = true
        · have hp : c.pending ≠ [] := fun hp => hn ⟨hnb, hp⟩
          exact ⟨.inr (.inl hp), .inr (.inr (.inl hp))⟩
        · rw [if_neg hnb] at hb
          exact ⟨hblock (by simpa using hnb), hb⟩

theorem fine_canonical {line : List UInt8} (hcount : 0 < count) (hphase : c.phase = .canonical line)
    (hf : c.Fine t nonblock calm) : (c.read t nonblock count).Fine t nonblock calm := by
  unfold Call.Fine at hf
  unfold Call.read
  rw [hphase] at hf ⊢
  obtain ⟨hi, hf⟩ := hf
  cases hp : c.pending with
  | nil =>
    dsimp only
    by_cases ha : c.available = []
    · rw [if_pos ha]
      refine ⟨hi, ?_⟩
      rcases hf with h | h | h | h
      · exact .inl h
      · unfold Call.complete at h
        rw [hp, scan, ha] at h
        exact absurd h (by simp [completes_nil])
      · exact .inr (.inl ⟨h, ha⟩)
      · exact .inr (.inr h)
    · rw [if_neg ha]
      unfold Call.Fine
      rw [show (c.fetch t).phase = .canonical line from hphase]
      exact ⟨hi, hf.imp id (Or.imp (fun h => (complete_fetch hp ha).trans h) id)⟩
  | cons b rest =>
    rw [complete_cons hp] at hf
    dsimp only [Call.round]
    cases hedit : t.edit line b with
    | more line' =>
      rw [hedit] at hf
      exact ⟨hi, hf⟩
    | escape =>
      rw [hedit] at hf
      unfold Call.Fine
      dsimp only
      rw [hphase]
      exact ⟨hi, hf⟩
    | done line' =>
      dsimp only
      split_ifs with hl
      · nofun
      · intro hr
        have hlen := length_pos_of_ne_nil hl
        have hzero : min line'.length count = 0 := by simpa using hr
        omega

theorem fine_drain (hcount : 0 < count) (hphase : c.phase = .drain) (hf : c.Fine t nonblock calm) :
    (c.read t nonblock count).Fine t nonblock calm := by
  unfold Call.Fine at hf
  unfold Call.read
  rw [hphase] at hf ⊢
  obtain ⟨hi, hf⟩ := hf
  intro hr
  rcases hf with hz | hb
  · exact .inr ⟨hi, hz⟩
  · have hzero : min (c.fetch t).pending.length count = 0 := by simpa using hr
    have hempty : (c.fetch t).pending = [] := eq_nil_of_length_eq_zero (by omega)
    rcases @Call.Brings.fetch t c 0 hb with h | ⟨b, hb, -⟩ | ⟨hc, hlen⟩
    · exact absurd hempty h
    · rw [take_zero] at hb
      cases hb
    · exact .inl ⟨hc, eq_nil_of_length_eq_zero (le_zero.mp hlen)⟩

/-- A step of the call keeps what holds in its phases. -/
theorem Call.Inv.read (h : c.Inv t nonblock calm) (hcount : 0 < count) :
    (c.read t nonblock count).Inv t nonblock calm := by
  have hf := h.fine
  cases hphase : c.phase with
  | enter =>
    refine ⟨fun hb => h.blocked ?_, fine_enter hcount hphase hf⟩
    revert hb
    unfold Call.read
    rw [hphase]
    dsimp only
    split_ifs
    · exact id
    · exact id
    · exact id
    · exact id
  | canonical line =>
    refine ⟨fun hb => h.blocked ?_, fine_canonical hcount hphase hf⟩
    revert hb
    unfold Call.read
    rw [hphase]
    dsimp only
    cases c.pending with
    | nil =>
      dsimp only
      split_ifs
      · exact id
      · exact id
    | cons b rest =>
      dsimp only [Call.round]
      cases t.edit line b with
      | more line' => exact id
      | escape => exact id
      | done line' =>
        dsimp only
        split_ifs
        · exact id
        · exact id
  | idle line =>
    unfold Call.Fine at hf
    rw [hphase] at hf
    unfold Call.read
    rw [hphase]
    dsimp only
    by_cases ho : c.waitOver = true
    · rw [if_pos ho]
      by_cases hs : c.signal = true
      · rw [if_pos hs]
        exact ⟨h.blocked, nofun⟩
      · rw [if_neg hs]
        have heof := over_spec ho (by simpa using hs)
        exact ⟨h.blocked, fun _ => .inl heof⟩
    · rw [if_neg ho]
      have hc : calm := hf.2.resolve_right (not_over (by simpa using ho))
      exact ⟨fun _ => hc, hf.1, .inl hc⟩
  | poll =>
    unfold Call.Fine at hf
    rw [hphase] at hf
    unfold Call.read
    rw [hphase]
    dsimp only
    by_cases hnone : c.pending = [] ∧ c.available = []
    · rw [if_pos hnone]
      exact ⟨h.blocked, fun _ => .inr hf⟩
    rw [if_neg hnone]
    split_ifs
    · exact ⟨h.blocked, hf.1, .inl hf.2⟩
    · exact ⟨h.blocked, hf.1, .inl hf.2⟩
  | wait =>
    unfold Call.Fine at hf
    rw [hphase] at hf
    obtain ⟨hi, hsup, hb⟩ := hf
    unfold Call.read
    rw [hphase]
    dsimp only
    by_cases hp : c.pending ≠ []
    · rw [if_pos hp]
      exact ⟨h.blocked, hi, .inr (.inl hp)⟩
    rw [if_neg hp]
    by_cases ha : c.available = []
    · rw [if_pos ha]
      refine ⟨h.blocked, hi, hsup.imp id fun hsup => ?_, hb⟩
      rcases hsup with h | h | h | h
      · exact absurd h hp
      · exact absurd ha h
      · exact .inl ⟨h, ha⟩
      · exact .inr h
    · rw [if_neg ha]
      refine ⟨h.blocked, hi, ?_⟩
      rcases hb with hz | hsig | hb
      · exact .inl hz
      · exact .inr (.inl (fetch_pending_of_not_isig hsig ha))
      · exact .inr (@Call.Brings.fetch t c 256 hb)
  | idleRaw =>
    unfold Call.Fine at hf
    rw [hphase] at hf
    obtain ⟨hi, hsup, hb⟩ := hf
    unfold Call.read
    rw [hphase]
    dsimp only
    by_cases ho : c.waitOver = true
    · rw [if_pos ho]
      cases hs : c.signal with
      | true => exact ⟨h.blocked, nofun⟩
      | false =>
        have heof := over_spec ho hs
        exact ⟨h.blocked, fun _ => .inl heof⟩
    · rw [if_neg ho]
      have hc : calm := hsup.resolve_right (not_over (by simpa using ho))
      exact ⟨fun _ => hc, hi, .inl hc, hb⟩
  | drain =>
    refine ⟨fun hb => h.blocked ?_, fine_drain hcount hphase hf⟩
    revert hb
    unfold Call.read
    rw [hphase]
    exact id
  | back r =>
    unfold Call.read
    rw [hphase]
    exact h

theorem Call.Inv.step {c' : Call} {a : CallAct} (h : c.Inv t nonblock calm) (hcount : 0 < count)
    (hs : callStep t nonblock count c a = some c') : c'.Inv t nonblock calm := by
  have later {c' : Call} (hl : c.Later c') : c'.Inv t nonblock calm :=
    ⟨fun hb => h.blocked (hl.blocked ▸ hb), hl.fine h.fine⟩
  cases a with
  | arrive bytes =>
    simp only [callStep] at hs
    split_ifs at hs with hopen
    obtain rfl := some.inj hs
    exact later ⟨rfl, rfl, rfl, rfl, ⟨bytes, rfl, fun hc => absurd hc hopen⟩, id, id⟩
  | close =>
    obtain rfl := some.inj hs
    exact later ⟨rfl, rfl, rfl, rfl, ⟨[], (append_nil _).symm, fun _ => rfl⟩, fun _ => rfl, id⟩
  | signal =>
    obtain rfl := some.inj hs
    exact later ⟨rfl, rfl, rfl, rfl, ⟨[], (append_nil _).symm, fun _ => rfl⟩, id, fun _ => rfl⟩
  | expire =>
    simp only [callStep] at hs
    by_cases he : c.phase = .idleRaw ∧ t.vmin = 0
    swap
    · rw [if_neg he] at hs
      cases hs
    rw [if_pos he] at hs
    obtain rfl := some.inj hs
    have hf := h.fine
    unfold Call.Fine at hf
    rw [he.1] at hf
    exact ⟨h.blocked, fun _ => .inr ⟨hf.1, he.2⟩⟩
  | read =>
    obtain rfl := some.inj hs
    exact h.read hcount

theorem Call.Inv.proper {ready : Bool} (h : c.Inv t nonblock (nonblock = false ∧ ready = false)) :
    Proper t nonblock ready c := by
  refine ⟨fun hb => ?_, h.blocked⟩
  have hf := h.fine
  unfold Call.Fine at hf
  rw [hb] at hf
  exact hf rfl

end Steps

/-! ### The calls from one state -/

/-- What a call that starts in `c0` may reach, in any order with the steps beside it. -/
def Reached (t : Termios) (nonblock : Bool) (count : Nat) (c0 : Call) : Call → Prop :=
  Reach (fun c => c = c0) (callStep t nonblock count) (fun _ _ => True)

section Runs

variable {t : Termios} {nonblock : Bool} {count : Nat} {c0 c : Call}

theorem pollin_eq_false (hl : c.ttyLine = []) (hp : c.pending = []) (ha : c.available = []) : c.pollin = false := by
  unfold Call.pollin
  rw [hl, hp, ha]
  rfl

theorem pollin_of_available (h : c.available ≠ []) : c.pollin = true := by
  simp [Call.pollin, h]

theorem pollin_of_pending (h : c.pending ≠ []) : c.pollin = true := by
  simp [Call.pollin, h]

theorem Sound.inv (h : Sound t nonblock c) (hphase : c.phase = .enter) (hblocked : c.blocked = false) :
    c.Inv t nonblock (nonblock = false ∧ c.pollin = false) := by
  refine ⟨fun hb => ?_, ?_⟩
  · rw [hblocked] at hb
    cases hb
  unfold Call.Fine
  rw [hphase]
  by_cases hl : c.ttyLine ≠ []
  · exact .inl hl
  rw [not_not] at hl
  rcases h with hne | ⟨hi, h⟩ | ⟨hi, h⟩
  · exact absurd hl hne
  · refine .inr (.inl ⟨hi, ?_⟩)
    rcases h with h | h | h | ⟨hn, hp, ha⟩
    · exact .inr (.inl h)
    · exact .inr (.inr (.inl h))
    · exact .inr (.inr (.inr h))
    · exact .inl ⟨hn, pollin_eq_false hl hp ha⟩
  have hsup : nonblock = false → (nonblock = false ∧ c.pollin = false) ∨ c.Supplied := by
    intro hn
    by_cases hp : c.pending = []
    · by_cases ha : c.available = []
      · exact .inl ⟨hn, pollin_eq_false hl hp ha⟩
      · exact .inr (.inr (.inl ha))
    · exact .inr (.inl hp)
  refine .inr (.inr ⟨hi, hsup, ?_⟩)
  rcases h with hp | hsig | ⟨hz, h⟩ | ⟨-, hb | hb⟩
  · exact ⟨fun _ => .inr (.inl hp), .inr (.inr (.inl hp))⟩
  · exact ⟨fun _ => .inr (.inr (.inl hsig)), .inr (.inl hsig)⟩
  · refine ⟨fun hn => ?_, .inl hz⟩
    rcases h with ht | hn' | h
    · exact .inl ⟨hz, ht⟩
    · rw [hn] at hn'
      cases hn'
    · exact .inr (.inr (.inr h))
  · obtain ⟨b, hb, hs⟩ := hb
    exact ⟨fun _ => .inr (.inr (.inr (.inr (.inr (.inr ⟨b, mem_of_mem_take hb, hs⟩))))),
      .inr (.inr (.inr (.inl ⟨b, hb, hs⟩)))⟩
  · exact ⟨fun _ => .inr (.inr (.inr (.inl hb.1))), .inr (.inr (.inr (.inr hb)))⟩

/-- A call that starts in a sound state stays proper, whatever goes on beside it. -/
theorem Sound.proper (h : Sound t nonblock c0) (hphase : c0.phase = .enter) (hblocked : c0.blocked = false)
    (hcount : 0 < count) (hc : Reached t nonblock count c0 c) : Proper t nonblock c0.pollin c := by
  refine Call.Inv.proper (Reach.invariant ?_ ?_ hc)
  · rintro c rfl
    exact h.inv hphase hblocked
  · intro c a c' hi _ hs
    exact hi.step hcount hs

section

variable (hr : Reached t nonblock count c0 c)

include hr

theorem Reached.read : Reached t nonblock count c0 (c.read t nonblock count) :=
  Reach.next (a := .read) hr trivial rfl

theorem Reached.arrive (hopen : c.closed = false) (bytes : List UInt8) :
    Reached t nonblock count c0 { c with available := c.available ++ bytes } := by
  refine Reach.next (a := .arrive bytes) hr trivial ?_
  unfold callStep
  rw [hopen]
  rfl

/-- A call that edits a line which is not complete blocks, unless something ends the wait. -/
theorem Reached.stalls {line : List UInt8} (hphase : c.phase = .canonical line)
    (hcomplete : c.complete t line = false) (hopen : c.closed = false) (hs : c.signal = false) :
    ∃ c', Reached t nonblock count c0 c' ∧ c'.blocked = true := by
  -- A fetch makes fewer bytes of those available, and a round fewer of those fetched.
  induction hn : 2 * c.available.length + c.pending.length using Nat.strong_induction_on generalizing c line with
  | _ n ih =>
    have hread := hr.read
    unfold Call.read at hread
    rw [hphase] at hread
    cases hp : c.pending with
    | nil =>
      rw [hp] at hread
      dsimp only at hread
      by_cases ha : c.available = []
      · rw [if_pos ha] at hread
        have hover : c.waitOver = false := by simp [Call.waitOver, hopen, hs]
        refine ⟨_, hread.read, ?_⟩
        show ((c.goTo (.idle line)).read t nonblock count).blocked = true
        unfold Call.read Call.goTo
        dsimp only
        rw [show Call.waitOver { c with phase := .idle line } = false from hover]
        rfl
      · rw [if_neg ha] at hread
        have hlen := length_pos_of_ne_nil ha
        have hkeep : (t.keep (c.available.take 256)).length ≤ min 256 c.available.length := by
          rw [← length_take]
          exact length_filter_le _ _
        refine ih _ ?_ hread hphase ((complete_fetch hp ha).trans hcomplete) hopen hs rfl
        show 2 * (c.available.drop 256).length + (c.pending ++ t.keep (c.available.take 256)).length < n
        rw [hp, nil_append, length_drop]
        omega
    | cons b rest =>
      rw [hp] at hread
      rw [complete_cons hp] at hcomplete
      rw [hp, length_cons] at hn
      dsimp only [Call.round] at hread
      cases hedit : t.edit line b with
      | more line' =>
        rw [hedit] at hread hcomplete
        refine ih _ ?_ hread rfl hcomplete hopen hs rfl
        show 2 * c.available.length + rest.length < n
        omega
      | escape =>
        rw [hedit] at hread hcomplete
        have hle := length_skipSequence_le rest
        refine ih _ ?_ hread hphase hcomplete hopen hs rfl
        show 2 * c.available.length + (skipSequence rest).length < n
        omega
      | done line' =>
        rw [hedit] at hcomplete
        cases hcomplete

end

/-- A fetch of signal characters keeps nothing. -/
theorem fetch_swallows (hp : c.pending = []) (hsig : ∀ b ∈ c.available.take 256, t.isSignal b = true) :
    (c.fetch t).pending = [] := by
  show c.pending ++ t.keep (c.available.take 256) = []
  rw [hp, nil_append]
  exact filter_eq_nil_iff.mpr fun b hb => by simp [hsig b hb]

/-- The bytes behind the first fetch are signals too. -/
theorem signals_drop {k : Nat} (hsig : ∀ b ∈ c.available.take (256 + k), t.isSignal b = true) :
    ∀ b ∈ (c.available.drop 256).take k, t.isSignal b = true := by
  intro b hb
  refine hsig b ?_
  rw [take_add]
  exact mem_append_right _ hb

theorem signals_take {k : Nat} (hsig : ∀ b ∈ c.available.take (256 + k), t.isSignal b = true) :
    ∀ b ∈ c.available.take 256, t.isSignal b = true := by
  intro b hb
  refine hsig b ?_
  rw [take_add]
  exact mem_append_left _ hb

/-- Two fetches of signals: the wait of `read_raw` is over and there is nothing to return. -/
theorem Reached.wait_nothing (hr : Reached t nonblock count c0 c) (hphase : c.phase = .wait) (hp : c.pending = [])
    (hlen : 512 ≤ c.available.length) (hsig : ∀ b ∈ c.available.take 512, t.isSignal b = true)
    (hend : c.closed = false ∨ 512 < c.available.length) :
    ∃ c', Reached t nonblock count c0 c' ∧ c'.phase = .back (.data 0) ∧ (c'.closed = false ∨ c'.available ≠ []) := by
  have hne : c.available ≠ [] := by
    intro h
    rw [h] at hlen
    exact absurd hlen (by decide)
  have hfirst : (c.fetch t).pending = [] := fetch_swallows hp (@signals_take t c 256 hsig)
  have hdrain := hr.read
  unfold Call.read at hdrain
  rw [hphase] at hdrain
  dsimp only at hdrain
  rw [if_neg (by simp [hp]), if_neg hne] at hdrain
  have hsecond : (((c.fetch t).goTo .drain).fetch t).pending = [] := by
    refine fetch_swallows hfirst fun b hb => ?_
    exact @signals_drop t c 256 hsig b hb
  refine ⟨_, hdrain.read, ?_, ?_⟩
  · show Phase.back (.data (min (((c.fetch t).goTo .drain).fetch t).pending.length count)) = .back (.data 0)
    rw [hsecond]
    simp
  · refine hend.imp id fun hlen => ?_
    show (c.available.drop 256).drop 256 ≠ []
    rw [drop_drop]
    simp only [ne_eq, drop_eq_nil_iff]
    omega

theorem read_enter_mode (hphase : c.phase = .enter) (hl : c.ttyLine = []) (hn : ¬ (nonblock = true ∧ c.pending = [])) :
    c.read t nonblock count = c.goTo t.mode := by
  unfold Call.read
  rw [hphase]
  rw [if_neg (by simp [hl]), if_neg hn]

theorem read_enter_fetch (hphase : c.phase = .enter) (hl : c.ttyLine = []) (hn : nonblock = true) (hp : c.pending = [])
    (ha : c.available ≠ []) : c.read t nonblock count = (c.fetch t).goTo t.mode := by
  unfold Call.read
  rw [hphase]
  rw [if_neg (by simp [hl]), if_pos ⟨hn, hp⟩, if_neg ha]

/-- What an improper call comes to. -/
def Improper (t : Termios) (nonblock : Bool) (count : Nat) (ready : Bool) (c0 : Call) : Prop :=
  ∃ c, Reached t nonblock count c0 c ∧ ¬ Proper t nonblock ready c

theorem improper_of_blocked {ready : Bool} (h : ∃ c, Reached t nonblock count c0 c ∧ c.blocked = true)
    (hready : nonblock = true ∨ ready = true) : Improper t nonblock count ready c0 := by
  obtain ⟨c, hr, hb⟩ := h
  refine ⟨c, hr, fun hprop => ?_⟩
  obtain ⟨hn, hready'⟩ := hprop.blocked hb
  rcases hready with h | h
  · rw [hn] at h
    cases h
  · rw [hready'] at h
    cases h

theorem improper_of_nothing {ready : Bool} (hv : t.vmin ≠ 0)
    (h : ∃ c, Reached t nonblock count c0 c ∧ c.phase = .back (.data 0) ∧ (c.closed = false ∨ c.available ≠ [])) :
    Improper t nonblock count ready c0 := by
  obtain ⟨c, hr, hb, hend⟩ := h
  refine ⟨c, hr, fun hprop => ?_⟩
  rcases hprop.nothing hb with ⟨hc, ha⟩ | ⟨-, hz⟩
  · rcases hend with h | h
    · rw [hc] at h
      cases h
    · exact h ha
  · exact hv hz

/-- In canonical mode: the line is not complete, and something is there or comes. -/
theorem improper_canonical (hphase : c0.phase = .enter) (hi : t.icanon = true) (hl : c0.ttyLine = [])
    (hcomplete : c0.complete t [] = false) (hopen : c0.closed = false) (hs : c0.signal = false)
    (hsome : nonblock = true ∨ c0.pending ≠ [] ∨ c0.available ≠ []) : Improper t nonblock count c0.pollin c0 := by
  have hready : nonblock = true ∨ c0.pollin = true :=
    hsome.imp id fun h => h.elim pollin_of_pending pollin_of_available
  have hmode : t.mode = .canonical [] := by
    unfold Termios.mode
    rw [if_pos hi]
  have hstart : Reached t nonblock count c0 c0 := Reach.start rfl
  refine improper_of_blocked ?_ hready
  by_cases hn : nonblock = true ∧ c0.pending = []
  swap
  · have hr := hstart.read
    rw [read_enter_mode hphase hl hn, hmode] at hr
    exact hr.stalls rfl hcomplete hopen hs
  obtain ⟨hn, hp⟩ := hn
  by_cases ha : c0.available = []
  · -- A backspace arrives, which the read fetches and which edits an empty line.
    have hr := (hstart.arrive hopen [0x08]).read
    rw [read_enter_fetch (by exact hphase) (by exact hl) hn (by exact hp) (by simp), hmode] at hr
    refine hr.stalls rfl ?_ hopen hs
    have hkept : t.keep [0x08] = [0x08] := by
      unfold Termios.keep isSignal
      simp
    have hedit : t.edit [] 0x08 = .more [] := by simp [edit]
    show (match scan t [] (c0.pending ++ t.keep ((c0.available ++ [0x08]).take 256)) with
      | none => true
      | some line => completes t line ((c0.available ++ [0x08]).drop 256)) = false
    rw [hp, ha, nil_append, nil_append]
    show (match scan t [] (t.keep [0x08]) with
      | none => true
      | some line => completes t line []) = false
    rw [hkept, scan, hedit]
    dsimp only
    rw [scan]
    exact completes_nil []
  · have hr := hstart.read
    rw [read_enter_fetch hphase hl hn hp ha, hmode] at hr
    exact hr.stalls rfl ((complete_fetch hp ha).trans hcomplete) hopen hs

/-- In raw mode with `VMIN`: the fetches bring signals only. -/
theorem Reached.raw_nothing (hr : Reached t nonblock count c0 c) (hphase : c.phase = .enter) (hi : t.icanon = false)
    (hv : t.vmin ≠ 0) (hl : c.ttyLine = []) (hp : c.pending = [])
    (hlen : (if nonblock then 768 else 512) ≤ c.available.length)
    (hsig : ∀ b ∈ c.available.take (if nonblock then 768 else 512), t.isSignal b = true)
    (hend : c.closed = false ∨ (if nonblock then 768 else 512) < c.available.length) :
    ∃ c', Reached t nonblock count c0 c' ∧ c'.phase = .back (.data 0) ∧ (c'.closed = false ∨ c'.available ≠ []) := by
  have hmode : t.mode = .wait := by
    unfold Termios.mode
    rw [if_neg (by simp [hi]), if_neg fun h => hv h.1]
  have hread := hr.read
  cases nonblock with
  | false =>
    rw [read_enter_mode hphase hl (by simp), hmode] at hread
    exact hread.wait_nothing rfl hp hlen hsig hend
  | true =>
    have hne : c.available ≠ [] := by
      intro h
      rw [h] at hlen
      exact absurd hlen (by decide)
    rw [read_enter_fetch hphase hl rfl hp hne, hmode] at hread
    have hdrop : (c.available.drop 256).length = c.available.length - 256 := length_drop
    simp only [if_true] at hlen hsig hend
    refine hread.wait_nothing rfl (fetch_swallows hp (@signals_take t c 512 hsig)) ?_ (@signals_drop t c 512 hsig) ?_
    · show 512 ≤ (c.available.drop 256).length
      omega
    · refine hend.imp id fun hlen => ?_
      show 512 < (c.available.drop 256).length
      omega

theorem isSignal_interrupt (hsig : t.isig = true) : t.isSignal 0x03 = true := by
  unfold isSignal
  rw [hsig]
  rfl

theorem improper_raw (hphase : c0.phase = .enter) (hi : t.icanon = false) (hv : t.vmin ≠ 0) (hsig : t.isig = true)
    (hl : c0.ttyLine = []) (hp : c0.pending = [])
    (hall : ∀ b ∈ c0.available.take (if nonblock then 768 else 512), t.isSignal b = true)
    (hend : ¬ (c0.closed = true ∧ c0.available.length ≤ if nonblock then 768 else 512)) :
    Improper t nonblock count c0.pollin c0 := by
  refine improper_of_nothing hv ?_
  have hstart : Reached t nonblock count c0 c0 := Reach.start rfl
  by_cases hc : c0.closed = true
  · have hlen : (if nonblock then 768 else 512) < c0.available.length := by
      by_contra h
      exact hend ⟨hc, Nat.le_of_not_lt h⟩
    exact hstart.raw_nothing hphase hi hv hl hp hlen.le hall (.inr hlen)
  · -- More signals arrive than the read fetches.
    have hopen : c0.closed = false := by simpa using hc
    have hr := hstart.arrive hopen (replicate 768 0x03)
    refine hr.raw_nothing hphase hi hv hl hp ?_ ?_ (.inl hopen)
    · show _ ≤ (c0.available ++ replicate 768 0x03).length
      rw [length_append, length_replicate]
      split_ifs <;> omega
    · intro b hb
      dsimp only at hb
      rw [take_append] at hb
      rcases mem_append.mp hb with hb | hb
      · exact hall b hb
      · rw [eq_of_mem_replicate (mem_of_mem_take hb)]
        exact isSignal_interrupt hsig

/-- In raw mode with a timer: a call that must not block waits behind a fetch of signals. -/
theorem Reached.timer_blocks (hr : Reached t nonblock count c0 c) (hphase : c.phase = .enter) (hi : t.icanon = false)
    (ht : t.vtime ≠ 0) (hn : nonblock = true) (hl : c.ttyLine = []) (hp : c.pending = []) (ha : c.available ≠ [])
    (hlen : c.available.length ≤ 256) (hall : ∀ b ∈ c.available, t.isSignal b = true) (hopen : c.closed = false)
    (hs : c.signal = false) : ∃ c', Reached t nonblock count c0 c' ∧ c'.blocked = true := by
  have hmode : t.mode = .wait := by
    unfold Termios.mode
    rw [if_neg (by simp [hi]), if_neg fun h => ht h.2]
  have hwait := hr.read
  rw [read_enter_fetch hphase hl hn hp ha, hmode] at hwait
  have hpending : (c.fetch t).pending = [] := fetch_swallows hp fun b hb => hall b (mem_of_mem_take hb)
  have havailable : (c.fetch t).available = [] := drop_eq_nil_of_le hlen
  have hidle := hwait.read
  unfold Call.read Call.goTo at hidle
  dsimp only at hidle
  rw [if_neg (by simp [hpending]), if_pos havailable] at hidle
  have hover : Call.waitOver { c.fetch t with phase := .idleRaw } = false := by
    show ((c.closed && decide ((c.fetch t).available = [])) || c.signal) = false
    rw [hopen, hs]
    rfl
  refine ⟨_, hidle.read, ?_⟩
  unfold Call.read
  dsimp only
  rw [hover]
  rfl

theorem improper_timer (hphase : c0.phase = .enter) (hi : t.icanon = false) (ht : t.vtime ≠ 0)
    (hsig : t.isig = true) (hn : nonblock = true) (hl : c0.ttyLine = []) (hp : c0.pending = [])
    (hlen : c0.available.length ≤ 256) (hall : ∀ b ∈ c0.available, t.isSignal b = true) (hopen : c0.closed = false)
    (hs : c0.signal = false) : Improper t nonblock count c0.pollin c0 := by
  refine improper_of_blocked ?_ (.inl hn)
  have hstart : Reached t nonblock count c0 c0 := Reach.start rfl
  by_cases ha : c0.available = []
  · have hr := hstart.arrive hopen [0x03]
    refine hr.timer_blocks hphase hi ht hn hl hp (by simp) ?_ ?_ hopen hs
    · show (c0.available ++ [0x03]).length ≤ 256
      rw [ha]
      decide
    · intro b hb
      rw [ha, nil_append, mem_singleton] at hb
      rw [hb]
      exact isSignal_interrupt hsig
  · exact hstart.timer_blocks hphase hi ht hn hl hp ha hlen hall hopen hs

/-- A call that starts in a state which is not sound comes to something improper. -/
theorem improper_of_not_sound (hphase : c0.phase = .enter) (h : ¬ Sound t nonblock c0) :
    Improper t nonblock count c0.pollin c0 := by
  have hl : c0.ttyLine = [] := by
    by_contra hl
    exact h (.inl hl)
  cases hi : t.icanon with
  | true =>
    have hno := fun hw => h (.inr (.inl ⟨hi, hw⟩))
    have hcomplete : c0.complete t [] = false := by
      by_contra hc
      exact hno (.inl (by simpa using hc))
    have hopen : c0.closed = false := by
      by_contra hc
      exact hno (.inr (.inl (by simpa using hc)))
    have hs : c0.signal = false := by
      by_contra hc
      exact hno (.inr (.inr (.inl (by simpa using hc))))
    refine improper_canonical hphase hi hl hcomplete hopen hs ?_
    by_contra hsome
    simp only [not_or, Bool.not_eq_true, ne_eq, not_not] at hsome
    exact hno (.inr (.inr (.inr hsome)))
  | false =>
    have hno := fun hw => h (.inr (.inr ⟨hi, hw⟩))
    have hp : c0.pending = [] := by
      by_contra hp
      exact hno (.inl hp)
    have hsig : t.isig = true := by
      by_contra hsig
      exact hno (.inr (.inl (by simpa using hsig)))
    have signals {bytes : List UInt8} (hb : ¬ ∃ b ∈ bytes, t.isSignal b = false) : ∀ b ∈ bytes, t.isSignal b = true := by
      intro b hmem
      by_contra hs
      exact hb ⟨b, hmem, by simpa using hs⟩
    by_cases hv : t.vmin = 0
    · have hno' := fun hw => hno (.inr (.inr (.inl ⟨hv, hw⟩)))
      have ht : t.vtime ≠ 0 := fun ht => hno' (.inl ht)
      have hn : nonblock = true := by
        by_contra hn
        exact hno' (.inr (.inl (by simpa using hn)))
      have hopen : c0.closed = false := by
        by_contra hc
        exact hno' (.inr (.inr (.inl (by simpa using hc))))
      have hs : c0.signal = false := by
        by_contra hs
        exact hno' (.inr (.inr (.inr (.inl (by simpa using hs)))))
      have hlen : c0.available.length ≤ 256 := by
        by_contra hlen
        exact hno' (.inr (.inr (.inr (.inr (.inl (Nat.lt_of_not_le hlen))))))
      have hall := signals fun hb => hno' (.inr (.inr (.inr (.inr (.inr hb)))))
      exact improper_timer hphase hi ht hsig hn hl hp hlen hall hopen hs
    · have hno' := fun hw => hno (.inr (.inr (.inr ⟨hv, hw⟩)))
      exact improper_raw hphase hi hv hsig hl hp (signals fun hb => hno' (.inl hb)) fun hc => hno' (.inr hc)

/-- In every run of a call the terminal does what `read` promises, exactly where it starts in a
    sound state. -/
theorem read_proper_iff_sound (hphase : c0.phase = .enter) (hblocked : c0.blocked = false) (hcount : 0 < count) :
    (∀ c, Reached t nonblock count c0 c → Proper t nonblock c0.pollin c) ↔ Sound t nonblock c0 := by
  constructor
  · intro h
    by_contra hs
    have hbad : Improper t nonblock count c0.pollin c0 := improper_of_not_sound hphase hs
    obtain ⟨c, hr, himp⟩ := hbad
    exact himp (h c hr)
  · intro h c hr
    exact h.proper hphase hblocked hcount hr

end Runs

/-- Settings with signals, in canonical mode or not. -/
def settings (icanon : Bool) (vmin : Nat) : Termios :=
  { icrnl := true, isig := true, icanon, verase := 0x7F, vkill := 0x15, veof := 0x04, vtime := 0, vmin }

/-- A call on a terminal with the bytes `available`, and nothing else. -/
def fresh (available : List UInt8) : Call := ⟨available, false, [], [], false, .enter, false⟩

theorem read_proper_iff_sound_interrupt :
    (∀ c, Reached (settings false 1) false 16 (fresh [0x03]) c → Proper (settings false 1) false (fresh [0x03]).pollin c) ↔
      Sound (settings false 1) false (fresh [0x03]) :=
  read_proper_iff_sound rfl rfl (by decide)

/-- A control character in raw mode with `VMIN` one is read as nothing; part of a line that is ready
    blocks its reader, whether or not the descriptor may block. -/
theorem interrupt_reads_nothing :
    (∃ c, Reached (settings false 1) false 16 (fresh [0x03]) c ∧ c.phase = .back (.data 0) ∧ c.closed = false) ∧
    (∃ c, Reached (settings true 1) true 16 (fresh [0x61]) c ∧ c.blocked = true) ∧
    (fresh [0x61]).pollin = true ∧ ∃ c, Reached (settings true 1) false 16 (fresh [0x61]) c ∧ c.blocked = true := by
  refine ⟨⟨_, Reach.run (Reach.start rfl) [.read, .read, .read] (fun _ _ _ => trivial) rfl, ?_⟩,
    ⟨_, Reach.run (Reach.start rfl) [.read, .read, .read, .read] (fun _ _ _ => trivial) rfl, ?_⟩, rfl,
    ⟨_, Reach.run (Reach.start rfl) [.read, .read, .read, .read, .read] (fun _ _ _ => trivial) rfl, ?_⟩⟩
  · decide
  · decide
  · decide

end Tty

end HamixOS.Kernel
