import HamixOS.HextFs.Coherence
import HamixOS.HextFs.Guarded

namespace HamixOS.HextFs

open Lib List Checked Nat

/-!
# The space of the journal

`commit` cuts what is staged into transactions that fit the journal.  `Guarded.writeTransaction` is a
transaction with its panics in sight, and one more: a record outside the blocks behind the header of
the journal.  A transaction that fits (`fits_fitting`) does neither (`writeTransaction_fits`).
-/

namespace Guarded

open Checked

variable {D : Type} [BlockDevice D]

/-- Block `position` of the journal, which is not its header. -/
def recordAt (position : Nat) : GuardM D Nat := do
  let s ← get
  if position = 0 then throw .outOfRange else index s.journal position

def writeLog : (position : Nat) → List Bytes → GuardM D Unit
  | _, [] => pure ()
  | position, block :: blocks => do
    let target ← recordAt position
    lift (Hext.writeRaw target block)
    writeLog (position + 1) blocks

def writeTransaction (entries : List (Nat × Bytes)) : GuardM D Unit := do
  let s ← get
  if descriptorCapacity s.bs = 0 then throw .outOfRange
  else do
    let blocks := logBlocks s.bs s.nextSeq entries
    writeLog 1 blocks
    lift Hext.flushDevice
    let target ← recordAt (1 + blocks.length)
    lift do
      Hext.writeRaw target
        (commitBlock s.bs s.nextSeq entries.length (crc32 (entries.map Prod.snd).flatten))
      Hext.flushDevice
      Hext.writeHome entries
      Hext.flushDevice
      modify (fun s => { s with nextSeq := (s.nextSeq + 1) % 2 ^ 64 })
      Hext.writeJournalHeader
      Hext.flushDevice

end Guarded

/-! ### Counting the records -/

/-- The records of a transaction of `n` blocks fit `room` blocks of the journal. -/
def Fits (capacity room n : Nat) : Prop := divCeil n capacity + n ≤ room

theorem length_logBlocks {bs : Nat} (seq : Nat) (hbs : 0 < descriptorCapacity bs) (entries : List (Nat × Bytes)) :
    (logBlocks bs seq entries).length ≤ divCeil entries.length (descriptorCapacity bs) + entries.length := by
  have hcount := length_chunks_le (Hext.le_divCeil_mul (n := entries.length) hbs)
  have hsum : ∀ parts : List (List (Nat × Bytes)), (parts.flatMap fun chunk =>
      descriptorBlock bs seq (chunk.map Prod.fst) :: chunk.map Prod.snd).length = parts.length + parts.flatten.length := by
    intro parts
    induction parts with
    | nil => rfl
    | cons chunk parts ih =>
      rw [flatMap_cons, length_append, ih, flatten_cons, length_append, length_cons,
        length_cons, length_map]
      omega
  unfold logBlocks
  rw [hsum, flatten_chunks hbs]
  omega

/-- Every block the loop takes beyond those that fit fits too. -/
theorem fits_fitting {capacity room taken : Nat} (n : Nat) (h : Fits capacity room taken) :
    Fits capacity room (Hext.fitting capacity room n taken) ∧ taken ≤ Hext.fitting capacity room n taken ∧
      Hext.fitting capacity room n taken ≤ taken + n := by
  induction n generalizing taken with
  | zero => exact ⟨h, le_refl _, le_refl _⟩
  | succ n ih =>
    rw [Hext.fitting]
    split_ifs with hfull
    · exact ⟨h, le_refl _, Nat.le_add_right _ _⟩
    · obtain ⟨hfits, hge, hle⟩ := ih (not_lt.mp hfull)
      exact ⟨hfits, le_of_succ_le hge, by omega⟩

/-- One block and its descriptor fit two blocks of the journal, so there is always something to take. -/
theorem fitting_pos {capacity room : Nat} (n : Nat) (hcap : 0 < capacity) (hroom : 2 ≤ room) :
    Fits capacity room (Hext.fitting capacity room (n + 1) 0) ∧ 0 < Hext.fitting capacity room (n + 1) 0 ∧
      Hext.fitting capacity room (n + 1) 0 ≤ n + 1 := by
  have hone : divCeil (0 + 1) capacity = 1 := by
    rw [divCeil, zero_add, Nat.add_sub_cancel_left]
    exact Nat.div_self hcap
  rw [Hext.fitting, if_neg (by rw [hone]; omega)]
  have hfits : Fits capacity room (0 + 1) := by
    unfold Fits
    rw [hone]
    exact hroom
  obtain ⟨hfit, hge, hle⟩ := fits_fitting n hfits
  exact ⟨hfit, hge, by omega⟩

/-! ### A transaction that fits -/

namespace Hext

variable {D : Type} [BlockDevice D] {s : Hext D}

/-- The volume still has the blocks of `c`, and its journal. -/
def Journaled (c s : Hext D) : Prop := s.bs = c.bs ∧ s.journal = c.journal

omit [BlockDevice D] in
theorem journaled_onDevice {α : Type} (c : Hext D) (call : EStateM Error D α) : Maintains (Journaled c) (onDevice call) := by
  intro s hs
  unfold Post onDevice
  cases call s.dev with
  | ok a dev => exact hs
  | error e dev => exact hs

theorem journaled_writeRaw (c : Hext D) (block : Nat) (buf : Bytes) : Maintains (Journaled c) (writeRaw block buf) :=
  .bind (.modify fun _ hs => hs) fun _ => .bind .get fun _ => journaled_onDevice c _

omit [BlockDevice D] in
theorem recordAt_eq {position : Nat} (hpos : 0 < position) (hlt : position < s.journal.length) :
    Guarded.recordAt position s = .ok (s.journalAt position) s := by
  show (if position = 0 then throw .outOfRange else Checked.index s.journal position : Guarded.GuardM D Nat) s = _
  rw [if_neg hpos.ne', Checked.index, getElem?_eq_getElem hlt, journalAt, getD_eq_getElem?_getD,
    getElem?_eq_getElem hlt]
  rfl

theorem writeLog_fits {c : Hext D} {blocks : List Bytes} {position : Nat} (hs : Journaled c s) (hpos : 0 < position)
    (hle : position + blocks.length ≤ c.journal.length) :
    Guarded.writeLog position blocks s = Checked.lift (writeLog position blocks) s := by
  induction blocks generalizing position s with
  | nil => rfl
  | cons block blocks ih =>
    rw [length_cons] at hle
    rw [Guarded.writeLog, run_ok (recordAt_eq hpos (by rw [hs.2]; omega))]
    refine lift_seq (m := writeRaw (s.journalAt position) block) rfl rfl fun _ s' hrun => ?_
    exact ih ((journaled_writeRaw c _ _ s hs).ok hrun) (succ_pos _) (by omega)

/-- A transaction that fits stays behind the header and before the end of the journal. -/
theorem writeTransaction_fits {entries : List (Nat × Bytes)} (hbs : 28 ≤ s.bs) (hlen : 2 ≤ s.journal.length)
    (hfits : Fits (descriptorCapacity s.bs) (s.journal.length - 2) entries.length) :
    Guarded.writeTransaction entries s = Checked.lift (writeTransaction entries) s := by
  have hcap : 0 < descriptorCapacity s.bs := by
    unfold descriptorCapacity
    omega
  have hblocks := length_logBlocks s.nextSeq hcap entries
  unfold Fits at hfits
  show (if descriptorCapacity s.bs = 0 then throw .outOfRange else _ : Guarded.GuardM D Unit) s = _
  rw [if_neg hcap.ne']
  have hlog : Guarded.writeLog 1 (logBlocks s.bs s.nextSeq entries) s =
      Checked.lift (writeLog 1 (logBlocks s.bs s.nextSeq entries)) s :=
    writeLog_fits ⟨rfl, rfl⟩ one_pos (by omega)
  -- neither the log nor the flush changes which blocks the journal has, so the header is where it was
  refine lift_seq rfl hlog fun _ s₁ hrun₁ => lift_seq (m := flushDevice) rfl rfl fun _ s₂ hrun₂ => ?_
  have hs₁ : Journaled s s₁ := (maintains_writeLog (journaled_writeRaw s) _ _ s ⟨rfl, rfl⟩).ok hrun₁
  have hs₂ : Journaled s s₂ := (journaled_onDevice s _ s₁ hs₁).ok hrun₂
  have hat : ∀ position, s₂.journalAt position = s.journalAt position := fun position => congrArg (·.getD position 0) hs₂.2
  rw [run_ok (recordAt_eq (by omega) (by rw [hs₂.2]; omega)), hat]

theorem journaled_writeTransaction (c : Hext D) (entries : List (Nat × Bytes)) :
    Maintains (Journaled c) (writeTransaction entries) :=
  maintains_writeTransaction (journaled_writeRaw c) (journaled_onDevice c _) (.modify fun _ hs => hs) entries

/-! ### The loop -/

/-- The loop writes batches that fit, one after the other, whatever each of them does to the disk. -/
theorem writeTransactions_batches {c : Hext D} (hbs : 28 ≤ c.bs) (hlen : 8 ≤ c.journal.length) {fuel : Nat}
    {entries : List (Nat × Bytes)} (hfuel : entries.length ≤ fuel) :
    ∃ batches : List (List (Nat × Bytes)), batches.flatten = entries ∧
      (∀ batch ∈ batches, batch ≠ [] ∧ Fits (descriptorCapacity c.bs) (c.journal.length - 2) batch.length) ∧
      ∀ s, Journaled c s → writeTransactions fuel entries s = batches.forM writeTransaction s := by
  -- every round takes an entry at least, so there is fuel for all of them
  induction fuel generalizing entries with
  | zero =>
    rw [eq_nil_of_length_eq_zero (le_zero.mp hfuel)]
    exact ⟨[], rfl, forall_mem_nil _, fun _ _ => rfl⟩
  | succ fuel ih =>
    cases entries with
    | nil => exact ⟨[], rfl, forall_mem_nil _, fun _ _ => rfl⟩
    | cons entry entries =>
      have hcap : 0 < descriptorCapacity c.bs := by
        unfold descriptorCapacity
        omega
      obtain ⟨hfits, hpos, hle⟩ := fitting_pos entries.length hcap (show 2 ≤ c.journal.length - 2 by omega)
      generalize hn : fitting (descriptorCapacity c.bs) (c.journal.length - 2) (entries.length + 1) 0 = n at hfits hpos hle
      have htake : ((entry :: entries).take n).length = n := length_take_of_le hle
      have hrest : ((entry :: entries).drop n).length ≤ fuel := by
        rw [length_drop]
        rw [length_cons] at hfuel ⊢
        omega
      obtain ⟨batches, hflat, hbatches, hrun⟩ := ih hrest
      refine ⟨(entry :: entries).take n :: batches, ?_, forall_mem_cons.mpr ⟨⟨?_, ?_⟩, hbatches⟩, fun s hs => ?_⟩
      · rw [flatten_cons, hflat, take_append_drop]
      · exact ne_nil_of_length_pos (by omega)
      · rw [htake]
        exact hfits
      · -- the loop computes the same batch, whatever has happened to the disk
        have hloop : ∀ k, fitting (descriptorCapacity s.bs) (s.journal.length - 2) (entries.length + 1) 0 = k →
            writeTransactions (fuel + 1) (entry :: entries) s = (if k = 0 then throw .tooLarge
              else writeTransaction ((entry :: entries).take k) >>= fun _ =>
                writeTransactions fuel ((entry :: entries).drop k) : HextM D Unit) s := by
          rintro k rfl
          rfl
        rw [hloop n (by rw [hs.1, hs.2, hn]), if_neg hpos.ne']
        exact run_bind_congr rfl fun _ s' hok => hrun s' ((journaled_writeTransaction c _ s hs).ok hok)

/-- `commit` splits what is staged, in order, into transactions with something in each of them, is never
short of room, and puts every record of a transaction behind the header and before the end of the journal. -/
theorem commit_batches (c : Hext D) (hbs : 28 ≤ c.bs) (hlen : 8 ≤ c.journal.length) (entries : List (Nat × Bytes)) :
    ∃ batches : List (List (Nat × Bytes)), batches.flatten = entries ∧ [] ∉ batches ∧
      writeTransactions entries.length entries c = batches.forM writeTransaction c ∧
      ∀ batch ∈ batches, ∀ s : Hext D, s.bs = c.bs → s.journal = c.journal →
        Guarded.writeTransaction batch s = Checked.lift (writeTransaction batch) s := by
  obtain ⟨batches, hflat, hbatches, hrun⟩ := writeTransactions_batches hbs hlen (le_refl entries.length)
  refine ⟨batches, hflat, fun hnil => (hbatches [] hnil).1 rfl, hrun c ⟨rfl, rfl⟩, fun batch hb s hsize hjournal => ?_⟩
  have hfits := (hbatches batch hb).2
  rw [← hsize, ← hjournal] at hfits
  exact writeTransaction_fits (hsize ▸ hbs) (by rw [hjournal]; omega) hfits

theorem commit_batches_one :
    ∃ batches : List (List (Nat × Bytes)), batches.flatten = [(9, zeros 1024)] ∧ [] ∉ batches := by
  obtain ⟨batches, hflat, hne, -⟩ := commit_batches { blank (Disk.new 0) 0 with bs := 1024, journal := List.range 8 }
    (by decide) (by decide) [(9, zeros 1024)]
  exact ⟨batches, hflat, hne⟩

end Hext

end HamixOS.HextFs
