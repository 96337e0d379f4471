import HamixOS.Hsh.Shell
import Mathlib.Data.List.Perm.Basic
import Mathlib.Data.List.ReduceOption

namespace HamixOS.Hsh

open Lib List Option Mark

/-!
# The balance of descriptors and children

`Books owed kids s₀ s` is the account of a run from `s₀` to `s`: what has been opened and is still to be
closed, what has been started and is still to be waited for, and what is lost.  Each function of the shell
leaves the account as it was or with what it hands to its caller; a run of `run` leaves nothing to be done,
and what it has lost is told by its marks.
-/

namespace Mark

/-- The descriptors that nobody closes any more. -/
def lost : Mark → List Nat
  | refused before => before
  | broken _ left _ => left
  | _ => []

/-- The children that nobody waits for any more. -/
def orphans : Mark → List Int
  | broken _ _ pids => pids
  | _ => []

/-- What holds of every mark. -/
def Right : Mark → Prop
  | broken index left pids => (index = 0 ↔ left = []) ∧ (index = 0 → pids = [])
  | finished stages codes status => status = pipelineStatus codes ∧ codes.length = stages.reduceOption.length
  | _ => True

end Mark

structure Account (owed : List Nat) (kids : List Int) (s₀ : State) (l : List Mark) (s : State) : Prop where
  history : s.history = l ++ s₀.history
  held : ∀ fd, s.held.count fd = owed.count fd + (l.flatMap Mark.lost).count fd + s₀.held.count fd
  opened : ∀ fd, (l.filterMap Mark.openedFd).count fd =
    owed.count fd + (l.flatMap Mark.lost).count fd + (l.filterMap Mark.closedFd).count fd
  started : ∀ pid, (l.filterMap Mark.startedPid).count pid =
    kids.count pid + (l.flatMap Mark.orphans).count pid + (l.filterMap Mark.waitedPid).count pid
  right : ∀ m ∈ l, m.Right

def Books (owed : List Nat) (kids : List Int) (s₀ s : State) : Prop := ∃ l, Account owed kids s₀ l s

theorem filterMap_cons_toList {α β : Type} (f : α → Option β) (a : α) (l : List α) :
    (a :: l).filterMap f = (f a).toList ++ l.filterMap f := by
  cases hf : f a with
  | none => rw [filterMap_cons_none hf, toList_none, nil_append]
  | some b => rw [filterMap_cons_some hf, toList_some, singleton_append]

namespace Books

variable {owed owed' : List Nat} {kids kids' : List Int} {s₀ s s' : State}

theorem start (s₀ : State) : Books [] [] s₀ s₀ :=
  ⟨[], rfl, fun _ => by simp, fun _ => by simp, fun _ => by simp, fun _ h => absurd h not_mem_nil⟩

section

variable (h : Books owed kids s₀ s)

include h

theorem trans (h' : Books [] [] s s') : Books owed kids s₀ s' := by
  obtain ⟨l, h⟩ := h
  obtain ⟨l', h'⟩ := h'
  refine ⟨l' ++ l, ?_, fun fd => ?_, fun fd => ?_, fun pid => ?_, fun m hm => ?_⟩
  · rw [h'.history, h.history, append_assoc]
  · have h1 := h.held fd
    have h2 := h'.held fd
    simp only [flatMap_append, count_append, count_nil] at h1 h2 ⊢
    omega
  · have h1 := h.opened fd
    have h2 := h'.opened fd
    simp only [flatMap_append, filterMap_append, count_append, count_nil] at h1 h2 ⊢
    omega
  · have h1 := h.started pid
    have h2 := h'.started pid
    simp only [flatMap_append, filterMap_append, count_append, count_nil] at h1 h2 ⊢
    omega
  · rcases mem_append.mp hm with hm | hm
    · exact h'.right m hm
    · exact h.right m hm

/-- A step with one mark. -/
theorem mark {m : Mark} (hhistory : s'.history = m :: s.history)
    (hheld : ∀ fd, s'.held.count fd + owed.count fd = owed'.count fd + m.lost.count fd + s.held.count fd)
    (hopened : ∀ fd, m.openedFd.toList.count fd + owed.count fd =
      owed'.count fd + m.lost.count fd + m.closedFd.toList.count fd)
    (hstarted : ∀ pid, m.startedPid.toList.count pid + kids.count pid =
      kids'.count pid + m.orphans.count pid + m.waitedPid.toList.count pid)
    (hright : m.Right) : Books owed' kids' s₀ s' := by
  obtain ⟨l, h⟩ := h
  refine ⟨m :: l, ?_, fun fd => ?_, fun fd => ?_, fun pid => ?_, fun m' hm => ?_⟩
  · rw [hhistory, h.history, cons_append]
  · have h1 := h.held fd
    have h2 := hheld fd
    simp only [flatMap_cons, count_append]
    omega
  · have h1 := h.opened fd
    have h2 := hopened fd
    simp only [flatMap_cons, filterMap_cons_toList, count_append]
    omega
  · have h1 := h.started pid
    have h2 := hstarted pid
    simp only [flatMap_cons, filterMap_cons_toList, count_append]
    omega
  · rcases mem_cons.mp hm with rfl | hm
    · exact hright
    · exact h.right m' hm

/-- A step without a mark. -/
theorem quiet (hhistory : s'.history = s.history) (hheld : s'.held = s.held) :
    Books owed kids s₀ s' := by
  obtain ⟨l, h⟩ := h
  exact ⟨l, hhistory.trans h.history, fun fd => hheld ▸ h.held fd, h.opened, h.started, h.right⟩

theorem called : Books owed kids s₀ s.called := h.quiet rfl rfl

theorem wrote (fd : Nat) (t : Text) : Books owed kids s₀ (s.mark (.wrote fd t)) :=
  h.mark rfl (fun fd => by simp [State.mark, Mark.lost, add_comm]) (fun _ => by simp [Mark.lost, openedFd, closedFd])
    (fun _ => by simp [Mark.orphans, startedPid, waitedPid]) trivial

theorem opened (fd : Nat) : Books (fd :: owed) kids s₀ (s.opened fd) :=
  h.mark rfl (fun x => by simp only [State.opened, Mark.lost, count_cons, count_nil]; omega)
    (fun x => by simp only [Mark.lost, openedFd, closedFd, toList, count_cons, count_nil]; omega)
    (fun _ => by simp [Mark.orphans, startedPid, waitedPid]) trivial

theorem count_le_held (fd : Nat) : owed.count fd + s₀.held.count fd ≤ s.held.count fd := by
  obtain ⟨l, h⟩ := h
  have := h.held fd
  omega

end

theorem closed {fd : Nat} (h : Books (fd :: owed) kids s₀ s) : Books owed kids s₀ (s.closed fd) := by
  refine h.mark rfl (fun x => ?_) (fun x => ?_) (fun _ => by simp [Mark.orphans, startedPid, waitedPid]) trivial
  · have hle := h.count_le_held x
    simp only [State.closed, Mark.lost, count_erase, count_cons, count_nil] at hle ⊢
    by_cases hx : fd = x
    · subst hx
      omega
    · have hbeq : (fd == x) = false := beq_eq_false_iff_ne.mpr hx
      omega
  · simp only [Mark.lost, openedFd, closedFd, toList, count_cons, count_nil]
    omega

theorem refused (h : Books owed kids s₀ s) : Books [] kids s₀ (s.mark (.refused owed)) :=
  h.mark rfl (fun x => by simp only [State.mark, Mark.lost, count_nil]; omega)
    (fun x => by simp [Mark.lost, openedFd, closedFd])
    (fun _ => by simp [Mark.orphans, startedPid, waitedPid]) trivial

theorem started (h : Books owed kids s₀ s) (pid : Int) : Books owed (pid :: kids) s₀ (s.mark (.started pid)) :=
  h.mark rfl (fun x => by simp [State.mark, Mark.lost, add_comm]) (fun x => by simp [Mark.lost, openedFd, closedFd])
    (fun x => by simp only [Mark.orphans, startedPid, waitedPid, toList, count_cons, count_nil]; omega) trivial

theorem waited {pid : Int} (h : Books owed (pid :: kids) s₀ s) : Books owed kids s₀ (s.mark (.waited pid)) :=
  h.mark rfl (fun x => by simp [State.mark, Mark.lost, add_comm]) (fun x => by simp [Mark.lost, openedFd, closedFd])
    (fun x => by simp only [Mark.orphans, startedPid, waitedPid, toList, count_cons, count_nil]; omega) trivial

section

variable (h : Books owed kids s₀ s)

include h

theorem broken {index : Nat} (hright : (Mark.broken index owed kids).Right) :
    Books [] [] s₀ (s.mark (.broken index owed kids)) :=
  h.mark rfl (fun x => by simp only [State.mark, Mark.lost, count_nil]; omega)
    (fun x => by simp [Mark.lost, openedFd, closedFd])
    (fun _ => by simp [Mark.orphans, startedPid, waitedPid]) hright

theorem finished {stages : List (Option Int)} {codes : List Int} {status : Int}
    (hright : (Mark.finished stages codes status).Right) : Books owed kids s₀ (s.mark (.finished stages codes status)) :=
  h.mark rfl (fun x => by simp [State.mark, Mark.lost, add_comm]) (fun x => by simp [Mark.lost, openedFd, closedFd])
    (fun x => by simp [Mark.orphans, startedPid, waitedPid]) hright

theorem perm (howed : owed.Perm owed') (hkids : kids.Perm kids') : Books owed' kids' s₀ s := by
  obtain ⟨l, h⟩ := h
  refine ⟨l, h.history, fun fd => ?_, fun fd => ?_, fun pid => ?_, h.right⟩
  · rw [← howed.count_eq]
    exact h.held fd
  · rw [← howed.count_eq]
    exact h.opened fd
  · rw [← hkids.count_eq]
    exact h.started pid

theorem mem_held {fd : Nat} (hfd : fd ∈ owed ∨ fd ∈ s₀.held) : fd ∈ s.held := by
  have hle := h.count_le_held fd
  refine count_pos_iff.mp ?_
  rcases hfd with hfd | hfd
  · have := count_pos_iff.mpr hfd
    omega
  · have := count_pos_iff.mpr hfd
    omega

end

end Books

/-! ### Functions that leave nothing to be done -/

/-- The account is even when this has run, with `fd` among the descriptors. -/
def Keeps {α : Type} (fd : Nat) (x : M α) : Prop :=
  ∀ ⦃s : State⦄ ⦃a : α⦄ ⦃s' : State⦄, fd ∈ s.held → x s = some (a, s') → Books [] [] s s'

theorem bind_some {α β : Type} {x : M α} {f : α → M β} {s : State} {r : β × State} (h : (x >>= f) s = some r) :
    ∃ a s₁, x s = some (a, s₁) ∧ f a s₁ = some r := by
  have hbind : (x >>= f) s = (x s).bind fun p => f p.1 p.2 := rfl
  rw [hbind] at h
  obtain ⟨p, hp, hr⟩ := bind_eq_some_iff.mp h
  exact ⟨p.1, p.2, hp, hr⟩

theorem pure_some {α : Type} {a b : α} {s s' : State} (h : (pure a : M α) s = some (b, s')) : a = b ∧ s = s' := by
  have hpair : (a, s) = (b, s') := some.inj h
  exact ⟨congrArg Prod.fst hpair, congrArg Prod.snd hpair⟩

namespace Keeps

variable {α β : Type} {fd : Nat}

theorem pure (a : α) : Keeps fd (Pure.pure a : M α) := by
  intro s b s' _ h
  obtain ⟨-, rfl⟩ := pure_some h
  exact .start _

theorem bind {x : M α} {f : α → M β} (hx : Keeps fd x) (hf : ∀ a, Keeps fd (f a)) : Keeps fd (x >>= f) := by
  intro s b s' hfd h
  obtain ⟨a, s₁, h1, h2⟩ := bind_some h
  have hb := hx hfd h1
  exact hb.trans (hf a (hb.mem_held (.inr hfd)) h2)

theorem getShell : Keeps fd Hsh.getShell := by
  rintro s a s' - hx
  cases hx
  exact .start _

theorem setShell (f : Shell → Shell) : Keeps fd (Hsh.setShell f) := by
  rintro s a s' - ⟨⟩
  exact (Books.start s).quiet rfl rfl

theorem ask (answer : Nat → α) : Keeps fd (Hsh.ask answer) := by
  rintro s a s' - ⟨⟩
  exact (Books.start s).quiet rfl rfl

theorem write (n : Nat) (t : Text) : Keeps fd (Hsh.write n t) := by
  rintro s a s' - ⟨⟩
  exact (Books.start s).wrote n t

theorem errln (io : Io) (t : Text) : Keeps fd (Hsh.errln io t) := write _ _

theorem onlyIf {c : Prop} [Decidable c] {x : M Unit} (hx : Keeps fd x) : Keeps fd (Hsh.onlyIf c x) := by
  unfold Hsh.onlyIf
  split
  · exact hx
  · exact pure ()

end Keeps

section

variable {h : Host} {fd : Nat}

theorem getShell_books {owed : List Nat} {kids : List Int} {s₀ s s' : State} {sh : Shell} (hb : Books owed kids s₀ s)
    (hx : getShell s = some (sh, s')) : Books owed kids s₀ s' := by
  cases hx
  exact hb

theorem ask_books {α : Type} {answer : Nat → α} {a : α} {owed : List Nat} {kids : List Int} {s₀ s s' : State}
    (hb : Books owed kids s₀ s) (hx : ask answer s = some (a, s')) : Books owed kids s₀ s' := by
  cases hx
  exact hb.called

variable {u : Unit}

theorem close_books {owed : List Nat} {kids : List Int} {s₀ s s' : State} (hb : Books (fd :: owed) kids s₀ s)
    (hx : close fd s = some (u, s')) : Books owed kids s₀ s' := by
  cases hx
  exact hb.called.closed

theorem closeAll_books {fds owed : List Nat} {kids : List Int} {s₀ s s' : State}
    (hb : Books (fds ++ owed) kids s₀ s) (hx : closeAll fds s = some (u, s')) : Books owed kids s₀ s' := by
  induction fds generalizing s with
  | nil =>
    obtain ⟨-, rfl⟩ := pure_some hx
    exact hb
  | cons fd fds ih =>
    obtain ⟨_, s₁, h1, h2⟩ := bind_some hx
    exact ih (close_books hb h1) h2

theorem keeps_spawnWithEnv (program : Text) (args : List Text) (detach foreground : Bool) (io : Io) :
    Keeps fd (spawnWithEnv h program args detach foreground io) :=
  .bind .getShell fun _ => .ask _

/-- The two ends of a new pipe are not among the descriptors. -/
theorem pipe_books {owed : List Nat} {kids : List Int} {s₀ s s' : State} {r w : Nat} (hb : Books owed kids s₀ s)
    (hx : pipe h s = some (.ok (r, w), s')) : Books (w :: r :: owed) kids s₀ s' ∧ r ∉ s.held := by
  unfold pipe at hx
  split at hx
  · cases hx
  · cases hx
    exact ⟨(hb.called.opened _).opened _, h.fresh _ _⟩

theorem pipe_failed {owed : List Nat} {kids : List Int} {s₀ s s' : State} {e : Int} (hb : Books owed kids s₀ s)
    (hx : pipe h s = some (.error e, s')) : Books owed kids s₀ s' := by
  unfold pipe at hx
  split at hx
  · cases hx
    exact hb.quiet rfl rfl
  · cases hx

theorem keeps_capture (src : Text) : Keeps fd (capture h src) := by
  intro s a s' hfd hx
  obtain ⟨r, s₁, h1, hx⟩ := bind_some hx
  cases r with
  | error e =>
    obtain ⟨-, rfl⟩ := pure_some hx
    exact pipe_failed (.start s) h1
  | ok r =>
    obtain ⟨hb, -⟩ := pipe_books (.start s) h1
    obtain ⟨sh, s₂, h2, hx⟩ := bind_some hx
    obtain ⟨pid, s₃, h3, hx⟩ := bind_some hx
    obtain ⟨_, s₄, h4, hx⟩ := bind_some hx
    obtain ⟨output, s₅, h5, hx⟩ := bind_some hx
    obtain ⟨_, s₆, h6, hx⟩ := bind_some hx
    have hb := close_books (ask_books (getShell_books hb h2) h3) h4
    have hb := close_books (ask_books hb h5) h6
    exact hb.trans (Keeps.bind (.onlyIf (.bind (.ask _) fun _ => .setShell _)) (fun _ => .pure _) (hb.mem_held (.inr hfd)) hx)

theorem keeps_expandPart (f : Fields) (part : Part) : Keeps fd (expandPart h f part) := by
  cases part with
  | lit t quoted => exact .pure _
  | tilde user => exact .bind .getShell fun _ => .bind (.ask _) fun _ => .pure _
  | sub src quoted => exact .bind (keeps_capture src) fun _ => .pure _
  | var name quoted =>
    refine .bind .getShell fun sh => ?_
    split
    · split
      · exact .pure _
      · exact .pure _
    · exact .bind (.ask _) fun _ => .pure _

theorem keeps_expandParts (parts : List Part) (f : Fields) : Keeps fd (expandParts h parts f) := by
  induction parts generalizing f with
  | nil => exact .pure _
  | cons part parts ih =>
    refine .bind (keeps_expandPart f part) fun r => ?_
    cases r with
    | none => exact .pure _
    | some f => exact ih f

theorem keeps_expandWord (word : Word) : Keeps fd (expandWord h word) := by
  refine .bind (keeps_expandParts _ _) fun r => ?_
  cases r with
  | none => exact .pure _
  | some f =>
    dsimp only
    split
    · exact .pure _
    · split
      · exact .bind (.ask _) fun _ => .pure _
      · exact .pure _

theorem keeps_expandWords (words : List Word) : Keeps fd (expandWords h words) := by
  induction words with
  | nil => exact .pure _
  | cons word words ih => exact .bind (keeps_expandWord word) fun _ => .bind ih fun _ => .pure _

theorem keeps_expandOne (word : Word) : Keeps fd (expandOne h word) := .bind (keeps_expandWord word) fun _ => .pure _

theorem keeps_redirPath (target : Option Word) : Keeps fd (redirPath h target) := by
  cases target with
  | none => exact .pure _
  | some word => exact keeps_expandOne word

/-! ### Redirections -/

theorem openWith_books {path : Text} {mode : OpenMode} {owed : List Nat} {kids : List Int} {s₀ s s' : State} {r : Except Int Nat}
    (hb : Books owed kids s₀ s) (hx : openWith h path mode s = some (r, s')) :
    match r with
    | .error _ => Books owed kids s₀ s'
    | .ok n => Books (n :: owed) kids s₀ s' := by
  unfold openWith at hx
  split at hx
  · cases hx
    exact hb.quiet rfl rfl
  · cases hx
    exact hb.called.opened _

theorem RedirKind.put_input (kind : RedirKind) (fd : Nat) (io : Io) :
    (kind.put fd io).input = io.input ∨ (kind.put fd io).input = fd := by
  cases kind with
  | input => exact .inr rfl
  | _ => exact .inl rfl

/-- What `open_redirs` hands to its caller: the descriptors it has opened, or nothing when it fails. -/
def Opens (io : Io) (s₀ s : State) : Except Text (Io × List Nat) → Prop
  | .error _ => Books [] [] s₀ s
  | .ok (inner, all) => Books all [] s₀ s ∧ (inner.input = io.input ∨ inner.input ∈ all)

theorem openRedirs_books {redirs : List Redir} {result io : Io} {opened : List Nat} {s₀ s s' : State} (hfd : fd ∈ s.held)
    {r : Except Text (Io × List Nat)} (hb : Books opened [] s₀ s) (hin : result.input = io.input ∨ result.input ∈ opened)
    (hx : openRedirs h redirs result opened s = some (r, s')) : Opens io s₀ s' r := by
  induction redirs generalizing result opened s with
  | nil =>
    obtain ⟨rfl, rfl⟩ := pure_some hx
    exact ⟨hb, hin⟩
  | cons redir redirs ih =>
    obtain ⟨path, s₁, h1, hx⟩ := bind_some hx
    have hkeep := keeps_redirPath redir.target hfd h1
    have hfd := hkeep.mem_held (.inr hfd)
    have hb := hb.trans hkeep
    cases hmode : redir.kind.mode with
    | none =>
      rw [hmode] at hx
      exact ih hfd hb (by exact hin) hx
    | some mode =>
      rw [hmode] at hx
      obtain ⟨r', s₂, h2, hx⟩ := bind_some hx
      have hopen := openWith_books hb h2
      cases r' with
      | error e =>
        obtain ⟨_, s₃, h3, hx⟩ := bind_some hx
        cases h3
        obtain ⟨rfl, rfl⟩ := pure_some hx
        exact hopen.refused
      | ok n =>
        have hnew : Books [n] [] s₁ s₂ := openWith_books (.start _) h2
        refine ih (hnew.mem_held (.inr hfd)) (hopen.perm (perm_append_singleton n opened).symm (.refl _)) ?_ hx
        rcases redir.kind.put_input n result with hput | hput
        · rw [hput]
          exact hin.imp_right fun h => mem_append_left _ h
        · rw [hput]
          exact .inr (mem_append_right opened (mem_singleton.mpr rfl))

namespace Opens

variable {io inner : Io} {opened : List Nat} {s s₁ s₂ s₃ : State}

theorem input_held (hopen : Opens io s s₁ (.ok (inner, opened))) (hfd : io.input ∈ s.held) : inner.input ∈ s₁.held := by
  obtain ⟨hb, hinner⟩ := hopen
  rcases hinner with hio | hnew
  · rw [hio]
    exact hb.mem_held (.inr hfd)
  · exact hb.mem_held (.inl hnew)

/-- What has been opened is closed behind what runs with it. -/
theorem closed (hopen : Opens io s s₁ (.ok (inner, opened))) (hbody : Books [] [] s₁ s₂)
    (hx : closeAll opened s₂ = some (u, s₃)) : Books [] [] s s₃ := by
  have hb := hopen.1.trans hbody
  rw [← append_nil opened] at hb
  exact closeAll_books hb hx

end Opens

/-- What follows `open_redirs` keeps what it keeps in either case. -/
theorem keeps_redirs {α : Type} {redirs : List Redir} {io : Io} {f : Except Text (Io × List Nat) → M α}
    (hfail : ∀ e, Keeps fd (f (.error e)))
    (hok : ∀ inner opened s s₁ a s', Opens io s s₁ (.ok (inner, opened)) → fd ∈ s.held →
      f (.ok (inner, opened)) s₁ = some (a, s') → Books [] [] s s') : Keeps fd (openRedirs h redirs io [] >>= f) := by
  intro s a s' hfd hx
  obtain ⟨r, s₁, h1, hx⟩ := bind_some hx
  have hopen := openRedirs_books hfd (.start s) (.inl rfl) h1
  cases r with
  | error e =>
    exact hopen.trans (hfail e (hopen.mem_held (.inr hfd)) hx)
  | ok r => exact hok r.1 r.2 s s₁ a s' hopen hfd hx

/-! ### Programs -/

theorem keeps_spawnExternal (argv : List Text) (io : Io) (foreground : Bool) : Keeps fd (spawnExternal h argv io foreground) := by
  refine .bind .getShell fun sh => .bind (.ask _) fun found => ?_
  cases found with
  | none => exact .pure _
  | some found =>
    refine .bind (.ask _) fun itself => .bind (keeps_spawnWithEnv _ _ _ _ _) fun pid => ?_
    split
    · split
      · exact .bind (.ask _) fun _ => .pure _
      · exact .pure _
    · exact .pure _

theorem keeps_waitForeground (pid : Int) : Keeps fd (waitForeground h pid) :=
  .bind (.ask _) fun _ => .bind .getShell fun _ => .bind (.onlyIf (.write _ _)) fun _ => .pure _

theorem keeps_runBackground (node : Node) (io : Io) : Keeps fd (runBackground h node io) := by
  refine .bind (keeps_spawnWithEnv _ _ _ _ _) fun pid => ?_
  split
  · exact .bind (.errln _ _) fun _ => .pure _
  · exact .bind (.setShell _) fun _ => .bind .getShell fun _ => .bind (.onlyIf (.write _ _)) fun _ => .pure _

/-! ### Pipelines -/

theorem keeps_stageProgram (stage : Node) : Keeps fd (stageProgram h stage) := by
  unfold stageProgram
  split
  · exact .bind (keeps_expandWords _) fun _ => .bind .getShell fun _ => .pure _
  · exact .pure _

theorem keeps_startStage (stage : Node) (io : Io) : Keeps fd (startStage h stage io) := by
  refine .bind (keeps_stageProgram stage) fun program => ?_
  cases program with
  | none => exact .bind (keeps_spawnWithEnv _ _ _ _ _) fun _ => .pure _
  | some program =>
    refine keeps_redirs (fun e => .pure _) fun inner opened s s₁ a s' hopen hfd hx => ?_
    obtain ⟨pid, s₂, h2, hx⟩ := bind_some hx
    obtain ⟨_, s₃, h3, hx⟩ := bind_some hx
    obtain ⟨-, rfl⟩ := pure_some hx
    exact hopen.closed (keeps_spawnExternal _ _ _ (hopen.1.mem_held (.inr hfd)) h2) h3

theorem addStage_books {io : Io} {pid : Except Text Int} {results : List (Option Int)} {owed : List Nat} {s₀ s s' : State}
    (hb : Books owed results.reduceOption s₀ s) (hx : addStage io pid s = some (u, s')) :
    Books owed (results ++ [pid.toOption]).reduceOption s₀ s' := by
  rw [reduceOption_append]
  cases pid with
  | error e =>
    cases hx
    have hnone : [(Except.error e : Except Text Int).toOption].reduceOption = [] := rfl
    rw [hnone, append_nil]
    exact hb.wrote io.err _
  | ok pid =>
    cases hx
    exact (hb.started pid).perm (.refl _) (perm_append_singleton pid _).symm

/-- The descriptor that a pipeline reads from, if it has opened it. -/
def inputOwed (io : Io) (input : Nat) : List Nat := if input ≠ io.input then [input] else []

theorem closeInput_books {io : Io} {input : Nat} {owed : List Nat} {kids : List Int} {s₀ s s' : State}
    (hb : Books (inputOwed io input ++ owed) kids s₀ s) (hx : onlyIf (input ≠ io.input) (close input) s = some (u, s')) :
    Books owed kids s₀ s' := by
  unfold inputOwed at hb
  unfold onlyIf at hx
  split at hx
  next hne =>
    rw [if_pos hne] at hb
    exact close_books hb hx
  next heq =>
    rw [if_neg heq] at hb
    obtain ⟨-, rfl⟩ := pure_some hx
    exact hb

/-- What the stages leave to be done: their children, unless a pipe could not be made. -/
def Leaves (s₀ s : State) : Option (List (Option Int)) → Prop
  | none => Books [] [] s₀ s
  | some results => Books [] results.reduceOption s₀ s

theorem runStages_books {io : Io} {stages : List Node} {index input : Nat} {results : List (Option Int)} {s₀ s s' : State}
    {r : Option (List (Option Int))} (hfd : io.input ∈ s₀.held)
    (hb : Books (if stages.isEmpty then [] else inputOwed io input) results.reduceOption s₀ s)
    (hindex : stages.isEmpty = false → (index = 0 ↔ input = io.input)) (hresults : index = 0 → results = [])
    (hx : runStages h io stages index input results s = some (r, s')) : Leaves s₀ s' r := by
  induction stages generalizing index input results s with
  | nil =>
    obtain ⟨rfl, rfl⟩ := pure_some hx
    exact hb
  | cons stage stages ih =>
    have hb : Books (inputOwed io input) results.reduceOption s₀ s := hb
    have hindex := hindex rfl
    obtain ⟨ends, s₁, h1, hx⟩ := bind_some hx
    cases hlast : stages.isEmpty with
    | true =>
      -- the last stage writes where the pipeline does
      rw [hlast] at h1 hx
      obtain ⟨rfl, rfl⟩ := pure_some h1
      obtain ⟨pid, s₂, h2, hx⟩ := bind_some hx
      obtain ⟨_, s₃, h3, hx⟩ := bind_some hx
      obtain ⟨_, s₄, h4, hx⟩ := bind_some hx
      obtain ⟨_, s₅, h5, hx⟩ := bind_some hx
      obtain ⟨-, rfl⟩ := pure_some h5
      have hb := hb.trans (keeps_startStage stage _ (hb.mem_held (.inr hfd)) h2)
      have hb := addStage_books hb h3
      rw [← append_nil (inputOwed io input)] at hb
      have hb := closeInput_books hb h4
      refine ih ?_ (fun hne => ?_) (fun hz => ?_) hx
      · rw [hlast]
        exact hb
      · rw [hlast] at hne
        cases hne
      · exact absurd hz (Nat.succ_ne_zero index)
    | false =>
      rw [hlast] at h1 hx
      obtain ⟨made, s₂, h2, h1⟩ := bind_some h1
      cases made with
      | error e =>
        obtain ⟨rfl, rfl⟩ := pure_some h1
        obtain ⟨_, s₃, h3, hx⟩ := bind_some hx
        obtain ⟨_, s₄, h4, hx⟩ := bind_some hx
        obtain ⟨rfl, rfl⟩ := pure_some hx
        have hb := pipe_failed hb h2
        cases h3
        cases h4
        refine (hb.wrote io.err _).broken ⟨?_, fun hz => ?_⟩
        · rw [hindex]
          unfold inputOwed
          split
          next hne => simp [hne]
          next heq => simp [not_not.mp heq]
        · rw [hresults hz]
          rfl
      | ok ends =>
        obtain ⟨read, out⟩ := ends
        obtain ⟨rfl, rfl⟩ := pure_some h1
        obtain ⟨hpipe, hnew⟩ := pipe_books hb h2
        have hread : read ≠ io.input := fun heq => hnew (heq ▸ hb.mem_held (.inr hfd))
        obtain ⟨pid, s₃, h3, hx⟩ := bind_some hx
        obtain ⟨_, s₄, h4, hx⟩ := bind_some hx
        obtain ⟨_, s₅, h5, hx⟩ := bind_some hx
        obtain ⟨_, s₆, h6, hx⟩ := bind_some hx
        have hb := hpipe.trans (keeps_startStage stage _ (hpipe.mem_held (.inr hfd)) h3)
        have hb := addStage_books hb h4
        have hswap : ([out, read] ++ inputOwed io input).Perm (inputOwed io input ++ [out, read]) := perm_append_comm
        have hb := closeInput_books (hb.perm hswap (.refl _)) h5
        have hb := close_books hb h6
        refine ih ?_ (fun _ => ?_) (fun hz => ?_) hx
        · have howed : inputOwed io ((some read).getD input) = [read] := if_pos hread
          rw [hlast, if_neg Bool.false_ne_true, howed]
          exact hb
        · exact iff_of_false (Nat.succ_ne_zero index) hread
        · exact absurd hz (Nat.succ_ne_zero index)

theorem waitStages_books {pids kids : List Int} {codes : List Int} {owed : List Nat} {s₀ s s' : State}
    (hb : Books owed (pids ++ kids) s₀ s) (hx : waitStages h pids s = some (codes, s')) :
    Books owed kids s₀ s' ∧ codes.length = pids.length := by
  induction pids generalizing s codes with
  | nil =>
    obtain ⟨rfl, rfl⟩ := pure_some hx
    exact ⟨hb, rfl⟩
  | cons pid pids ih =>
    obtain ⟨code, s₁, h1, hx⟩ := bind_some hx
    obtain ⟨_, s₂, h2, hx⟩ := bind_some hx
    obtain ⟨rest, s₃, h3, hx⟩ := bind_some hx
    obtain ⟨rfl, rfl⟩ := pure_some hx
    have hb := ask_books hb h1
    cases h2
    obtain ⟨hb, hlength⟩ := ih hb.waited h3
    exact ⟨hb, congrArg (· + 1) hlength⟩

/-! ### Nodes -/

variable {rec : Run} (hrec : ∀ node io, Keeps io.input (rec node io))

include hrec

theorem keeps_runPipeline (stages : List Node) (io : Io) : Keeps io.input (runPipeline h rec stages io) := by
  unfold runPipeline
  split
  · exact hrec _ _
  · intro s a s' hfd hx
    obtain ⟨r, s₁, h1, hx⟩ := bind_some hx
    have hb : Leaves s s₁ r := by
      refine runStages_books hfd ?_ (fun _ => iff_of_true rfl rfl) (fun _ => rfl) h1
      unfold inputOwed
      rw [if_neg (not_not.mpr rfl), ite_self]
      exact .start s
    cases r with
    | none =>
      obtain ⟨-, rfl⟩ := pure_some hx
      exact hb
    | some results =>
      obtain ⟨codes, s₂, h2, hx⟩ := bind_some hx
      obtain ⟨_, s₃, h3, hx⟩ := bind_some hx
      obtain ⟨-, rfl⟩ := pure_some hx
      have hb : Books [] (results.reduceOption ++ []) s s₁ := by
        rw [append_nil]
        exact hb
      obtain ⟨hb, hlength⟩ := waitStages_books hb h2
      cases h3
      exact hb.finished ⟨rfl, hlength⟩

theorem keeps_runGuarded (node : Node) (io : Io) : Keeps io.input (runGuarded rec node io) :=
  .bind .getShell fun _ => .bind (.setShell _) fun _ => .bind (hrec node io) fun _ => .bind (.setShell _) fun _ => .pure _

theorem keeps_runSource (src : Text) (io : Io) : Keeps io.input (runSource h rec src io) := by
  unfold runSource
  split
  · exact hrec _ _
  · exact .bind (.errln _ _) fun _ => .bind (.setShell _) fun _ => .pure _

theorem keeps_runScript (path : Text) (args : List Text) (io : Io) : Keeps io.input (runScript h rec path args io) := by
  refine .bind (.ask _) fun src => ?_
  cases src with
  | none => exact .bind (.errln _ _) fun _ => .pure _
  | some src =>
    exact .bind .getShell fun _ => .bind (.setShell _) fun _ => .bind (keeps_runSource hrec src io) fun _ =>
      .bind (.setShell _) fun _ => .pure _

theorem keeps_runBuiltin (argv : List Text) (io : Io) : Keeps io.input (runBuiltin h rec argv io) := by
  unfold runBuiltin
  dsimp only
  split
  · split
    · exact .bind (.errln _ _) fun _ => .pure _
    · exact keeps_runScript hrec _ _ io
  · split
    · exact keeps_runSource hrec _ io
    · intro s a s' _ hx
      cases hx
      exact (Books.start s).quiet rfl rfl

theorem keeps_runCommand (argv : List Text) (inner io : Io) : Keeps inner.input (runCommand h rec argv inner io) := by
  refine .bind .getShell fun sh => ?_
  split
  · exact .bind (.setShell _) fun _ => .bind (hrec _ inner) fun _ => .bind (.setShell _) fun _ => .pure _
  · split
    · exact keeps_runBuiltin hrec argv inner
    · refine .bind (keeps_spawnExternal _ _ _) fun pid => ?_
      cases pid with
      | error e => exact .bind (.errln _ _) fun _ => .pure _
      | ok pid => exact keeps_waitForeground pid

omit hrec in
theorem keeps_assign (assigns : List (Text × Word)) : Keeps fd (assign h assigns) := by
  induction assigns with
  | nil => exact .pure _
  | cons a assigns ih =>
    exact .bind (keeps_expandOne a.2) fun _ => .bind .getShell fun _ => .bind (.setShell _) fun _ => .bind ih fun _ => .pure _

omit hrec in
theorem keeps_assignOnly (assigns : List (Text × Word)) : Keeps fd (assignOnly h assigns) := by
  induction assigns with
  | nil => exact .pure _
  | cons a assigns ih => exact .bind (keeps_expandOne a.2) fun _ => .bind (.setShell _) fun _ => ih

theorem keeps_runSimple (assigns : List (Text × Word)) (words : List Word) (redirs : List Redir) (io : Io) :
    Keeps io.input (runSimple h rec assigns words redirs io) := by
  refine .bind (keeps_expandWords words) fun argv => .bind .getShell fun sh => ?_
  dsimp only
  split
  · refine .bind (keeps_assignOnly assigns) fun _ => ?_
    refine keeps_redirs (fun e => .bind (.errln _ _) fun _ => .pure _) fun inner opened s s₁ a s' hopen hfd hx => ?_
    obtain ⟨_, s₂, h2, hx⟩ := bind_some hx
    obtain ⟨-, rfl⟩ := pure_some hx
    exact hopen.closed (.start _) h2
  · refine .bind (keeps_assign assigns) fun saved => .bind (.onlyIf (.errln _ _)) fun _ => ?_
    refine keeps_redirs (fun e => .bind (.errln _ _) fun _ => .pure _) fun inner opened s s₁ a s' hopen hfd hx => ?_
    obtain ⟨status, s₂, h2, hx⟩ := bind_some hx
    obtain ⟨_, s₃, h3, hx⟩ := bind_some hx
    have hb := hopen.closed (keeps_runCommand hrec _ inner io (hopen.input_held hfd) h2) h3
    exact hb.trans (Keeps.bind (.setShell _) (fun _ => .pure _) (hb.mem_held (.inr hfd)) hx)

theorem keeps_runItem (item : Node) (background : Bool) (io : Io) : Keeps io.input (runItem h rec item background io) := by
  unfold runItem
  split
  · exact keeps_runBackground item io
  · exact hrec item io

theorem keeps_runItems (io : Io) (items : List (Node × Bool)) (status : Int) : Keeps io.input (runItems h rec io items status) := by
  induction items generalizing status with
  | nil => exact .pure _
  | cons item items ih =>
    refine .bind .getShell fun sh => ?_
    split
    · exact .pure _
    · refine .bind (keeps_runItem hrec item.1 item.2 io) fun status => .bind (.setShell _) fun _ => .bind .getShell fun sh => ?_
      split
      · exact .bind (.setShell _) fun _ => .pure _
      · exact ih status

theorem keeps_runBranches (io : Io) (otherwise : Option Node) (branches : List (Node × Node)) :
    Keeps io.input (runBranches rec io otherwise branches) := by
  induction branches with
  | nil =>
    cases otherwise with
    | none => exact .pure _
    | some body => exact hrec body io
  | cons branch branches ih =>
    refine .bind (keeps_runGuarded hrec branch.1 io) fun c => ?_
    split
    · exact hrec _ io
    · exact ih

omit hrec in
theorem keeps_afterBody : Keeps fd afterBody := by
  refine .bind .getShell fun sh => ?_
  cases sh.flow with
  | normal => exact .pure _
  | «break» => exact .bind (.setShell _) fun _ => .pure _
  | «continue» => exact .bind (.setShell _) fun _ => .pure _
  | «return» => exact .pure _

theorem keeps_runLoop (cond body : Node) (isUntil : Bool) (io : Io) (turns : Nat) (result : Int) :
    Keeps io.input (runLoop rec cond body isUntil io turns result) := by
  induction turns generalizing result with
  | zero =>
    intro s a s' _ hx
    cases hx
  | succ turns ih =>
    refine .bind (keeps_runGuarded hrec cond io) fun c => .bind .getShell fun sh => ?_
    split
    · exact .pure _
    · refine .bind (hrec body io) fun result => .bind keeps_afterBody fun again => ?_
      split
      · exact ih result
      · exact .pure _

theorem keeps_runFor (name : Text) (body : Node) (io : Io) (values : List Text) (result : Int) :
    Keeps io.input (runFor rec name body io values result) := by
  induction values generalizing result with
  | nil => exact .pure _
  | cons value values ih =>
    refine .bind (.setShell _) fun _ => .bind (hrec body io) fun result => .bind keeps_afterBody fun again => ?_
    split
    · refine .bind .getShell fun sh => ?_
      split
      · exact .pure _
      · exact ih result
    · exact .pure _

theorem keeps_runGroup (body : Node) (redirs : List Redir) (src : Text) (fuel : Nat) (io : Io) :
    Keeps io.input (runNode h rec fuel (.group body redirs src) io) := by
  refine keeps_redirs (fun e => .bind (.errln _ _) fun _ => .pure _) fun inner opened s s₁ a s' hopen hfd hx => ?_
  obtain ⟨status, s₂, h2, hx⟩ := bind_some hx
  obtain ⟨_, s₃, h3, hx⟩ := bind_some hx
  obtain ⟨-, rfl⟩ := pure_some hx
  exact hopen.closed (hrec body inner (hopen.input_held hfd) h2) h3

theorem keeps_runNode (fuel : Nat) (node : Node) (io : Io) : Keeps io.input (runNode h rec fuel node io) := by
  cases node with
  | list items => exact .bind .getShell fun sh => keeps_runItems hrec io items sh.status
  | and a b =>
    refine .bind (keeps_runGuarded hrec a io) fun first => .bind .getShell fun sh => ?_
    split
    · exact hrec b io
    · exact .pure _
  | or a b =>
    refine .bind (keeps_runGuarded hrec a io) fun first => .bind .getShell fun sh => ?_
    split
    · exact hrec b io
    · exact .pure _
  | pipeline stages negate => exact .bind (keeps_runPipeline hrec stages io) fun _ => .pure _
  | ifThen branches otherwise src => exact keeps_runBranches hrec io otherwise branches
  | loop cond body isUntil src => exact keeps_runLoop hrec cond body isUntil io fuel 0
  | forIn name items body src => exact .bind (keeps_expandWords items) fun values => keeps_runFor hrec name body io values 0
  | group body redirs src => exact keeps_runGroup hrec body redirs src fuel io
  | function name body => exact .bind (.setShell _) fun _ => .pure _
  | simple assigns words redirs src => exact keeps_runSimple hrec assigns words redirs io

end

theorem keeps_run (h : Host) (fuel : Nat) (node : Node) (io : Io) : Keeps io.input (run h fuel node io) := by
  induction fuel generalizing node io with
  | zero =>
    intro s a s' _ hx
    cases hx
  | succ fuel ih =>
    refine .bind .getShell fun sh => ?_
    split
    · exact .pure _
    · exact .bind (keeps_runNode ih fuel node io) fun _ => .bind (.setShell _) fun _ => .pure _

/-! ### When the account is even -/

theorem sound_iff {m : Mark} (hright : m.Right) : m.Sound ↔ m.lost = [] ∧ m.StatusRight := by
  cases m with
  | refused before => exact ⟨fun hs => ⟨hs, trivial⟩, fun hs => hs.1⟩
  | broken index left pids => exact ⟨fun hs => ⟨hright.1.mp hs, trivial⟩, fun hs => hright.1.mpr hs.1⟩
  | finished stages codes status =>
    obtain ⟨rfl, hlength⟩ := hright
    rcases hlast : stages.getLast? with _ | _ | pid
    · simp [Sound, StatusRight, lost, hlast]
    · -- the last stage has no child: the status is that of the last child
      simp only [Sound, StatusRight, lost, hlast, pipelineStatus, true_and, true_imp_iff]
      cases codes.getLast? with
      | none => simp
      | some code => simp
    · have hmem : pid ∈ stages.reduceOption := reduceOption_mem_iff.mpr (mem_of_getLast? hlast)
      have hpos : 0 < codes.length := hlength ▸ length_pos_of_mem hmem
      have hsome : codes.getLast? = some (codes.getLast (length_pos_iff.mp hpos)) := getLast?_eq_some_getLast _
      simp [Sound, StatusRight, lost, hlast, pipelineStatus, hsome]
  | _ => exact ⟨fun _ => ⟨rfl, trivial⟩, fun _ => trivial⟩

theorem orphans_of_sound {m : Mark} (hright : m.Right) (hs : m.Sound) : m.orphans = [] := by
  cases m with
  | broken index left pids => exact hright.2 hs
  | _ => rfl

theorem Account.balanced_iff {s₀ s : State} {l : List Mark} (ha : Account [] [] s₀ l s) (hnil : s₀.history = []) :
    Balanced s₀.held s ↔ ∀ m ∈ s.history, m.Sound := by
  have hl : s.history = l := by rw [ha.history, hnil, append_nil]
  rw [hl]
  constructor
  · intro hb m hm
    refine (sound_iff (ha.right m hm)).mpr ⟨?_, hb.status m (hl ▸ hm)⟩
    have hlost : l.flatMap Mark.lost = [] := by
      refine eq_nil_iff_forall_not_mem.mpr fun fd hfd => ?_
      have hcount := ha.held fd
      have hpos := count_pos_iff.mpr hfd
      rw [hb.held.count_eq, count_nil] at hcount
      omega
    exact flatMap_eq_nil_iff.mp hlost m hm
  · intro hsound
    have hlost : l.flatMap Mark.lost = [] :=
      flatMap_eq_nil_iff.mpr fun m hm => ((sound_iff (ha.right m hm)).mp (hsound m hm)).1
    have horphans : l.flatMap Mark.orphans = [] :=
      flatMap_eq_nil_iff.mpr fun m hm => orphans_of_sound (ha.right m hm) (hsound m hm)
    refine ⟨perm_iff_count.mpr fun fd => ?_, perm_iff_count.mpr fun fd => ?_, perm_iff_count.mpr fun pid => ?_,
      fun m hm => ((sound_iff (ha.right m (hl ▸ hm))).mp (hsound m (hl ▸ hm))).2⟩
    · have hcount := ha.held fd
      rw [hlost, count_nil] at hcount
      omega
    · have hcount := ha.opened fd
      rw [hlost, count_nil] at hcount
      rw [hl]
      omega
    · have hcount := ha.started pid
      rw [horphans, count_nil] at hcount
      rw [hl]
      omega

/-- A run that returns leaves the descriptors, the children and the statuses of pipelines as they should be
exactly if what it has met is sound. -/
theorem run_balanced_iff (h : Host) (fuel : Nat) (node : Node) (io : Io) (s s' : State) (status : Int)
    (hio : io.input ∈ s.held) (hrun : run h fuel node io { s with history := [] } = some (status, s')) :
    Balanced s.held s' ↔ ∀ m ∈ s'.history, m.Sound := by
  have hkeeps : Books [] [] { s with history := [] } s' := keeps_run h fuel node io (by exact hio) hrun
  obtain ⟨l, ha⟩ := hkeeps
  exact ha.balanced_iff rfl

/-! ### Runs that fail -/

/-- A kernel that gives out the number above all that are held, with its answers to `open`, `pipe` and
`spawn`; every child exits with 0. -/
def kernel (openWith : Nat → Option Int) (pipe : Nat → Option Int) (spawn : Nat → Int) : Host where
  pick _ held := held.foldr max 0 + 1
  fresh _ held hmem := by
    have hle : ∀ fd ∈ held, fd ≤ held.foldr max 0 := by
      clear hmem
      induction held with
      | nil => exact fun _ h => absurd h List.not_mem_nil
      | cons a held ih =>
        intro fd hfd
        rcases List.mem_cons.mp hfd with rfl | hfd
        · exact le_max_left _ _
        · exact (ih fd hfd).trans (le_max_right _ _)
    have := hle _ hmem
    omega
  openWith call _ _ := openWith call
  pipe := pipe
  spawn call _ := spawn call
  waitpid _ _ := 0
  readAll _ _ := []
  readToString _ _ := none
  getcwd _ := ['/']
  getpid _ := 1
  getuid _ := 0
  geteuid _ := 0
  randomSalt _ := 0
  homeOf _ := none
  glob _ _ := []
  resolve _ _ _ := none
  starts _ _ := false
  binaryKind _ _ := none
  errorName e := text (toString e)
  parse _ := .error []
  isBuiltin _ := false
  builtin _ _ _ sh := (0, sh)

def shell0 : Shell where
  vars _ := none
  exported := []
  inScope := []
  args := [text "hsh"]
  status := 0
  aliases _ := none
  functions _ := none
  interactive := false
  exit := none
  errexit := false
  xtrace := false
  flow := .normal
  lastBackground := 0
  jobs := []

def state0 : State := ⟨shell0, [2, 1, 0], 0, []⟩

def std : Io := ⟨0, 1, 2⟩

/-- `<a <b` -/
def twoInputs : Node :=
  .simple [] [] [⟨.input, some ⟨[.lit ['a'] false]⟩⟩, ⟨.input, some ⟨[.lit ['b'] false]⟩⟩] (text "<a <b")

/-- A stage that a child shell runs. -/
def stage (src : Text) : Node := .group (.list []) [] src

/-- `(a) | (b) | (c)` -/
def threeStages : Node := .pipeline [stage (text "(a)"), stage (text "(b)"), stage (text "(c)")] false

/-- The second `open` fails, the second `pipe` fails, the last stage cannot be started. -/
theorem unbalanced :
    (∃ s', run (kernel (fun call => if call = 1 then some (-2) else none) (fun _ => none) fun _ => 7) 1 twoInputs std state0 =
      some (1, s') ∧ ¬ Balanced state0.held s') ∧
    (∃ s', run (kernel (fun _ => none) (fun call => if call = 3 then some (-24) else none) fun _ => 7) 1 threeStages std state0 =
      some (1, s') ∧ ¬ Balanced state0.held s') ∧
    ∃ s', run (kernel (fun _ => none) (fun _ => none) fun call => if call = 7 then -12 else 7) 1 threeStages std state0 =
      some (0, s') ∧ ¬ Balanced state0.held s' := by
  refine ⟨⟨_, rfl, fun hb => ?_⟩, ⟨_, rfl, fun hb => ?_⟩, ⟨_, rfl, fun hb => ?_⟩⟩
  · have hlength : (4 : Nat) = 3 := hb.held.length_eq
    exact absurd hlength (by decide)
  · have hlength : (4 : Nat) = 3 := hb.held.length_eq
    exact absurd hlength (by decide)
  · have hstatus : (0 : Int) ≠ 0 := hb.status (.finished [some 7, some 7, none] [0, 0] 0) (.head _)
    exact hstatus rfl

/-- A pipeline of three stages for which every call succeeds. -/
theorem run_balanced_iff_started :
    ∃ s', run (kernel (fun _ => none) (fun _ => none) fun _ => 7) 1 threeStages std { state0 with history := [] } = some (0, s') ∧
      (Balanced state0.held s' ↔ ∀ m ∈ s'.history, m.Sound) :=
  ⟨_, rfl, run_balanced_iff (kernel (fun _ => none) (fun _ => none) fun _ => 7) 1 threeStages std state0 _ 0 (by decide) rfl⟩

end HamixOS.Hsh
