import HamixOS.HextFs.Tree

namespace HamixOS.HextFs

open Lib Hext Except

/-!
# What reading a volume returns

On a good volume reading a file is a function of the view and of the owners, `View.readFile`.
`Vol.reads_readFile` says that the code computes it and changes nothing but its clean copies.
-/

/-- A volume with its invariants. -/
structure Vol (e : Epoch) (jf : JournalFile) (o : Owners) (lost : Nat → Prop) (s : Hext Disk) :
    Prop where
  sys : Sys e s
  good : Good e.geometry jf (e.geometry.view s) o lost
  journal : e.journal = jf.data

/-- Running `m` returns `r` and changes nothing. -/
def Reads {α : Type} (e : Epoch) (s : Hext Disk) (m : HextM Disk α) (r : Except Error α) : Prop :=
  Post m s (fun a s' => r = .ok a ∧ Same s s' ∧ Sys e s')
    (fun x s' => r = .error x ∧ Same s s' ∧ Sys e s')

namespace View

variable (v : View) (G : Geometry) (o : Owners)

/-- The record of an inode. -/
def stat (i : Nat) : Except Error Inode := if G.Ino i then .ok (v.inode i) else .error .corrupt

/-- The content of an inode. -/
def content (i : Nat) : Bytes := (((o.data i).map v.data).flatten).take (v.inode i).size

/-- The content of a file. -/
def readFile (i : Nat) : Except Error Bytes := do
  let n ← v.stat G i
  if n.isDir then .error .isDir else .ok (v.content o i)

end View

namespace Reads

variable {α β : Type} {e : Epoch} {s : Hext Disk} {m : HextM Disk α} {f : α → HextM Disk β}
  {r : Except Error α} {g : α → Except Error β}

theorem throw (h : Sys e s) (x : Error) : Reads e s (MonadExcept.throw x : HextM Disk α) (.error x) :=
  Post.throw ⟨rfl, Same.refl s, h⟩

/-- One reading step after another. -/
theorem bind (h : Reads e s m r) (hf : ∀ a s', r = .ok a → Same s s' → Sys e s' → Reads e s' (f a) (g a)) :
    Reads e s (m >>= f) (r >>= g) := by
  refine Post.bind h ?_ ?_
  · rintro x s' ⟨rfl, hs, hsys⟩
    exact ⟨rfl, hs, hsys⟩
  · rintro a s' ⟨rfl, hs, hsys⟩
    refine (hf a s' rfl hs hsys).mono ?_ ?_
    · rintro b s'' ⟨hb, hs', hsys'⟩
      exact ⟨hb, hs.trans hs', hsys'⟩
    · rintro x s'' ⟨hx, hs', hsys'⟩
      exact ⟨hx, hs.trans hs', hsys'⟩

/-- A reading step that cannot fail. -/
theorem of_post {a : α} (h : Post m s (fun b s' => b = a ∧ Same s s' ∧ Sys e s') (fun _ _ => False)) :
    Reads e s m (.ok a) :=
  h.mono (fun _ _ ⟨hb, hs, hsys⟩ => ⟨by rw [hb], hs, hsys⟩) (fun _ _ hf => hf.elim)

/-- What reading returns when it returns. -/
theorem ok_of (h : Reads e s m r) {a : α} (hr : r = .ok a) :
    Post m s (fun b s' => b = a ∧ Same s s' ∧ Sys e s') (fun _ _ => False) := by
  subst hr
  refine h.mono ?_ ?_
  · rintro b s' ⟨hb, hs, hsys⟩
    exact ⟨(ok.inj hb).symm, hs, hsys⟩
  · rintro x s' ⟨hx, -⟩
    cases hx

end Reads

namespace Vol

variable {e : Epoch} {jf : JournalFile} {o : Owners} {lost : Nat → Prop} {s s' : Hext Disk}

section

variable (h : Vol e jf o lost s)

include h

/-- Clean copies do not matter. -/
theorem same (hs : Same s s') (hsys : Sys e s') : Vol e jf o lost s' := by
  refine ⟨hsys, ?_, h.journal⟩
  rw [view_same hs]
  exact h.good

theorem room_data {i : Nat} (hi : e.geometry.Ino i) :
    ∀ b ∈ o.data i, e.geometry.Room b ∧ (e.geometry.view s).used b = true :=
  fun b hb => h.good.own.room i hi b (Owners.mem_all_data hb)

theorem room_ptrs {i : Nat} (hi : e.geometry.Ino i) :
    ∀ b ∈ o.ptrs i, e.geometry.Room b ∧ (e.geometry.view s).used b = true :=
  fun b hb => h.good.own.room i hi b (Owners.mem_all_ptrs hb)

end

theorem reads_inode (h : Sys e s) (i : Nat) :
    Reads e s (Hext.readInode i) ((e.geometry.view s).stat e.geometry i) := by
  by_cases hi : e.geometry.Ino i
  · rw [View.stat, if_pos hi]
    exact Reads.of_post (h.readInode hi)
  · rw [View.stat, if_neg hi]
    have hloc : s.inodeLocation i = .error .corrupt := by
      rw [Hext.inodeLocation, if_pos]
      rw [h.lays.inodes]
      rw [Geometry.Ino] at hi
      omega
    refine Post.get ?_
    rw [hloc]
    exact Post.throw ⟨rfl, Same.refl s, h⟩

/-- The block list of an inode. -/
theorem reads_blockList (h : Vol e jf o lost s) {i : Nat} (hi : e.geometry.Ino i) (withMeta : Bool) :
    Reads e s (Hext.blockList ((e.geometry.view s).inode i) withMeta)
      (.ok (if withMeta then o.all i else o.data i)) := by
  exact Reads.of_post (h.sys.blockList withMeta (h.good.own.rep i hi)
    (fun b hb => (h.room_data hi b hb).1) (fun b hb => (h.room_ptrs hi b hb).1))

theorem reads_readFile (h : Vol e jf o lost s) (i : Nat) :
    Reads e s (Hext.readFile i) ((e.geometry.view s).readFile e.geometry o i) := by
  refine (reads_inode h.sys i).bind ?_
  intro n s1 hn hs1 hsys1
  by_cases hd : n.isDir
  · rw [if_pos hd, if_pos hd]
    exact Reads.throw hsys1 _
  · rw [if_neg hd, if_neg hd]
    have hi : e.geometry.Ino i := by
      by_contra hi
      rw [View.stat, if_neg hi] at hn
      cases hn
    rw [View.stat, if_pos hi, ok.injEq] at hn
    subst hn
    have hrep := h.good.own.rep i hi
    rw [← view_same hs1] at hrep ⊢
    exact Reads.of_post (hsys1.readInodeData hrep (fun b hb => (h.room_data hi b hb).1)
      (fun b hb => (h.room_ptrs hi b hb).1))

end Vol

end HamixOS.HextFs
