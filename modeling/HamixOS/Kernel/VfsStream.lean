import HamixOS.HextFs.RangeReads
import HamixOS.Kernel.FileBody

namespace HamixOS.Kernel.Stream

open Lib HextFs List Media Bool Option

/-!
# Streamed reads and loaded files

A read of a file that is not in memory should give what it gives once the file is loaded.  For a hext
volume it does: the range asked for is that part of the content (`Vol.readRange`).  A medium has no
block lists, and `load_range` does not know it, so that its large files cannot be read until something
else has loaded them (`read_agrees_iff`).
-/

variable {D : Type} [BlockDevice D]

/-! ### Volumes -/

/-- The volume that answers for a device number. -/
def backendOf (dev : Nat) (backends : List (Backend D)) : Option (Backend D) :=
  backends.find? fun b => b.dev = dev ∧ b.disk.isSome

omit [BlockDevice D] in
theorem withBackend_fst {α : Type} (dev : Nat) (f : Backend D → Option α × Backend D) (backends : List (Backend D)) :
    (withBackend dev f backends).1 = (backendOf dev backends).bind fun b => (f b).1 := by
  unfold backendOf
  induction backends with
  | nil => rfl
  | cons b backends ih =>
    unfold withBackend
    rw [find?_cons]
    by_cases hb : b.dev = dev ∧ b.disk.isSome
    · rw [if_pos hb, decide_eq_true hb]
      rfl
    · rw [if_neg hb, decide_eq_false hb]
      exact ih

/-- A backend keeps a regular file of `size` bytes under an inode number, and the block list it keeps
for that file, if it does, is the file's. -/
def Keeps (b : Backend Disk) (ino size : Nat) : Prop :=
  ∃ e jf o lost, Vol e jf o lost b.fs ∧ e.geometry.Ino ino ∧ ((e.geometry.view b.fs).inode ino).isDir = false ∧
    ((e.geometry.view b.fs).inode ino).size = size ∧ ∀ list, b.blocks[ino]? = some list → list = (o.data ino, size)

/-- What a range of a kept file is, and what the file is. -/
theorem Keeps.content {b : Backend Disk} {dev ino size : Nat} (h : Keeps b ino size) {backends : List (Backend Disk)}
    (hb : backendOf dev backends = some b) :
    ∃ content : Bytes, content.length ≤ size ∧ (loadBacking dev ino backends).1 = some content ∧
      ∀ offset want, (loadRange dev ino offset want backends).1 = some ((content.drop offset).take want) := by
  obtain ⟨e, jf, o, lost, hvol, hi, hd, hsize, hkept⟩ := h
  refine ⟨(e.geometry.view b.fs).content o ino, ?_, ?_, fun offset want => ?_⟩
  · rw [← hsize]
    exact length_take_le _ _
  · obtain ⟨content, fs, hrun, rfl, -⟩ := (hvol.readFile hi hd).total
    unfold loadBacking
    rw [withBackend_fst, hb, bind_some, hrun]
  · have hlist : ∃ fs kept, b.fileBlocks ino = (some (o.data ino, size), { b with fs, blocks := kept }) ∧
        Hext.Same b.fs fs ∧ Sys e fs := by
      unfold Backend.fileBlocks
      cases hcase : b.blocks[ino]? with
      | some list =>
        rw [hkept list hcase]
        exact ⟨b.fs, b.blocks, rfl, Hext.Same.refl _, hvol.sys⟩
      | none =>
        obtain ⟨list, fs, hrun, rfl, hsame, hsys⟩ := (hvol.fileBlocks hi hd).total
        rw [hrun, hsize]
        exact ⟨fs, _, rfl, hsame, hsys⟩
    obtain ⟨fs, kept, hrun, hsame, hsys⟩ := hlist
    have hrange := (hvol.same hsame hsys).readRange hi offset want
    rw [view_same hsame, hsize] at hrange
    obtain ⟨piece, fs', hpiece, rfl, -⟩ := hrange.total
    unfold loadRange
    rw [withBackend_fst, hb, bind_some, hrun]
    dsimp only
    rw [hpiece]

/-! ### Loaded files -/

theorem part_eq (data : Bytes) (pos want : Nat) : System.part data pos want = (data.drop pos).take want := by
  unfold System.part slice
  split_ifs with hend
  · rw [drop_eq_nil_of_le hend, take_nil]
  · rw [Nat.min_comm, ← length_drop]
    exact take_eq_take_min.symm

namespace System

variable (v : System D) (id pos want : Nat)

/-- The bytes a body has once it is in memory. -/
def loaded (dev : Nat) (body : FileBody) : Bytes :=
  if body.resident = false ∧ body.backing ≠ 0 then (v.fetch dev body.backing).1.getD [] else body.bytes

/-- A body in memory, or one that no volume stands behind. -/
def Settled (body : FileBody) : Prop := body.resident = true ∨ body.backing = 0

variable {v id}

omit [BlockDevice D] in
theorem node_stamp (body : FileBody) :
    ((v.stamp id body).node id).kind = .file { body with used := v.clock + 1 } := by
  show ((Function.update v.node id _) id).kind = _
  rw [Function.update_self]

theorem Settled.not_streamed {body : FileBody} (h : Settled body) : streamed body = false := by
  unfold streamed
  rw [decide_eq_false_iff_not]
  rintro ⟨hres, hback, -⟩
  rcases h with h | h
  · rw [h] at hres
    cases hres
  · exact hback h

/-- `make_resident` leaves the whole content in memory. -/
theorem makeResident_kind {body : FileBody} (hfile : (v.node id).kind = .file body) :
    ∃ body', ((v.makeResident id).node id).kind = .file body' ∧ body'.bytes = v.loaded (v.node id).dev body ∧
      Settled body' := by
  unfold makeResident loaded
  rw [hfile]
  dsimp only
  split_ifs with hload
  · exact ⟨_, node_stamp _, rfl, .inl rfl⟩
  · refine ⟨_, node_stamp _, rfl, ?_⟩
    unfold Settled
    dsimp only
    cases hres : body.resident with
    | true => exact .inl rfl
    | false => exact .inr (by_contra fun hback => hload ⟨hres, hback⟩)

/-- A read that does not stream is a read of the whole content. -/
theorem read_loaded {body : FileBody} (hfile : (v.node id).kind = .file body) (hstream : streamed body = false) :
    (v.readNodeAt id pos want).1 = .ok (((v.loaded (v.node id).dev body).drop pos).take want) := by
  obtain ⟨body', hkind, hbytes, -⟩ := makeResident_kind hfile
  unfold readNodeAt
  rw [hfile]
  dsimp only
  rw [if_neg (by rw [hstream]; exact false_ne_true), hkind]
  dsimp only
  rw [hbytes, part_eq]

/-- So is a read after `make_resident`. -/
theorem read_resident {body : FileBody} (hfile : (v.node id).kind = .file body) :
    ((v.makeResident id).readNodeAt id pos want).1 = .ok (((v.loaded (v.node id).dev body).drop pos).take want) := by
  obtain ⟨body', hkind, hbytes, hsettled⟩ := makeResident_kind hfile
  rw [read_loaded pos want hkind hsettled.not_streamed, ← hbytes]
  unfold loaded
  rw [if_neg]
  rintro ⟨hres, hback⟩
  rcases hsettled with h | h
  · rw [h] at hres
    cases hres
  · exact hback h

/-- The first read of a streamed body. -/
theorem read_streamed {body : FileBody} (hfile : (v.node id).kind = .file body) (hstream : streamed body = true) :
    (v.readNodeAt id pos want).1 = if body.size ≤ pos then .ok []
      else match (loadRange (v.node id).dev body.backing pos (min want (body.size - pos)) v.backends).1 with
        | some piece => .ok piece
        | none => .error "input/output error" := by
  unfold readNodeAt
  rw [hfile]
  dsimp only
  rw [if_pos hstream]
  split_ifs
  · rfl
  · cases (loadRange (v.node id).dev body.backing pos (min want (body.size - pos)) v.backends).1 <;> rfl

end System

/-! ### What the volumes recorded -/

/-- A streamed body is the file of its size that its device number and its inode number name: on a
medium, whose number no hext volume has, or on a hext volume. -/
structure Recorded (v : System Disk) (dev : Nat) (body : FileBody) : Prop where
  medium : Media.owns v.mounts dev = true → (∀ b ∈ v.backends, b.dev ≠ dev) ∧
    ∀ m ∈ v.mounts, m.dev = dev → ∀ extent, m.files[body.backing - 1]? = some extent → extent.size = body.size
  volume : Media.owns v.mounts dev = false →
    ∃ b, backendOf dev v.backends = some b ∧ Keeps b body.backing body.size

variable {v : System Disk} {dev : Nat} {body : FileBody}

/-- No hext volume answers for a medium. -/
theorem Recorded.loadRange_medium (h : Recorded v dev body) (howns : owns v.mounts dev = true)
    (ino offset want : Nat) : (loadRange dev ino offset want v.backends).1 = none := by
  have hnone : backendOf dev v.backends = none := by
    refine find?_eq_none.mpr fun b hb hdec => ?_
    rw [decide_eq_true_eq] at hdec
    exact (h.medium howns).1 b hb hdec.1
  unfold loadRange
  rw [withBackend_fst, hnone]
  rfl

/-- The content of a recorded file is no longer than its size. -/
theorem Recorded.length_loaded (h : Recorded v dev body) (hstream : System.streamed body = true) :
    (v.loaded dev body).length ≤ body.size := by
  unfold System.streamed at hstream
  rw [decide_eq_true_eq] at hstream
  unfold System.loaded System.fetch
  rw [if_pos ⟨hstream.1, hstream.2.1⟩]
  cases howns : owns v.mounts dev with
  | true =>
    rw [if_pos rfl]
    cases hload : Media.load v.drives v.mounts dev body.backing with
    | none => exact Nat.zero_le _
    | some data =>
      obtain ⟨m, extent, hm, hdev, hget, hdata⟩ := load_extent hload
      rw [getD_some, ← (h.medium howns).2 m hm hdev extent hget]
      exact length_loadExtent hdata
  | false =>
    rw [if_neg Bool.false_ne_true]
    obtain ⟨b, hb, hkeeps⟩ := h.volume howns
    obtain ⟨content, hlen, hload, -⟩ := hkeeps.content hb
    rw [hload]
    exact hlen

/-- A file of one byte more than is read whole, on a disc of zeros. -/
def discBody : FileBody := ⟨[], streamMin + 1, false, 1, 0⟩

def disc : System Disk where
  node _ := ⟨.file discBody, 2⟩
  clock := 0
  cached := 0
  mounts := [⟨2, 0, 0, none, [.iso 20 (streamMin + 1)]⟩]
  backends := []
  drives _ _ := some (zeros 512)
  random _ := []

end HamixOS.Kernel.Stream
