import HamixOS.HextFs.Range
import HamixOS.HextFs.Read

namespace HamixOS.HextFs

open Lib List Nat

/-!
# A range of a file is a part of its content

`Vol.readRange` says that a range read through the block list of a file is what cutting it out of the
whole content gives, staged blocks and the end of the file included.
-/

/-! ### Blocks of one length -/

variable {l : List Bytes}

/-- Some of the blocks of a list are a prefix of its bytes. -/
theorem flatten_take {bs : Nat} (h : ∀ b ∈ l, b.length = bs) (n : Nat) :
    (l.take n).flatten = l.flatten.take (n * bs) := by
  induction l generalizing n with
  | nil => rw [take_nil, flatten_nil, take_nil]
  | cons b l ih =>
    cases n with
    | zero => rw [take_zero, zero_mul, take_zero, flatten_nil]
    | succ n =>
      have hb := h b mem_cons_self
      rw [take_succ_cons, flatten_cons, flatten_cons, ih (fun c hc => h c (mem_cons_of_mem _ hc)),
        succ_mul, add_comm, ← hb, take_length_add_append]

theorem flatten_drop {bs : Nat} (h : ∀ b ∈ l, b.length = bs) (n : Nat) :
    (l.drop n).flatten = l.flatten.drop (n * bs) := by
  have hsplit : l.flatten.take (n * bs) ++ (l.drop n).flatten = l.flatten := by
    rw [← flatten_take h, ← flatten_append, take_append_drop]
  exact append_cancel_left (hsplit.trans (take_append_drop _ _).symm)

theorem length_flatten {bs : Nat} (h : ∀ b ∈ l, b.length = bs) : l.flatten.length = l.length * bs := by
  induction l with
  | nil => rw [flatten_nil, length_nil, length_nil, zero_mul]
  | cons b l ih =>
    rw [flatten_cons, length_append, h b mem_cons_self, ih fun c hc => h c (mem_cons_of_mem _ hc),
      length_cons, succ_mul, add_comm]

namespace Hext

variable {D : Type} [BlockDevice D]

/-- Without a block 0 in it, a list of blocks is read as for a whole file. -/
theorem rangeRuns_eq (fuel : Nat) {blocks : List Nat} (h : ∀ b ∈ blocks, b ≠ 0) :
    (rangeRuns fuel blocks : HextM D Bytes) = readRuns fuel blocks := by
  induction fuel generalizing blocks with
  | zero => rfl
  | succ fuel ih =>
    cases blocks with
    | nil => rfl
    | cons block rest =>
      have hblock := h block mem_cons_self
      have hrest : ∀ n, ∀ b ∈ rest.drop n, b ≠ 0 := fun n b hb => h b (mem_cons_of_mem _ (mem_of_mem_drop hb))
      unfold rangeRuns readRuns
      congr 1
      funext s
      dsimp only
      cases s.cache[block]? with
      | some cached =>
        dsimp only
        rw [ih fun b hb => h b (mem_cons_of_mem _ hb)]
      | none =>
        dsimp only
        rw [if_neg hblock, ih (hrest _)]

end Hext

namespace Sys

variable {e : Epoch} {s : Hext Disk}

/-- What reading a range of a list of blocks returns. -/
theorem readRange (h : Sys e s) {blocks : List Nat} (hroom : ∀ b ∈ blocks, e.geometry.Room b)
    (hpos : ∀ b ∈ blocks, b ≠ 0) (size offset want : Nat) :
    Post (Hext.readRange blocks size offset want) s
      (fun out s' => out = ((((blocks.map (e.geometry.view s).data).flatten).take size).drop offset).take want ∧ s' = s)
      (fun _ _ => False) := by
  have hlen : ∀ d ∈ blocks.map (e.geometry.view s).data, d.length = s.bs := by
    intro d hd
    obtain ⟨b, hb, rfl⟩ := mem_map.mp hd
    rw [view_data _ _ (hroom b hb)]
    refine h.tame.length_blk ?_
    rw [h.lays.blocks]
    exact (hroom b hb).1.2
  generalize hF : (blocks.map (e.geometry.view s).data).flatten = F
  have hFlen : F.length = blocks.length * s.bs := by rw [← hF, length_flatten hlen, length_map]
  have hbs := h.tame.bs_pos
  rw [drop_take, take_take]
  unfold Hext.readRange
  split_ifs with hend
  · refine Post.pure ⟨?_, rfl⟩
    rw [Nat.sub_eq_zero_of_le hend, Nat.min_zero, take_zero]
  refine Post.get ?_
  generalize hl : min want (size - offset) = len
  have hcover := Hext.le_divCeil_mul (n := offset + len) hbs
  have hfirst := div_mul_le_self offset s.bs
  dsimp only
  split_ifs with hout
  · refine Post.pure ⟨?_, rfl⟩
    have hmul := mul_le_mul_right s.bs hout
    rcases le_total (divCeil (offset + len) s.bs) blocks.length with hle | hle
    · rw [min_eq_left hle] at hmul
      rw [show len = 0 by omega, take_zero]
    · rw [min_eq_right hle] at hmul
      rw [drop_eq_nil_of_le (by omega), take_nil]
  · rw [Hext.rangeRuns_eq _ fun b hb => hpos b (mem_of_mem_take (mem_of_mem_drop hb))]
    refine Post.seq (h.readRuns (by rw [length_drop, length_take]; omega)
      fun b hb => hroom b (mem_of_mem_take (mem_of_mem_drop hb))) ?_
    rintro scratch s' ⟨rfl, rfl⟩
    refine Post.pure ⟨?_, rfl⟩
    rw [map_drop, map_take, flatten_drop fun d hd => hlen d (mem_of_mem_take hd), flatten_take hlen, hF,
      drop_drop, Nat.add_sub_cancel' hfirst, drop_take, take_take]
    rcases le_total (divCeil (offset + len) s'.bs) blocks.length with hle | hle
    · rw [min_eq_left hle, min_eq_left (by omega)]
    · rw [min_eq_right hle, ← hFlen, ← length_drop]
      exact take_eq_take_min.symm

end Sys

namespace Vol

variable {e : Epoch} {jf : JournalFile} {o : Owners} {lost : Nat → Prop} {s : Hext Disk}

section

variable (h : Vol e jf o lost s)

include h

/-- The block list of a file. -/
theorem fileBlocks {i : Nat} (hi : e.geometry.Ino i)
    (hd : ((e.geometry.view s).inode i).isDir = false) :
    Post (Hext.fileBlocks i) s
      (fun r s' => r = (o.data i, ((e.geometry.view s).inode i).size) ∧ Hext.Same s s' ∧ Sys e s') (fun _ _ => False) := by
  refine Post.seq (h.sys.readInode hi) ?_
  rintro n s₁ ⟨rfl, hs₁, hsys₁⟩
  rw [if_neg (by rw [hd]; exact Bool.false_ne_true)]
  have hlist := (h.same hs₁ hsys₁).reads_blockList hi false
  rw [view_same hs₁] at hlist
  refine Post.seq (hlist.ok_of rfl) ?_
  rintro blocks s₂ ⟨rfl, hs₂, hsys₂⟩
  exact Post.pure ⟨rfl, hs₁.trans hs₂, hsys₂⟩

/-- The content of a file. -/
theorem readFile {i : Nat} (hi : e.geometry.Ino i)
    (hd : ((e.geometry.view s).inode i).isDir = false) :
    Post (Hext.readFile i) s
      (fun content s' => content = (e.geometry.view s).content o i ∧ Hext.Same s s' ∧ Sys e s') (fun _ _ => False) := by
  refine (h.reads_readFile i).ok_of ?_
  unfold View.readFile View.stat
  rw [if_pos hi]
  show (if ((e.geometry.view s).inode i).isDir = true then _ else _) = _
  rw [if_neg (by rw [hd]; exact Bool.false_ne_true)]

/-- A range of a file, read through its block list, is that part of its content. -/
theorem readRange {i : Nat} (hi : e.geometry.Ino i) (offset want : Nat) :
    Post (Hext.readRange (o.data i) ((e.geometry.view s).inode i).size offset want) s
      (fun out s' => out = (((e.geometry.view s).content o i).drop offset).take want ∧ s' = s) (fun _ _ => False) :=
  h.sys.readRange (fun b hb => (h.room_data hi b hb).1) (h.good.own.rep i hi).nonzero _ offset want

end

end Vol

end HamixOS.HextFs
