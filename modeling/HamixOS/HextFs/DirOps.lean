import HamixOS.HextFs.Read

namespace HamixOS.HextFs

open Lib Hext List Inode

/-!
# Directory blocks

* `dotBlock_spec`, `entryBlock_spec` — what the first block of a directory and a new block list;
* `Geometry.fits_inode`, `Geometry.length_le` — records and block lists fit their fields.
-/

/-- The records of a view fit their fields. -/
theorem Geometry.fits_inode (G : Geometry) (s : Hext Disk) (i : Nat) : ((G.view s).inode i).Fits := by
  show (if G.Ino i then _ else empty : Inode).Fits
  split
  · exact fits_decode _
  · rw [← decode_zeros]
    exact fits_decode _

/-- There are fewer than `2 ^ 32` different blocks. -/
theorem Geometry.length_le (G : Geometry) {m : List Nat} (hnd : m.Nodup) (hroom : ∀ b ∈ m, G.Room b) :
    m.length ≤ 2 ^ 32 := by
  have hsub : m.toFinset ⊆ Finset.range (2 ^ 32) := by
    intro b hb
    rw [Finset.mem_range]
    exact (hroom b (mem_toFinset.mp hb)).lt
  have hcard := Finset.card_le_card hsub
  rw [toFinset_card_of_nodup hnd, Finset.card_range] at hcard
  exact hcard

/-! ### New directory blocks -/

/-- The first block of a directory has no entries but the two fixed ones. -/
theorem dotBlock_spec (G : Geometry) (ino parent : Nat) (hino : ino < 2 ^ 32) (hparent : parent < 2 ^ 32) :
    DirBlock G.bs (dotBlock G.bs ino parent) ∧ blockEntries G.bs (dotBlock G.bs ino parent) = [] := by
  have hbs : 1024 ≤ G.bs := by
    have := G.shape
    omega
  have hlt := G.bs_lt
  obtain ⟨hlen, hrec, -⟩ := putEntry_spec 0 ino 12 2 (utf8 ".")
    (show (zeros G.bs).length = G.bs by simp [zeros]) (by omega) (by decide) (by decide) hino (by decide)
    (by decide) (by decide)
  obtain ⟨hlen', hrec', hout⟩ := putEntry_spec 12 parent (G.bs - 12) 2 (utf8 "..") hlen (by omega)
    (by have h4 : align4 (8 + (utf8 "..").length) = 12 := by decide
        omega)
    (by have := G.bs_mod_four
        omega)
    hparent (by omega) (by decide) (by decide)
  have hchain : Chain G.bs (dotBlock G.bs ino parent) 0
      [⟨ino, 12, utf8 ".", 2⟩, ⟨parent, G.bs - 12, utf8 "..", 2⟩] G.bs := by
    refine ⟨hrec.congr (hout 0 (0 + 12) (.inl (by omega))), hrec', ?_⟩
    show 0 + 12 + (G.bs - 12) = G.bs
    omega
  refine ⟨⟨hlen', _, hchain, ?_⟩, ?_⟩
  · intro r hr _
    simp only [mem_cons, not_mem_nil, or_false] at hr
    rcases hr with rfl | rfl
    · exact ⟨_, rfl⟩
    · exact ⟨_, rfl⟩
  · rw [blockEntries_eq hchain G.bs_pos]
    simp [Rec.entry, fromUtf8Lossy_utf8]

/-- A new block with one entry. -/
theorem entryBlock_spec (G : Geometry) (name : String) (child ft : Nat) (hpos : child ≠ 0)
    (hchild : child < 2 ^ 32) (hname : (utf8 name).length < 256) (hft : ft < 256) (hdot : name ≠ ".")
    (hdots : name ≠ "..") :
    DirBlock G.bs (putEntry (zeros G.bs) 0 child G.bs ft (utf8 name)) ∧
      blockEntries G.bs (putEntry (zeros G.bs) 0 child G.bs ft (utf8 name)) = [⟨name, child, ft⟩] := by
  have hbs : 1024 ≤ G.bs := by
    have := G.shape
    omega
  have hlt := G.bs_lt
  have hal := align4_lt (8 + (utf8 name).length)
  obtain ⟨hlen, hrec, -⟩ := putEntry_spec 0 child G.bs ft (utf8 name)
    (show (zeros G.bs).length = G.bs by simp [zeros]) (by omega) (by omega) G.bs_mod_four hchild hlt
    hname hft
  have hchain : Chain G.bs (putEntry (zeros G.bs) 0 child G.bs ft (utf8 name)) 0
      [⟨child, G.bs, utf8 name, ft⟩] G.bs := by
    refine ⟨hrec, ?_⟩
    show 0 + G.bs = G.bs
    omega
  refine ⟨⟨hlen, _, hchain, ?_⟩, ?_⟩
  · intro r hr _
    simp only [mem_cons, not_mem_nil, or_false] at hr
    exact ⟨name, by rw [hr]⟩
  · rw [blockEntries_eq hchain G.bs_pos, filterMap_cons_some (Rec.entry_of_name hpos rfl hdot hdots)]
    rfl

end HamixOS.HextFs
