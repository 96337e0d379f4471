import HamixOS.Kernel.Aspace

namespace HamixOS.Kernel

open Lib Option Pte

/-!
# What the address-space operations do

Each operation of `Aspace` is followed in three respects:

* the books of the frames (`Balanced`), with the space's own holds `AddressSpace.held`
  beside those of everything else, `h`;
* what it leaves alone outside: the contents of frames with other holders, and the shares
  of those that are not its own;
* what the space shows (`AddressSpace.view`): the pages outside a set `S` look as before.

`Moves` puts these together so that they compose over the loops of the source.
-/

namespace Pte

/-- How often an entry holds a frame. -/
def own (e : Pte) (x : Nat) : Nat := if e.valid && e.owned then one e.addr x else 0

end Pte

/-- What a program can see of a page: that it is reserved, or what is in it. -/
inductive PageView where
  | lazy (index : Nat) (prot : Prot)
  | present (content : Page) (prot : Prot)

namespace Pte

def view (p : Phys) (e : Pte) : PageView :=
  if e.valid then .present (p.bytes e.addr) e.protOf else .lazy e.addr e.protOf

/-- An entry the operations can meet: a lazy one, or a page of the space's own. -/
structure Shape (e : Pte) : Prop where
  lazy_or : e.isLazy = !e.present
  owned : e.present = true → e.owned = true
  cow : e.cow = true → e.present = true ∧ e.writable = false

/-- One that is writable as it stands is the only holder of its frame. -/
structure Ok (p : Phys) (e : Pte) : Prop extends Shape e where
  sole : e.present = true → e.writable = true → p.refs e.addr = 0

theorem own_of_valid {e : Pte} (hv : e.present = true) (ho : e.owned = true) (x : Nat) :
    e.own x = one e.addr x := by
  unfold own valid
  rw [hv, ho]
  rfl

theorem own_of_lazy {e : Pte} (hv : e.present = false) (x : Nat) : e.own x = 0 := by
  unfold own valid
  rw [hv]
  rfl

theorem view_congr {p p' : Phys} (e : Pte) (h : e.present = true → p'.bytes e.addr = p.bytes e.addr) :
    e.view p' = e.view p := by
  unfold view valid
  cases hv : e.present with
  | false => rfl
  | true => rw [h hv]

theorem Ok.refs_congr {p p' : Phys} {e : Pte} (h : e.Ok p)
    (hr : p.refs e.addr = 0 → e.present = true → p'.refs e.addr = 0) : e.Ok p' :=
  ⟨h.toShape, fun hv hw => hr (h.sole hv hw) hv⟩

end Pte

namespace AddressSpace

def held (a : AddressSpace) (x : Nat) : Nat := Table.held Pte.own 3 a.tables x

def Shaped (a : AddressSpace) : Prop := ∀ page e, a.leaf page = some e → e.Shape

def Ok (a : AddressSpace) (p : Phys) : Prop := ∀ page e, a.leaf page = some e → e.Ok p

def view (a : AddressSpace) (p : Phys) (page : Nat) : Option PageView := (a.leaf page).map (Pte.view p)

/-- The tables on the way to a page exist. -/
def walks (a : AddressSpace) (page : Nat) : Prop := Table.walks index 3 a.tables page = true

/-- Pages with the same indices on every level. -/
abbrev Same (page q : Nat) : Prop := Table.Same index 3 page q

variable {a : AddressSpace} {page q : Nat} {e : Pte} {o : Option Pte}

theorem walks_of_leaf (h : a.leaf page = some e) : a.walks page := Table.walks_of_get h

theorem leaf_setLeaf_of_same (h : a.walks page) (hs : Same page q) : (a.setLeaf page o).leaf q = o := by
  unfold leaf
  rw [← Table.get_congr hs]
  exact Table.get_set_self h o

theorem leaf_setLeaf_of_not_same (hs : ¬ Same page q) : (a.setLeaf page o).leaf q = a.leaf q :=
  Table.get_set_of_not_same hs a.tables o

theorem leaf_congr (hs : Same page q) : a.leaf page = a.leaf q := Table.get_congr hs a.tables

theorem held_setLeaf (h : a.walks page) (o : Option Pte) (x : Nat) :
    (a.setLeaf page o).held x + orZero Pte.own (a.leaf page) x = a.held x + orZero Pte.own o x :=
  Table.held_set h Pte.own o x

theorem own_le_held (h : a.leaf page = some e) (x : Nat) : e.own x ≤ a.held x :=
  Table.leaf_le_held h Pte.own x

theorem Ok.shaped {p : Phys} (hok : a.Ok p) : a.Shaped := fun page e he => (hok page e he).toShape

theorem Shaped.held_pos (hok : a.Shaped) (h : a.leaf page = some e) (hv : e.present = true) :
    0 < a.held e.addr := by
  have hle := own_le_held h e.addr
  rw [Pte.own_of_valid hv ((hok page e h).owned hv), one_self] at hle
  exact hle

end AddressSpace

/-- An operation on the space `a` that may change what the pages in `S` show. -/
structure Moves (pool : Nat → Bool) (h : Nat → Nat) (S : Nat → Prop) (p : Phys) (a : AddressSpace)
    (p' : Phys) (a' : AddressSpace) : Prop where
  books : Balanced pool p' (fun x => h x + a'.held x)
  bytes : ∀ f, 0 < h f → p'.bytes f = p.bytes f
  sole : ∀ f, 0 < h f → p.refs f = 0 → p'.refs f = 0
  shape : a.Shaped → a'.Shaped
  ok : a.Ok p → a'.Ok p'
  view : a.Shaped → ∀ q, ¬ S q → a'.view p' q = a.view p q

namespace Moves

open AddressSpace

variable {pool : Nat → Bool} {h : Nat → Nat} {S : Nat → Prop} {p p' p'' : Phys} {a a' a'' : AddressSpace}

theorem refl (hb : Balanced pool p (fun x => h x + a.held x)) : Moves pool h S p a p a :=
  ⟨hb, fun _ _ => rfl, fun _ _ hr => hr, fun hs => hs, fun hok => hok, fun _ _ _ => rfl⟩

theorem trans (h₁ : Moves pool h S p a p' a') (h₂ : Moves pool h S p' a' p'' a'') :
    Moves pool h S p a p'' a'' where
  books := h₂.books
  bytes f hf := (h₂.bytes f hf).trans (h₁.bytes f hf)
  sole f hf hr := h₂.sole f hf (h₁.sole f hf hr)
  shape hs := h₂.shape (h₁.shape hs)
  ok hok := h₂.ok (h₁.ok hok)
  view hs q hq := (h₂.view (h₁.shape hs) q hq).trans (h₁.view hs q hq)

theorem mono {T : Nat → Prop} (h₁ : Moves pool h S p a p' a') (hST : ∀ q, S q → T q) :
    Moves pool h T p a p' a' :=
  ⟨h₁.books, h₁.bytes, h₁.sole, h₁.shape, h₁.ok, fun hok q hq => h₁.view hok q (fun hs => hq (hST q hs))⟩

/-- Only the lists beside the tables change. -/
theorem lists (hb : Balanced pool p (fun x => h x + a.held x)) (ht : a'.tables = a.tables) :
    Moves pool h S p a p a' := by
  obtain ⟨t, l, s⟩ := a
  obtain ⟨t', l', s'⟩ := a'
  cases ht
  exact ⟨hb, fun _ _ => rfl, fun _ _ hr => hr, fun hs => hs, fun hok => hok, fun _ _ _ => rfl⟩

/-- The tables change but no entry does, and what is held keeps its contents and shares. -/
theorem of_leaf_eq (hb' : Balanced pool p' (fun x => h x + a'.held x)) (hleaf : ∀ q, a'.leaf q = a.leaf q)
    (hbytes : ∀ f, 0 < h f + a.held f → p'.bytes f = p.bytes f) (hrefs : p'.refs = p.refs) :
    Moves pool h S p a p' a' where
  books := hb'
  bytes f hf := hbytes f (by omega)
  sole f _ hr := by rw [hrefs]; exact hr
  shape hs q e he := hs q e ((hleaf q).symm.trans he)
  ok hok q e he := by
    rw [hleaf] at he
    exact (hok q e he).refs_congr (fun hr _ => by rw [hrefs]; exact hr)
  view hok q _ := by
    unfold AddressSpace.view
    rw [hleaf]
    cases he : a.leaf q with
    | none => rfl
    | some e =>
      rw [map_some, map_some]
      refine congrArg some (Pte.view_congr e fun hv => hbytes _ ?_)
      have := hok.held_pos he hv
      omega

/-- One entry changes. -/
theorem of_set {page : Nat} {o : Option Pte} (hb' : Balanced pool p' (fun x => h x + a'.held x))
    (hself : ∀ q, Same page q → a'.leaf q = o) (hleaf : ∀ q, ¬ Same page q → a'.leaf q = a.leaf q)
    (hbytes : ∀ f, 0 < h f + a.held f → p'.bytes f = p.bytes f)
    (hzero : ∀ f, 0 < h f + a.held f → p.refs f = 0 → p'.refs f = 0)
    (hshape : a.Shaped → ∀ e, o = some e → e.Shape) (hok' : a.Ok p → ∀ e, o = some e → e.Ok p') :
    Moves pool h (Same page) p a p' a' where
  books := hb'
  bytes f hf := hbytes f (by omega)
  sole f hf hr := hzero f (by omega) hr
  shape hshaped q e he := by
    by_cases hs : Same page q
    · rw [hself q hs] at he
      exact hshape hshaped e he
    · rw [hleaf q hs] at he
      exact hshaped q e he
  ok hok q e he := by
    by_cases hs : Same page q
    · rw [hself q hs] at he
      exact hok' hok e he
    · rw [hleaf q hs] at he
      exact (hok q e he).refs_congr (fun hr hv => hzero _ (Nat.add_pos_right _ (hok.shaped.held_pos he hv)) hr)
  view hok q hq := by
    unfold AddressSpace.view
    rw [hleaf q hq]
    cases he : a.leaf q with
    | none => rfl
    | some e =>
      rw [map_some, map_some]
      refine congrArg some (Pte.view_congr e fun hv => hbytes _ ?_)
      have := hok.held_pos he hv
      omega

/-! ### Making tables -/

/-- While tables are made, what was held at the start (`low`) stays held and keeps its
    contents. -/
def Making (pool : Nat → Bool) (p : Phys) (low : Nat → Nat) (s : Phys) (h : Nat → Nat) : Prop :=
  Balanced pool s h ∧ (∀ f, 0 < low f → 0 < h f ∧ s.bytes f = p.bytes f) ∧ s.refs = p.refs

theorem making_alloc {low : Nat → Nat} {s : Phys} {g : Nat → Nat} {r : Nat × Phys}
    (hm : Making pool p low s g) (ha : s.allocZeroedFrame = some r) :
    Making pool p low r.2 (fun x => g x + one r.1 x) := by
  obtain ⟨hb, hlow, hrefs⟩ := hm
  obtain ⟨hb', hzero, -, hrefs', hbytes, -⟩ := hb.allocWith ha
  refine ⟨hb', ?_, hrefs'.trans hrefs⟩
  intro f hf
  obtain ⟨hg, hbf⟩ := hlow f hf
  have hne : f ≠ r.1 := by
    rintro rfl
    omega
  rw [hbytes f hne]
  exact ⟨Nat.add_pos_left hg _, hbf⟩

theorem makeEntry (hb : Balanced pool p (fun x => h x + a.held x)) (page : Nat) :
    Moves pool h S p a (AddressSpace.makeEntry p a page).1 (AddressSpace.makeEntry p a page).2.1 := by
  have hstart : Making pool p (fun x => h x + a.held x) p (fun x => h x + a.held x) :=
    ⟨hb, fun f hf => ⟨hf, rfl⟩, rfl⟩
  have hend : Making pool p (fun x => h x + a.held x) (AddressSpace.makeEntry p a page).1
      (fun x => h x + (AddressSpace.makeEntry p a page).2.1.held x) :=
    Table.ensure_books (fun s g r hm ha => making_alloc hm ha) hstart
  obtain ⟨hb', hlow, hrefs⟩ := hend
  exact of_leaf_eq hb' (fun q => Table.get_ensure 3 p a.tables page q) (fun f hf => (hlow f hf).2) hrefs

theorem makeEntry_walks {page : Nat} (hok : (AddressSpace.makeEntry p a page).2.2 = true) :
    (AddressSpace.makeEntry p a page).2.1.walks page :=
  Table.walks_ensure p a.tables hok

/-! ### Reserving -/

theorem deferLeaf_books {g : Nat → Nat} {o : Option Pte} (root : Nat)
    (hb : Balanced pool p (fun x => g x + orZero Pte.own o x)) :
    Balanced pool (deferLeaf p root o) g := by
  unfold deferLeaf
  cases o with
  | none => exact hb
  | some e =>
    dsimp only
    split_ifs with hv
    · refine Balanced.deferFree (f := e.addr) (hb.congr fun x => ?_) root
      rw [orZero_some, Pte.own, if_pos hv]
    · refine hb.congr fun x => ?_
      rw [orZero_some, Pte.own, if_neg hv]
      rfl

theorem deferLeaf_bytes (p : Phys) (root : Nat) (o : Option Pte) : (deferLeaf p root o).bytes = p.bytes := by
  unfold deferLeaf
  cases o with
  | none => rfl
  | some e =>
    dsimp only
    split_ifs
    · rfl
    · rfl

theorem deferLeaf_refs (p : Phys) (root : Nat) (o : Option Pte) : (deferLeaf p root o).refs = p.refs := by
  unfold deferLeaf
  cases o with
  | none => rfl
  | some e =>
    dsimp only
    split_ifs
    · rfl
    · rfl

/-- An entry gives way to one that holds nothing, and its frame waits for `sync`. -/
theorem replace {page : Nat} (root : Nat) {o : Option Pte} (hb : Balanced pool p (fun x => h x + a.held x))
    (hw : a.walks page) (hnone : ∀ x, orZero Pte.own o x = 0) (hok : ∀ e, o = some e → ∀ s, e.Ok s) :
    Moves pool h (Same page) p a (deferLeaf p root (a.leaf page)) (a.setLeaf page o) := by
  have hheld := held_setLeaf hw o
  refine of_set (o := o) (deferLeaf_books root (hb.congr fun x => ?_)) (fun q hs => leaf_setLeaf_of_same hw hs)
    (fun q hs => leaf_setLeaf_of_not_same hs) ?_ ?_ (fun _ e he => (hok e he p).toShape) (fun _ e he => hok e he _)
  · have := hheld x
    rw [hnone] at this
    omega
  · intro f _
    rw [deferLeaf_bytes]
  · intro f _ hr
    rw [deferLeaf_refs]
    exact hr

/-- The pages in a list, up to pages with the same indices. -/
def Among (pages : List Nat) (q : Nat) : Prop := ∃ page ∈ pages, Same page q

theorem among_cons {page : Nat} {rest : List Nat} {q : Nat} : Same page q → Among (page :: rest) q :=
  fun hs => ⟨page, List.mem_cons_self, hs⟩

theorem among_tail {page : Nat} {rest : List Nat} {q : Nat} : Among rest q → Among (page :: rest) q :=
  fun ⟨r, hr, hs⟩ => ⟨r, List.mem_cons_of_mem _ hr, hs⟩

theorem lazyPages {entry : Pte} (hlazy : entry.present = false) (hok : ∀ s, entry.Ok s) (pages : List Nat)
    (hb : Balanced pool p (fun x => h x + a.held x)) :
    Moves pool h (Among pages) p a (AddressSpace.lazyPages entry pages p a).1
      (AddressSpace.lazyPages entry pages p a).2.1 := by
  induction pages generalizing p a with
  | nil => exact refl hb
  | cons page rest ih =>
    have hmake : Moves pool h (Among (page :: rest)) p a _ _ := makeEntry hb page
    unfold AddressSpace.lazyPages
    dsimp only
    split_ifs with hgo
    · have hset := replace (AddressSpace.makeEntry p a page).2.1.root hmake.books
        (makeEntry_walks hgo) (o := some entry) (fun x => Pte.own_of_lazy hlazy x)
        (fun e he s => some.inj he ▸ hok s)
      exact hmake.trans ((hset.mono fun _ => among_cons).trans ((ih hset.books).mono fun _ => among_tail))
    · exact hmake

theorem lazyProt_ok (nx : Bool) (i : Nat) (prot : Prot) (s : Phys) : (lazyProt nx i prot).Ok s :=
  ⟨⟨rfl, nofun, nofun⟩, nofun⟩

theorem mapLazyProt (hb : Balanced pool p (fun x => h x + a.held x)) (start len : Nat) (region : LazyRegion)
    (prot : Prot) :
    Moves pool h (Among (pagesOf start len)) p a (AddressSpace.mapLazyProt p a start len region prot).1
      (AddressSpace.mapLazyProt p a start len region prot).2.1 := by
  have hgo : ∀ (a' : AddressSpace) (i : Nat), a'.tables = a.tables →
      Moves pool h (Among (pagesOf start len)) p a
        (AddressSpace.lazyPages (lazyProt p.nx i prot) (pagesOf start len) p a').1
        (AddressSpace.lazyPages (lazyProt p.nx i prot) (pagesOf start len) p a').2.1 := by
    intro a' i ht
    have hlists : Moves pool h (Among (pagesOf start len)) p a p a' := lists hb ht
    exact hlists.trans (lazyPages rfl (lazyProt_ok _ _ _) _ hlists.books)
  unfold AddressSpace.mapLazyProt
  dsimp only
  by_cases hu : isUserRange (start / pageSize * pageSize)
      ((start + len + pageSize - 1) / pageSize * pageSize - start / pageSize * pageSize) = true
  · rw [if_pos hu]
    exact hgo _ _ rfl
  · rw [if_neg hu]
    exact lists hb rfl

/-! ### Filling -/

/-- A page gets a frame that nothing held before. -/
theorem fresh {page : Nat} (entry : Pte) {content : Page} {r : Nat × Phys}
    (hb : Balanced pool p (fun x => h x + a.held x)) (hw : a.walks page)
    (hnone : ∀ x, orZero Pte.own (a.leaf page) x = 0) (ha : p.allocWith content = some r)
    (hown : ∀ x, entry.own x = one r.1 x) (hok : p.refs r.1 = 0 → entry.Ok r.2) :
    Moves pool h (Same page) p a r.2 (a.setLeaf page (some entry)) := by
  obtain ⟨hb', hzero, -, hrefs, hbytes, -⟩ := hb.allocWith ha
  have hheld := held_setLeaf hw (some entry)
  have hsum : ∀ x, (a.setLeaf page (some entry)).held x = a.held x + one r.1 x := by
    intro x
    have := hheld x
    rw [hnone, orZero_some, hown] at this
    omega
  have hfree : p.refs r.1 = 0 := by
    obtain ⟨q, hq, rfl⟩ := map_eq_some_iff.mp ha
    exact (hb.idle _ (Balanced.isFree_of_alloc hq)).2
  refine of_set (o := some entry) (hb'.congr fun x => ?_) (fun q hs => leaf_setLeaf_of_same hw hs)
    (fun q hs => leaf_setLeaf_of_not_same hs) ?_ ?_ ?_ ?_
  · rw [hsum]
    omega
  · intro f hf
    refine hbytes f ?_
    rintro rfl
    omega
  · intro f _ hr
    rw [hrefs]
    exact hr
  · intro _ e he
    cases he
    exact (hok hfree).toShape
  · intro _ e he
    cases he
    exact hok hfree

theorem allocPages (pages : List Nat) (hb : Balanced pool p (fun x => h x + a.held x)) :
    Moves pool h (Among pages) p a (AddressSpace.allocPages pages p a).1
      (AddressSpace.allocPages pages p a).2.1 := by
  induction pages generalizing p a with
  | nil => exact refl hb
  | cons page rest ih =>
    have hmake : Moves pool h (Among (page :: rest)) p a _ _ := makeEntry hb page
    unfold AddressSpace.allocPages
    dsimp only
    split_ifs with hgo hvalid
    · exact hmake.trans ((ih hmake.books).mono fun _ => among_tail)
    · cases ha : (AddressSpace.makeEntry p a page).1.allocZeroedFrame with
      | none => exact hmake
      | some r =>
        have hrefs := (hmake.books.allocWith ha).2.2.2.1
        have hset := fresh (userPage r.1 true) hmake.books (makeEntry_walks hgo) ?_ ha
          (fun x => rfl) ?_
        · exact hmake.trans ((hset.mono fun _ => among_cons).trans ((ih hset.books).mono fun _ => among_tail))
        · intro x
          cases hl : (AddressSpace.makeEntry p a page).2.1.leaf page with
          | none => rfl
          | some e =>
            rw [hl, any_some] at hvalid
            exact Pte.own_of_lazy (by simpa [Pte.valid] using hvalid) x
        · intro hz
          refine ⟨⟨rfl, fun _ => rfl, nofun⟩, fun _ _ => ?_⟩
          rw [hrefs]
          exact hz
    · exact hmake

theorem allocRange (hb : Balanced pool p (fun x => h x + a.held x)) (start len : Nat) :
    Moves pool h (Among (pagesOf start len)) p a (AddressSpace.allocRange p a start len).1
      (AddressSpace.allocRange p a start len).2.1 := by
  unfold AddressSpace.allocRange
  dsimp only
  split_ifs
  · exact allocPages _ hb
  · exact refl hb

/-! ### Protecting and unmapping -/

theorem withProt_own (nx : Bool) (e : Pte) (prot : Prot) (shared : Bool) (x : Nat) :
    (withProt nx e prot shared).own x = e.own x := by
  unfold withProt
  split_ifs
  · rfl
  · rfl

theorem withProt_shape {e : Pte} (hs : e.Shape) (nx : Bool) (prot : Prot) (shared : Bool) :
    (withProt nx e prot shared).Shape := by
  unfold withProt
  split_ifs with hcow
  · refine ⟨hs.lazy_or, hs.owned, fun _ => ⟨?_, rfl⟩⟩
    rw [Bool.and_eq_true, Bool.and_eq_true] at hcow
    exact hcow.1.1
  · exact ⟨hs.lazy_or, hs.owned, nofun⟩

theorem withProt_ok {e : Pte} (hb : Balanced pool p h) (hok : e.Ok p) (prot : Prot) :
    (withProt p.nx e prot (e.valid && e.owned && p.isShared e.addr)).Ok p := by
  refine ⟨withProt_shape hok.toShape _ _ _, ?_⟩
  unfold withProt
  split_ifs with hcow
  · exact nofun
  · intro hv hw
    by_contra hr
    -- were the frame shared, the write permission would have been held back
    refine hcow ?_
    have hpres : e.present = true := hv
    have hwrite : prot.write = true := hw
    rw [hpres, hwrite, Pte.valid, hpres, hok.owned hv, (hb.isShared_iff e.addr).mpr hr]
    simp

theorem protectPage (hb : Balanced pool p (fun x => h x + a.held x)) (prot : Prot) (page : Nat) :
    Moves pool h (Same page) p a p (AddressSpace.protectPage p prot a page) := by
  unfold AddressSpace.protectPage
  cases he : a.leaf page with
  | none => exact refl hb
  | some e =>
    have hw := walks_of_leaf he
    dsimp only
    refine of_set (hb.congr fun x => ?_) (fun q hs => leaf_setLeaf_of_same hw hs)
      (fun q hs => leaf_setLeaf_of_not_same hs) (fun _ _ => rfl) (fun _ _ hz => hz) ?_ ?_
    · have := held_setLeaf hw (some (withProt p.nx e prot (e.valid && e.owned && p.isShared e.addr))) x
      rw [he, orZero_some, orZero_some, withProt_own] at this
      omega
    · rintro hshaped e' ⟨⟩
      exact withProt_shape (hshaped page e he) _ _ _
    · rintro hok e' ⟨⟩
      exact withProt_ok hb (hok page e he) prot

theorem protectPages (prot : Prot) (pages : List Nat) (hb : Balanced pool p (fun x => h x + a.held x)) :
    Moves pool h (Among pages) p a p (pages.foldl (AddressSpace.protectPage p prot) a) := by
  induction pages generalizing a with
  | nil => exact refl hb
  | cons page rest ih =>
    have hpage := protectPage hb prot page
    exact (hpage.mono fun _ => among_cons).trans ((ih hpage.books).mono fun _ => among_tail)

theorem protectRange (hb : Balanced pool p (fun x => h x + a.held x)) (start len : Nat) (prot : Prot) :
    Moves pool h (Among (pagesOf start len)) p a p (AddressSpace.protectRange p a start len prot) := by
  unfold AddressSpace.protectRange
  dsimp only
  split_ifs
  · exact protectPages prot _ hb
  · exact refl hb

end Moves

end HamixOS.Kernel
