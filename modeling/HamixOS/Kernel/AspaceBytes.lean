import HamixOS.Kernel.AspaceOps
import HamixOS.Lib.ProcessStack

namespace HamixOS.Kernel

open Lib List Function Option Nat Bool BitmapFrameAllocator AddressSpace Memory

/-!
# The bytes of an address space

What a program reads at an address, and how the operations of `memory/aspace.rs` change it.

* `AddressSpace.readByte` — the byte at an address;
* `writeBytes_ready` — `write_bytes` stores its bytes and nothing else, where the pages are writable;
* `writeBytes_absent` — it stores nothing where its first page is not there.
-/

namespace AddressSpace

/-- The byte that a program reads. -/
def readByte (p : Phys) (a : AddressSpace) (addr : Nat) : Option UInt8 :=
  (a.translate addr).map fun f => p.bytes f (addr % pageSize)

/-- A page that can be written as it stands. -/
def Ready (a : AddressSpace) (page : Nat) : Prop := ∃ e, a.leaf page = some e ∧ e.present = true ∧ e.writable = true

/-- A page with no frame. -/
def Absent (a : AddressSpace) (page : Nat) : Prop := ∀ e, a.leaf page = some e → e.present = false

/-- A page that is writable if it has a frame. -/
def Tame (a : AddressSpace) (page : Nat) : Prop := ∀ e, a.leaf page = some e → e.present = true → e.writable = true

variable {a a' : AddressSpace} {p p' : Phys} {page q addr : Nat}

theorem Absent.tame (h : a.Absent page) : a.Tame page := fun e he hpresent => by
  rw [h e he] at hpresent
  cases hpresent

theorem isUserRange_iff {len : Nat} :
    isUserRange addr len = true ↔ userBase ≤ addr ∧ len ≤ userEnd - userBase ∧ addr + len ≤ userEnd :=
  decide_eq_true_iff

theorem page_lt (h : isUserRange addr 1 = true) : addr / pageSize < 512 ^ 4 := by
  have hend := (isUserRange_iff.mp h).2.2
  unfold userEnd at hend
  unfold pageSize
  omega

/-- Pages of user addresses are the same only if they are equal. -/
theorem eq_of_same (h : Same page q) (hpage : page < 512 ^ 4) (hq : q < 512 ^ 4) : page = q := by
  have h₀ : page / 512 ^ 0 % 512 = q / 512 ^ 0 % 512 := h 0 (by decide)
  have h₁ : page / 512 ^ 1 % 512 = q / 512 ^ 1 % 512 := h 1 (by decide)
  have h₂ : page / 512 ^ 2 % 512 = q / 512 ^ 2 % 512 := h 2 (by decide)
  have h₃ : page / 512 ^ 3 % 512 = q / 512 ^ 3 % 512 := h 3 (by decide)
  omega

theorem readByte_of_not_user (h : isUserRange addr 1 = false) : a.readByte p addr = none := by
  unfold readByte translate
  rw [h]
  rfl

theorem readByte_of_absent (h : a.Absent (addr / pageSize)) : a.readByte p addr = none := by
  unfold readByte translate
  split_ifs
  · cases he : a.leaf (addr / pageSize) with
    | none => rfl
    | some e =>
      rw [filter_some, if_neg]
      · rfl
      · rw [Pte.valid, h e he]
        exact false_ne_true
  · rfl

theorem readByte_of_present {e : Pte} (hu : isUserRange addr 1 = true) (he : a.leaf (addr / pageSize) = some e)
    (hpresent : e.present = true) : a.readByte p addr = some (p.bytes e.addr (addr % pageSize)) := by
  unfold readByte translate
  rw [if_pos hu, he, filter_some, if_pos (show e.valid = true from hpresent)]
  rfl

/-- The byte at an offset of a page, as it is seen. -/
def PageView.byte : PageView → Nat → Option UInt8
  | .lazy _ _, _ => none
  | .present content _, i => some (content i)

theorem readByte_eq_view (hu : isUserRange addr 1 = true) :
    a.readByte p addr = (a.view p (addr / pageSize)).bind fun v => PageView.byte v (addr % pageSize) := by
  unfold view
  cases he : a.leaf (addr / pageSize) with
  | none => exact readByte_of_absent fun e h => by rw [he] at h; cases h
  | some e =>
    rw [map_some, Option.bind_some]
    unfold Pte.view Pte.valid
    cases hpresent : e.present with
    | false => exact readByte_of_absent fun e' h => by rw [he] at h; cases h; exact hpresent
    | true => exact readByte_of_present hu he hpresent

end AddressSpace

open AddressSpace

section Moves

variable {pool : Nat → Bool} {h : Nat → Nat} {S : Nat → Prop} {p p' : Phys} {a a' : AddressSpace}

/-- An operation leaves the bytes of the other pages alone. -/
theorem Moves.readByte (hm : Moves pool h S p a p' a') (hshaped : a.Shaped) {addr : Nat} (hS : ¬ S (addr / pageSize)) :
    a'.readByte p' addr = a.readByte p addr := by
  by_cases hu : isUserRange addr 1 = true
  · rw [readByte_eq_view hu, readByte_eq_view hu, hm.view hshaped _ hS]
  · have hu := eq_false_iff.mpr hu
    rw [readByte_of_not_user hu, readByte_of_not_user hu]

/-- A page that is writable has its frame to itself. -/
theorem sole_frame (hb : Balanced pool p (fun x => h x + a.held x)) (hok : a.Ok p) {page : Nat} {e : Pte}
    (he : a.leaf page = some e) (hpresent : e.present = true) (hwritable : e.writable = true) :
    h e.addr = 0 ∧ ∀ q e', a.leaf q = some e' → e'.present = true → ¬ Same page q → e'.addr ≠ e.addr := by
  have hrefs := (hok page e he).sole hpresent hwritable
  have hpos := hok.shaped.held_pos he hpresent
  obtain ⟨hpool, hused⟩ := hb.held_used (f := e.addr) (Nat.add_pos_right _ hpos)
  have hone := hb.used e.addr hpool hused
  refine ⟨by omega, fun q e' hq hpresent' hne heq => ?_⟩
  have hown : e.own e.addr = 1 := by
    rw [Pte.own_of_valid hpresent ((hok page e he).owned hpresent), one_self]
  have hown' : e'.own e.addr = 1 := by
    rw [Pte.own_of_valid hpresent' ((hok q e' hq).owned hpresent'), heq, one_self]
  have hset := held_setLeaf (walks_of_leaf he) none e.addr
  have hleft := own_le_held ((leaf_setLeaf_of_not_same (o := none) hne).trans hq) e.addr
  rw [he, orZero_some, orZero_none, hown] at hset
  rw [hown'] at hleft
  omega

/-- A store to a page that can be written changes that page. -/
theorem Moves.store (hb : Balanced pool p (fun x => h x + a.held x)) (hok : a.Ok p) {page : Nat} {e : Pte}
    (he : a.leaf page = some e) (hpresent : e.present = true) (hwritable : e.writable = true) (content : Page) :
    Moves pool h (Same page) p a (p.store e.addr content) a := by
  obtain ⟨hzero, hapart⟩ := sole_frame hb hok he hpresent hwritable
  refine ⟨hb.store _ _, fun f hf => update_of_ne ?_ _ _, fun _ _ hr => hr, fun hs => hs, ?_, fun _ q hq => ?_⟩
  · rintro rfl
    exact absurd hf (hzero ▸ Nat.lt_irrefl 0)
  · exact fun hok q e he => (hok q e he).refs_congr fun hr _ => hr
  · unfold AddressSpace.view
    cases hq' : a.leaf q with
    | none => rfl
    | some e' =>
      refine congrArg some (Pte.view_congr e' fun hpresent' => ?_)
      exact update_of_ne (hapart q e' hq' hpresent' hq) _ _

/-! ### Writing -/

variable {virt : Nat}

theorem resolveCow_ready (hok : a.Ok p) (hu : isUserRange virt 1 = true) {e : Pte}
    (he : a.leaf (virt / pageSize) = some e) (hpresent : e.present = true) (hwritable : e.writable = true) :
    resolveCow p a virt = (p, a, true) := by
  have hcow : e.isCow = false := by
    unfold Pte.isCow
    cases hc : e.cow with
    | false => exact and_false _
    | true =>
      have := ((hok _ _ he).cow hc).2
      rw [hwritable] at this
      cases this
  unfold resolveCow
  rw [if_pos hu, he]
  dsimp only
  rw [if_pos (show e.valid = true from hpresent), if_neg (by rw [hcow]; exact false_ne_true), hwritable]

/-- The addresses of a page are user addresses. -/
def UserPage (page : Nat) : Prop := userBase ≤ page * pageSize ∧ page * pageSize + pageSize ≤ userEnd

theorem UserPage.addr {page addr : Nat} (hpage : UserPage page) (haddr : addr / pageSize = page) :
    isUserRange addr 1 = true := by
  subst haddr
  obtain ⟨hlow, hhigh⟩ := hpage
  have hmod := div_add_mod' addr pageSize
  have hlt := mod_lt addr (show 0 < pageSize by decide)
  exact isUserRange_iff.mpr ⟨by omega, by decide, by omega⟩

theorem UserPage.lt {page : Nat} (hpage : UserPage page) : page < 512 ^ 4 := by
  have := hpage.2
  unfold userEnd pageSize at this
  omega

variable {data : List UInt8}

/-- Where all pages can be written, `write_bytes` stores its bytes. -/
theorem writePages_ready (pages : List Nat) (hb : Balanced pool p (fun x => h x + a.held x))
    (hok : a.Ok p) (hpages : ∀ page ∈ pages, a.Ready page ∧ UserPage page ∧ virt / pageSize ≤ page) :
    ∃ p', writePages virt data pages p a = (p', a, true) ∧ Moves pool h (Moves.Among pages) p a p' a ∧
      ∀ addr, addr / pageSize ∈ pages → a.readByte p' addr =
        if virt ≤ addr ∧ addr < virt + data.length then data[addr - virt]? else a.readByte p addr := by
  induction pages generalizing p with
  | nil => exact ⟨p, rfl, Moves.refl hb, fun addr h => absurd h not_mem_nil⟩
  | cons page rest ih =>
    obtain ⟨⟨⟨e, he, hpresent, hwritable⟩, huser, hge⟩, hrest⟩ := forall_mem_cons.mp hpages
    have haddr : max virt (page * pageSize) / pageSize = page := by
      unfold pageSize at *
      omega
    have hu := huser.addr haddr
    have hresolve := resolveCow_ready hok hu (haddr.symm ▸ he) hpresent hwritable
    have htranslate : a.translate (max virt (page * pageSize)) = some e.addr := by
      unfold AddressSpace.translate
      rw [if_pos hu, haddr, he, filter_some, if_pos (show e.valid = true from hpresent)]
      rfl
    have hstore := Moves.store hb hok he hpresent hwritable (overlay (p.bytes e.addr) page virt data)
    obtain ⟨p', hrun, hmoves, hread⟩ := ih hstore.books (hstore.ok hok) hrest
    refine ⟨p', ?_, (hstore.mono fun _ => Moves.among_cons).trans (hmoves.mono fun _ => Moves.among_tail), fun addr hin => ?_⟩
    · unfold writePages
      dsimp only
      rw [hresolve]
      dsimp only
      rw [htranslate]
      exact hrun
    have hfirst : a.readByte (p.store e.addr (overlay (p.bytes e.addr) page virt data)) addr =
        if addr / pageSize = page ∧ virt ≤ addr ∧ addr < virt + data.length then data[addr - virt]?
        else a.readByte p addr := by
      by_cases heq : addr / pageSize = page
      · have hua := huser.addr heq
        have hback : page * pageSize + addr % pageSize = addr := by
          rw [← heq]
          exact div_add_mod' addr pageSize
        rw [readByte_of_present hua (heq.symm ▸ he) hpresent, readByte_of_present hua (heq.symm ▸ he) hpresent]
        show some (update p.bytes e.addr _ e.addr _) = _
        rw [update_self]
        unfold overlay
        rw [hback]
        by_cases hrange : virt ≤ addr ∧ addr < virt + data.length
        · have hlt : addr - virt < data.length := by omega
          rw [if_pos ⟨mod_lt _ (by decide), hrange⟩, if_pos ⟨heq, hrange⟩, getD_eq_getElem?_getD,
            getElem?_eq_getElem hlt]
          rfl
        · rw [if_neg fun h => hrange h.2, if_neg fun h => hrange h.2]
      · rw [if_neg fun h => heq h.1]
        by_cases hua : isUserRange addr 1 = true
        · exact hstore.readByte hok.shaped fun hsame => heq (eq_of_same hsame huser.lt (page_lt hua)).symm
        · have hua := eq_false_iff.mpr hua
          rw [readByte_of_not_user hua, readByte_of_not_user hua]
    by_cases hlater : addr / pageSize ∈ rest
    · rw [hread addr hlater, hfirst]
      by_cases hrange : virt ≤ addr ∧ addr < virt + data.length
      · rw [if_pos hrange, if_pos hrange]
      · rw [if_neg hrange, if_neg hrange, if_neg fun h => hrange h.2]
    · have heq := (mem_cons.mp hin).resolve_right hlater
      have hkeep : ¬ Moves.Among rest (addr / pageSize) := fun ⟨r, hr, hsame⟩ =>
        hlater ((eq_of_same hsame (hrest r hr).2.1.lt (heq ▸ huser.lt)) ▸ hr)
      rw [hmoves.readByte (hstore.ok hok).shaped hkeep, hfirst]
      by_cases hrange : virt ≤ addr ∧ addr < virt + data.length
      · rw [if_pos ⟨heq, hrange⟩, if_pos hrange]
      · rw [if_neg fun h => hrange h.2, if_neg hrange]

theorem mem_pagesOf {start len page : Nat} :
    page ∈ pagesOf start len ↔ start / pageSize ≤ page ∧ page * pageSize < start + len ∧ 0 < start % pageSize + len := by
  unfold pagesOf
  rw [mem_range'_1]
  unfold pageSize
  omega

theorem page_mem_pagesOf {start len addr : Nat} (hlow : start ≤ addr) (hhigh : addr < start + len) :
    addr / pageSize ∈ pagesOf start len := by
  rw [mem_pagesOf]
  unfold pageSize
  omega

/-- `write_bytes` to pages that can be written. -/
theorem writeBytes_ready (hb : Balanced pool p (fun x => h x + a.held x)) (hok : a.Ok p)
    (hpages : ∀ page ∈ pagesOf virt data.length, a.Ready page ∧ UserPage page) :
    ∃ p', writeBytes p a virt data = (p', a, true) ∧ Moves pool h (Moves.Among (pagesOf virt data.length)) p a p' a ∧
      a.readByte p' = poke (a.readByte p) virt data := by
  by_cases hempty : data = []
  · subst hempty
    refine ⟨p, rfl, Moves.refl hb, funext fun addr => ?_⟩
    exact (poke_of_outside (lt_or_ge _ _)).symm
  have hwrite : ∀ page ∈ pagesOf virt data.length, a.Ready page ∧ UserPage page ∧ virt / pageSize ≤ page :=
    fun page hpage => ⟨(hpages page hpage).1, (hpages page hpage).2, (mem_pagesOf.mp hpage).1⟩
  obtain ⟨p', hrun, hmoves, hread⟩ := writePages_ready (pagesOf virt data.length) hb hok hwrite
  refine ⟨p', ?_, hmoves, funext fun addr => ?_⟩
  · unfold writeBytes
    rw [if_neg fun hnil => hempty (isEmpty_iff.mp hnil)]
    exact hrun
  · by_cases hin : addr / pageSize ∈ pagesOf virt data.length
    · exact hread addr hin
    · rw [poke_of_outside]
      · by_cases hu : isUserRange addr 1 = true
        · refine hmoves.readByte hok.shaped fun ⟨r, hr, hsame⟩ => hin ?_
          exact eq_of_same hsame (hpages r hr).2.lt (page_lt hu) ▸ hr
        · have hu := eq_false_iff.mpr hu
          rw [readByte_of_not_user hu, readByte_of_not_user hu]
      · by_contra hrange
        exact hin (page_mem_pagesOf (by omega) (by omega))

/-- `write_bytes` stops at a first page without a frame. -/
theorem writeBytes_absent (hdata : data ≠ []) (h : a.Absent (virt / pageSize)) :
    writeBytes p a virt data = (p, a, false) := by
  have hpages : pagesOf virt data.length = virt / pageSize ::
      range' (virt / pageSize + 1) ((virt + data.length + pageSize - 1) / pageSize - virt / pageSize - 1) := by
    have hcount : (virt + data.length + pageSize - 1) / pageSize - virt / pageSize =
        ((virt + data.length + pageSize - 1) / pageSize - virt / pageSize - 1) + 1 := by
      have hlen : 0 < data.length := length_pos_iff.mpr hdata
      unfold pageSize
      omega
    unfold pagesOf
    rw [hcount, range'_succ, Nat.add_sub_cancel]
  have hresolve : resolveCow p a virt = (p, a, false) := by
    unfold resolveCow
    split_ifs
    · cases he : a.leaf (virt / pageSize) with
      | none => rfl
      | some e => exact if_neg (by rw [Pte.valid, h e he]; exact false_ne_true)
    · rfl
  have htranslate : a.translate virt = none := by
    unfold AddressSpace.translate
    split_ifs
    · cases he : a.leaf (virt / pageSize) with
      | none => rfl
      | some e =>
        rw [filter_some, if_neg (by rw [Pte.valid, h e he]; exact false_ne_true)]
        rfl
    · rfl
  unfold writeBytes
  rw [if_neg fun hnil => hdata (isEmpty_iff.mp hnil), hpages]
  unfold writePages
  dsimp only
  rw [max_eq_left (div_mul_le_self virt pageSize), hresolve]
  dsimp only
  rw [htranslate]

/-! ### Mapping -/

theorem leaf_makeEntry (p : Phys) (a : AddressSpace) (page q : Nat) : (makeEntry p a page).2.1.leaf q = a.leaf q :=
  Table.get_ensure 3 p a.tables page q

theorem lazyPages_leaf (entry : Pte) (pages : List Nat) (p : Phys) (a : AddressSpace) (q : Nat) :
    (lazyPages entry pages p a).2.1.leaf q = a.leaf q ∨ (lazyPages entry pages p a).2.1.leaf q = some entry := by
  induction pages generalizing p a with
  | nil => exact .inl rfl
  | cons page rest ih =>
    unfold lazyPages
    dsimp only
    split_ifs with hgo
    · rcases ih (deferLeaf _ _ _) (((makeEntry p a page).2.1).setLeaf page (some entry)) with hleaf | hleaf
      · by_cases hsame : Same page q
        · exact .inr (hleaf.trans (leaf_setLeaf_of_same (Moves.makeEntry_walks hgo) hsame))
        · exact .inl (hleaf.trans ((leaf_setLeaf_of_not_same hsame).trans (leaf_makeEntry ..)))
      · exact .inr hleaf
    · exact .inl (leaf_makeEntry ..)

theorem mapLazyProt_leaf (p : Phys) (a : AddressSpace) (start len : Nat) (region : LazyRegion) (prot : Prot) (q : Nat) :
    (mapLazyProt p a start len region prot).2.1.leaf q = a.leaf q ∨
      ∃ i, (mapLazyProt p a start len region prot).2.1.leaf q = some (Pte.lazyProt p.nx i prot) := by
  unfold mapLazyProt
  by_cases hu : isUserRange (start / pageSize * pageSize)
      ((start + len + pageSize - 1) / pageSize * pageSize - start / pageSize * pageSize) = true
  · rw [if_pos hu]
    exact (lazyPages_leaf _ (pagesOf start len) p _ q).imp id fun h => ⟨_, h⟩
  · rw [if_neg hu]
    exact .inl rfl

/-- A reservation gives no page a frame. -/
theorem absent_mapZero {q : Nat} (hq : a.Absent q) (p : Phys) (start len : Nat) : (mapZero p a start len).2.1.Absent q := by
  intro e he
  rcases mapLazyProt_leaf p a start len zeroRegion zeroRegion.prot q with hleaf | ⟨i, hleaf⟩
  · exact hq e (hleaf.symm.trans he)
  · cases hleaf.symm.trans he
    rfl

theorem allocPages_leaf (pages : List Nat) (p : Phys) (a : AddressSpace) (q : Nat) (htame : a.Tame q) :
    (allocPages pages p a).2.1.Tame q ∧ (a.Ready q → (allocPages pages p a).2.1.Ready q) ∧
      (¬ Moves.Among pages q → (allocPages pages p a).2.1.leaf q = a.leaf q) := by
  induction pages generalizing p a with
  | nil => exact ⟨htame, id, fun _ => rfl⟩
  | cons page rest ih =>
    have hmake := leaf_makeEntry p a page q
    have htame' : (makeEntry p a page).2.1.Tame q := fun e he => htame e (hmake.symm.trans he)
    have hready : a.Ready q → (makeEntry p a page).2.1.Ready q := fun ⟨e, he, hr⟩ => ⟨e, hmake.trans he, hr⟩
    unfold allocPages
    dsimp only
    split_ifs with hgo hvalid
    · obtain ⟨h₁, h₂, h₃⟩ := ih (makeEntry p a page).1 _ htame'
      exact ⟨h₁, fun hr => h₂ (hready hr), fun hn => (h₃ fun hr => hn (Moves.among_tail hr)).trans hmake⟩
    · cases halloc : (makeEntry p a page).1.allocZeroedFrame with
      | none => exact ⟨htame', hready, fun _ => hmake⟩
      | some f =>
        have hw := Moves.makeEntry_walks hgo
        by_cases hsame : Same page q
        · have hself := leaf_setLeaf_of_same (o := some (Pte.userPage f.1 true)) hw hsame
          obtain ⟨h₁, h₂, -⟩ := ih f.2 ((makeEntry p a page).2.1.setLeaf page (some (Pte.userPage f.1 true))) fun e he _ => by
            rw [hself] at he
            cases he
            rfl
          exact ⟨h₁, fun _ => h₂ ⟨_, hself, rfl, rfl⟩, fun hn => absurd (Moves.among_cons hsame) hn⟩
        · have hother := leaf_setLeaf_of_not_same (a := (makeEntry p a page).2.1) (o := some (Pte.userPage f.1 true)) hsame
          obtain ⟨h₁, h₂, h₃⟩ := ih f.2 ((makeEntry p a page).2.1.setLeaf page (some (Pte.userPage f.1 true)))
            fun e he => htame' e (hother.symm.trans he)
          refine ⟨h₁, fun hr => h₂ ?_, fun hn => (h₃ fun hr => hn (Moves.among_tail hr)).trans (hother.trans hmake)⟩
          obtain ⟨e, he, hr⟩ := hready hr
          exact ⟨e, hother.trans he, hr⟩
    · exact ⟨htame', hready, fun _ => hmake⟩

/-- Where `alloc_range` succeeds, its pages can be written. -/
theorem allocPages_ready (pages : List Nat) (p : Phys) (a : AddressSpace) (htame : ∀ page ∈ pages, a.Tame page)
    (hok : (allocPages pages p a).2.2 = true) : ∀ page ∈ pages, (allocPages pages p a).2.1.Ready page := by
  induction pages generalizing p a with
  | nil => exact fun page h => absurd h not_mem_nil
  | cons page rest ih =>
    have hmake : ∀ q, a.Tame q → (makeEntry p a page).2.1.Tame q := fun q h e he => h e ((leaf_makeEntry p a page q).symm.trans he)
    obtain ⟨hfirst, hrest⟩ := forall_mem_cons.mp htame
    unfold allocPages at hok ⊢
    dsimp only at hok ⊢
    split_ifs at hok ⊢ with hgo hvalid
    · refine forall_mem_cons.mpr ⟨?_, ih _ _ (fun q hq => hmake q (hrest q hq)) hok⟩
      obtain ⟨e, he, hpresent⟩ := (Option.any_eq_true _ _).mp hvalid
      exact (allocPages_leaf rest _ _ page (hmake page hfirst)).2.1 ⟨e, he, hpresent, hmake page hfirst e he hpresent⟩
    · cases halloc : (makeEntry p a page).1.allocZeroedFrame with
      | none =>
        rw [halloc] at hok
        cases hok
      | some f =>
        rw [halloc] at hok
        have hw := Moves.makeEntry_walks hgo
        have htame' : ∀ q, a.Tame q → ((makeEntry p a page).2.1.setLeaf page (some (Pte.userPage f.1 true))).Tame q := by
          intro q hq e he hpresent
          by_cases hsame : Same page q
          · cases (leaf_setLeaf_of_same hw hsame).symm.trans he
            rfl
          · exact hmake q hq e ((leaf_setLeaf_of_not_same hsame).symm.trans he) hpresent
        refine forall_mem_cons.mpr ⟨?_, ih _ _ (fun q hq => htame' q (hrest q hq)) hok⟩
        exact (allocPages_leaf rest _ _ page (htame' page hfirst)).2.1
          ⟨_, leaf_setLeaf_of_same hw (fun _ _ => rfl), rfl, rfl⟩

/-! ### Protecting -/

theorem absent_protectPage {page q : Nat} (hq : a.Absent q) (p : Phys) (prot : Prot) : (protectPage p prot a page).Absent q := by
  intro e he
  unfold AddressSpace.protectPage at he
  cases hpage : a.leaf page with
  | none =>
    rw [hpage] at he
    exact hq e he
  | some e' =>
    rw [hpage] at he
    by_cases hsame : Same page q
    · cases (leaf_setLeaf_of_same (walks_of_leaf hpage) hsame).symm.trans he
      have habsent := hq e' ((leaf_congr hsame).symm.trans hpage)
      unfold Pte.withProt
      split_ifs <;> exact habsent
    · exact hq e ((leaf_setLeaf_of_not_same hsame).symm.trans he)

/-- Pages stay writable under a protection that allows writing. -/
theorem ready_protectPage {page q : Nat} (hb : Balanced pool p (fun x => h x + a.held x)) (hok : a.Ok p) (hq : a.Ready q)
    {prot : Prot} (hwrite : prot.write = true) : (protectPage p prot a page).Ready q := by
  obtain ⟨e, he, hpresent, hwritable⟩ := hq
  unfold AddressSpace.protectPage
  cases hpage : a.leaf page with
  | none => exact ⟨e, he, hpresent, hwritable⟩
  | some e' =>
    by_cases hsame : Same page q
    · cases hpage.symm.trans ((leaf_congr hsame).trans he)
      refine ⟨_, leaf_setLeaf_of_same (walks_of_leaf hpage) hsame, ?_⟩
      have hcow : e.cow = false := by
        cases hc : e.cow with
        | false => rfl
        | true =>
          have := ((hok q e he).cow hc).2
          rw [hwritable] at this
          cases this
      have hshared : p.isShared e.addr = false := by
        refine eq_false_iff.mpr fun hs => ?_
        exact (hb.isShared_iff e.addr).mp hs ((hok q e he).sole hpresent hwritable)
      unfold Pte.withProt
      rw [hcow, hshared, Bool.and_false, Bool.or_false, Bool.and_false, if_neg Bool.false_ne_true]
      exact ⟨hpresent, hwrite⟩
    · exact ⟨e, (leaf_setLeaf_of_not_same hsame).trans he, hpresent, hwritable⟩

theorem protectRange_pages {start len : Nat} {prot : Prot} (hb : Balanced pool p (fun x => h x + a.held x)) (hok : a.Ok p)
    (hwrite : prot.write = true) (q : Nat) : (a.Absent q → (protectRange p a start len prot).Absent q) ∧
      (a.Ready q → (protectRange p a start len prot).Ready q) := by
  unfold protectRange
  dsimp only
  split_ifs
  · generalize pagesOf start len = pages
    induction pages generalizing a with
    | nil => exact ⟨id, id⟩
    | cons page rest ih =>
      have hstep := Moves.protectPage hb prot page
      obtain ⟨hleft, hright⟩ := ih hstep.books (hstep.ok hok)
      exact ⟨fun hq => hleft (absent_protectPage hq p prot), fun hq => hright (ready_protectPage hb hok hq hwrite)⟩
  · exact ⟨id, id⟩

end Moves

/-! ### Enough memory -/

/-- At least `n` frames are free. -/
def Phys.Room (p : Phys) (n : Nat) : Prop :=
  n ≤ p.allocator.freeFrames ∧ n ≤ ((Finset.range p.allocator.limit).filter fun f => p.allocator.bitmap f).card

namespace Phys.Room

variable {p : Phys} {a : AddressSpace} {n m : Nat}

theorem mono (h : p.Room n) (hle : m ≤ n) : p.Room m := ⟨hle.trans h.1, hle.trans h.2⟩

/-- A free frame is found. -/
theorem pick (h : p.Room (n + 1)) : ∃ f, p.allocator.pick = some f ∧ f < p.allocator.limit := by
  obtain ⟨f, hf⟩ := Finset.card_pos.mp (lt_of_lt_of_le (succ_pos n) h.2)
  obtain ⟨hlimit, hfree⟩ := Finset.mem_filter.mp hf
  have hlimit := Finset.mem_range.mp hlimit
  have hword : ∃ g, p.allocator.firstOfWord (f / 64) = some g ∧ g ≤ f := by
    have hbit : p.allocator.bitmap (f / 64 * 64 + f % 64) = true := by
      rw [div_add_mod']
      exact hfree
    have hsome : ((range 64).find? fun bit => p.allocator.bitmap (f / 64 * 64 + bit)).isSome :=
      find?_isSome.mpr ⟨f % 64, mem_range.mpr (mod_lt _ (by decide)), hbit⟩
    obtain ⟨bit, hfind⟩ := isSome_iff_exists.mp hsome
    obtain ⟨-, -, hmin⟩ := find?_range_eq_some.mp hfind
    have hle : bit ≤ f % 64 := by
      by_contra hlt
      have := hmin (f % 64) (Nat.lt_of_not_le hlt)
      rw [hbit] at this
      cases this
    unfold firstOfWord
    rw [hfind]
    refine ⟨f / 64 * 64 + bit, rfl, ?_⟩
    omega
  obtain ⟨g, hg, hgf⟩ := hword
  have hwords : f / 64 < p.allocator.words := by
    unfold words
    omega
  generalize hstart : min (p.allocator.nextFree / 64) (p.allocator.words - 1) = start
  have hstep : (start + (f / 64 + p.allocator.words - start) % p.allocator.words) % p.allocator.words = f / 64 := by
    rw [add_mod_mod, show start + (f / 64 + p.allocator.words - start) = f / 64 + p.allocator.words by omega,
      add_mod_right, mod_eq_of_lt hwords]
  have hfound : p.allocator.pick.isSome := by
    unfold BitmapFrameAllocator.pick
    rw [hstart]
    refine findSome?_isSome_iff.mpr ⟨(f / 64 + p.allocator.words - start) % p.allocator.words,
      mem_range.mpr ((mod_lt _ (by omega)).trans (lt_succ_self _)), ?_⟩
    rw [hstep, hg, filter_some, if_pos (decide_eq_true (hgf.trans_lt hlimit))]
    rfl
  obtain ⟨r, hr⟩ := isSome_iff_exists.mp hfound
  obtain ⟨step, -, hval⟩ := exists_of_findSome?_eq_some hr
  exact ⟨r, hr, of_decide_eq_true (filter_eq_some_iff.mp hval).2⟩

/-- The allocation of a frame succeeds and takes one. -/
theorem allocWith (h : p.Room (n + 1)) (page : Page) : ∃ r, p.allocWith page = some r ∧ r.2.Room n := by
  obtain ⟨f, hpick, hlimit⟩ := h.pick
  have hfree := pick_free hpick
  have hne : ¬ (p.allocator.freeFrames = 0 ∨ p.allocator.limit = 0) := by
    have := h.1
    omega
  unfold Phys.allocWith allocFrame alloc
  rw [if_neg hne, hpick]
  refine ⟨_, rfl, ?_, ?_⟩
  · show n ≤ p.allocator.freeFrames - 1
    have := h.1
    omega
  · show n ≤ ((Finset.range p.allocator.limit).filter fun g => update p.allocator.bitmap f false g).card
    have herase : ((Finset.range p.allocator.limit).filter fun g => update p.allocator.bitmap f false g) =
        ((Finset.range p.allocator.limit).filter fun g => p.allocator.bitmap g).erase f := by
      ext g
      rw [Finset.mem_erase, Finset.mem_filter, Finset.mem_filter]
      by_cases hg : g = f
      · subst hg
        rw [update_self]
        exact ⟨fun hx => absurd hx.2 false_ne_true, fun hx => absurd rfl hx.1⟩
      · rw [update_of_ne hg]
        exact ⟨fun hx => ⟨hg, hx⟩, And.right⟩
    rw [herase, Finset.card_erase_of_mem (Finset.mem_filter.mpr ⟨Finset.mem_range.mpr hlimit, hfree⟩)]
    have := h.2
    omega

theorem ensure (k : Nat) (h : p.Room (n + k)) (t : Table Pte k) (page : Nat) :
    (Table.ensure index Phys.allocZeroedFrame k p t page).2.2 = true ∧
      (Table.ensure index Phys.allocZeroedFrame k p t page).1.Room n := by
  induction k generalizing p with
  | zero => exact ⟨rfl, h⟩
  | succ k ih =>
    unfold Table.ensure
    cases Dir.get t (index (k + 1) page) with
    | some t' => exact ih (h.mono (le_succ _)) t'
    | none =>
      obtain ⟨r, halloc, hroom⟩ := allocWith h zeroPage
      rw [show p.allocZeroedFrame = some r from halloc]
      exact ih hroom _

theorem makeEntry (h : p.Room (n + 3)) (page : Nat) :
    (makeEntry p a page).2.2 = true ∧ (AddressSpace.makeEntry p a page).1.Room n := ensure 3 h a.tables page

theorem deferLeaf (h : p.Room n) (root : Nat) (o : Option Pte) : (deferLeaf p root o).Room n := by
  unfold AddressSpace.deferLeaf
  cases o with
  | none => exact h
  | some e =>
    dsimp only
    split_ifs
    · exact h
    · exact h

theorem lazyPages (entry : Pte) (pages : List Nat) (h : p.Room (n + 3 * pages.length)) :
    (lazyPages entry pages p a).2.2 = true ∧ (AddressSpace.lazyPages entry pages p a).1.Room n := by
  induction pages generalizing p a with
  | nil => exact ⟨rfl, h⟩
  | cons page rest ih =>
    obtain ⟨hok, hroom⟩ : (AddressSpace.makeEntry p a page).2.2 = true ∧ (AddressSpace.makeEntry p a page).1.Room
        (n + 3 * rest.length) := makeEntry h page
    unfold AddressSpace.lazyPages
    rw [if_pos hok]
    exact ih (hroom.deferLeaf _ _)

theorem allocPages (pages : List Nat) (h : p.Room (n + 4 * pages.length)) :
    (allocPages pages p a).2.2 = true ∧ (AddressSpace.allocPages pages p a).1.Room n := by
  induction pages generalizing p a with
  | nil => exact ⟨rfl, h⟩
  | cons page rest ih =>
    obtain ⟨hok, hroom⟩ : (AddressSpace.makeEntry p a page).2.2 = true ∧ (AddressSpace.makeEntry p a page).1.Room
        (n + 4 * rest.length + 1) := makeEntry h page
    unfold AddressSpace.allocPages
    rw [if_pos hok]
    split_ifs
    · exact ih (hroom.mono (le_succ _))
    · obtain ⟨r, halloc, hnext⟩ := allocWith hroom zeroPage
      rw [show (AddressSpace.makeEntry p a page).1.allocZeroedFrame = some r from halloc]
      exact ih hnext

end Phys.Room

end HamixOS.Kernel
