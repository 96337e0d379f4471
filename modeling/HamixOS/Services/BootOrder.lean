import HamixOS.Lib.Text
import Mathlib.Data.List.GetD
import Mathlib.Data.Finset.Card

open HamixOS.Lib List List
open Relation (TransGen ReflTransGen)

namespace HamixOS.Services

/-!
# The order of the units at boot (`unit.rs`)

`boot_order` walks the units depth first: what a unit is to come after is visited before the unit is put into the
order.  The units on the way are those of `path`; each of them leads to the unit that is visited.

* `Walked` — what holds of the walk while `path` is on the way;
* `visit_spec` — a visit keeps it, with the unit in the order or on the way afterwards;
* `boot_order` — every unit has its place, behind those it is to come after.
-/

/-- The fields of `Unit` that `boot_order` reads. -/
structure BootUnit where
  name : Text
  after : List Text
  deriving DecidableEq, Inhabited

/-- A unit is untouched (0), on the way (1) or in the order (2). -/
structure Walk where
  state : List Nat
  order : List Nat
  deriving DecidableEq

section Model

variable (units : List BootUnit)

/-- The places of the units that unit `i` is to come after; a name that no unit has is passed over. -/
def dependencies (i : Nat) : List Nat :=
  (units.getD i default).after.filterMap fun dep => units.findIdx? fun u => u.name = dep

/-- `visit`, for as many levels of calls. -/
def visit : (levels : Nat) → Walk → (i : Nat) → Option Walk
  | 0, _, _ => none
  | levels + 1, s, i =>
    if s.state.getD i 0 ≠ 0 then some s
    else do
      let s ← (dependencies units i).foldlM (visit levels) { s with state := s.state.set i 1 }
      some ⟨s.state.set i 2, s.order ++ [i]⟩

def bootOrder (levels : Nat) : Option (List Nat) := do
  let s ← (List.range units.length).foldlM (visit units levels) ⟨List.replicate units.length 0, []⟩
  some s.order

/-- Unit `i` lists unit `j`. -/
def Lists (i j : Nat) : Prop := j < units.length ∧ (units.getD j default).name ∈ (units.getD i default).after

end Model

variable {units : List BootUnit} {path : List Nat} {s : Walk} {i j : Nat}

theorem lists_iff (hnames : (units.map BootUnit.name).Nodup) : Lists units i j ↔ j ∈ dependencies units i := by
  simp only [dependencies, mem_filterMap, findIdx?_eq_some_iff_getElem, decide_eq_true_eq]
  constructor
  · -- names are unique, so that the first unit of a name is the one
    rintro ⟨hlt, hmem⟩
    rw [getD_eq_getElem _ _ hlt] at hmem
    refine ⟨_, hmem, hlt, rfl, fun k hk hname => hk.ne ?_⟩
    refine (getElem?_inj (by simpa using hk.trans hlt) hnames).mp ?_
    rw [getElem?_map, getElem?_map, getElem?_eq_getElem (hk.trans hlt), getElem?_eq_getElem hlt]
    exact congrArg some (by simpa using hname)
  · rintro ⟨dep, hdep, hlt, rfl, -⟩
    exact ⟨hlt, by rwa [getD_eq_getElem _ _ hlt]⟩

/-- The walk with the units of `path` on the way: what a unit lists is before it in the order, or leads back to it. -/
structure Walked (units : List BootUnit) (path : List Nat) (s : Walk) : Prop where
  length : s.state.length = units.length
  state : ∀ k, s.state.getD k 0 = if k ∈ path then 1 else if k ∈ s.order then 2 else 0
  distinct : path.Nodup
  once : s.order.Nodup
  apart : ∀ k ∈ path, k ∉ s.order
  sorted : ∀ i ∈ s.order, ∀ j, Lists units i j → [j, i].Sublist s.order ∨ TransGen (Lists units) j i

theorem getD_set (l : List Nat) (v k : Nat) (hi : i < l.length) : (l.set i v).getD k 0 = if k = i then v else l.getD k 0 := by
  rw [getD_eq_getElem?_getD, getElem?_set]
  by_cases hk : k = i
  · rw [if_pos hk.symm, if_pos hk, if_pos hi]
    rfl
  · rw [if_neg (Ne.symm hk), if_neg hk, getD_eq_getElem?_getD]

namespace Walked

section

variable (h : Walked units path s)

include h

theorem lt (hk : s.state.getD i 0 ≠ 0) : i < units.length := by
  rw [← h.length]
  by_contra hle
  exact hk (getD_eq_default _ _ (not_lt.mp hle))

theorem path_lt (hk : i ∈ path) : i < units.length :=
  h.lt (by rw [h.state, if_pos hk]; decide)

theorem order_lt (hk : i ∈ s.order) : i < units.length :=
  h.lt (by rw [h.state, if_neg fun hp => h.apart i hp hk, if_pos hk]; decide)

/-- No more units are on the way than there are. -/
theorem length_path_le : path.length ≤ units.length := by
  have hsub : path.toFinset ⊆ Finset.range units.length := fun k hk =>
    Finset.mem_range.mpr (h.path_lt (mem_toFinset.mp hk))
  calc path.length = path.toFinset.card := (toFinset_card_of_nodup h.distinct).symm
    _ ≤ (Finset.range units.length).card := Finset.card_le_card hsub
    _ = units.length := Finset.card_range _

theorem enter (hi : i < units.length) (hpath : i ∉ path) (horder : i ∉ s.order) :
    Walked units (i :: path) { s with state := s.state.set i 1 } where
  length := by rw [length_set, h.length]
  state k := by
    rw [getD_set _ _ _ (h.length ▸ hi), h.state]
    by_cases hk : k = i
    · rw [if_pos hk, if_pos (hk ▸ mem_cons_self)]
    · simp [hk]
  distinct := nodup_cons.mpr ⟨hpath, h.distinct⟩
  once := h.once
  apart := forall_mem_cons.mpr ⟨horder, h.apart⟩
  sorted := h.sorted

end

/-- A unit is put into the order when what it lists is in the order or on the way to it. -/
theorem finish (h : Walked units (i :: path) s) (hleads : ∀ k ∈ path, TransGen (Lists units) k i)
    (hlisted : ∀ j, Lists units i j → j ∈ i :: path ∨ j ∈ s.order) :
    Walked units path ⟨s.state.set i 2, s.order ++ [i]⟩ where
  length := by rw [length_set, h.length]
  state k := by
    have hi := h.path_lt mem_cons_self
    rw [getD_set _ _ _ (h.length ▸ hi), h.state]
    by_cases hk : k = i
    · have hnot := (nodup_cons.mp h.distinct).1
      rw [if_pos hk, if_neg (hk ▸ hnot), if_pos (hk ▸ mem_append_right _ (mem_singleton_self _))]
    · simp [hk]
  distinct := (nodup_cons.mp h.distinct).2
  once := nodup_append.mpr ⟨h.once, nodup_singleton i, fun k hk k' hk' heq =>
    h.apart i mem_cons_self (mem_singleton.mp hk' ▸ heq ▸ hk)⟩
  apart k hk hmem := by
    obtain hmem | hmem := mem_append.mp hmem
    · exact h.apart k (mem_cons_of_mem _ hk) hmem
    · exact (nodup_cons.mp h.distinct).1 (mem_singleton.mp hmem ▸ hk)
  sorted k hk j hj := by
    obtain hk | hk := mem_append.mp hk
    · exact (h.sorted k hk j hj).imp_left fun hsub => hsub.trans (sublist_append_left _ _)
    · obtain rfl := mem_singleton.mp hk
      obtain hmem | hmem := hlisted j hj
      · -- what is still on the way leads back to the unit
        obtain rfl | hmem := mem_cons.mp hmem
        · exact .inr (.single hj)
        · exact .inr (hleads j hmem)
      · exact .inl ((singleton_sublist.mpr hmem).append (List.Sublist.refl [k]))

end Walked

/-- What a visit of `j` does to the walk. -/
def Visits (units : List BootUnit) (path : List Nat) (s : Walk) (js : List Nat) (r : Option Walk) : Prop :=
  ∃ s', r = some s' ∧ Walked units path s' ∧ s.order ⊆ s'.order ∧ ∀ j ∈ js, j ∈ path ∨ j ∈ s'.order

theorem foldlM_visits {f : Walk → Nat → Option Walk} {js : List Nat}
    (hf : ∀ s, Walked units path s → ∀ j ∈ js, Visits units path s [j] (f s j)) (h : Walked units path s) :
    Visits units path s js (js.foldlM f s) := by
  induction js generalizing s with
  | nil => exact ⟨s, rfl, h, List.Subset.refl _, fun _ hj => nomatch hj⟩
  | cons j js ih =>
    obtain ⟨s₁, hrun, hwalked, hmore, hj⟩ := hf s h j mem_cons_self
    obtain ⟨s₂, hrest, hend, hmore', hjs⟩ := ih (fun s hs k hk => hf s hs k (mem_cons_of_mem _ hk)) hwalked
    refine ⟨s₂, ?_, hend, fun k hk => hmore' (hmore hk), forall_mem_cons.mpr ⟨?_, hjs⟩⟩
    · rw [foldlM_cons, hrun]
      exact hrest
    · exact (hj j (mem_singleton_self j)).imp_right fun hmem => hmore' hmem

/-- A visit ends, because a unit that is on the way is not visited again. -/
theorem visit_spec (hnames : (units.map BootUnit.name).Nodup) {levels : Nat} (h : Walked units path s)
    (hi : i < units.length) (hleads : ∀ k ∈ path, TransGen (Lists units) k i)
    (hlevels : units.length < levels + path.length) : Visits units path s [i] (visit units levels s i) := by
  -- each level of calls has one more unit on the way, and there are no more than all of them
  induction levels generalizing path s i with
  | zero => exact absurd h.length_path_le (by omega)
  | succ levels ih =>
    rw [visit]
    by_cases hpath : i ∈ path
    · rw [h.state, if_pos hpath]
      exact ⟨s, rfl, h, List.Subset.refl _, by simp [hpath]⟩
    · by_cases horder : i ∈ s.order
      · rw [h.state, if_neg hpath, if_pos horder]
        exact ⟨s, rfl, h, List.Subset.refl _, by simp [horder]⟩
      · rw [h.state, if_neg hpath, if_neg horder, if_neg (not_not.mpr rfl)]
        have hstep : ∀ s, Walked units (i :: path) s → ∀ j ∈ dependencies units i,
            Visits units (i :: path) s [j] (visit units levels s j) := by
          intro s hs j hj
          have hlists := (lists_iff hnames).mpr hj
          refine ih hs hlists.1 (fun k hk => ?_) (by rw [length_cons]; omega)
          obtain rfl | hk := mem_cons.mp hk
          · exact .single hlists
          · exact .tail (hleads k hk) hlists
        obtain ⟨s₁, hrun, hwalked, hmore, hlisted⟩ := foldlM_visits hstep (h.enter hi hpath horder)
        rw [hrun]
        refine ⟨_, rfl, hwalked.finish hleads fun j hj => hlisted j ((lists_iff hnames).mp hj), fun k hk => ?_, fun k hk => ?_⟩
        · exact mem_append_left _ (hmore hk)
        · exact .inr (mem_append_right _ hk)

/-- Every unit has one place in the order, behind the units it lists that do not lead back to it. -/
theorem boot_order (units : List BootUnit) (hnames : (units.map BootUnit.name).Nodup) :
    ∃ order, bootOrder units (units.length + 1) = some order ∧ order.Perm (List.range units.length) ∧
      ∀ i j, i < units.length → Lists units i j → ¬ TransGen (Lists units) j i → [j, i].Sublist order := by
  have hstart : Walked units [] ⟨List.replicate units.length 0, []⟩ := by
    refine ⟨length_replicate, fun k => ?_, nodup_nil, nodup_nil, ?_, ?_⟩
    · rw [getD_eq_getElem?_getD, getElem?_replicate]
      split <;> rfl
    · exact fun k hk => nomatch hk
    · exact fun k hk => nomatch hk
  obtain ⟨s, hrun, hwalked, -, hall⟩ := foldlM_visits (f := visit units (units.length + 1))
    (fun s hs j (hj : j ∈ List.range units.length) => visit_spec hnames hs (mem_range.mp hj) (fun k hk => absurd hk not_mem_nil) (Nat.lt_succ_self _)) hstart
  have hmem : ∀ k, k ∈ s.order ↔ k ∈ List.range units.length := fun k =>
    ⟨fun hk => mem_range.mpr (hwalked.order_lt hk), fun hk => (hall k hk).resolve_left not_mem_nil⟩
  refine ⟨s.order, by rw [bootOrder, hrun]; rfl, (perm_ext_iff_of_nodup hwalked.once nodup_range).mpr hmem,
    fun i j hi hlists hback => ?_⟩
  exact (hwalked.sorted i ((hmem i).mpr (mem_range.mpr hi)) j hlists).resolve_right hback

/-- A cycle beside a unit that others are to come after. -/
theorem boot_order_cycle : ∃ order, bootOrder [⟨['a'], [['b'], ['c']]⟩, ⟨['b'], [['a']]⟩, ⟨['c'], []⟩] 4 = some order ∧
    order.Perm (List.range 3) := by
  obtain ⟨order, hrun, hperm, -⟩ := boot_order [⟨['a'], [['b'], ['c']]⟩, ⟨['b'], [['a']]⟩, ⟨['c'], []⟩] (by decide)
  exact ⟨order, hrun, hperm⟩

end HamixOS.Services
