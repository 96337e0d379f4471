import HamixOS.Pantry.Solver

open HamixOS.Lib List Option
open Relation (TransGen ReflTransGen)

namespace HamixOS.Pantry.Request

/-!
# The order of a plan (`ops.rs`)

While the dependencies of a package are walked, the packages in `visiting` are those on the way to it and those
that a failed walk has left there (`dead`), which no plan ever takes up.

* `Ordered` — what holds of the solver at any time, and `addWithin_ordered`, that a walk keeps it;
* `run_keeps` — a plan keeps whatever `add` keeps.
-/

variable {p : Request} {dead : Finset Nat} {s s' : Solver} {i j index : Nat}

section Order

variable (p) (dead) (s)

/-- `provider` finds `j` for a dependency of `i`. -/
def Selects (i j : Nat) : Prop :=
  ∃ dep ∈ (p.cat.pkg i).depends, (parseDep dep).conflict = false ∧ p.cat.provider (parseDep dep) = some j

/-- `i` and `j` lie on a common cycle of dependencies. -/
def Cyclic (i j : Nat) : Prop := TransGen p.Selects i j ∧ TransGen p.Selects j i

/-- `j` comes before `i`. -/
def Before (l : List Nat) (j i : Nat) : Prop := ∃ l₁ l₂, l = l₁ ++ i :: l₂ ∧ j ∈ l₁

/-- What can have become of `i` and `j`, where `j` served a dependency of `i`. -/
def Settled (i j : Nat) : Prop :=
  Before s.order j i ∨ p.Cyclic i j ∨ p.kept j = true ∨ j ∈ dead ∨ (i ∈ s.visiting ∧ j ∈ s.order)

structure Ordered : Prop where
  nodup : s.order.Nodup
  planned : ∀ i, i ∈ s.planned ↔ i ∈ s.order
  apart : ∀ i ∈ s.visiting, i ∉ s.order
  kept : ∀ i ∈ s.order, p.kept i = false
  gone : dead ⊆ s.visiting
  served : ∀ i j, (i, j) ∈ s.served → p.Settled dead s i j

end Order

section

variable (h : p.Ordered dead s)

include h

theorem Ordered.enter (hnot : index ∉ s.planned) : p.Ordered dead (s.enter index) where
  nodup := h.nodup
  planned := h.planned
  apart := Finset.forall_mem_insert _ _ _ |>.mpr ⟨mt (h.planned index).mpr hnot, h.apart⟩
  kept := h.kept
  gone := h.gone.trans (Finset.subset_insert ..)
  served i j hij := by
    obtain hbefore | hcyclic | hkept | hdead | ⟨hi, hj⟩ := h.served i j hij
    · exact .inl hbefore
    · exact .inr (.inl hcyclic)
    · exact .inr (.inr (.inl hkept))
    · exact .inr (.inr (.inr (.inl hdead)))
    · exact .inr (.inr (.inr (.inr ⟨Finset.mem_insert_of_mem hi, hj⟩)))

/-- What served a package comes before it when it is planned. -/
theorem Ordered.finish (hin : index ∈ s.visiting) (hdead : index ∉ dead) (hkept : p.kept index = false) :
    p.Ordered dead (s.finish index) where
  nodup := by
    refine nodup_append.mpr ⟨h.nodup, nodup_singleton index, fun i hi k hk heq => ?_⟩
    rw [heq, mem_singleton.mp hk] at hi
    exact h.apart index hin hi
  planned i := by
    show i ∈ insert index s.planned ↔ i ∈ s.order ++ [index]
    rw [Finset.mem_insert, mem_append, mem_singleton, h.planned, or_comm]
  apart i hi hmem := by
    obtain ⟨hne, hi⟩ := Finset.mem_erase.mp hi
    obtain hmem | hmem := mem_append.mp hmem
    · exact h.apart i hi hmem
    · exact hne (mem_singleton.mp hmem)
  kept i hi := by
    obtain hi | hi := mem_append.mp hi
    · exact h.kept i hi
    · rw [mem_singleton.mp hi]
      exact hkept
  gone k hk := Finset.mem_erase.mpr ⟨fun heq => hdead (heq ▸ hk), h.gone hk⟩
  served i j hij := by
    obtain ⟨l₁, l₂, heq, hj⟩ | hcyclic | hkept | hdead | ⟨hi, hj⟩ := h.served i j hij
    · refine .inl ⟨l₁, l₂ ++ [index], ?_, hj⟩
      show s.order ++ [index] = _
      rw [heq, append_assoc, cons_append]
    · exact .inr (.inl hcyclic)
    · exact .inr (.inr (.inl hkept))
    · exact .inr (.inr (.inr (.inl hdead)))
    · -- what served the package that is put into the order is in the order already
      by_cases heq : i = index
      · exact .inl ⟨s.order, [], heq ▸ rfl, hj⟩
      · exact .inr (.inr (.inr (.inr ⟨Finset.mem_erase.mpr ⟨heq, hi⟩, mem_append_left _ hj⟩)))

theorem Ordered.note {js : List Nat} (hjs : ∀ j ∈ js, p.Settled dead s index j) :
    p.Ordered dead (s.note index js) where
  nodup := h.nodup
  planned := h.planned
  apart := h.apart
  kept := h.kept
  gone := h.gone
  served i j hij := by
    obtain hij | hij := mem_append.mp hij
    · exact h.served i j hij
    · obtain ⟨k, hk, heq⟩ := mem_map.mp hij
      cases heq
      exact hjs j hk

end

section Walk

variable {f : Solver → Nat → Reply Unit} {name : Text} {levels : Nat} {r : Except Text Unit × Solver}

/-- The packages in `visiting` lead to `index`, but for those that a walk has left there. -/
def Leads (p : Request) (dead : Finset Nat) (s : Solver) (index : Nat) : Prop :=
  ∀ k ∈ s.visiting, k ∈ dead ∨ TransGen p.Selects k index

/-- What an `add` does to a solver in order. -/
structure Adds (p : Request) (dead : Finset Nat) (s : Solver) (index : Nat) (r : Except Text Unit × Solver) : Prop where
  ordered : p.Ordered dead r.2
  grown : Grown s r
  answer : r.1 = .ok () → index ∈ r.2.order ∨ p.kept index = true ∨ index ∈ s.visiting

theorem walk_ordered (hf : ∀ s j r, p.Ordered dead s → p.Leads dead s j → f s j = some r → p.Adds dead s j r) {deps : List Text}
    (hdeps : deps ⊆ (p.cat.pkg index).depends) (h : p.Ordered dead s) (hin : index ∈ s.visiting)
    (hleads : ∀ k ∈ s.visiting, k ∈ dead ∨ ReflTransGen p.Selects k index) (hr : p.walk f index name deps s = some r) :
    p.Ordered dead r.2 := by
  induction deps generalizing s with
  | nil =>
    cases hr
    exact h
  | cons dep deps ih =>
    obtain ⟨hdep, hdeps⟩ := List.cons_subset.mp hdeps
    rw [walk] at hr
    split at hr
    case h_1 s₁ hwant =>
      obtain ⟨e, heq⟩ | ⟨heq, hservers⟩ | ⟨j, hconflict, hprovider, hservers, hj⟩ := want_cases hwant
      · cases heq
      · -- what there is serves the dependency
        cases heq
        exact ih hdeps (h.note fun j hj => .inr (.inr (.inr (.inr ⟨hin, hservers j hj⟩)))) hin hleads hr
      · have hselects : p.Selects index j := ⟨dep, hdep, hconflict, hprovider⟩
        obtain ⟨hordered, hgrown, hanswer⟩ := hf s j _ h (fun k hk => (hleads k hk).imp_right fun hk => .tail' hk hselects) hj
        have hsame : s₁.visiting = s.visiting := hgrown.restored rfl
        refine ih hdeps (hordered.note fun k hk => ?_) (hsame ▸ hin) (hsame ▸ hleads) hr
        rw [hservers, mem_singleton] at hk
        subst hk
        obtain hk | hk | hk := hanswer rfl
        · exact .inr (.inr (.inr (.inr ⟨hsame ▸ hin, hk⟩)))
        · exact .inr (.inr (.inl hk))
        · -- the provider is on the way to `index` itself
          obtain hk | hk := hleads k hk
          · exact .inr (.inr (.inr (.inl hk)))
          · exact .inr (.inl ⟨.single hselects, .trans_right hk (.trans_left (.single hselects) hk)⟩)
    case h_2 =>
      obtain ⟨e, rfl⟩ | ⟨rfl, -⟩ | ⟨j, hconflict, hprovider, -, hj⟩ := want_cases hr
      · exact h
      · exact h
      · refine (hf s j _ h (fun k hk => (hleads k hk).imp_right fun hk => ?_) hj).ordered
        exact .tail' hk ⟨dep, hdep, hconflict, hprovider⟩

theorem addWithin_ordered (h : p.Ordered dead s) (hleads : p.Leads dead s index) (hr : p.addWithin levels s index = some r) :
    p.Adds dead s index r := by
  induction levels generalizing s index r with
  | zero => cases hr
  | succ levels ih =>
    have hgrown := addWithin_grown hr
    obtain ⟨rfl, hwhy⟩ | ⟨hplanned, hvisiting, hkept, a, hwalk, hend⟩ := addWithin_cases hr
    · refine ⟨h, hgrown, fun _ => ?_⟩
      rw [h.planned] at hwhy
      exact hwhy.imp_right Or.symm
    · have hin : index ∈ (s.enter index).visiting := Finset.mem_insert_self ..
      have hwalked := walk_ordered (fun s j r => ih) (List.Subset.refl _) (h.enter hplanned) hin (fun k hk => ?_) hwalk
      · obtain ⟨e, he, rfl⟩ | ⟨ha, rfl⟩ := hend
        · refine ⟨hwalked, hgrown, fun hok => ?_⟩
          rw [he] at hok
          cases hok
        · have hstill := (walk_grown (fun s j r => addWithin_grown) hwalk).visiting hin
          have hdead : index ∉ dead := fun hd => hvisiting (h.gone hd)
          exact ⟨hwalked.finish hstill hdead hkept, hgrown, fun _ => .inl (mem_append_right _ (mem_singleton_self _))⟩
      · obtain rfl | hk := Finset.mem_insert.mp hk
        · exact .inr .refl
        · exact (hleads k hk).imp_right TransGen.to_reflTransGen

end Walk

/-! ### A plan keeps what `add` keeps -/

section Keeps

variable {I : Solver → Prop} (hadd : ∀ s i r, I s → p.add s i = some r → I r.2)
include hadd

section

variable (hs : I s)

include hs

theorem tryWant_keeps {token : Text} (h : p.tryWant token s = some s') : I s' := by
  obtain ⟨r, hr, rfl⟩ := map_eq_some_iff.mp h
  obtain ⟨e, rfl⟩ | ⟨rfl, -⟩ | ⟨j, -, -, -, hj⟩ := want_cases hr
  · exact hs
  · exact hs
  · exact hadd s j r hs hj

theorem recommend_keeps {l : List (Text × Text × Text)} (h : p.recommend l s = some s') : I s' := by
  induction l generalizing s with
  | nil =>
    cases h
    exact hs
  | cons x l ih =>
    rw [recommend] at h
    split_ifs at h
    · obtain ⟨s₁, h₁, h⟩ := bind_eq_some_iff.mp h
      exact ih (tryWant_keeps hadd hs h₁) h
    · exact ih hs h

theorem extras_keeps (h : p.extras s = some s') : I s' := by
  obtain ⟨s₂, h₂, h⟩ := bind_eq_some_iff.mp h
  obtain ⟨s₁, h₁, h₂⟩ := bind_eq_some_iff.mp h₂
  have hs₁ := recommend_keeps hadd hs h₁
  have hs₂ : I s₂ := by
    unfold wantX at h₂
    split_ifs at h₂
    · exact tryWant_keeps hadd hs₁ h₂
    · cases h₂
      exact hs₁
  unfold wantBus at h
  split_ifs at h
  · have htry : ∀ x t, p.want p.add "dbus".toList [] s₂ = some (x, t) → I t := fun x t ht =>
      tryWant_keeps hadd hs₂ (by rw [tryWant, ht]; rfl)
    split at h
    · exact tryWant_keeps hadd (htry _ _ ‹_›) h
    · cases h
      exact htry _ _ ‹_›
    · cases h
  · cases h
    exact hs₂

theorem round_keeps {rest : List Nat} {added : Bool} {x : Except Text Bool × Solver}
    (h : p.round rest added s = some x) : I x.2 := by
  induction rest generalizing s added with
  | nil =>
    cases h
    exact hs
  | cons i rest ih =>
    rw [round] at h
    split_ifs at h
    · split at h
      · exact ih (hadd s i _ hs ‹_›) h
      · cases h
        exact hadd s i _ hs ‹_›
      · cases h
    · exact ih hs h

theorem addInstallIf_keeps {rounds : Nat} {r : Except Text Unit × Solver}
    (h : p.addInstallIf rounds s = some r) : I r.2 := by
  induction rounds generalizing s with
  | zero => cases h
  | succ rounds ih =>
    rw [addInstallIf] at h
    split at h
    · exact ih (round_keeps hadd hs ‹_›) h
    · cases h
      exact round_keeps hadd hs ‹_›
    · cases h
      exact round_keeps hadd hs ‹_›
    · cases h

theorem addTargets_keeps {targets : List Text} {r : Except Text Unit × Solver}
    (h : p.addTargets targets s = some r) : I r.2 := by
  induction targets generalizing s with
  | nil =>
    cases h
    exact hs
  | cons target targets ih =>
    rw [addTargets] at h
    split at h
    · cases h
      exact hs
    · split at h
      · exact ih (hadd s _ _ hs ‹_›) h
      · exact hadd s _ _ hs h

end

theorem run_keeps {rounds : Nat} {targets : List Text} {r : Except Text Unit × Solver} (hs : I start)
    (h : p.run rounds targets = some r) : I r.2 := by
  rw [run] at h
  split at h
  · have hs₁ := addTargets_keeps hadd hs ‹_›
    split at h
    · obtain ⟨s₂, hextras, h⟩ := bind_eq_some_iff.mp h
      exact addInstallIf_keeps hadd (extras_keeps hadd (addInstallIf_keeps hadd hs₁ ‹_›) hextras) h
    · exact addInstallIf_keeps hadd hs₁ h
  · exact addTargets_keeps hadd hs h

end Keeps

/-- A plan has each package once, and what served a dependency of a package comes before it, unless they are on a common cycle. -/
theorem plan_order {rounds : Nat} {targets : List Text} (h : p.run rounds targets = some (.ok (), s)) :
    p.plan rounds targets = some (.ok s.order) ∧ s.order.Nodup ∧
      ∀ i j, (i, j) ∈ s.served → i ∈ s.order → j ∈ s.order → Before s.order j i ∨ p.Cyclic i j := by
  have hordered : p.Ordered s.visiting s := by
    refine run_keeps (I := fun s => p.Ordered s.visiting s) (fun s i r hs hr => ?_) ?_ h
    · -- a walk that failed has left more behind
      obtain ⟨hordered, hgrown, -⟩ := addWithin_ordered hs (fun k hk => .inl hk) hr
      refine ⟨hordered.nodup, hordered.planned, hordered.apart, hordered.kept, subset_rfl, fun i j hij => ?_⟩
      obtain h | h | h | h | h := hordered.served i j hij
      · exact .inl h
      · exact .inr (.inl h)
      · exact .inr (.inr (.inl h))
      · exact .inr (.inr (.inr (.inl (hgrown.visiting h))))
      · exact .inr (.inr (.inr (.inr h)))
    · exact ⟨nodup_nil, fun i => by simp [start], nofun, nofun, subset_rfl, nofun⟩
  refine ⟨by rw [plan, h]; rfl, hordered.nodup, fun i j hij hi hj => ?_⟩
  obtain h | h | h | h | h := hordered.served i j hij
  · exact .inl h
  · exact .inr h
  · rw [hordered.kept j hj] at h
    cases h
  · exact absurd hj (hordered.apart j h)
  · exact absurd hi (hordered.apart i h.1)

/-- `b` provides what `a` depends on. -/
def pair : Request where
  cat := { pkgs := [⟨"a".toList, "1".toList, ["so:b".toList], [], [], 0, 0⟩,
      ⟨"b".toList, "1".toList, [], ["so:b".toList], [], 0, 0⟩], prefer := [] }
  db := ⟨[], []⟩
  replace := []

theorem plan_order_pair : ∃ s : Solver, pair.plan 1 ["a".toList] = some (.ok s.order) ∧ s.order.Nodup ∧
    ∀ i j, (i, j) ∈ s.served → i ∈ s.order → j ∈ s.order → Before s.order j i ∨ pair.Cyclic i j :=
  ⟨_, plan_order (p := pair) rfl⟩

end HamixOS.Pantry.Request
