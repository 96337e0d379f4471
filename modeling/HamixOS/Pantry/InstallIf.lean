import HamixOS.Pantry.Solver

namespace HamixOS.Pantry.Request

open Lib List Option

/-!
# The rounds of `add_install_if` end (`ops.rs`)

A run of the loop is a chain of visits to packages of the catalog (`Comes`).  A visit that sets `added` plans its
package unless the package stands in `visiting`, where only a walk that failed can have left it.

* `advances_iff` — every visit that sets `added` enlarges the plan iff none of them is to such a package;
* `rounds_end` — the loop then ends, by the packages that are not planned yet;
* `rounds_never_ok` — after a visit to such a package the loop never ends well.
-/

variable {p : Request} {s₀ s s' : Solver} {i : Nat} {rest : List Nat} {added : Bool}

section Visits

variable (p) (s₀)

/-- The loop, begun in `s₀`, comes to the packages `rest` of a round in the state `s`. -/
inductive Comes : List Nat → Bool → Solver → Prop
  | start : Comes (List.range p.cat.pkgs.length) false s₀
  | pass {i : Nat} {rest : List Nat} {added : Bool} {s : Solver} (h : Comes (i :: rest) added s)
      (hi : p.triggers s i = false) : Comes rest added s
  | take {i : Nat} {rest : List Nat} {added : Bool} {s s' : Solver} (h : Comes (i :: rest) added s)
      (hi : p.triggers s i = true) (hadd : p.add s i = some (.ok (), s')) : Comes rest true s'
  | again {s : Solver} (h : Comes [] true s) : Comes (List.range p.cat.pkgs.length) false s

/-- Every visit of the loop that sets `added` strictly enlarges `planned`. -/
def Advances : Prop :=
  ∀ i rest added s s', p.Comes s₀ (i :: rest) added s → p.triggers s i = true → p.add s i = some (.ok (), s') →
    s.planned ⊂ s'.planned

/-- No package that the loop finds triggered stands in `visiting`. -/
def Clear : Prop := ∀ i rest added s, p.Comes s₀ (i :: rest) added s → p.triggers s i = true → i ∉ s.visiting

end Visits

theorem comes_lt (h : p.Comes s₀ rest added s) : ∀ i ∈ rest, i < p.cat.pkgs.length := by
  induction h with
  | start => simp
  | pass _ _ ih => exact fun i hi => ih i (mem_cons_of_mem _ hi)
  | take _ _ _ ih => exact fun i hi => ih i (mem_cons_of_mem _ hi)
  | again => simp

variable {r : Except Text Unit × Solver}

theorem add_grown (h : p.add s i = some r) : Grown s r := addWithin_grown h

/-- One level for each package of the catalog, and one more, suffice. -/
theorem add_total (s : Solver) (hlt : i < p.cat.pkgs.length) : ∃ r, p.add s i = some r := by
  refine addWithin_total (Nat.lt_succ_of_le ?_) hlt
  exact (Finset.card_le_card Finset.sdiff_subset).trans (Finset.card_range _).le

theorem comes_visiting (h : p.Comes s₀ rest added s) : s.visiting = s₀.visiting := by
  induction h with
  | start => rfl
  | pass _ _ ih => exact ih
  | take _ _ hadd ih => exact ((add_grown hadd).restored rfl).trans ih
  | again _ ih => exact ih

/-- A package that is triggered is not planned yet, and not in the database. -/
theorem of_triggers (h : p.triggers s i = true) : i ∉ s.planned ∧ p.kept i = false := by
  simp only [triggers, Bool.and_eq_true, Bool.not_eq_true', Bool.or_eq_false_iff, decide_eq_false_iff_not,
    isSome_eq_false_iff, isNone_iff_eq_none] at h
  obtain ⟨⟨⟨⟨⟨-, hplanned⟩, hfind⟩, -⟩, -⟩, -⟩ := h
  exact ⟨hplanned, by rw [kept, hfind]; rfl⟩

theorem add_visiting (h : i ∈ s.visiting) : p.add s i = some (.ok (), s) := by
  rw [add, addWithin, if_pos (.inr h)]

/-- A visit that sets `added` plans the package, unless it stands in `visiting`. -/
theorem take_planned (hi : p.triggers s i = true) (hvisiting : i ∉ s.visiting) (hadd : p.add s i = some (.ok (), s')) :
    i ∉ s.planned ∧ i ∈ s'.planned := by
  obtain ⟨hplanned, hkept⟩ := of_triggers hi
  obtain h | h | h := add_planned hadd
  · exact ⟨hplanned, h⟩
  · exact absurd h hvisiting
  · rw [hkept] at h
    cases h

theorem advances_iff : p.Advances s₀ ↔ p.Clear s₀ := by
  constructor
  · intro h i rest added s hs hi hvisiting
    exact (h i rest added s s hs hi (add_visiting hvisiting)).ne rfl
  · intro h i rest added s s' hs hi hadd
    obtain ⟨hnew, hin⟩ := take_planned hi (h i rest added s hs hi) hadd
    exact (Finset.ssubset_iff_of_subset (add_grown hadd).planned).mpr ⟨i, hin, hnew⟩

/-! ### The loop ends -/

/-- A round ends, and where it sets `added` it has planned a package of the catalog. -/
theorem round_ends (hclear : p.Clear s₀) (h : p.Comes s₀ rest added s) :
    ∃ x s', p.round rest added s = some (x, s') ∧ s.planned ⊆ s'.planned ∧ ∀ b, x = .ok b → p.Comes s₀ [] b s' ∧
      (b = true → added = true ∨ ∃ j < p.cat.pkgs.length, j ∉ s.planned ∧ j ∈ s'.planned) := by
  induction rest generalizing added s with
  | nil => exact ⟨_, s, rfl, subset_rfl, fun b hb => by cases hb; exact ⟨h, .inl⟩⟩
  | cons i rest ih =>
    have hlt := comes_lt h i mem_cons_self
    cases hi : p.triggers s i with
    | false => simpa [round, hi] using ih (h.pass hi)
    | true =>
      obtain ⟨⟨⟨e⟩ | ⟨⟩, s₁⟩, hadd⟩ := add_total s hlt
      · exact ⟨.error e, s₁, by simp [round, hi, hadd], (add_grown hadd).planned, fun b hb => (nomatch hb)⟩
      · obtain ⟨x, s', hround, hsub, hend⟩ := ih (h.take hi hadd)
        obtain ⟨hnew, hin⟩ := take_planned hi (hclear i rest added s h hi) hadd
        refine ⟨x, s', by simp [round, hi, hadd, hround], (add_grown hadd).planned.trans hsub, fun b hb => ?_⟩
        exact ⟨(hend b hb).1, fun _ => .inr ⟨i, hlt, hnew, hsub hin⟩⟩

theorem rounds_end (hclear : p.Clear s₀) (h : p.Comes s₀ (range p.cat.pkgs.length) false s) :
    ∃ rounds r, p.addInstallIf rounds s = some r := by
  -- by the number of packages of the catalog that are not planned
  induction hn : (Finset.range p.cat.pkgs.length \ s.planned).card using Nat.strong_induction_on generalizing s with
  | _ n ih =>
    obtain ⟨x, s', hround, hsub, hend⟩ := round_ends hclear h
    obtain ⟨e⟩ | ⟨b⟩ := x
    · exact ⟨1, _, by rw [addInstallIf, hround]⟩
    · obtain ⟨hcomes, hnew⟩ := hend b rfl
      cases b with
      | false => exact ⟨1, _, by rw [addInstallIf, hround]⟩
      | true =>
        obtain hfalse | ⟨j, hlt, hout, hin⟩ := hnew rfl
        · cases hfalse
        have hcard : (Finset.range p.cat.pkgs.length \ s'.planned).card < n := by
          rw [← hn]
          refine Finset.card_lt_card ((Finset.ssubset_iff_of_subset (Finset.sdiff_subset_sdiff subset_rfl hsub)).mpr
            ⟨j, ?_, ?_⟩)
          · exact Finset.mem_sdiff.mpr ⟨Finset.mem_range.mpr hlt, hout⟩
          · exact fun hj => (Finset.mem_sdiff.mp hj).2 hin
        obtain ⟨rounds, r, hr⟩ := ih _ hcard hcomes.again rfl
        exact ⟨rounds + 1, r, by rw [addInstallIf, hround]; exact hr⟩

/-- More rounds change nothing once there are enough. -/
theorem addInstallIf_mono {n m : Nat} (hnm : n ≤ m) (h : p.addInstallIf n s = some r) :
    p.addInstallIf m s = some r := by
  induction n generalizing m s with
  | zero => cases h
  | succ n ih =>
    obtain ⟨m, rfl⟩ : ∃ k, m = k + 1 := ⟨m - 1, by omega⟩
    rw [addInstallIf] at h ⊢
    split at h
    case h_1 s₁ hround => exact ih (Nat.le_of_succ_le_succ hnm) h
    case h_2 s₁ hround => exact h
    case h_3 e s₁ hround => exact h
    case h_4 => cases h

/-! ### The loop does not end -/

/-- The rest of the loop, from the packages `rest` of a round on. -/
def finishLoop (p : Request) (rounds : Nat) (rest : List Nat) (added : Bool) (s : Solver) : Reply Unit :=
  match p.round rest added s with
  | some (.ok true, s') => p.addInstallIf rounds s'
  | some (.ok false, s') => some (.ok (), s')
  | some (.error e, s') => some (.error e, s')
  | none => none

/-- Where the loop ends well, so does what is left of it at every visit. -/
theorem finishLoop_of_comes {t : Solver} {n : Nat} (hn : p.addInstallIf n s₀ = some (.ok (), t))
    (h : p.Comes s₀ rest added s) : ∃ m, p.finishLoop m rest added s = some (.ok (), t) := by
  induction h with
  | start =>
    cases n with
    | zero => cases hn
    | succ n => exact ⟨n, hn⟩
  | pass h hi ih => simpa [finishLoop, round, hi] using ih
  | take h hi hadd ih => simpa [finishLoop, round, hi, hadd] using ih
  | again h ih =>
    obtain ⟨m, hm⟩ := ih
    cases m with
    | zero => cases hm
    | succ m => exact ⟨m, hm⟩

/-- The package is triggered, but stands in `visiting`. -/
structure Stuck (p : Request) (s : Solver) (i : Nat) : Prop where
  triggers : p.triggers s i = true
  visiting : i ∈ s.visiting

theorem plannedSatisfies_mono (hsub : s.planned ⊆ s'.planned) {dep : Dep} (h : p.plannedSatisfies s dep = true) :
    p.plannedSatisfies s' dep = true := by
  obtain ⟨j, hj, hprovides⟩ := of_decide_eq_true h
  exact decide_eq_true ⟨j, hsub hj, hprovides⟩

/-- It stays so, whatever else is planned. -/
theorem Stuck.step {j : Nat} (h : Stuck p s i) (hadd : p.add s j = some (.ok (), s')) : Stuck p s' i := by
  have hgrown := add_grown hadd
  refine ⟨?_, hgrown.visiting h.visiting⟩
  have hout : i ∉ s'.planned := fun hin => (of_triggers h.triggers).1 (hgrown.apart i h.visiting hin)
  have htriggers := h.triggers
  simp only [Request.triggers, Bool.and_eq_true, Bool.not_eq_true', Bool.or_eq_false_iff, decide_eq_false_iff_not,
    List.all_eq_true, List.any_eq_true, Bool.or_eq_true] at htriggers ⊢
  obtain ⟨⟨⟨⟨⟨hif, -⟩, hfind⟩, hnewest⟩, hall⟩, t, ht, hany⟩ := htriggers
  exact ⟨⟨⟨⟨⟨hif, hout⟩, hfind⟩, hnewest⟩, fun t ht => (hall t ht).imp_right (plannedSatisfies_mono hgrown.planned)⟩,
    t, ht, plannedSatisfies_mono hgrown.planned hany⟩

theorem round_stuck {b : Bool} (h : p.round rest added s = some (.ok b, s')) (hstuck : Stuck p s i)
    (hi : i ∈ rest ∨ added = true) : b = true ∧ Stuck p s' i := by
  induction rest generalizing added s with
  | nil =>
    cases h
    exact ⟨hi.resolve_left not_mem_nil, hstuck⟩
  | cons j rest ih =>
    rw [round] at h
    split_ifs at h with hj
    · split at h
      case h_1 s₁ hadd => exact ih h (hstuck.step hadd) (.inr rfl)
      case h_2 => cases h
      case h_3 => cases h
    · refine ih h hstuck (hi.imp_left fun hmem => ?_)
      obtain rfl | hmem := mem_cons.mp hmem
      · exact absurd hstuck.triggers hj
      · exact hmem

/-- A round with a stuck package never is the last. -/
theorem finishLoop_stuck {t : Solver} {n : Nat} (h : p.finishLoop n rest added s = some (.ok (), t)) (hstuck : Stuck p s i)
    (hi : i ∈ rest ∨ added = true) : ∃ s', Stuck p s' i ∧ p.addInstallIf n s' = some (.ok (), t) := by
  rw [finishLoop] at h
  split at h
  case h_1 s' hround => exact ⟨s', (round_stuck hround hstuck hi).2, h⟩
  case h_2 s' hround => cases (round_stuck hround hstuck hi).1
  case h_3 => cases h
  case h_4 => cases h

theorem addInstallIf_stuck {t : Solver} (n : Nat) (hstuck : Stuck p s i) (hlt : i < p.cat.pkgs.length) :
    p.addInstallIf n s ≠ some (.ok (), t) := by
  induction n generalizing s with
  | zero => exact fun h => nomatch h
  | succ n ih =>
    intro h
    obtain ⟨s', hstuck', h'⟩ := finishLoop_stuck h hstuck (.inl (mem_range.mpr hlt))
    exact ih hstuck' h'

/-- A loop that comes to a package that is stuck never ends well. -/
theorem rounds_never_ok (hclear : ¬p.Clear s₀) (n : Nat) (t : Solver) : p.addInstallIf n s₀ ≠ some (.ok (), t) := by
  intro hn
  simp only [Clear, not_forall, not_not] at hclear
  obtain ⟨i, rest, added, s, hcomes, hi, hvisiting⟩ := hclear
  obtain ⟨m, hm⟩ := finishLoop_of_comes hn hcomes
  obtain ⟨s', hstuck, h'⟩ := finishLoop_stuck hm ⟨hi, hvisiting⟩ (.inl mem_cons_self)
  exact addInstallIf_stuck m hstuck (comes_lt hcomes i mem_cons_self) h'

/-! ### The plan -/

variable {targets : List Text}

theorem addTargets_grown (h : p.addTargets targets s = some r) : Grown s r := by
  induction targets generalizing s with
  | nil =>
    cases h
    exact .refl s _
  | cons target targets ih =>
    rw [addTargets] at h
    split at h
    case h_1 => cases h; exact .refl s _
    case h_2 i hi =>
      split at h
      case h_1 s₁ hadd => exact (add_grown hadd).trans (ih h)
      case h_2 => exact add_grown h

theorem addTargets_total (targets : List Text) (s : Solver) : ∃ r, p.addTargets targets s = some r := by
  induction targets generalizing s with
  | nil => exact ⟨_, rfl⟩
  | cons target targets ih =>
    rw [addTargets]
    cases hi : p.cat.provider (parseDep target) with
    | none => exact ⟨_, rfl⟩
    | some i =>
      obtain ⟨⟨⟨e⟩ | ⟨⟩, s₁⟩, hadd⟩ := add_total s (p.cat.provider_lt hi)
      · exact ⟨(.error e, s₁), by simp only [hadd]⟩
      · simpa only [hadd] using ih s₁

theorem tryWant_total (token : Text) (s : Solver) : ∃ t, p.tryWant token s = some t := by
  obtain ⟨r, hr⟩ := want_total token [] fun j hj => add_total (p := p) s hj
  exact ⟨r.2, by rw [tryWant, hr]; rfl⟩

theorem recommend_total (l : List (Text × Text × Text)) (s : Solver) : ∃ t, p.recommend l s = some t := by
  induction l generalizing s with
  | nil => exact ⟨s, rfl⟩
  | cons entry l ih =>
    obtain ⟨trigger, family, recommended⟩ := entry
    rw [recommend]
    split_ifs
    · obtain ⟨t, ht⟩ := tryWant_total (p := p) recommended s
      rw [ht]
      exact ih t
    · exact ih s

theorem extras_total (s : Solver) : ∃ t, p.extras s = some t := by
  obtain ⟨t, ht⟩ := recommend_total (p := p) recommends s
  obtain ⟨u, hu⟩ : ∃ u, p.wantX t = some u := by
    unfold wantX
    split_ifs
    · exact tryWant_total _ t
    · exact ⟨t, rfl⟩
  obtain ⟨v, hv⟩ : ∃ v, p.wantBus u = some v := by
    unfold wantBus
    split_ifs
    · obtain ⟨⟨⟨e⟩ | ⟨⟩, s₁⟩, hwant⟩ := want_total "dbus".toList [] fun j hj => add_total (p := p) u hj
      · exact ⟨s₁, by rw [hwant]⟩
      · rw [hwant]
        exact tryWant_total _ s₁
    · exact ⟨u, rfl⟩
  exact ⟨v, by rw [extras, ht, bind_some, hu, bind_some, hv]⟩

section Starts

variable (p) (targets)

/-- The first call of `add_install_if` starts in `s`. -/
def StartsFirst (s : Solver) : Prop := p.addTargets targets start = some (.ok (), s)

/-- The last call of `add_install_if` starts in `s`. -/
def StartsLast (s : Solver) : Prop :=
  ∃ s₁ rounds s₂, p.StartsFirst targets s₁ ∧ p.addInstallIf rounds s₁ = some (.ok (), s₂) ∧ p.extras s₂ = some s

end Starts

/-- Nothing stands in `visiting` when the first call starts. -/
theorem clear_first (h : p.StartsFirst targets s) : p.Clear s := by
  intro i rest added s' hcomes _ hi
  rw [comes_visiting hcomes, (addTargets_grown h).restored rfl] at hi
  exact absurd hi (Finset.notMem_empty i)

/-- The plan ends where its last loop does. -/
theorem run_total (hlast : ∀ s, p.StartsLast targets s → p.Clear s) : ∃ rounds r, p.run rounds targets = some r := by
  obtain ⟨⟨⟨e⟩ | ⟨⟩, s₁⟩, htargets⟩ := addTargets_total (p := p) targets start
  · exact ⟨0, _, by rw [run, htargets]⟩
  obtain ⟨n, ⟨x, s₂⟩, hfirst⟩ := rounds_end (clear_first htargets) .start
  cases x with
  | error e => exact ⟨n, (.error e, s₂), by simp only [run, htargets, hfirst]⟩
  | ok =>
    obtain ⟨s, hextras⟩ := extras_total (p := p) s₂
    obtain ⟨m, r, hr⟩ := rounds_end (hlast s ⟨s₁, n, s₂, htargets, hfirst, hextras⟩) .start
    refine ⟨max n m, r, ?_⟩
    simp only [run, htargets, addInstallIf_mono (le_max_left n m) hfirst, hextras, bind_some,
      addInstallIf_mono (le_max_right n m) hr]

/-- `plan` ends, and every visit of its loops that sets `added` enlarges the plan, exactly if the last loop finds no
    package triggered that a failed walk has left in `visiting`; otherwise there never is a plan. -/
theorem plan_ends_iff (p : Request) (targets : List Text) :
    (∀ s i, i < p.cat.pkgs.length → ∀ levels, (Finset.range p.cat.pkgs.length \ s.visiting).card < levels →
      ∃ r, p.addWithin levels s i = some r) ∧
      (((∃ rounds answer, p.plan rounds targets = some answer) ∧
          ∀ s, p.StartsFirst targets s ∨ p.StartsLast targets s → p.Advances s) ↔
        ∀ s, p.StartsLast targets s → p.Clear s) ∧
      ((¬ ∀ s, p.StartsLast targets s → p.Clear s) → ∀ rounds order, p.plan rounds targets ≠ some (.ok order)) := by
  refine ⟨fun s i hi levels hlevels => addWithin_total hlevels hi, ⟨fun h s hs => ?_, fun h => ⟨?_, ?_⟩⟩, ?_⟩
  · exact advances_iff.mp (h.2 s (.inr hs))
  · obtain ⟨rounds, r, hr⟩ := run_total h
    exact ⟨rounds, _, by rw [plan, hr]; rfl⟩
  · rintro s (hs | hs)
    · exact advances_iff.mpr (clear_first hs)
    · exact advances_iff.mpr (h s hs)
  · intro hnot rounds order hplan
    simp only [not_forall] at hnot
    obtain ⟨s, ⟨s₁, n, s₂, htargets, hfirst, hextras⟩, hclear⟩ := hnot
    obtain ⟨⟨x, t⟩, hrun, hanswer⟩ := Option.map_eq_some_iff.mp hplan
    cases x with
    | error e => cases hanswer
    | ok =>
      rw [run, show p.addTargets targets start = _ from htargets] at hrun
      dsimp only at hrun
      split at hrun
      case h_1 s₃ hloop =>
        have hmax := addInstallIf_mono (le_max_left n rounds) hfirst
        rw [addInstallIf_mono (le_max_right n rounds) hloop] at hmax
        cases hmax
        rw [hextras] at hrun
        exact rounds_never_ok hclear rounds t hrun
      case h_2 hne => exact hne t hrun

/-- `font-dejavu` is wanted for `fontconfig` and plans `a` before a dependency is missing. -/
def fonts : Request where
  cat :=
    { pkgs := [⟨"fontconfig".toList, "1".toList, [], [], [], 0, 0⟩,
        ⟨"font-dejavu".toList, "1".toList, ["a".toList, "b".toList], [], ["a".toList], 0, 0⟩,
        ⟨"a".toList, "1".toList, [], [], [], 0, 0⟩]
      prefer := [] }
  db := ⟨[], []⟩
  replace := []

/-- What is left when the last loop starts: `font-dejavu` is triggered, but still in `visiting`. -/
def halfway : Solver := ⟨[0, 2], {2, 0}, {1}, [(1, 2)]⟩

/-- The plan for `fontconfig` never ends. -/
theorem fonts_endless : ¬ ∃ rounds answer, fonts.plan rounds ["fontconfig".toList] = some answer := by
  have hlast : ∀ rounds, fonts.addInstallIf rounds halfway = none := by
    intro rounds
    induction rounds with
    | zero => rfl
    | succ rounds ih =>
      rw [addInstallIf, show fonts.round (List.range fonts.cat.pkgs.length) false halfway = some (.ok true, halfway) by
        decide +kernel]
      exact ih
  rintro ⟨rounds, answer, h⟩
  have hrun : fonts.run rounds ["fontconfig".toList] = none := by
    rw [run, show fonts.addTargets ["fontconfig".toList] start = some (.ok (), ⟨[0], {0}, ∅, []⟩) by decide +kernel]
    cases rounds with
    | zero => rfl
    | succ rounds =>
      dsimp only
      rw [addInstallIf, show fonts.round (List.range fonts.cat.pkgs.length) false ⟨[0], {0}, ∅, []⟩ =
        some (.ok false, ⟨[0], {0}, ∅, []⟩) by decide +kernel]
      dsimp only
      rw [show fonts.extras ⟨[0], {0}, ∅, []⟩ = some halfway by decide +kernel]
      exact hlast (rounds + 1)
  rw [plan, hrun] at h
  cases h

end HamixOS.Pantry.Request
