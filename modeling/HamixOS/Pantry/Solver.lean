import Mathlib.Data.Finset.Card
import HamixOS.Pantry.Catalog
import HamixOS.Pantry.Package

namespace HamixOS.Pantry

open Lib List

/-!
# Planning an installation (`ops.rs`)

`want` and `add` walk the dependencies of the targets, and `add_install_if` goes round the catalog until no
package is triggered.  A walk that fails leaves the packages on its way in `visiting`.

* `addWithin_total` — the walk never needs more levels than the catalog has packages;
* `addWithin_grown`, `add_planned` — what one walk leaves of the sets of the solver.
-/

namespace Index

def Pkg.providesDep (q : Pkg) (dep : Dep) : Bool := Pantry.providesDep q.name q.version q.provides dep

end Index

namespace Catalog

variable (cat : Catalog)

/-- The comparison of `provider` between two packages that provide a name. -/
def wins (dep : Dep) (i b : Nat) : Bool :=
  let preferred := cat.prefer.lookup dep.name
  let mine := decide (preferred = some (cat.pkg i).name)
  let theirs := decide (preferred = some (cat.pkg b).name)
  (mine && !theirs) || (mine == theirs && (decide ((cat.pkg b).priority < (cat.pkg i).priority) ||
    (decide ((cat.pkg i).priority = (cat.pkg b).priority) && cat.better i b)))

/-- `provider`: a package of the name if one will do, otherwise one that provides it. -/
def provider (dep : Dep) : Option Nat :=
  match best cat.better ((cat.byName dep.name).filter fun i => dep.satisfiedBy (cat.pkg i).version) with
  | some i => some i
  | none => best (cat.wins dep) ((cat.byProvide dep.name).filter fun i => (cat.pkg i).providesDep dep)

theorem provider_lt {dep : Dep} {i : Nat} (h : cat.provider dep = some i) : i < cat.pkgs.length := by
  rw [provider] at h
  cases hname : best cat.better ((cat.byName dep.name).filter fun i => dep.satisfiedBy (cat.pkg i).version) with
  | some j =>
    rw [hname] at h
    cases h
    exact ((cat.mem_byName).mp (mem_filter.mp (mem_of_best hname)).1).1
  | none =>
    rw [hname] at h
    have hmem := (mem_filter.mp (mem_of_best h)).1
    simp only [byProvide, mem_flatMap, mem_range, mem_map] at hmem
    obtain ⟨j, hlt, -, -, rfl⟩ := hmem
    exact hlt

end Catalog

/-- `installed_satisfies`. -/
def installedSatisfies (db : Db) (dep : Dep) : Bool := db.packages.any fun p => p.providesDep dep

/-- The fields of `Solver` that change.  `served` is a ghost that nothing reads: the pairs of a package whose
    dependencies were walked and one that served a dependency of it. -/
structure Solver where
  order : List Nat
  planned : Finset Nat
  visiting : Finset Nat
  served : List (Nat × Nat)
  deriving DecidableEq

namespace Solver

/-- `visiting.insert`, before the dependencies are walked. -/
def enter (s : Solver) (index : Nat) : Solver := { s with visiting := insert index s.visiting }

/-- What `add` does once the dependencies are planned. -/
def finish (s : Solver) (index : Nat) : Solver :=
  { s with visiting := s.visiting.erase index, planned := insert index s.planned, order := s.order ++ [index] }

/-- The ghost's note that the packages `js` served a dependency of `index`. -/
def note (s : Solver) (index : Nat) (js : List Nat) : Solver :=
  { s with served := s.served ++ js.map fun j => (index, j) }

end Solver

/-- How a run of the solver ends, and in what state; `none` where the levels or rounds given did not suffice. -/
abbrev Reply (α : Type) := Option (Except Text α × Solver)

/-- The fields of `Solver` that stay as they are. -/
structure Request where
  cat : Catalog
  db : Db
  replace : List Text

namespace Request

variable (p : Request)

/-- `planned_satisfies`. -/
def plannedSatisfies (s : Solver) (dep : Dep) : Bool := decide (∃ i ∈ s.planned, (p.cat.pkg i).providesDep dep = true)

/-- The ghost's account of a dependency: the planned packages that satisfy it, or the provider that is selected. -/
def servers (s : Solver) (dep : Dep) : List Nat :=
  if dep.conflict then []
  else if p.plannedSatisfies s dep then s.order.filter fun j => (p.cat.pkg j).providesDep dep
  else if dep.name ∉ p.replace ∧ installedSatisfies p.db dep = true then []
  else (p.cat.provider dep).toList

/-- The error of `want`. -/
def missing (token neededBy : Text) : Text :=
  if neededBy = [] then "no package named '".toList ++ token ++ "'".toList
  else "nothing provides '".toList ++ token ++ "' (needed by ".toList ++ neededBy ++ ")".toList

/-- `want`, over the `add` it calls. -/
def want (add : Solver → Nat → Reply Unit) (token neededBy : Text) (s : Solver) : Reply Unit :=
  let dep := parseDep token
  if dep.conflict then some (.ok (), s)
  else if p.plannedSatisfies s dep then some (.ok (), s)
  else if dep.name ∉ p.replace ∧ installedSatisfies p.db dep = true then some (.ok (), s)
  else match p.cat.provider dep with
    | none => some (.error (missing token neededBy), s)
    | some index => add s index

/-- The loop of `add` over the dependencies of the package `index`, which is called `name`. -/
def walk (add : Solver → Nat → Reply Unit) (index : Nat) (name : Text) : List Text → Solver → Reply Unit
  | [], s => some (.ok (), s)
  | dep :: deps, s =>
    match p.want add dep name s with
    | some (.ok (), s') => walk add index name deps (s'.note index (p.servers s (parseDep dep)))
    | reply => reply

/-- The database has the package already, and `add` leaves it alone. -/
def kept (index : Nat) : Bool :=
  (p.db.find (p.cat.pkg index).name).any fun current => current.isSystem ||
    (decide (current.version = (p.cat.pkg index).version) && decide ((p.cat.pkg index).name ∉ p.replace))

/-- `add`, for as many levels of calls. -/
def addWithin : Nat → Solver → Nat → Reply Unit
  | 0, _, _ => none
  | levels + 1, s, index =>
    if index ∈ s.planned ∨ index ∈ s.visiting then some (.ok (), s)
    else if p.kept index then some (.ok (), s)
    else
      let pkg := p.cat.pkg index
      match p.walk (addWithin levels) index pkg.name pkg.depends (s.enter index) with
      | some (.ok (), s') => some (.ok (), s'.finish index)
      | reply => reply

def add : Solver → Nat → Reply Unit := p.addWithin (p.cat.pkgs.length + 1)

/-! ### The rounds of `add_install_if` -/

/-- The tests of `add_install_if` on one package of the catalog. -/
def triggers (s : Solver) (i : Nat) : Bool :=
  let pkg := p.cat.pkg i
  !(decide (pkg.installIf = []) || decide (i ∈ s.planned) || (p.db.find pkg.name).isSome) &&
    decide (p.cat.newest pkg.name = some i) &&
    (pkg.installIf.all fun t => installedSatisfies p.db (parseDep t) || p.plannedSatisfies s (parseDep t)) &&
    pkg.installIf.any fun t => p.plannedSatisfies s (parseDep t)

/-- One round of `add_install_if`: the value says whether `added` was set. -/
def round : List Nat → Bool → Solver → Reply Bool
  | [], added, s => some (.ok added, s)
  | i :: rest, added, s =>
    if p.triggers s i then
      match p.add s i with
      | some (.ok (), s') => round rest true s'
      | some (.error e, s') => some (.error e, s')
      | none => none
    else round rest added s

/-- `add_install_if`, for as many rounds. -/
def addInstallIf : Nat → Solver → Reply Unit
  | 0, _ => none
  | rounds + 1, s =>
    match p.round (List.range p.cat.pkgs.length) false s with
    | some (.ok true, s') => addInstallIf rounds s'
    | some (.ok false, s') => some (.ok (), s')
    | some (.error e, s') => some (.error e, s')
    | none => none

/-! ### The plan -/

def recommends : List (Text × Text × Text) :=
  [("fontconfig".toList, "font-".toList, "font-dejavu".toList),
    ("xterm".toList, "font-misc-misc".toList, "font-misc-misc".toList),
    ("libreoffice-common".toList, "libreoffice-gtk".toList, "libreoffice-gtk".toList),
    ("qt6-qtbase".toList, "qt6-qtwayland".toList, "qt6-qtwayland".toList),
    ("qt5-qtbase".toList, "qt5-qtwayland".toList, "qt5-qtwayland".toList),
    ("gtk+3.0".toList, "adwaita-icon-theme".toList, "adwaita-icon-theme".toList)]

def x11Libs : List Text := ["so:libX11.so".toList, "so:libxcb.so".toList]

def waylandLibs : List Text :=
  ["so:libwayland-client.so".toList, "so:libgtk-3.so".toList, "so:libgdk-3.so".toList, "so:libgtk-4.so".toList,
    "so:libSDL2-2.0.so".toList]

def busLibs : List Text := ["so:libdbus-1.".toList, "so:libgtk-3.".toList, "so:libgtk-4.".toList]

/-- A name that starts so is in the database or in the plan. -/
def present (s : Solver) (family : Text) : Bool :=
  p.db.packages.any (fun q => family.isPrefixOf q.name) || s.order.any fun i => family.isPrefixOf (p.cat.pkg i).name

def inPlan (s : Solver) (name : Text) : Bool := s.order.any fun i => (p.cat.pkg i).name = name

/-- The name is in the database or in the plan. -/
def has (s : Solver) (name : Text) : Bool := p.db.packages.any (fun q => q.name = name) || p.inPlan s name

/-- A package of the plan depends on a library of the list, and on none of the other. -/
def needs (s : Solver) (libs others : List Text) : Bool :=
  s.order.any fun i => ((p.cat.pkg i).depends.any fun d => libs.any fun l => l.isPrefixOf d) &&
    !(p.cat.pkg i).depends.any fun d => others.any fun l => l.isPrefixOf d

/-- `want` for a package that the plan can do without: what it returns is not looked at. -/
def tryWant (token : Text) (s : Solver) : Option Solver := (p.want p.add token [] s).map (·.2)

/-- The loop of `plan` over `RECOMMENDS`. -/
def recommend : List (Text × Text × Text) → Solver → Option Solver
  | [], s => some s
  | (trigger, family, recommended) :: rest, s =>
    if p.inPlan s trigger ∧ ¬p.present s family then (p.tryWant recommended s).bind (recommend rest)
    else recommend rest s

def wantX (s : Solver) : Option Solver :=
  if p.needs s x11Libs waylandLibs ∧ ¬p.has s "xwayland".toList then p.tryWant "xwayland".toList s else some s

def wantBus (s : Solver) : Option Solver :=
  if p.needs s busLibs [] ∧ ¬p.has s "dbus".toList then
    match p.want p.add "dbus".toList [] s with
    | some (.ok (), s') => p.tryWant "dbus-x11".toList s'
    | some (.error _, s') => some s'
    | none => none
  else some s

/-- What `plan` asks for between its two calls of `add_install_if`. -/
def extras (s : Solver) : Option Solver := ((p.recommend recommends s).bind p.wantX).bind p.wantBus

/-- The loop of `plan` over the targets. -/
def addTargets : List Text → Solver → Reply Unit
  | [], s => some (.ok (), s)
  | target :: targets, s =>
    match p.cat.provider (parseDep target) with
    | none => some (.error ("no package named '".toList ++ target ++ "' (try 'pantry search ".toList ++
        (parseDep target).name ++ "')".toList), s)
    | some i =>
      match p.add s i with
      | some (.ok (), s') => addTargets targets s'
      | reply => reply

def start : Solver := ⟨[], ∅, ∅, []⟩

/-- `plan`, up to the order it returns. -/
def run (rounds : Nat) (targets : List Text) : Reply Unit :=
  match p.addTargets targets start with
  | some (.ok (), s) =>
    match p.addInstallIf rounds s with
    | some (.ok (), s) => (p.extras s).bind (p.addInstallIf rounds)
    | reply => reply
  | reply => reply

/-- `plan`, with this many rounds for each call of `add_install_if`. -/
def plan (rounds : Nat) (targets : List Text) : Option (Except Text (List Nat)) :=
  (p.run rounds targets).map fun reply => reply.1.map fun _ => reply.2.order

/-! ### What a walk leaves -/

section Walk

variable {p} {f : Solver → Nat → Reply Unit} {token name : Text} {deps : List Text} {s s' : Solver} {index levels : Nat}
  {r : Except Text Unit × Solver}

/-- `want` fails as it stands, is content with what there is, or turns to the provider. -/
theorem want_cases (h : p.want f token name s = some r) :
    (∃ e, r = (.error e, s)) ∨ (r = (.ok (), s) ∧ ∀ j ∈ p.servers s (parseDep token), j ∈ s.order) ∨
      ∃ j, (parseDep token).conflict = false ∧ p.cat.provider (parseDep token) = some j ∧
        p.servers s (parseDep token) = [j] ∧ f s j = some r := by
  unfold want at h
  unfold servers
  dsimp only at h
  split_ifs at h ⊢ with hconflict hplanned hinstalled
  · cases h
    exact .inr (.inl ⟨rfl, by simp⟩)
  · cases h
    exact .inr (.inl ⟨rfl, fun j hj => (mem_filter.mp hj).1⟩)
  · cases h
    exact .inr (.inl ⟨rfl, by simp⟩)
  · cases hprovider : p.cat.provider (parseDep token) with
    | none =>
      rw [hprovider] at h
      cases h
      exact .inl ⟨_, rfl⟩
    | some j =>
      rw [hprovider] at h
      exact .inr (.inr ⟨j, by simpa using hconflict, rfl, rfl, h⟩)

theorem want_total (token name : Text) (h : ∀ j < p.cat.pkgs.length, ∃ r, f s j = some r) : ∃ r, p.want f token name s = some r := by
  unfold want
  dsimp only
  split_ifs
  · exact ⟨_, rfl⟩
  · exact ⟨_, rfl⟩
  · exact ⟨_, rfl⟩
  · cases hprovider : p.cat.provider (parseDep token) with
    | none => exact ⟨_, rfl⟩
    | some j => exact h j (p.cat.provider_lt hprovider)

/-- The sets only grow, nothing that stood in `visiting` gets planned, and a walk that does not fail leaves
    `visiting` as it found it. -/
structure Grown (s : Solver) (r : Except Text Unit × Solver) : Prop where
  planned : s.planned ⊆ r.2.planned
  visiting : s.visiting ⊆ r.2.visiting
  apart : ∀ j ∈ s.visiting, j ∈ r.2.planned → j ∈ s.planned
  restored : r.1 = .ok () → r.2.visiting = s.visiting

theorem Grown.refl (s : Solver) (x : Except Text Unit) : Grown s (x, s) :=
  ⟨subset_rfl, subset_rfl, fun _ _ hj => hj, fun _ => rfl⟩

theorem Grown.trans (h : Grown s (.ok (), s')) (h' : Grown s' r) : Grown s r :=
  ⟨h.planned.trans h'.planned, h.visiting.trans h'.visiting,
    fun j hj hr => h.apart j hj (h'.apart j (h.visiting hj) hr), fun hr => (h'.restored hr).trans (h.restored rfl)⟩

theorem want_grown (hf : ∀ s j r, f s j = some r → Grown s r) (h : p.want f token name s = some r) : Grown s r := by
  obtain ⟨e, rfl⟩ | ⟨rfl, -⟩ | ⟨j, -, -, -, hj⟩ := want_cases h
  · exact .refl s _
  · exact .refl s _
  · exact hf s j r hj

theorem walk_grown (hf : ∀ s j r, f s j = some r → Grown s r) (h : p.walk f index name deps s = some r) :
    Grown s r := by
  induction deps generalizing s with
  | nil =>
    cases h
    exact .refl s _
  | cons dep deps ih =>
    rw [walk] at h
    split at h
    case h_1 s₁ hwant =>
      have hrest := ih h
      exact (want_grown hf hwant).trans ⟨hrest.planned, hrest.visiting, hrest.apart, hrest.restored⟩
    case h_2 => exact want_grown hf h

/-- What `add` comes to: a package that is left alone, or a walk over its dependencies. -/
theorem addWithin_cases (h : p.addWithin (levels + 1) s index = some r) :
    (r = (.ok (), s) ∧ (index ∈ s.planned ∨ index ∈ s.visiting ∨ p.kept index = true)) ∨
      (index ∉ s.planned ∧ index ∉ s.visiting ∧ p.kept index = false ∧ ∃ a,
        p.walk (p.addWithin levels) index (p.cat.pkg index).name (p.cat.pkg index).depends (s.enter index) = some a ∧
        ((∃ e, a.1 = .error e ∧ r = a) ∨ (a.1 = .ok () ∧ r = (.ok (), a.2.finish index)))) := by
  rw [addWithin] at h
  split_ifs at h with hseen hkept
  · cases h
    exact .inl ⟨rfl, hseen.imp_right .inl⟩
  · cases h
    exact .inl ⟨rfl, .inr (.inr hkept)⟩
  · obtain ⟨hplanned, hvisiting⟩ := not_or.mp hseen
    refine .inr ⟨hplanned, hvisiting, by simpa using hkept, ?_⟩
    dsimp only at h
    split at h
    case h_1 s₁ hwalk =>
      cases h
      exact ⟨_, hwalk, .inr ⟨rfl, rfl⟩⟩
    case h_2 hne =>
      refine ⟨r, h, .inl ?_⟩
      obtain ⟨⟨e⟩ | ⟨⟩, s₁⟩ := r
      · exact ⟨e, rfl, rfl⟩
      · exact (hne s₁ h).elim

theorem addWithin_grown (h : p.addWithin levels s index = some r) : Grown s r := by
  induction levels generalizing s index r with
  | zero => cases h
  | succ levels ih =>
    obtain ⟨rfl, -⟩ | ⟨-, hvisiting, -, a, hwalk, hend⟩ := addWithin_cases h
    · exact .refl s _
    · have hgrown := walk_grown (fun s j r => ih) hwalk
      have hapart : ∀ j ∈ s.visiting, j ∈ a.2.planned → j ∈ s.planned :=
        fun j hj => hgrown.apart j (Finset.mem_insert_of_mem hj)
      obtain ⟨e, ha, rfl⟩ | ⟨ha, rfl⟩ := hend
      · refine ⟨hgrown.planned, (Finset.subset_insert index _).trans hgrown.visiting, hapart, fun hr => ?_⟩
        rw [ha] at hr
        cases hr
      · have hrestored : (a.2.finish index).visiting = s.visiting := by
          show a.2.visiting.erase index = s.visiting
          rw [hgrown.restored ha]
          exact Finset.erase_insert hvisiting
        refine ⟨hgrown.planned.trans (Finset.subset_insert index _), hrestored.symm.subset, fun j hj hin => ?_,
          fun _ => hrestored⟩
        obtain rfl | hin := Finset.mem_insert.mp hin
        · exact absurd hj hvisiting
        · exact hapart j hj hin

/-- A package that was added without an error is planned now, or was left alone for one of two reasons. -/
theorem add_planned (h : p.add s index = some (.ok (), s')) :
    index ∈ s'.planned ∨ index ∈ s.visiting ∨ p.kept index = true := by
  obtain ⟨heq, hwhy⟩ | ⟨-, -, -, a, -, hend⟩ := addWithin_cases h
  · cases heq
    exact hwhy
  · obtain ⟨e, ha, rfl⟩ | ⟨-, heq⟩ := hend
    · cases ha
    · cases heq
      exact .inl (Finset.mem_insert_self index _)

/-! ### The recursion is well founded -/

theorem card_enter {n : Nat} (hlt : index < n) (hvisiting : index ∉ s.visiting) :
    (Finset.range n \ (s.enter index).visiting).card < (Finset.range n \ s.visiting).card := by
  rw [Solver.enter, Finset.sdiff_insert]
  exact Finset.card_erase_lt_of_mem (Finset.mem_sdiff.mpr ⟨Finset.mem_range.mpr hlt, hvisiting⟩)

theorem walk_total (index : Nat) (name : Text) (deps : List Text) (hgrown : ∀ s j r, f s j = some r → Grown s r)
    (hf : ∀ s', s'.visiting = s.visiting → ∀ j < p.cat.pkgs.length, ∃ r, f s' j = some r) :
    ∃ r, p.walk f index name deps s = some r := by
  induction deps generalizing s with
  | nil => exact ⟨_, rfl⟩
  | cons dep deps ih =>
    obtain ⟨⟨x, s₁⟩, hwant⟩ := want_total dep name (hf s rfl)
    rw [walk, hwant]
    cases x with
    | error e => exact ⟨_, rfl⟩
    | ok =>
      refine ih fun s' hs' => hf s' (hs'.trans ?_)
      exact (want_grown hgrown hwant).restored rfl

/-- Every level takes a package of the catalog into `visiting`, so there are no more levels than packages
    outside it. -/
theorem addWithin_total (hlevels : (Finset.range p.cat.pkgs.length \ s.visiting).card < levels)
    (hlt : index < p.cat.pkgs.length) : ∃ r, p.addWithin levels s index = some r := by
  induction levels generalizing s index with
  | zero => exact absurd hlevels (Nat.not_lt_zero _)
  | succ levels ih =>
    rw [addWithin]
    split_ifs with hseen hkept
    · exact ⟨_, rfl⟩
    · exact ⟨_, rfl⟩
    · have hcard := card_enter hlt (not_or.mp hseen).2
      obtain ⟨⟨x, s₁⟩, hwalk⟩ := walk_total index (p.cat.pkg index).name (p.cat.pkg index).depends
        (fun s j r => addWithin_grown) fun s' (hs' : s'.visiting = (s.enter index).visiting) j hj =>
          ih (by rw [hs']; omega) hj
      dsimp only
      rw [hwalk]
      cases x with
      | error e => exact ⟨_, rfl⟩
      | ok => exact ⟨_, rfl⟩

end Walk

end Request

end HamixOS.Pantry
