import HamixOS.Pantry.VersionOrder

namespace HamixOS.Pantry

open Lib

/-!
# The catalog (`repo.rs`, `ops.rs`)

The packages that the repositories offer, and which of them is taken for a name or a dependency.

* `newest_spec` — `newest` finds an entry of the name that no other entry of the name beats.
-/

namespace Index

/-- `index::Pkg`, without what no choice looks at. -/
structure Pkg where
  name : Text
  version : Text
  depends : List Text
  provides : List Text
  installIf : List Text
  priority : Int
  repo : Nat
  deriving DecidableEq, Inhabited

end Index

structure Catalog where
  pkgs : List Index.Pkg
  prefer : List (Text × Text)

namespace Catalog

variable (cat : Catalog)

/-- `pkgs[i]`. -/
def pkg (i : Nat) : Index.Pkg := cat.pkgs.getD i default

/-- `by_name`, as `load` fills it: the places of the packages of a name. -/
def byName (name : Text) : List Nat := (List.range cat.pkgs.length).filter fun i => (cat.pkg i).name = name

/-- `by_provide`, as `load` fills it: the places of the packages that provide a name, once for each token. -/
def byProvide (name : Text) : List Nat :=
  (List.range cat.pkgs.length).flatMap fun i =>
    ((cat.pkg i).provides.filter fun token => (providedName token).1 = name).map fun _ => i

/-- `better`. -/
def better (a b : Nat) : Bool :=
  match compareVersions (cat.pkg a).version (cat.pkg b).version with
  | .gt => true
  | .lt => false
  | .eq => (cat.pkg a).repo < (cat.pkg b).repo

/-- `newest`. -/
def newest (name : Text) : Option Nat := best cat.better (cat.byName name)

/-- An entry compares greater if it is of a later version, or of the same version and an earlier repository. -/
def cmp (a b : Nat) : Ordering :=
  compareLex (fun a b => compareVersions (cat.pkg a).version (cat.pkg b).version)
    (fun a b => compare (cat.pkg b).repo (cat.pkg a).repo) a b

instance : Std.TransCmp cat.cmp := by
  have hversion : Std.TransCmp fun a b => compareVersions (cat.pkg a).version (cat.pkg b).version :=
    { eq_swap := Std.OrientedCmp.eq_swap, isLE_trans := Std.TransCmp.isLE_trans }
  have hrepo : Std.TransCmp fun a b => compare (cat.pkg b).repo (cat.pkg a).repo :=
    { eq_swap := Std.OrientedOrd.eq_swap, isLE_trans := fun h h' => Std.TransOrd.isLE_trans h' h }
  exact inferInstanceAs (Std.TransCmp (compareLex (fun a b => compareVersions (cat.pkg a).version (cat.pkg b).version)
    fun a b => compare (cat.pkg b).repo (cat.pkg a).repo))

theorem better_iff (a b : Nat) : cat.better a b = true ↔ cat.cmp a b = .gt := by
  unfold better cmp compareLex
  dsimp only
  generalize compareVersions (cat.pkg a).version (cat.pkg b).version = o
  cases o with
  | lt => simp
  | gt => simp
  | eq => simp [Nat.compare_eq_gt]

theorem mem_byName {name : Text} {i : Nat} : i ∈ cat.byName name ↔ i < cat.pkgs.length ∧ (cat.pkg i).name = name := by
  simp [byName]

/-- What `newest` finds is of the name, and no entry of the name beats it. -/
theorem newest_spec {name : Text} (h : cat.byName name ≠ []) :
    ∃ i, cat.newest name = some i ∧ i ∈ cat.byName name ∧ ∀ j ∈ cat.byName name, cat.better j i = false :=
  best_spec cat.better_iff h

end Catalog

/-- `compare_versions` is a total preorder with its equivalence as a congruence, and `newest` finds an entry that
    no entry of the name beats, wherever it stands. -/
theorem compareVersions_preorder :
    (∀ a, compareVersions a a = .eq) ∧ (∀ a b, compareVersions a b = (compareVersions b a).swap) ∧
      (∀ a b c, compareVersions a b ≠ .gt → compareVersions b c ≠ .gt → compareVersions a c ≠ .gt) ∧
      (∀ a b c, compareVersions a b = .eq → compareVersions a c = compareVersions b c ∧
        compareVersions c a = compareVersions c b) ∧
      ∀ (cat : Catalog) (name : Text),
        (cat.newest name = none ↔ ∀ i < cat.pkgs.length, (cat.pkg i).name ≠ name) ∧
        ∀ i, cat.newest name = some i → i < cat.pkgs.length ∧ (cat.pkg i).name = name ∧
          ∀ j < cat.pkgs.length, (cat.pkg j).name = name → cat.better j i = false := by
  refine ⟨fun _ => Std.ReflCmp.compare_self, fun _ _ => Std.OrientedCmp.eq_swap, ?_, ?_, ?_⟩
  · intro a b c hab hbc
    exact Ordering.isLE_iff_ne_gt.mp (Std.TransCmp.isLE_trans (Ordering.isLE_iff_ne_gt.mpr hab)
      (Ordering.isLE_iff_ne_gt.mpr hbc))
  · exact fun a b c hab => ⟨Std.TransCmp.congr_left hab, Std.TransCmp.congr_right hab⟩
  · intro cat name
    by_cases hempty : cat.byName name = []
    · have hnone : cat.newest name = none := by rw [Catalog.newest, hempty]; rfl
      refine ⟨⟨fun _ i hi hname => ?_, fun _ => hnone⟩, fun i hi => ?_⟩
      · have hmem : i ∈ cat.byName name := cat.mem_byName.mpr ⟨hi, hname⟩
        rw [hempty] at hmem
        cases hmem
      · rw [hnone] at hi
        cases hi
    · obtain ⟨i, hi, hmem, hbest⟩ := cat.newest_spec hempty
      obtain ⟨hlt, hname⟩ := cat.mem_byName.mp hmem
      rw [hi]
      refine ⟨⟨fun h => (nomatch h), fun h => absurd hname (h i hlt)⟩, fun i' hi' => ?_⟩
      cases hi'
      exact ⟨hlt, hname, fun j hj hjname => hbest j (cat.mem_byName.mpr ⟨hj, hjname⟩)⟩

end HamixOS.Pantry
