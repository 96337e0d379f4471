import HamixOS.Lib.OrdSet
import HamixOS.Pantry.Version

namespace HamixOS.Pantry

open Lib List

/-!
# The database of installed packages (`db.rs`)

`Db` holds the packages in the order of their installation and the names that were asked for.
What an operation does outside the database is kept as a list of `Event`s in the order in
which they happen.
-/

/-- `str::trim`. -/
def trim (t : Text) : Text :=
  ((t.dropWhile Text.isWhitespace).reverse.dropWhile Text.isWhitespace).reverse

/-- `SYSTEM_REPO`. -/
def systemRepo : Text := "system".toList

structure Installed where
  name : Text
  version : Text
  repo : Text
  description : Text
  depends : List Text
  provides : List Text
  files : List Text
  scripts : List Text
  triggers : List Text
  layer : Text
  deriving DecidableEq

/-- `Installed::is_system`. -/
def Installed.isSystem (p : Installed) : Bool := p.repo = systemRepo

structure Db where
  packages : List Installed
  world : List Text
  deriving DecidableEq

/-- `root_of`: the Linux layer lies under `LINUX_ROOT`. -/
def rootOf (layer : Text) : Text := if layer = "native".toList then [] else "/linux".toList

def targetPath (layer rel : Text) : Text := rootOf layer ++ '/' :: rel.dropWhile (· = '/')

/-- What happens outside the database. -/
inductive Event where
  | unlink (path : Text)
  | write (path : Text)
  | mkdir (path : Text)
  | script (package name : Text) (args : List Text)
  | store (package : Text) (names : List Text)
  | forget (package : Text)
  deriving DecidableEq

namespace Db

variable (db : Db)

def find (name : Text) : Option Installed := db.packages.find? (fun p => p.name = name)

/-- `owner_of`: the first package that lists the file. -/
def ownerOf (file : Text) : Option Installed := db.packages.find? (fun p => file ∈ p.files)

/-- `remove`: the database without the first package of that name. -/
def erase (name : Text) : Db := { db with packages := db.packages.eraseP (fun p => p.name = name) }

/-- Packages have names, and no two the same; `load` and `parse_index` see to the first, `load` and
    `install_one` to the second. -/
structure Named (db : Db) : Prop where
  unique : (db.packages.map (·.name)).Nodup
  nonempty : ∀ p ∈ db.packages, p.name ≠ []

end Db

/-- The package `p` provides what `dep` asks for. -/
def Installed.providesDep (p : Installed) (dep : Dep) : Bool :=
  Pantry.providesDep p.name p.version p.provides dep

/-- The package `p` meets a dependency token that is no conflict. -/
def Installed.meets (p : Installed) (token : Text) : Bool :=
  !(parseDep token).conflict && p.providesDep (parseDep token)

/-- The order of the names in a `BTreeSet<String>`. -/
def nameLe (a b : Text) : Prop := (compare a b).isLE = true

instance : DecidableRel nameLe := fun a b => inferInstanceAs (Decidable ((compare a b).isLE = true))

/-! ### Taking packages out -/

section Erase

variable {l : List Installed}

theorem eq_of_name (h : (l.map (·.name)).Nodup) {p q : Installed} (hp : p ∈ l) (hq : q ∈ l)
    (heq : p.name = q.name) : p = q :=
  inj_on_of_nodup_map h hp hq heq

/-- Where names are unique, the first package of a name is the only one. -/
theorem eraseP_eq_filter (h : (l.map (·.name)).Nodup) (name : Text) :
    l.eraseP (fun p => p.name = name) = l.filter (fun p => p.name ≠ name) := by
  induction l with
  | nil => rfl
  | cons p l ih =>
    rw [map_cons, nodup_cons] at h
    by_cases hp : p.name = name
    · have hrest : ∀ q ∈ l, decide (q.name ≠ name) = true := by
        intro q hq
        rw [decide_eq_true_iff]
        rintro rfl
        exact h.1 (hp ▸ mem_map.mpr ⟨q, hq, rfl⟩)
      rw [eraseP_cons_of_pos (by simpa using hp), filter_cons_of_neg (by simpa using hp),
        filter_eq_self.mpr hrest]
    · rw [eraseP_cons_of_neg (by simpa using hp), filter_cons_of_pos (by simpa using hp), ih h.2]

end Erase

end HamixOS.Pantry
