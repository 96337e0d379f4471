import HamixOS.Lib.Saturate
import HamixOS.Pantry.Package

namespace HamixOS.Pantry.Db

open Lib List OrdSet

/-!
# Removing packages (`ops.rs`)

`remove` takes out the packages it is given and those that nothing needs any more.  The list
`orphans` grows one package at a time, each seen by the set as it stands; that no dependency of
a remaining package is lost rests on one fact about every step of it (`Grown`).
-/

variable (db : Db)

/-- `needed_by`: a package that goes, and one that stays and needs it. -/
def neededBy (removing : List Text) : Option (Text × Text) :=
  (db.packages.filter (fun p => p.name ∉ removing)).findSome? fun pkg =>
    pkg.depends.findSome? fun token =>
      let dep := parseDep token
      if dep.conflict then none
      else if (db.packages.filter (fun q => q.name ∉ removing)).any (fun q => q.providesDep dep) then none
      else
        let by_ := ((db.packages.find? (fun q => q.name ∈ removing && q.providesDep dep)).map (·.name)).getD []
        if by_ = [] then none else some (by_, pkg.name)

/-- A package outside `set` other than `pkg` that `pkg` meets a dependency of. -/
def wanted (set : List Text) (pkg : Installed) : Bool :=
  (db.packages.filter (fun q => q.name ∉ set && q.name ≠ pkg.name)).any fun q => q.depends.any pkg.meets

/-- The test of `orphans` on a package that is not in the set yet. -/
def orphaned (set : List Text) (pkg : Installed) : Bool :=
  !(decide (pkg.name ∈ db.world) || pkg.isSystem) && !db.wanted set pkg

def orphans (removing : List Text) : List Text :=
  Saturate.run (·.name) (OrdSet.insert nameLe) db.orphaned db.packages (db.packages.length + 1) removing

/-- What `remove` does to a package it takes out. -/
def removeEvents (p : Installed) : List Event :=
  .script p.name ".pre-deinstall".toList [p.version] :: p.files.reverse.map (fun f => .unlink (targetPath p.layer f)) ++
    [.script p.name ".post-deinstall".toList [p.version], .forget p.name]

/-- The loop of `remove`. -/
def removeAll : List Text → Db → Db × List Event
  | [], db => (db, [])
  | name :: names, db =>
    match db.find name with
    | none => removeAll names db
    | some p =>
      let r := removeAll names (db.erase name)
      (r.1, removeEvents p ++ r.2)

inductive RemoveError where
  | notInstalled (name : Text)
  | system (name : Text)
  | needed (what needer : Text)
  | save
  deriving DecidableEq

def RemoveError.message : RemoveError → Text
  | notInstalled name => name ++ " is not installed".toList
  | system name => name ++ " is part of HamixOS and cannot be removed".toList
  | needed what needer => "cannot remove ".toList ++ what ++ ": ".toList ++ needer ++ " needs it".toList
  | save => "cannot save the package database".toList

/-- The names that are to be removed, or why one of them cannot be. -/
def collect : List Text → List Text → Except RemoveError (List Text)
  | [], removing => .ok removing
  | name :: names, removing =>
    match db.find name with
    | none => .error (.notInstalled name)
    | some p => if p.isSystem then .error (.system name) else collect names (OrdSet.insert nameLe name removing)

/-- `remove`; `saved` is what `save` answers.  The triggers and hooks that are run in between do
    not get at the database. -/
def remove (names : List Text) (saved : Bool) : Except RemoveError Unit × Db × List Event :=
  match db.collect names [] with
  | .error e => (.error e, db, [])
  | .ok removing =>
    match db.neededBy removing with
    | some (what, needer) => (.error (.needed what needer), db, [])
    | none =>
      let db := { db with world := db.world.filter (· ∉ removing) }
      let r := removeAll (db.orphans removing) db
      (if saved then .ok () else .error .save, r)

/-! ### What is taken out -/

variable {db} {names removing set : List Text}

theorem mem_of_find {name : Text} {p : Installed} (h : db.find name = some p) : p ∈ db.packages ∧ p.name = name :=
  ⟨mem_of_find?_eq_some h, by simpa using find?_some h⟩

theorem find_eq_none {name : Text} : db.find name = none ↔ ∀ p ∈ db.packages, p.name ≠ name := by
  unfold find
  rw [find?_eq_none]
  simp

/-- What `collect` gathers are names of packages that are not part of the system. -/
theorem collect_ok {s : List Text} (h : db.collect names removing = .ok s) :
    ∀ n ∈ s, n ∈ removing ∨ ∃ p, db.find n = some p ∧ p.isSystem = false := by
  induction names generalizing removing with
  | nil =>
    cases h
    exact fun n hn => .inl hn
  | cons name names ih =>
    unfold collect at h
    split at h
    · cases h
    · next p hp =>
      split_ifs at h with hsys
      intro n hn
      rcases ih h n hn with hr | hr
      · rcases (mem_insert nameLe name n removing).mp hr with rfl | hr
        · exact .inr ⟨p, hp, by simpa using hsys⟩
        · exact .inl hr
      · exact .inr hr

/-- Where every package is named, `needed_by` finds nothing only if each dependency that a package
    that goes meets is also met by one that stays. -/
theorem neededBy_none (hn : db.Named) (h : db.neededBy removing = none) {pkg p : Installed}
    (hpkg : pkg ∈ db.packages) (hstay : pkg.name ∉ removing) {t : Text} (ht : t ∈ pkg.depends)
    (hp : p ∈ db.packages) (hgo : p.name ∈ removing) (hmeets : p.meets t = true) :
    ∃ q ∈ db.packages, q.name ∉ removing ∧ q.meets t = true := by
  unfold Installed.meets at hmeets
  rw [Bool.and_eq_true, Bool.not_eq_true'] at hmeets
  have hrow := findSome?_eq_none_iff.mp h pkg (mem_filter.mpr ⟨hpkg, by simpa using hstay⟩)
  have htok := findSome?_eq_none_iff.mp hrow t ht
  dsimp only at htok
  rw [if_neg (by simp [hmeets.1])] at htok
  split_ifs at htok with hany hby
  · obtain ⟨q, hq, hprov⟩ := any_eq_true.mp hany
    obtain ⟨hmem, hout⟩ := mem_filter.mp hq
    refine ⟨q, hmem, by simpa using hout, ?_⟩
    unfold Installed.meets
    rw [hmeets.1, hprov]
    rfl
  · -- the package found has a name, so it would have been reported
    exfalso
    have hfound : (db.packages.find? (fun q => decide (q.name ∈ removing) && q.providesDep (parseDep t))).isSome = true :=
      find?_isSome.mpr ⟨p, hp, by simp [hgo, hmeets.2]⟩
    obtain ⟨q, hq⟩ := Option.isSome_iff_exists.mp hfound
    rw [hq] at hby
    exact hn.nonempty q (mem_of_find?_eq_some hq) hby

theorem packages_removeAll (hu : (db.packages.map (·.name)).Nodup) (names : List Text) :
    (removeAll names db).1.packages = db.packages.filter (fun p => p.name ∉ names) := by
  induction names generalizing db with
  | nil => simp [removeAll]
  | cons name names ih =>
    unfold removeAll
    cases hf : db.find name with
    | none =>
      rw [ih hu]
      refine filter_congr fun p hp => ?_
      have := find_eq_none.mp hf p hp
      simp [this]
    | some q =>
      have herase : (db.erase name).packages = db.packages.filter (fun p => p.name ≠ name) := eraseP_eq_filter hu name
      dsimp only
      rw [ih (herase ▸ hu.sublist (filter_sublist.map _)), herase, filter_filter]
      refine filter_congr fun p _ => ?_
      simp only [mem_cons, not_or, Bool.decide_and, Bool.and_comm]

theorem world_removeAll (names : List Text) (db : Db) : (removeAll names db).1.world = db.world := by
  induction names generalizing db with
  | nil => rfl
  | cons name names ih =>
    unfold removeAll
    cases db.find name with
    | none => exact ih db
    | some q => exact ih (db.erase name)

/-! ### The orphans -/

/-- What has grown from `removing` holds no package of the system or the world besides, and none
    that a package outside depends on. -/
structure Grown (db : Db) (removing set : List Text) : Prop where
  base : ∀ n ∈ removing, n ∈ set
  extra : ∀ p ∈ db.packages, p.name ∈ set → p.name ∉ removing → p.name ∉ db.world ∧ p.isSystem = false
  unneeded : ∀ p ∈ db.packages, p.name ∈ set → p.name ∉ removing →
    ∀ q ∈ db.packages, q.name ∉ set → ∀ t ∈ q.depends, p.meets t = false

theorem Grown.step (hu : (db.packages.map (·.name)).Nodup) (hg : Grown db removing set) {a : Installed}
    (ha : a ∈ db.packages) (ho : db.orphaned set a = true) : Grown db removing (OrdSet.insert nameLe a.name set) := by
  unfold orphaned at ho
  rw [Bool.and_eq_true, Bool.not_eq_true', Bool.not_eq_true', Bool.or_eq_false_iff, decide_eq_false_iff_not] at ho
  obtain ⟨⟨hworld, hsys⟩, hwant⟩ := ho
  have hout : ∀ {x : Text}, x ∉ OrdSet.insert nameLe a.name set → x ≠ a.name ∧ x ∉ set := fun hx =>
    not_or.mp (mt (mem_insert nameLe a.name _ set).mpr hx)
  refine ⟨fun n hn => (mem_insert nameLe a.name n set).mpr (.inr (hg.base n hn)), ?_, ?_⟩
  · intro p hp hin hr
    rcases (mem_insert nameLe a.name p.name set).mp hin with heq | hin
    · rw [eq_of_name hu hp ha heq]
      exact ⟨hworld, hsys⟩
    · exact hg.extra p hp hin hr
  · intro p hp hin hr q hq hqout t ht
    obtain ⟨hne, hqset⟩ := hout hqout
    rcases (mem_insert nameLe a.name p.name set).mp hin with heq | hin
    · rw [eq_of_name hu hp ha heq]
      -- `q` was among the packages that `orphans` asked
      have hq' := any_eq_false.mp hwant q (mem_filter.mpr ⟨hq, by simp [hne, hqset]⟩)
      have := any_eq_false.mp (by simpa using hq') t ht
      simpa using this
    · exact hg.unneeded p hp hin hr q hq hqset t ht

theorem orphans_grown (hu : (db.packages.map (·.name)).Nodup) (removing : List Text) :
    Grown db removing (db.orphans removing) :=
  Saturate.run_induct (P := Grown db removing) (fun _ _ ha hg _ ho => hg.step hu ha ho) _
    ⟨fun _ hn => hn, fun _ _ hin hr => absurd hin hr, fun _ _ hin hr => absurd hin hr⟩

/-- The loop ends because nothing more is orphaned, not because it runs out of rounds. -/
theorem orphans_closed (removing : List Text) :
    ∀ p ∈ db.packages, p.name ∉ db.orphans removing → db.orphaned (db.orphans removing) p = false :=
  Saturate.run_closed (fun k s x => mem_insert nameLe k x s)
    (Nat.lt_succ_of_le countP_le_length)

/-! ### The main result -/

/-- What `remove` leaves of the database `db` when it succeeds. -/
structure Closed (db db' : Db) : Prop where
  met : ∀ q ∈ db'.packages, ∀ t ∈ q.depends, (∃ p ∈ db.packages, p.meets t = true) →
    ∃ p ∈ db'.packages, p.meets t = true
  kept : ∀ p ∈ db.packages, p.isSystem = true ∨ p.name ∈ db'.world → p ∈ db'.packages
  needed : ∀ p ∈ db'.packages, p.isSystem = false → p.name ∉ db'.world →
    ∃ q ∈ db'.packages, q.name ≠ p.name ∧ ∃ t ∈ q.depends, p.meets t = true

theorem removed_closed (hn : db.Named) (hsys : ∀ n ∈ removing, ∃ p, db.find n = some p ∧ p.isSystem = false)
    (hneed : db.neededBy removing = none) (world : List Text) (hw : ∀ n ∈ world, n ∉ removing) :
    Closed db (removeAll (Db.orphans ⟨db.packages, world⟩ removing) ⟨db.packages, world⟩).1 := by
  have hu : ((⟨db.packages, world⟩ : Db).packages.map (·.name)).Nodup := hn.unique
  have hg := orphans_grown hu removing
  have hc := @orphans_closed ⟨db.packages, world⟩ removing
  have hmem : ∀ p, p ∈ (removeAll (Db.orphans ⟨db.packages, world⟩ removing) ⟨db.packages, world⟩).1.packages ↔
      p ∈ db.packages ∧ p.name ∉ Db.orphans ⟨db.packages, world⟩ removing := by
    intro p
    rw [packages_removeAll hu, mem_filter]
    simp
  refine ⟨?_, ?_, ?_⟩
  · intro q hq t ht ⟨p, hp, hmeets⟩
    obtain ⟨hq, hqout⟩ := (hmem q).mp hq
    have hqr : q.name ∉ removing := fun hr => hqout (hg.base _ hr)
    -- one of the packages that are not named goes on meeting the dependency
    have hstay : ∃ r ∈ db.packages, r.name ∉ removing ∧ r.meets t = true := by
      by_cases hpr : p.name ∈ removing
      · exact neededBy_none hn hneed hq hqr ht hp hpr hmeets
      · exact ⟨p, hp, hpr, hmeets⟩
    obtain ⟨r, hr, hrr, hrm⟩ := hstay
    refine ⟨r, (hmem r).mpr ⟨hr, fun hin => ?_⟩, hrm⟩
    have := hg.unneeded r hr hin hrr q hq hqout t ht
    rw [hrm] at this
    cases this
  · intro p hp hkeep
    refine (hmem p).mpr ⟨hp, fun hin => ?_⟩
    rw [world_removeAll] at hkeep
    by_cases hpr : p.name ∈ removing
    · rcases hkeep with hs | hk
      · obtain ⟨q, hq, hqs⟩ := hsys _ hpr
        obtain ⟨hqm, hqn⟩ := mem_of_find hq
        rw [eq_of_name hn.unique hp hqm hqn.symm, hqs] at hs
        cases hs
      · exact hw _ hk hpr
    · obtain ⟨hnw, hns⟩ := hg.extra p hp hin hpr
      rcases hkeep with hs | hk
      · rw [hs] at hns
        cases hns
      · exact hnw hk
  · intro p hp hs hnw
    obtain ⟨hp, hout⟩ := (hmem p).mp hp
    rw [world_removeAll] at hnw
    have := hc p hp hout
    unfold orphaned at this
    rw [Bool.and_eq_false_iff] at this
    rcases this with h | h
    · exfalso
      simp only [hs, Bool.or_false, Bool.not_eq_false', decide_eq_true_eq] at h
      exact hnw h
    · rw [Bool.not_eq_false'] at h
      obtain ⟨q, hq, hany⟩ := any_eq_true.mp h
      obtain ⟨hqm, hqc⟩ := mem_filter.mp hq
      obtain ⟨t, ht, hm⟩ := any_eq_true.mp hany
      simp only [Bool.and_eq_true, decide_eq_true_eq] at hqc
      exact ⟨q, (hmem q).mpr ⟨hqm, hqc.1⟩, hqc.2, t, ht, hm⟩

/-- Removing packages loses no dependency of the packages that stay, and leaves none that nothing
    needs; a refused removal changes nothing. -/
theorem remove_keeps_closed (db : Db) (hn : db.Named) (names : List Text) (saved : Bool) :
    ((db.remove names saved).1 = .ok () → Closed db (db.remove names saved).2.1) ∧
    (∀ e, (db.remove names saved).1 = .error e → e ≠ .save → (db.remove names saved).2.1 = db) := by
  unfold remove
  cases hcol : db.collect names [] with
  | error e => exact ⟨fun h => (by cases h), fun _ _ _ => rfl⟩
  | ok removing =>
    dsimp only
    cases hneed : db.neededBy removing with
    | some r => exact ⟨fun h => (by cases h), fun _ _ _ => rfl⟩
    | none =>
      have hsys : ∀ n ∈ removing, ∃ p, db.find n = some p ∧ p.isSystem = false := by
        intro n hin
        rcases collect_ok hcol n hin with h | h
        · cases h
        · exact h
      refine ⟨fun _ => removed_closed hn hsys hneed _ ?_, ?_⟩
      · intro n hin
        simpa using (mem_filter.mp hin).2
      · intro e he hne
        dsimp only at he
        split_ifs at he
        cases he
        exact absurd rfl hne

/-- A program with a library that it alone needs, and one that was asked for. -/
def appDb : Db where
  packages := [
    ⟨"app".toList, "1".toList, "main".toList, [], ["so:lib>=2".toList, "!old".toList], [], ["bin/app".toList], [], [], "linux".toList⟩,
    ⟨"lib".toList, "3".toList, "main".toList, [], [], ["so:lib=3".toList], ["lib/so".toList], [], [], "linux".toList⟩,
    ⟨"tool".toList, "1".toList, "main".toList, [], [], [], [], [], [], "linux".toList⟩]
  world := ["app".toList, "tool".toList]

theorem remove_keeps_closed_app : Closed appDb (appDb.remove ["app".toList] true).2.1 ∧
    (appDb.remove ["app".toList] true).2.1.packages.map (·.name) = ["tool".toList] :=
  ⟨(remove_keeps_closed appDb ⟨by decide, by decide⟩ ["app".toList] true).1 (by decide), by decide⟩

end HamixOS.Pantry.Db
