import HamixOS.Lib.Machine
import HamixOS.Pantry.FailClean

namespace HamixOS.Pantry

open Lib List Db Event

/-!
# Who owns a file

The database over any sequence of installations, removals and displacements.  Each path is in the
list of one package at most, and only listed files are unlinked; both need the packages that a
new one shares paths with to lie in its layer, as `owner_of` compares paths without the root.
-/

/-- One call on the database. -/
inductive Call where
  | install (w : World) (repo : Repo) (pkg : Pkg)
  | remove (names : List Text) (saved : Bool)
  | displace (name : Text)

def Call.run (tools : Tools) (db : Db) : Call → Db × List Event
  | install w repo pkg => (installOne tools w repo pkg db).2
  | remove names saved => (db.remove names saved).2
  | displace name => db.displace name

def callStep (tools : Tools) (db : Db) (call : Call) : Option Db := some (call.run tools db).1

/-- The files that are found on the disk when the call looks for them. -/
def Call.stat : Call → Text → Bool
  | install w _ _ => w.stat
  | _ => fun _ => true

/-- The database when an installation sweeps the files of the version before. -/
def Call.atSweep (tools : Tools) (db : Db) : Call → Db
  | install w repo pkg =>
    let d := (db.displaceAll (db.displacedBy pkg.name pkg.provides)).1
    match w.download with
    | .error _ => d
    | .ok bytes =>
      match openArchive tools pkg bytes with
      | .error _ => d
      | .ok a =>
        match survey d repo.layer pkg a.replaces w.stat a.listing with
        | .error _ => d
        | .ok (taken, _) => d.takeOver taken
  | _ => db

/-- No path is listed by two packages. -/
structure Exclusive (db : Db) : Prop where
  unique : (db.packages.map (·.name)).Nodup
  sole : ∀ p ∈ db.packages, ∀ q ∈ db.packages, ∀ path, path ∈ p.files → path ∈ q.files → p.name = q.name

/-- No package lists the file that lies at `dest`. -/
def Unowned (db : Db) (dest : Text) : Prop := ∀ p ∈ db.packages, ∀ f ∈ p.files, targetPath p.layer f ≠ dest

/-- What a call does to the files: it unlinks those of packages that it takes out, and those that
    the package it upgrades lists but the new list does not; and it leaves alone what was there and
    is nobody's. -/
structure Safe (tools : Tools) (db : Db) (call : Call) : Prop where
  unlinked : ∀ dest, Event.unlink dest ∈ (call.run tools db).2 →
    (∃ p ∈ db.packages, (∀ q ∈ (call.run tools db).1.packages, q.name ≠ p.name) ∧
      ∃ f ∈ p.files, dest = targetPath p.layer f) ∨
    ∃ old ∈ (call.atSweep tools db).packages, ∃ new ∈ (call.run tools db).1.packages, new.name = old.name ∧
      ∃ f ∈ old.files, f ∉ new.files ∧ dest = targetPath old.layer f
  native : ∀ dest, call.stat dest = true → Unowned db dest →
    Event.write dest ∉ (call.run tools db).2 ∧ Unowned (call.run tools db).1 dest

/-- The packages that stay and list a path of the new one, and the version before, lie in its layer. -/
def Apart (tools : Tools) (db : Db) : Call → Prop
  | .install w repo pkg => ∀ bytes a, w.download = .ok bytes → openArchive tools pkg bytes = .ok a →
    ∀ p ∈ db.packages, p.name ∉ db.displacedBy pkg.name pkg.provides →
      (p.name = pkg.name ∨ ∃ path kind, (path, kind) ∈ a.listing ∧ path ∈ p.files) → rootOf p.layer = rootOf repo.layer
  | _ => True

/-! ### Taking packages out -/

section Out

variable {db : Db}

theorem Exclusive.sublist (h : Exclusive db) {db' : Db} (hs : db'.packages.Sublist db.packages) : Exclusive db' where
  unique := h.unique.sublist (hs.map _)
  sole p hp q hq := h.sole p (hs.subset hp) q (hs.subset hq)

theorem packages_displace (hu : (db.packages.map (·.name)).Nodup) (name : Text) :
    (db.displace name).1.packages = db.packages.filter (fun p => p.name ≠ name) := by
  unfold Db.displace
  cases hf : db.find name with
  | none =>
    refine (filter_eq_self.mpr fun p hp => ?_).symm
    simpa using find_eq_none.mp hf p hp
  | some q => exact eraseP_eq_filter hu name

theorem packages_displaceAll (hu : (db.packages.map (·.name)).Nodup) (names : List Text) :
    (db.displaceAll names).1.packages = db.packages.filter (fun p => p.name ∉ names) := by
  induction names generalizing db with
  | nil => simp [displaceAll]
  | cons name names ih =>
    have hd := packages_displace hu name
    unfold displaceAll
    dsimp only
    rw [ih (hd ▸ hu.sublist (filter_sublist.map _)), hd, filter_filter]
    refine filter_congr fun p _ => ?_
    simp only [mem_cons, not_or, Bool.decide_and, Bool.and_comm]

/-- What is unlinked for a package that is taken out. -/
theorem unlink_removeEvents {p : Installed} {dest : Text} (h : unlink dest ∈ removeEvents p) :
    ∃ f ∈ p.files, dest = targetPath p.layer f := by
  unfold removeEvents at h
  simp only [cons_append, mem_cons, mem_append, mem_map, mem_reverse, reduceCtorEq, false_or,
    unlink.injEq, not_mem_nil, or_false] at h
  obtain ⟨f, hf, heq⟩ := h
  exact ⟨f, hf, heq.symm⟩

theorem write_removeEvents (p : Installed) (dest : Text) : write dest ∉ removeEvents p := by
  simp [removeEvents]

theorem mem_displace_events {name : Text} {e : Event} (h : e ∈ (db.displace name).2) :
    ∃ p ∈ db.packages, p.name = name ∧ e ∈ removeEvents p := by
  unfold Db.displace at h
  cases hf : db.find name with
  | none =>
    rw [hf] at h
    cases h
  | some p =>
    rw [hf] at h
    obtain ⟨hp, hname⟩ := mem_of_find hf
    exact ⟨p, hp, hname, h⟩

theorem mem_displaceAll_events (hu : (db.packages.map (·.name)).Nodup) {names : List Text} {e : Event}
    (h : e ∈ (db.displaceAll names).2) : ∃ p ∈ db.packages, p.name ∈ names ∧ e ∈ removeEvents p := by
  induction names generalizing db with
  | nil => cases h
  | cons name names ih =>
    rcases mem_append.mp h with h | h
    · obtain ⟨p, hp, hname, he⟩ := mem_displace_events h
      exact ⟨p, hp, hname ▸ mem_cons_self, he⟩
    · have hd := packages_displace hu name
      obtain ⟨p, hp, hname, he⟩ := ih (hd ▸ hu.sublist (filter_sublist.map _)) h
      rw [hd] at hp
      exact ⟨p, (mem_filter.mp hp).1, mem_cons_of_mem _ hname, he⟩

theorem mem_removeAll_events (hu : (db.packages.map (·.name)).Nodup) {names : List Text} {e : Event}
    (h : e ∈ (removeAll names db).2) : ∃ p ∈ db.packages, p.name ∈ names ∧ e ∈ removeEvents p := by
  induction names generalizing db with
  | nil => cases h
  | cons name names ih =>
    unfold Db.removeAll at h
    cases hf : db.find name with
    | none =>
      rw [hf] at h
      obtain ⟨p, hp, hname, he⟩ := ih hu h
      exact ⟨p, hp, mem_cons_of_mem _ hname, he⟩
    | some q =>
      rw [hf] at h
      rcases mem_append.mp h with h | h
      · obtain ⟨hq, hname⟩ := mem_of_find hf
        exact ⟨q, hq, hname ▸ mem_cons_self, h⟩
      · have herase : (db.erase name).packages = db.packages.filter (fun p => p.name ≠ name) := eraseP_eq_filter hu name
        obtain ⟨p, hp, hname, he⟩ := ih (herase ▸ hu.sublist (filter_sublist.map _)) h
        rw [herase] at hp
        exact ⟨p, (mem_filter.mp hp).1, mem_cons_of_mem _ hname, he⟩

end Out

/-! ### Taking files over -/

section Over

/-- The packages in `ps'` are those of `ps`, with shorter lists of files. -/
def Released (ps ps' : List Installed) : Prop :=
  List.Forall₂ (fun p p' => p'.name = p.name ∧ p'.layer = p.layer ∧ ∀ f ∈ p'.files, f ∈ p.files) ps ps'

theorem Released.refl (ps : List Installed) : Released ps ps :=
  forall₂_same.mpr fun _ _ => ⟨rfl, rfl, fun _ hf => hf⟩

theorem Released.trans {ps qs rs : List Installed} (h : Released ps qs) (h' : Released qs rs) : Released ps rs := by
  induction h generalizing rs with
  | nil => exact h'
  | cons hp _ ih =>
    cases h' with
    | cons hq hrest => exact .cons ⟨hq.1.trans hp.1, hq.2.1.trans hp.2.1, fun f hf => hp.2.2 f (hq.2.2 f hf)⟩ (ih hrest)

theorem released_releaseFile (o path : Text) (ps : List Installed) : Released ps (releaseFile o path ps) := by
  induction ps with
  | nil => exact .nil
  | cons p ps ih =>
    unfold releaseFile
    split_ifs
    · exact .cons ⟨rfl, rfl, fun f hf => (mem_filter.mp hf).1⟩ (Released.refl ps)
    · exact .cons ⟨rfl, rfl, fun _ hf => hf⟩ ih

theorem released_takeOver (taken : List (Text × Text)) (ps : List Installed) :
    Released ps (taken.foldl (fun ps t => releaseFile t.1 t.2 ps) ps) := by
  induction taken generalizing ps with
  | nil => exact Released.refl ps
  | cons t taken ih => exact (released_releaseFile t.1 t.2 ps).trans (ih _)

theorem Released.names {ps ps' : List Installed} (h : Released ps ps') : ps'.map (·.name) = ps.map (·.name) := by
  induction h with
  | nil => rfl
  | cons hp _ ih => exact cons_eq_cons.mpr ⟨hp.1, ih⟩

/-- Where a package with a shorter list comes from. -/
theorem Released.source {ps ps' : List Installed} (h : Released ps ps') {p' : Installed} (hp' : p' ∈ ps') :
    ∃ p ∈ ps, p'.name = p.name ∧ p'.layer = p.layer ∧ ∀ f ∈ p'.files, f ∈ p.files := by
  induction h with
  | nil => cases hp'
  | @cons p q ps qs hp _ ih =>
    rcases mem_cons.mp hp' with rfl | hp'
    · exact ⟨p, mem_cons_self, hp⟩
    · obtain ⟨p, hin, hsame⟩ := ih hp'
      exact ⟨p, mem_cons_of_mem _ hin, hsame⟩

variable {ps : List Installed}

/-- The first package of the name has lost the file. -/
theorem releaseFile_lost {o path : Text} (hu : (ps.map (·.name)).Nodup) :
    ∀ p ∈ releaseFile o path ps, p.name = o → path ∉ p.files := by
  induction ps with
  | nil => nofun
  | cons q ps ih =>
    rw [map_cons, nodup_cons] at hu
    intro p hp hname
    unfold releaseFile at hp
    split_ifs at hp with hq
    · rcases mem_cons.mp hp with rfl | hp
      · exact fun hf => of_decide_eq_true (mem_filter.mp hf).2 rfl
      · exact absurd (mem_map.mpr ⟨p, hp, hname.trans hq.symm⟩) hu.1
    · rcases mem_cons.mp hp with rfl | hp
      · exact absurd hname hq
      · exact ih hu.2 p hp hname

theorem takeOver_lost {taken : List (Text × Text)} (hu : (ps.map (·.name)).Nodup)
    {o path : Text} (h : (o, path) ∈ taken) :
    ∀ p ∈ taken.foldl (fun ps t => releaseFile t.1 t.2 ps) ps, p.name = o → path ∉ p.files := by
  induction taken generalizing ps with
  | nil => cases h
  | cons t taken ih =>
    have hrel := released_releaseFile t.1 t.2 ps
    have hu' : ((releaseFile t.1 t.2 ps).map (·.name)).Nodup := hrel.names ▸ hu
    rcases mem_cons.mp h with rfl | h
    · intro p hp hname hf
      obtain ⟨q, hq, hqname, -, hqfiles⟩ := (released_takeOver taken _).source hp
      exact releaseFile_lost hu q hq (hqname.symm.trans hname) (hqfiles path hf)
    · exact ih hu' h

theorem mem_releaseFile {o path : Text} {p : Installed} (hp : p ∈ ps) (hne : o ≠ p.name) :
    p ∈ releaseFile o path ps := by
  induction ps with
  | nil => cases hp
  | cons q ps ih =>
    unfold releaseFile
    split_ifs with hq
    · rcases mem_cons.mp hp with rfl | hp
      · exact absurd hq.symm hne
      · exact mem_cons_of_mem _ hp
    · rcases mem_cons.mp hp with rfl | hp
      · exact mem_cons_self
      · exact mem_cons_of_mem _ (ih hp)

/-- A package that gives nothing up stays as it is. -/
theorem mem_takeOver {taken : List (Text × Text)} {p : Installed} (hp : p ∈ ps)
    (hno : ∀ o path, (o, path) ∈ taken → o ≠ p.name) : p ∈ taken.foldl (fun ps t => releaseFile t.1 t.2 ps) ps := by
  induction taken generalizing ps with
  | nil => exact hp
  | cons t taken ih =>
    exact ih (mem_releaseFile hp (hno t.1 t.2 mem_cons_self)) fun o path h => hno o path (mem_cons_of_mem _ h)

theorem Exclusive.takeOver {db : Db} (h : Exclusive db) (taken : List (Text × Text)) : Exclusive (db.takeOver taken) where
  unique := (released_takeOver taken db.packages).names ▸ h.unique
  sole p' hp' q' hq' path hpf hqf := by
    obtain ⟨p, hp, hpn, -, hpfiles⟩ := (released_takeOver taken db.packages).source hp'
    obtain ⟨q, hq, hqn, -, hqfiles⟩ := (released_takeOver taken db.packages).source hq'
    rw [hpn, hqn]
    exact h.sole p hp q hq path (hpfiles path hpf) (hqfiles path hqf)

end Over

/-! ### Installing -/

/-- An installation ends before the files are taken over, or it goes on to unpack the archive. -/
theorem installOne_cases (tools : Tools) (w : World) (repo : Repo) (pkg : Pkg) (db : Db) :
    let d := db.displaceAll (db.displacedBy pkg.name pkg.provides)
    (∃ e, installOne tools w repo pkg db = (.error e, d)) ∨
      ∃ bytes a taken native, w.download = .ok bytes ∧ openArchive tools pkg bytes = .ok a ∧
        survey d.1 repo.layer pkg a.replaces w.stat a.listing = .ok (taken, native) ∧
        (Call.install w repo pkg).atSweep tools db = d.1.takeOver taken ∧
        installOne tools w repo pkg db = ((unpack tools w repo pkg a taken native d.1).1,
          (unpack tools w repo pkg a taken native d.1).2.1, d.2 ++ (unpack tools w repo pkg a taken native d.1).2.2) := by
  intro d
  unfold installOne
  cases hd : w.download with
  | error m => exact .inl ⟨_, rfl⟩
  | ok bytes =>
    dsimp only
    cases ha : openArchive tools pkg bytes with
    | error m => exact .inl ⟨_, rfl⟩
    | ok a =>
      dsimp only
      cases hs : survey d.1 repo.layer pkg a.replaces w.stat a.listing with
      | error m => exact .inl ⟨_, rfl⟩
      | ok r =>
        refine .inr ⟨bytes, a, r.1, r.2, rfl, ha, hs, ?_, rfl⟩
        unfold Call.atSweep
        dsimp only
        rw [hd]
        dsimp only
        rw [ha]
        dsimp only
        rw [hs]

/-- Unpacking fails with the files taken over, or it records the package. -/
theorem unpack_cases (tools : Tools) (w : World) (repo : Repo) (pkg : Pkg) (a : Archive) (taken : List (Text × Text))
    (native : List Text) (db : Db) :
    let x := (extract tools w repo.layer native a.data).1
    let prelude := [.store pkg.name a.scripts, preScript pkg (db.find pkg.name)] ++ x.events
    (∃ e, unpack tools w repo pkg a taken native db = (.error e, db.takeOver taken, prelude)) ∨
      (unpack tools w repo pkg a taken native db).2 =
        (⟨((db.takeOver taken).erase pkg.name).packages ++ [record repo pkg a x.files], db.world⟩,
          prelude ++ sweep repo.layer (db.find pkg.name) x.files ++ [postScript pkg (db.find pkg.name)]) := by
  intro x prelude
  unfold unpack
  dsimp only
  cases (extract tools w repo.layer native a.data).2 with
  | error e => exact .inl ⟨e, rfl⟩
  | ok u => exact .inr rfl

section Install

variable {db : Db} {layer : Text} {pkg : Pkg} {stat : Text → Bool} {listing : List (Text × Kind)}
  {taken : List (Text × Text)} {native : List Text} {x : Extract}

theorem ownerOf_some {path : Text} {owner : Installed} (h : db.ownerOf path = some owner) :
    owner ∈ db.packages ∧ path ∈ owner.files :=
  ⟨mem_of_find?_eq_some h, by simpa using find?_some h⟩

theorem ownerOf_none {path : Text} (h : db.ownerOf path = none) : ∀ p ∈ db.packages, path ∉ p.files := by
  intro p hp hf
  simpa [hf] using find?_eq_none.mp h p hp

/-- No other package lists a file that the new one has written. -/
theorem not_listed (h : Exclusive db) (hs : Surveyed db layer pkg stat listing taken native)
    (hx : x.Within layer native listing) {f : Text} (hf : f ∈ x.files) {q : Installed}
    (hq : q ∈ (db.takeOver taken).packages) (hne : q.name ≠ pkg.name) : f ∉ q.files := by
  intro hqf
  obtain ⟨kind, hin, hd, ho, -⟩ := hx.files f hf
  obtain ⟨q₀, hq₀, hname, -, hfiles⟩ := (released_takeOver taken db.packages).source hq
  cases hown : db.ownerOf f with
  | none => exact ownerOf_none hown q₀ hq₀ (hfiles f hqf)
  | some owner =>
    obtain ⟨howner, hof⟩ := ownerOf_some hown
    have hsame : owner.name = q.name := (h.sole owner howner q₀ hq₀ f hof (hfiles f hqf)).trans hname.symm
    rcases hs.owned f kind owner hin hd ho hown with hself | htaken
    · exact hne (hsame.symm.trans hself)
    · exact takeOver_lost h.unique htaken q hq hsame.symm hqf

theorem exclusive_record (h : Exclusive db) (hs : Surveyed db layer pkg stat listing taken native)
    (hx : x.Within layer native listing) (repo : Repo) (a : Archive) (world : List Text) :
    Exclusive ⟨((db.takeOver taken).erase pkg.name).packages ++ [record repo pkg a x.files], world⟩ := by
  have ht := h.takeOver taken
  have herase : ((db.takeOver taken).erase pkg.name).packages =
      (db.takeOver taken).packages.filter (fun p => p.name ≠ pkg.name) := eraseP_eq_filter ht.unique pkg.name
  have hrest : ∀ p ∈ ((db.takeOver taken).erase pkg.name).packages, p ∈ (db.takeOver taken).packages ∧ p.name ≠ pkg.name := by
    intro p hp
    rw [herase] at hp
    exact ⟨(mem_filter.mp hp).1, of_decide_eq_true (mem_filter.mp hp).2⟩
  constructor
  · rw [map_append, nodup_append]
    refine ⟨herase ▸ ht.unique.sublist (filter_sublist.map _), nodup_singleton _, ?_⟩
    intro n hn m hm
    obtain ⟨p, hp, rfl⟩ := mem_map.mp hn
    rw [mem_singleton.mp hm]
    exact (hrest p hp).2
  · intro p hp q hq path hpf hqf
    rcases mem_append.mp hp with hp | hp
    · obtain ⟨hp, hpn⟩ := hrest p hp
      rcases mem_append.mp hq with hq | hq
      · exact ht.sole p hp q (hrest q hq).1 path hpf hqf
      · rw [mem_singleton.mp hq] at hqf
        exact absurd hpf (not_listed h hs hx hqf hp hpn)
    · rw [mem_singleton.mp hp] at hpf ⊢
      rcases mem_append.mp hq with hq | hq
      · obtain ⟨hq, hqn⟩ := hrest q hq
        exact absurd hqf (not_listed h hs hx hpf hq hqn)
      · rw [mem_singleton.mp hq]

end Install

theorem Exclusive.displaced {db : Db} (h : Exclusive db) (names : List Text) : Exclusive (db.displaceAll names).1 :=
  h.sublist (packages_displaceAll h.unique names ▸ filter_sublist)

theorem Exclusive.install {db : Db} (h : Exclusive db) (tools : Tools) (w : World) (repo : Repo) (pkg : Pkg) :
    Exclusive (installOne tools w repo pkg db).2.1 := by
  have hd := h.displaced (db.displacedBy pkg.name pkg.provides)
  rcases installOne_cases tools w repo pkg db with ⟨e, he⟩ | ⟨bytes, a, taken, native, -, ha, hs, -, he⟩
  · rw [he]
    exact hd
  · rw [he]
    rcases unpack_cases tools w repo pkg a taken native (db.displaceAll (db.displacedBy pkg.name pkg.provides)).1
      with ⟨e, hu⟩ | hu
    · rw [hu]
      exact hd.takeOver taken
    · rw [hu]
      exact exclusive_record hd (survey_spec hs) (extract_spec ha w repo.layer native).1 repo a _

/-! ### What an installation does to the files -/

section Files

variable {tools : Tools} {w : World} {repo : Repo} {pkg : Pkg} {db : Db}

theorem mem_displaced (h : Exclusive db) {names : List Text} {p : Installed} :
    p ∈ (db.displaceAll names).1.packages ↔ p ∈ db.packages ∧ p.name ∉ names := by
  rw [packages_displaceAll h.unique, mem_filter, decide_eq_true_iff]

/-- The database that an installation leaves holds the new package, and packages that were there
    and not displaced, with the files that they had or fewer. -/
theorem install_source (h : Exclusive db) {q : Installed} (hq : q ∈ (installOne tools w repo pkg db).2.1.packages) :
    (∃ p ∈ db.packages, p.name ∉ db.displacedBy pkg.name pkg.provides ∧ q.name = p.name ∧ q.layer = p.layer ∧
      ∀ f ∈ q.files, f ∈ p.files) ∨
    ∃ bytes a taken native, w.download = .ok bytes ∧ openArchive tools pkg bytes = .ok a ∧
      survey (db.displaceAll (db.displacedBy pkg.name pkg.provides)).1 repo.layer pkg a.replaces w.stat a.listing =
        .ok (taken, native) ∧ q = record repo pkg a (extract tools w repo.layer native a.data).1.files := by
  have hfrom : ∀ taken, q ∈ ((db.displaceAll (db.displacedBy pkg.name pkg.provides)).1.takeOver taken).packages →
      ∃ p ∈ db.packages, p.name ∉ db.displacedBy pkg.name pkg.provides ∧ q.name = p.name ∧ q.layer = p.layer ∧
        ∀ f ∈ q.files, f ∈ p.files := by
    intro taken hin
    obtain ⟨p, hp, hsame⟩ := (released_takeOver taken _).source hin
    obtain ⟨hp, hout⟩ := (mem_displaced h).mp hp
    exact ⟨p, hp, hout, hsame⟩
  rcases installOne_cases tools w repo pkg db with ⟨e, he⟩ | ⟨bytes, a, taken, native, hd, ha, hs, -, he⟩
  · rw [he] at hq
    exact .inl (hfrom [] hq)
  · rw [he] at hq
    rcases unpack_cases tools w repo pkg a taken native (db.displaceAll (db.displacedBy pkg.name pkg.provides)).1
      with ⟨e, hu⟩ | hu
    · rw [hu] at hq
      exact .inl (hfrom taken hq)
    · rw [hu] at hq
      rcases mem_append.mp hq with hq | hq
      · exact .inl (hfrom taken (mem_of_mem_eraseP hq))
      · exact .inr ⟨bytes, a, taken, native, hd, ha, hs, mem_singleton.mp hq⟩

theorem name_not_displaced (db : Db) (pkg : Pkg) : pkg.name ∉ db.displacedBy pkg.name pkg.provides := by
  intro hin
  obtain ⟨p, hp, hname⟩ := mem_map.mp hin
  simpa [hname] using (mem_filter.mp hp).2

/-- An entry that may be written and lies there already belongs to a package of the same layer. -/
theorem written_owned (h : Exclusive db) (hok : Apart tools db (.install w repo pkg)) {bytes : List UInt8} {a : Archive}
    {taken : List (Text × Text)} {native : List Text} (hd : w.download = .ok bytes)
    (ha : openArchive tools pkg bytes = .ok a)
    (hs : survey (db.displaceAll (db.displacedBy pkg.name pkg.provides)).1 repo.layer pkg a.replaces w.stat a.listing =
      .ok (taken, native)) {path : Text} {kind : Kind} (hin : (path, kind) ∈ a.listing) (hdir : kind ≠ .dir)
    (hother : kind ≠ .other) (hn : path ∉ native) (hstat : w.stat (targetPath repo.layer path) = true) :
    ¬ Unowned db (targetPath repo.layer path) := by
  have hsur := survey_spec hs
  intro hun
  cases hown : (db.displaceAll (db.displacedBy pkg.name pkg.provides)).1.ownerOf path with
  | none =>
    have := hsur.free path kind hin hdir hother hn hown
    rw [hstat] at this
    cases this
  | some owner =>
    obtain ⟨howner, hfile⟩ := ownerOf_some hown
    obtain ⟨howner, hout⟩ := (mem_displaced h).mp howner
    have hroot := hok bytes a hd ha owner howner hout (.inr ⟨path, kind, hin, hfile⟩)
    refine hun owner howner path hfile ?_
    unfold targetPath
    rw [hroot]

theorem install_unlinked (h : Exclusive db) (hok : Apart tools db (.install w repo pkg)) {dest : Text}
    (hin : unlink dest ∈ (installOne tools w repo pkg db).2.2) :
    (∃ p ∈ db.packages, p.name ∈ db.displacedBy pkg.name pkg.provides ∧ ∃ f ∈ p.files, dest = targetPath p.layer f) ∨
    ∃ old ∈ ((Call.install w repo pkg).atSweep tools db).packages, ∃ new ∈ (installOne tools w repo pkg db).2.1.packages,
      new.name = old.name ∧ ∃ f ∈ old.files, f ∉ new.files ∧ dest = targetPath old.layer f := by
  have hdisplaced : unlink dest ∈ (db.displaceAll (db.displacedBy pkg.name pkg.provides)).2 →
      ∃ p ∈ db.packages, p.name ∈ db.displacedBy pkg.name pkg.provides ∧ ∃ f ∈ p.files, dest = targetPath p.layer f := by
    intro hu
    obtain ⟨p, hp, hname, he⟩ := mem_displaceAll_events h.unique hu
    exact ⟨p, hp, hname, unlink_removeEvents he⟩
  rcases installOne_cases tools w repo pkg db with ⟨e, he⟩ | ⟨bytes, a, taken, native, hd, ha, hs, hsweep, he⟩
  · rw [he] at hin
    exact .inl (hdisplaced hin)
  · have hprelude : unlink dest ∉ [.store pkg.name a.scripts,
        preScript pkg ((db.displaceAll (db.displacedBy pkg.name pkg.provides)).1.find pkg.name)] ++
          (extract tools w repo.layer native a.data).1.events := by
      intro hu
      rcases mem_append.mp hu with hu | hu
      · exact (prelude_quiet pkg a.scripts _ dest).2 hu
      · rcases (extract_spec ha w repo.layer native).1.events _ hu with ⟨_, hm⟩ | ⟨_, _, -, -, -, -, hm⟩
        · cases hm
        · cases hm
    rw [hsweep]
    rw [he] at hin ⊢
    rcases mem_append.mp hin with hin | hin
    · exact .inl (hdisplaced hin)
    rcases unpack_cases tools w repo pkg a taken native (db.displaceAll (db.displacedBy pkg.name pkg.provides)).1
      with ⟨e, hu⟩ | hu
    · rw [hu] at hin
      exact absurd hin hprelude
    · rw [hu] at hin ⊢
      rcases mem_append.mp hin with hin | hin
      · rcases mem_append.mp hin with hin | hin
        · exact absurd hin hprelude
        · -- the sweep
          right
          unfold sweep at hin
          cases hf : (db.displaceAll (db.displacedBy pkg.name pkg.provides)).1.find pkg.name with
          | none =>
            rw [hf] at hin
            cases hin
          | some old =>
            rw [hf] at hin
            obtain ⟨hold, hname⟩ := mem_of_find hf
            obtain ⟨f, hfin, hdest⟩ := mem_map.mp hin
            obtain ⟨hfile, hnew⟩ := mem_filter.mp hfin
            have hmid := mem_takeOver hold fun o path ht => hname ▸ ((survey_spec hs).ofTaken o path ht).1
            obtain ⟨holddb, hout⟩ := (mem_displaced h).mp hold
            have hroot := hok bytes a hd ha old holddb hout (.inl hname)
            refine ⟨old, hmid, record repo pkg a (extract tools w repo.layer native a.data).1.files,
              mem_append_right _ (mem_singleton_self _), hname.symm, f, hfile, of_decide_eq_true hnew, ?_⟩
            rw [← unlink.inj hdest]
            unfold targetPath
            rw [hroot]
      · unfold postScript at hin
        split at hin
        · cases mem_singleton.mp hin
        · cases mem_singleton.mp hin

theorem install_unwritten (h : Exclusive db) (hok : Apart tools db (.install w repo pkg)) {dest : Text}
    (hstat : w.stat dest = true) (hun : Unowned db dest) :
    write dest ∉ (installOne tools w repo pkg db).2.2 ∧ Unowned (installOne tools w repo pkg db).2.1 dest := by
  constructor
  · intro hin
    rcases installOne_cases tools w repo pkg db with ⟨e, he⟩ | ⟨bytes, a, taken, native, hd, ha, hs, -, he⟩
    · rw [he] at hin
      exact displaceAll_events _ db dest hin
    have hprelude : write dest ∉ [.store pkg.name a.scripts,
        preScript pkg ((db.displaceAll (db.displacedBy pkg.name pkg.provides)).1.find pkg.name)] ++
          (extract tools w repo.layer native a.data).1.events := by
      intro hu
      rcases mem_append.mp hu with hu | hu
      · exact (prelude_quiet pkg a.scripts _ dest).1 hu
      · rcases (extract_spec ha w repo.layer native).1.events _ hu with ⟨_, hm⟩ | ⟨path, kind, hin', hdir, ho, hn, hm⟩
        · cases hm
        · cases hm
          exact written_owned h hok hd ha hs hin' hdir ho hn hstat hun
    rw [he] at hin
    rcases mem_append.mp hin with hin | hin
    · exact displaceAll_events _ db dest hin
    rcases unpack_cases tools w repo pkg a taken native (db.displaceAll (db.displacedBy pkg.name pkg.provides)).1
      with ⟨e, hu⟩ | hu
    · rw [hu] at hin
      exact hprelude hin
    · rw [hu] at hin
      rcases mem_append.mp hin with hin | hin
      · rcases mem_append.mp hin with hin | hin
        · exact hprelude hin
        · unfold sweep at hin
          split at hin
          · obtain ⟨_, -, heq⟩ := mem_map.mp hin
            cases heq
          · cases hin
      · unfold postScript at hin
        split at hin
        · cases mem_singleton.mp hin
        · cases mem_singleton.mp hin
  · intro q hq f hf heq
    rcases install_source h hq with ⟨p, hp, -, -, hlayer, hfiles⟩ | ⟨bytes, a, taken, native, hd, ha, hs, rfl⟩
    · exact hun p hp f (hfiles f hf) (hlayer ▸ heq)
    · obtain ⟨kind, hin, hdir, ho, hn⟩ := (extract_spec ha w repo.layer native).1.files f hf
      have hdest : targetPath repo.layer f = dest := heq
      exact written_owned h hok hd ha hs hin hdir ho hn (hdest.symm ▸ hstat) (hdest.symm ▸ hun)

end Files

/-! ### The main result -/

theorem remove_cases (db : Db) (names : List Text) (saved : Bool) :
    (db.remove names saved).2 = (db, []) ∨
      ∃ gone world, (db.remove names saved).2 = removeAll gone ⟨db.packages, world⟩ := by
  unfold Db.remove
  cases db.collect names [] with
  | error e => exact .inl rfl
  | ok removing =>
    dsimp only
    cases db.neededBy removing with
    | some r => exact .inl rfl
    | none => exact .inr ⟨_, _, rfl⟩

/-- Packages that are taken out, and nothing else, from a database with unique names. -/
theorem safe_of_filter {tools : Tools} {db : Db} {call : Call} {names : List Text}
    (hps : (call.run tools db).1.packages = db.packages.filter (fun p => p.name ∉ names))
    (hev : ∀ e ∈ (call.run tools db).2, ∃ p ∈ db.packages, p.name ∈ names ∧ e ∈ removeEvents p) : Safe tools db call where
  unlinked dest hin := by
    obtain ⟨p, hp, hname, he⟩ := hev _ hin
    refine .inl ⟨p, hp, fun q hq heq => ?_, unlink_removeEvents he⟩
    rw [hps] at hq
    exact of_decide_eq_true (mem_filter.mp hq).2 (heq ▸ hname)
  native dest _ hun := by
    refine ⟨fun hin => ?_, fun p hp => hun p ?_⟩
    · obtain ⟨p, -, -, he⟩ := hev _ hin
      exact write_removeEvents p dest he
    · rw [hps] at hp
      exact (mem_filter.mp hp).1

theorem safe_call {tools : Tools} {db : Db} (h : Exclusive db) {call : Call} (hok : Apart tools db call) :
    Safe tools db call := by
  cases call with
  | install w repo pkg =>
    refine ⟨fun dest hin => ?_, fun dest hstat hun => install_unwritten h hok hstat hun⟩
    rcases install_unlinked h hok hin with ⟨p, hp, hname, hf⟩ | hswept
    · refine .inl ⟨p, hp, fun q hq heq => ?_, hf⟩
      rcases install_source h hq with ⟨p', -, hout, hqn, -⟩ | ⟨_, _, _, _, -, -, -, rfl⟩
      · exact hout (hqn ▸ heq ▸ hname)
      · have heq' : pkg.name = p.name := heq
        exact name_not_displaced db pkg (heq'.symm ▸ hname)
    · exact .inr hswept
  | remove names saved =>
    rcases remove_cases db names saved with he | ⟨gone, world, he⟩
    · refine @safe_of_filter tools db (.remove names saved) [] ?_ ?_
      · show (db.remove names saved).2.1.packages = _
        rw [he]
        simp
      · show ∀ e ∈ (db.remove names saved).2.2, _
        rw [he]
        exact fun e hin => absurd hin not_mem_nil
    · refine @safe_of_filter tools db (.remove names saved) gone ?_ ?_
      · show (db.remove names saved).2.1.packages = _
        rw [he]
        exact @packages_removeAll ⟨db.packages, world⟩ h.unique gone
      · show ∀ e ∈ (db.remove names saved).2.2, _
        rw [he]
        exact fun e hin => @mem_removeAll_events ⟨db.packages, world⟩ h.unique gone e hin
  | displace name =>
    refine @safe_of_filter tools db (.displace name) [name] ?_ ?_
    · refine (packages_displace h.unique name).trans (filter_congr fun p _ => ?_)
      simp
    · intro e hin
      obtain ⟨p, hp, hname, he⟩ := mem_displace_events hin
      exact ⟨p, hp, hname ▸ mem_singleton_self _, he⟩

theorem exclusive_call {tools : Tools} {db : Db} (h : Exclusive db) (call : Call) :
    Exclusive (call.run tools db).1 := by
  cases call with
  | install w repo pkg => exact h.install tools w repo pkg
  | remove names saved =>
    show Exclusive (db.remove names saved).2.1
    rcases remove_cases db names saved with he | ⟨gone, world, he⟩
    · rw [he]
      exact h
    · rw [he]
      exact h.sublist (@packages_removeAll ⟨db.packages, world⟩ h.unique gone ▸ filter_sublist)
  | displace name =>
    show Exclusive (db.displace name).1
    exact h.sublist (packages_displace h.unique name ▸ filter_sublist)

/-- Over any sequence of calls no path is listed by two packages; and where the packages that share
    paths lie in one layer, a call unlinks only what its package lists and leaves alone what is
    nobody's. -/
theorem files_owned (tools : Tools) {db : Db} (h : Reach Exclusive (callStep tools) (Apart tools) db) :
    Exclusive db ∧ ∀ call, Apart tools db call → Safe tools db call := by
  have hex : Exclusive db := by
    refine h.invariant (I := Exclusive) (fun _ hi => hi) ?_
    intro db call db' hi _ hs
    obtain rfl := Option.some.inj hs
    exact exclusive_call hi call
  exact ⟨hex, fun call hok => safe_call hex hok⟩

/-- A record of an archive, of a file with a short name and body. -/
def tarRecord (name body : List UInt8) : List UInt8 :=
  let front := name ++ List.replicate (124 - name.length) 0 ++ octalDigits 11 body.length ++ List.replicate 13 0
  let back := (0x30 : UInt8) :: List.replicate 355 0
  front ++ octalDigits 7 ((front ++ List.replicate 8 32 ++ back).map UInt8.toNat).sum ++ [0] ++ back ++
    body ++ List.replicate (roundUp body.length - body.length) 0

/-- A package with the file `t`, in a format that is its own digest. -/
def toolBundle : Tools where
  rawMembers _ _ := .ok [[0], [1]]
  members _ _ := .ok [tarRecord (".PKGINFO".toList.map fun c => UInt8.ofNat c.toNat) ("datahash = 00".toList.map fun c => UInt8.ofNat c.toNat)]
  stream _ := ([tarRecord [0x74] [7]], none)
  sha1 := id
  sha256 := id
  base64 _ := some [0]
  hex _ := "00".toList

def toolPkg : Pkg := ⟨"tool".toList, "2".toList, [], "Q1".toList, [], []⟩

/-- The version before, with the files `t` and `u`. -/
def toolDb (layer : Text) : Db where
  packages := [⟨"tool".toList, "1".toList, "main".toList, [], [], [], ["t".toList, "u".toList], [], [], layer⟩]
  world := ["tool".toList]

/-- A disk on which every file is found and can be written. -/
def calm : World := ⟨.ok [0, 1], fun _ => true, fun _ => .done, fun _ => true, fun _ => true, true⟩

theorem exclusive_toolDb (layer : Text) : Exclusive (toolDb layer) := by
  refine ⟨nodup_singleton _, fun p hp q hq _ _ _ => ?_⟩
  rw [mem_singleton.mp hp, mem_singleton.mp hq]

theorem files_owned_tool :
    Exclusive (toolDb "linux".toList) ∧ Safe toolBundle (toolDb "linux".toList) (.install calm linuxRepo toolPkg) := by
  obtain ⟨hex, hsafe⟩ := files_owned toolBundle (.start (exclusive_toolDb "linux".toList))
  refine ⟨hex, hsafe _ fun _ _ _ _ p hp _ _ => ?_⟩
  rw [mem_singleton.mp hp]
  rfl

/-- An upgrade to another layer writes over a file that is nobody's, and unlinks another. -/
theorem other_layer_overwritten :
    Exclusive (toolDb "native".toList) ∧ Unowned (toolDb "native".toList) "/linux/t".toList ∧
      Unowned (toolDb "native".toList) "/linux/u".toList ∧
      Event.write "/linux/t".toList ∈ (installOne toolBundle calm linuxRepo toolPkg (toolDb "native".toList)).2.2 ∧
      Event.unlink "/linux/u".toList ∈ (installOne toolBundle calm linuxRepo toolPkg (toolDb "native".toList)).2.2 ∧
      ¬ Safe toolBundle (toolDb "native".toList) (.install calm linuxRepo toolPkg) := by
  have hun : Unowned (toolDb "native".toList) "/linux/t".toList := by
    unfold Unowned
    decide +kernel
  have hwrite : Event.write "/linux/t".toList ∈ (installOne toolBundle calm linuxRepo toolPkg (toolDb "native".toList)).2.2 := by
    decide +kernel
  refine ⟨exclusive_toolDb _, hun, by unfold Unowned; decide +kernel, hwrite, by decide +kernel, fun h => ?_⟩
  have hno := (h.native "/linux/t".toList rfl hun).1
  dsimp only [Call.run] at hno
  exact hno hwrite

end HamixOS.Pantry
