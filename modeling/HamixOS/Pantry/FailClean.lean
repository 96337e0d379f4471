import HamixOS.Pantry.Extraction

namespace HamixOS.Pantry

open Lib List Db Nat

open TarStream (deliver)

/-!
# Installations that fail before a file is written

An installation that fails early leaves the database and the installed files alone, whatever the
network and the file system answer, if and only if it has nothing to displace and nothing to take
over that it could fail behind.
-/

/-- A call that fails before it writes a file has changed nothing. -/
def FailsClean (db : Db) (r : Except InstallError Unit × Db × List Event) : Prop :=
  ∀ e, r.1 = .error e → e ≠ .save → (∀ path, Event.write path ∉ r.2.2) →
    r.2.1 = db ∧ ∀ path, Event.unlink path ∉ r.2.2

/-- An entry that no file is written for. -/
def LeftAlone (entry : Text × Kind) : Prop :=
  entry.2 = .dir ∨ entry.2 = .other ∨ (entry.2 = .file ∧ entry.1 ∈ protectedPaths)

/-- A survey of the archive comes upon a file that may not be had, or upon none to take over, or
    there is no file to write. -/
def TakesNone (db : Db) (layer : Text) (pkg : Pkg) (a : Archive) : Prop :=
  ∀ taken native, survey db layer pkg a.replaces (fun _ => false) a.listing = .ok (taken, native) →
    taken = [] ∨ ∀ entry ∈ a.listing, LeftAlone entry

/-! ### What changes the database -/

section Changes

variable {db : Db}

theorem displaceAll_events (names : List Text) (db : Db) : ∀ path, Event.write path ∉ (db.displaceAll names).2 := by
  induction names generalizing db with
  | nil => exact fun path h => absurd h not_mem_nil
  | cons name names ih =>
    intro path h
    rcases mem_append.mp h with h | h
    · unfold Db.displace at h
      cases hf : db.find name with
      | none =>
        rw [hf] at h
        cases h
      | some p =>
        rw [hf] at h
        simp [removeEvents] at h
    · exact ih _ path h

theorem length_displace_le (db : Db) (name : Text) : (db.displace name).1.packages.length ≤ db.packages.length := by
  unfold Db.displace
  cases db.find name with
  | none => exact le_refl _
  | some p => exact length_eraseP_le

theorem length_displaceAll_le (names : List Text) (db : Db) :
    (db.displaceAll names).1.packages.length ≤ db.packages.length := by
  induction names generalizing db with
  | nil => exact le_refl _
  | cons name names ih => exact (ih _).trans (length_displace_le db name)

/-- Displacing the package of a name that is in the database leaves fewer packages. -/
theorem length_displaceAll_lt {name : Text} (names : List Text) (h : ∃ p ∈ db.packages, p.name = name) :
    (db.displaceAll (name :: names)).1.packages.length < db.packages.length := by
  obtain ⟨p, hp, hname⟩ := h
  have hfound : (db.find name).isSome = true := find?_isSome.mpr ⟨p, hp, by simpa using hname⟩
  obtain ⟨q, hq⟩ := Option.isSome_iff_exists.mp hfound
  have hlt : (db.displace name).1.packages.length < db.packages.length := by
    unfold Db.displace
    rw [hq]
    have hlen : (db.erase name).packages.length = db.packages.length - 1 :=
      length_eraseP_of_mem hp (by simpa using hname)
    have hpos := length_pos_of_mem hp
    dsimp only
    omega
  exact lt_of_le_of_lt (length_displaceAll_le names _) hlt

/-- The number of the entries in all lists of files. -/
def listings (ps : List Installed) : Nat := (ps.map (fun p => p.files.length)).sum

theorem listings_releaseFile_le (o path : Text) (ps : List Installed) :
    listings (releaseFile o path ps) ≤ listings ps := by
  induction ps with
  | nil => exact le_refl _
  | cons p ps ih =>
    unfold releaseFile
    split_ifs
    · exact Nat.add_le_add_right (length_filter_le _ _) _
    · exact Nat.add_le_add_left ih _

theorem listings_takeOver_le (taken : List (Text × Text)) (ps : List Installed) :
    listings (taken.foldl (fun ps t => releaseFile t.1 t.2 ps) ps) ≤ listings ps := by
  induction taken generalizing ps with
  | nil => exact le_refl _
  | cons t taken ih => exact (ih _).trans (listings_releaseFile_le t.1 t.2 ps)

/-- Where names are unique, a file that its owner gives up is missed. -/
theorem listings_releaseFile_lt {path : Text} {ps : List Installed} (hu : (ps.map (·.name)).Nodup) {owner : Installed}
    (hin : owner ∈ ps) (hfile : path ∈ owner.files) : listings (releaseFile owner.name path ps) < listings ps := by
  induction ps with
  | nil => cases hin
  | cons p ps ih =>
    unfold releaseFile
    rw [map_cons, nodup_cons] at hu
    rcases mem_cons.mp hin with rfl | hin
    · rw [if_pos rfl]
      refine Nat.add_lt_add_right ?_ _
      exact length_filter_lt_length_iff_exists.mpr ⟨path, hfile, by simp⟩
    · have hne : p.name ≠ owner.name := fun h => hu.1 (h ▸ mem_map.mpr ⟨owner, hin, rfl⟩)
      rw [if_neg hne]
      exact Nat.add_lt_add_left (ih hu.2 hin) _

end Changes

/-! ### The survey without a file system -/

section Quiet

variable {db : Db} {layer : Text} {pkg : Pkg} {replaces : List Text} {stat : Text → Bool}
  {listing : List (Text × Kind)} {taken : List (Text × Text)} {native : List Text}

/-- The file system has no say in what is taken over. -/
theorem survey_quiet (h : survey db layer pkg replaces stat listing = .ok (taken, native)) :
    survey db layer pkg replaces (fun _ => false) listing = .ok (taken, []) := by
  induction listing generalizing taken native with
  | nil =>
    cases h
    rfl
  | cons entry rest ih =>
    obtain ⟨path, kind⟩ := entry
    unfold survey at h ⊢
    by_cases hk : kind = .dir ∨ kind = .other
    · rw [if_pos hk] at h ⊢
      exact ih h
    rw [if_neg hk] at h ⊢
    cases hown : db.ownerOf path with
    | none =>
      rw [hown] at h
      rw [if_neg Bool.false_ne_true]
      split_ifs at h
      · cases hr : survey db layer pkg replaces stat rest with
        | error e => rw [hr] at h; cases h
        | ok r =>
          rw [hr] at h
          cases h
          exact ih hr
      · exact ih h
    | some owner =>
      rw [hown] at h
      dsimp only at h ⊢
      split_ifs at h ⊢
      · exact ih h
      · cases hr : survey db layer pkg replaces stat rest with
        | error e => rw [hr] at h; cases h
        | ok r =>
          rw [hr] at h
          cases h
          rw [ih hr]
          rfl

end Quiet

/-! ### The second reading -/

section Write

variable {w : World} {layer : Text} {native : List Text}

/-- A callback that refuses nothing as long as `P` holds takes everything. -/
theorem deliver_accepted {σ : Type} {on : σ → TarEvent → σ × Bool} {P : σ → Prop} {es : List TarEvent}
    (hstep : ∀ c, ∀ e ∈ es, P c → P (on c e).1 ∧ (on c e).2 = true) {c : σ} (h : P c) : (deliver on c es).2 = true := by
  induction es generalizing c with
  | nil => rfl
  | cons e es ih =>
    obtain ⟨hP, hgo⟩ := hstep c e mem_cons_self h
    rw [deliver, if_pos hgo]
    exact ih (fun c e' he' => hstep c e' (mem_cons_of_mem _ he')) hP

/-- While no file is opened, an event of an entry that is left alone goes through. -/
theorem write_leftAlone {x : Extract} {e : TarEvent} (hx : x.opened = none)
    (he : ∀ entry, e = .begins entry → LeftAlone (entry.path, entry.kind)) :
    (Extract.write w layer native x e).1.opened = none ∧ (Extract.write w layer native x e).2 = true := by
  cases e with
  | begins entry =>
    unfold Extract.write
    dsimp only
    by_cases hskip : entry.kind ≠ .dir ∧ entry.path ∈ native
    · rw [if_pos hskip]
      exact ⟨hx, rfl⟩
    rw [if_neg hskip]
    rcases he entry rfl with hk | hk | ⟨hk, hp⟩
    · rw [show entry.kind = .dir from hk]
      exact ⟨hx, rfl⟩
    · rw [show entry.kind = .other from hk]
      exact ⟨hx, rfl⟩
    · rw [show entry.kind = .file from hk]
      rw [if_pos (show entry.path ∈ protectedPaths from hp)]
      exact ⟨hx, rfl⟩
  | data chunk =>
    unfold Extract.write
    rw [hx]
    exact ⟨rfl, rfl⟩
  | ends => exact ⟨rfl, rfl⟩

/-- A file system on which no file can be opened for writing, nor read. -/
def sealed (bytes : List UInt8) : World :=
  ⟨.ok bytes, fun _ => false, fun _ => .refused, fun _ => false, fun _ => true, true⟩

theorem write_sealed {bytes : List UInt8} {x : Extract} (e : TarEvent)
    (hx : ∀ path, Event.write path ∉ x.events) :
    ∀ path, Event.write path ∉ (Extract.write (sealed bytes) layer native x e).1.events := by
  cases e with
  | begins entry =>
    unfold Extract.write
    dsimp only
    by_cases hskip : entry.kind ≠ .dir ∧ entry.path ∈ native
    · rw [if_pos hskip]
      exact hx
    rw [if_neg hskip]
    cases entry.kind with
    | file =>
      dsimp only
      split_ifs with hp hr
      · exact hx
      · exact hx
      · exact absurd rfl hr
    | dir =>
      intro path h
      rcases mem_append.mp h with h | h
      · exact hx path h
      · cases mem_singleton.mp h
    | symlink target => exact hx
    | hardlink target => exact hx
    | other => exact hx
  | data chunk =>
    unfold Extract.write
    dsimp only
    cases x.opened with
    | none => exact hx
    | some dest =>
      dsimp only
      split_ifs
      · exact hx
      · exact hx
  | ends => exact hx

theorem write_sealed_refused {bytes : List UInt8} (x : Extract) {entry : StreamEntry}
    (he : ¬ LeftAlone (entry.path, entry.kind)) :
    (Extract.write (sealed bytes) layer [] x (.begins entry)).2 = false := by
  unfold Extract.write
  dsimp only
  rw [if_neg (fun h => absurd h.2 not_mem_nil)]
  cases hk : entry.kind with
  | file =>
    rw [if_neg (fun hp => he (.inr (.inr ⟨hk, hp⟩)))]
    rfl
  | dir => exact absurd (.inl hk) he
  | symlink target => rfl
  | hardlink target => rfl
  | other => exact absurd (.inr (.inl hk)) he

end Write

/-! ### The main result -/

theorem takeOver_ne {db : Db} (hn : db.Named) {layer : Text} {pkg : Pkg} {stat : Text → Bool}
    {listing : List (Text × Kind)} {t : Text × Text} {taken : List (Text × Text)} {native : List Text}
    (h : Surveyed db layer pkg stat listing (t :: taken) native) : db.takeOver (t :: taken) ≠ db := by
  intro heq
  obtain ⟨-, owner, hown, hname⟩ := h.ofTaken t.1 t.2 mem_cons_self
  have hfile : t.2 ∈ owner.files := by simpa using find?_some hown
  have hlt := listings_releaseFile_lt hn.unique (mem_of_find?_eq_some hown) hfile
  have hle := listings_takeOver_le taken (releaseFile t.1 t.2 db.packages)
  have hpk : listings (db.takeOver (t :: taken)).packages = listings db.packages := by rw [heq]
  rw [hname] at hlt
  exact absurd (hpk ▸ hle) (Nat.not_le_of_lt hlt)

/-- Storing the scripts and running the first one touches no file of a package. -/
theorem prelude_quiet (pkg : Pkg) (scripts : List Text) (previous : Option Installed) (path : Text) :
    Event.write path ∉ [.store pkg.name scripts, preScript pkg previous] ∧
      Event.unlink path ∉ [.store pkg.name scripts, preScript pkg previous] := by
  cases previous with
  | none => simp [preScript]
  | some old => simp [preScript]

/-- A survey that ends well, where nothing is displaced. -/
theorem installOne_opened {tools : Tools} {w : World} {repo : Repo} {pkg : Pkg} {db : Db} {bytes : List UInt8}
    {a : Archive} {taken : List (Text × Text)} {native : List Text}
    (hnone : db.displacedBy pkg.name pkg.provides = []) (hd : w.download = .ok bytes)
    (ha : openArchive tools pkg bytes = .ok a)
    (hs : survey db repo.layer pkg a.replaces w.stat a.listing = .ok (taken, native)) :
    installOne tools w repo pkg db = unpack tools w repo pkg a taken native db := by
  unfold installOne
  rw [hnone, hd]
  dsimp only [displaceAll]
  rw [ha]
  dsimp only
  rw [hs]
  rfl

theorem unpack_error {tools : Tools} {w : World} {repo : Repo} {pkg : Pkg} {a : Archive} {taken : List (Text × Text)}
    {native : List Text} {e : InstallError} (he : (extract tools w repo.layer native a.data).2 = .error e) (db : Db) :
    unpack tools w repo pkg a taken native db = (.error e, db.takeOver taken,
      [.store pkg.name a.scripts, preScript pkg (db.find pkg.name)] ++
        (extract tools w repo.layer native a.data).1.events) := by
  unfold unpack
  dsimp only
  rw [he]

/-- An installation into `db` fails cleanly before the first file, whatever happens outside, if and
    only if it displaces no package and takes no file over before it writes one. -/
theorem install_fails_clean (tools : Tools) (repo : Repo) (pkg : Pkg) (db : Db) (hn : db.Named) :
    (∀ w, FailsClean db (installOne tools w repo pkg db)) ↔
      db.displacedBy pkg.name pkg.provides = [] ∧
        ∀ bytes a, openArchive tools pkg bytes = .ok a → TakesNone db repo.layer pkg a := by
  constructor
  · intro h
    have hnone : db.displacedBy pkg.name pkg.provides = [] := by
      by_contra hne
      obtain ⟨name, names, hds⟩ := exists_cons_of_ne_nil hne
      have hin : name ∈ db.displacedBy pkg.name pkg.provides := hds ▸ mem_cons_self
      obtain ⟨p, hp, hname⟩ := mem_map.mp hin
      -- the download fails behind the displacing
      have hclean := h ⟨.error [], fun _ => false, fun _ => .refused, fun _ => false, fun _ => true, true⟩ (.fetch []) rfl nofun
      obtain ⟨hdb, -⟩ := hclean (displaceAll_events _ _)
      have hlt := length_displaceAll_lt names ⟨p, (mem_filter.mp hp).1, hname⟩
      rw [← hds] at hlt
      have hdb' : (db.displaceAll (db.displacedBy pkg.name pkg.provides)).1 = db := hdb
      rw [hdb'] at hlt
      exact lt_irrefl _ hlt
    refine ⟨hnone, fun bytes a ha taken native hs => ?_⟩
    by_contra hno
    obtain ⟨htaken, hwrites⟩ := not_or.mp hno
    obtain ⟨t, ts, rfl⟩ := exists_cons_of_ne_nil htaken
    obtain ⟨entry, hwrites⟩ := not_forall.mp hwrites
    obtain ⟨hin, halone⟩ := Classical.not_imp.mp hwrites
    obtain rfl : native = [] := (Prod.mk.inj (Except.ok.inj (hs.symm.trans (survey_quiet hs)))).2
    -- no file can be opened behind the taking over
    obtain ⟨-, hsave, hends⟩ := extract_spec ha (sealed bytes) repo.layer []
    have hmem : ∃ begun : StreamEntry, TarEvent.begins begun ∈ heard tools a.data ∧ (begun.path, begun.kind) = entry := by
      rw [(openArchive_listing ha).1] at hin
      obtain ⟨e, he, heq⟩ := mem_filterMap.mp hin
      cases e with
      | begins begun => exact ⟨begun, he, Option.some.inj heq⟩
      | data chunk => cases heq
      | ends => cases heq
    obtain ⟨begun, hbegun, rfl⟩ := hmem
    have hrefused := deliver_refused hbegun (fun x => @write_sealed_refused repo.layer bytes x begun halone) .start
    cases hext : (extract tools (sealed bytes) repo.layer [] a.data).2 with
    | ok u =>
      rw [hends.mp hext] at hrefused
      cases hrefused
    | error e =>
      have hrun : installOne tools (sealed bytes) repo pkg db = _ := installOne_opened hnone rfl ha hs
      rw [unpack_error hext] at hrun
      have hclean := h (sealed bytes) e (by rw [hrun]) (fun h' => hsave (h' ▸ hext))
      refine takeOver_ne hn (survey_spec hs) ?_
      have hquiet := (hclean ?_).1
      · rw [hrun] at hquiet
        exact hquiet
      · rw [hrun]
        intro path hpath
        rcases mem_append.mp hpath with hpath | hpath
        · exact (prelude_quiet pkg a.scripts _ path).1 hpath
        · have hnowrite : ∀ path, Event.write path ∉
              (deliver (Extract.write (sealed bytes) repo.layer []) .start (heard tools a.data)).1.events :=
            deliver_induct (P := fun x : Extract => ∀ path, Event.write path ∉ x.events)
              (fun _ e _ hx => write_sealed e hx) (fun _ h' => absurd h' not_mem_nil)
          have hevents : (extract tools (sealed bytes) repo.layer [] a.data).1 =
              (deliver (Extract.write (sealed bytes) repo.layer []) .start (heard tools a.data)).1 :=
            (streamInto_follows _).1
          exact hnowrite path (hevents ▸ hpath)
  · rintro ⟨hnone, htakes⟩ w e he hsave hw
    cases hd : w.download with
    | error m =>
      have hrun : installOne tools w repo pkg db = (.error (.fetch m), db, []) := by
        unfold installOne
        rw [hnone, hd]
        rfl
      rw [hrun]
      exact ⟨rfl, fun _ h => absurd h not_mem_nil⟩
    | ok bytes =>
      cases ha : openArchive tools pkg bytes with
      | error m =>
        have hrun : installOne tools w repo pkg db = (.error m, db, []) := by
          unfold installOne
          rw [hnone, hd]
          dsimp only [Db.displaceAll]
          rw [ha]
        rw [hrun]
        exact ⟨rfl, fun _ h => absurd h not_mem_nil⟩
      | ok a =>
        cases hs : survey db repo.layer pkg a.replaces w.stat a.listing with
        | error m =>
          have hrun : installOne tools w repo pkg db = (.error m, db, []) := by
            unfold installOne
            rw [hnone, hd]
            dsimp only [Db.displaceAll]
            rw [ha]
            dsimp only
            rw [hs]
          rw [hrun]
          exact ⟨rfl, fun _ h => absurd h not_mem_nil⟩
        | ok r =>
          obtain ⟨taken, native⟩ := r
          have hrun := installOne_opened hnone hd ha hs
          obtain ⟨hwithin, -, hends⟩ := extract_spec ha w repo.layer native
          cases hext : (extract tools w repo.layer native a.data).2 with
          | ok u =>
            -- the only failure left is that of the database
            exfalso
            rw [hrun] at he
            unfold unpack at he
            dsimp only at he
            rw [hext] at he
            dsimp only at he
            split_ifs at he
            exact hsave (Except.error.inj he).symm
          | error m =>
            rw [unpack_error hext] at hrun
            have htaken : taken = [] := by
              rcases htakes bytes a ha taken [] (survey_quiet hs) with ht | halone
              · exact ht
              · exfalso
                have hgo : (deliver (Extract.write w repo.layer native) .start (heard tools a.data)).2 = true := by
                  refine deliver_accepted (P := fun x => x.opened = none) (fun x e' he' hx => write_leftAlone hx ?_) rfl
                  rintro entry rfl
                  exact halone _ ((openArchive_listing ha).1 ▸ mem_listed he')
                rw [hends.mpr hgo] at hext
                cases hext
            rw [hrun]
            refine ⟨by rw [htaken]; rfl, fun path hpath => ?_⟩
            rcases mem_append.mp hpath with hpath | hpath
            · exact (prelude_quiet pkg a.scripts _ path).2 hpath
            · rcases hwithin.events _ hpath with ⟨_, hm⟩ | ⟨_, _, -, -, -, -, hm⟩
              · cases hm
              · cases hm

/-- A decompressor that no archive passes. -/
def noTools : Tools :=
  ⟨fun _ _ => .error "truncated gzip".toList, fun _ _ => .error [], fun _ => ([], none), id, id, fun _ => none, fun _ => []⟩

def linuxRepo : Repo := ⟨"main".toList, "linux".toList⟩

/-- A package of a mail server, with or without the name that all of them provide. -/
def mailer (provides : List Text) : Pkg := ⟨"exim".toList, "4".toList, [], "Q1AA".toList, [], provides⟩

def mailDb : Db where
  packages := [⟨"postfix".toList, "3".toList, "main".toList, [], [], ["mta".toList], ["sbin/postfix".toList], [], [], "linux".toList⟩]
  world := ["postfix".toList]

/-- No download comes through. -/
def offline : World := ⟨.error "cannot resolve".toList, fun _ => true, fun _ => .done, fun _ => true, fun _ => true, true⟩

theorem install_fails_clean_mailer : FailsClean mailDb (installOne noTools offline linuxRepo (mailer []) mailDb) :=
  (install_fails_clean noTools linuxRepo (mailer []) mailDb ⟨by decide, by decide⟩).mpr
    ⟨by decide, fun _ _ ha => nomatch ha⟩ offline

/-- The mail server that is there is taken out for one that cannot be downloaded. -/
theorem rival_lost :
    (installOne noTools offline linuxRepo (mailer ["mta".toList]) mailDb).1 = .error (.fetch "cannot resolve".toList) ∧
      (installOne noTools offline linuxRepo (mailer ["mta".toList]) mailDb).2.1 = ⟨[], []⟩ ∧
      .unlink "/linux/sbin/postfix".toList ∈ (installOne noTools offline linuxRepo (mailer ["mta".toList]) mailDb).2.2 ∧
      ¬ FailsClean mailDb (installOne noTools offline linuxRepo (mailer ["mta".toList]) mailDb) := by
  refine ⟨by decide, by decide, by decide, fun h => ?_⟩
  have hclean := h (.fetch "cannot resolve".toList) (by decide) nofun (displaceAll_events _ mailDb)
  exact absurd hclean.1 (by decide)

end HamixOS.Pantry
