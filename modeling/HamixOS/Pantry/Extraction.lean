import HamixOS.Pantry.Install

namespace HamixOS.Pantry

open Lib List TarStream Extract

open TarStream (deliver)

/-!
# The two readings of an archive

Both readings of the data hear the same events, the second as far as the first one it refuses.
So what the second reading writes are entries of the list that the first one made, and what it
may write is decided by the `survey` of that list.
-/

/-- The events of the stream, and how it ends, if none of them is refused. -/
def heard (tools : Tools) (data : List UInt8) : List TarEvent :=
  (TarStream.feedChunks TarStream.collect .new [] (tools.stream data).1).2.1

section Stream

variable {tools : Tools} {data : List UInt8} {σ : Type} {on : σ → TarEvent → σ × Bool}

/-- A stream ends the same way for every callback that refuses nothing. -/
theorem streamInto_follows (c : σ) :
    (streamInto tools on c data).1 = (deliver on c (heard tools data)).1 ∧
      if (deliver on c (heard tools data)).2 then
        (streamInto tools on c data).2 = (streamInto tools collect [] data).2
      else (streamInto tools on c data).2 = .error (.archive "inflate: output rejected".toList) := by
  obtain ⟨es, h₀, hc, hstop⟩ := @feedChunks_follows σ on (tools.stream data).1 .new c []
  have hes : heard tools data = es := h₀
  rw [hes]
  refine ⟨hc, ?_⟩
  unfold streamInto
  dsimp only
  by_cases hgo : (deliver on c es).2 = true
  · rw [if_pos hgo] at hstop ⊢
    simp only [hstop.1, hstop.2]
  · rw [if_neg hgo] at hstop ⊢
    rw [if_pos hstop]

/-- The paths and kinds of the entries that begin. -/
def listed (es : List TarEvent) : List (Text × Kind) :=
  es.filterMap fun
    | .begins entry => some (entry.path, entry.kind)
    | _ => none

theorem deliver_collectListing (es : List TarEvent) (l : List (Text × Kind)) :
    deliver collectListing l es = (l ++ listed es, true) := by
  induction es generalizing l with
  | nil => exact Prod.ext (List.append_nil _).symm rfl
  | cons e es ih =>
    rw [deliver]
    cases e with
    | begins entry => exact (ih _).trans (Prod.ext (append_assoc l [(entry.path, entry.kind)] (listed es)) rfl)
    | data chunk => exact ih l
    | ends => exact ih l

/-- What holds is kept by a callback as far as it hears the events. -/
theorem deliver_induct {P : σ → Prop} {es : List TarEvent} (hstep : ∀ c, ∀ e ∈ es, P c → P (on c e).1) {c : σ}
    (h : P c) : P (deliver on c es).1 := by
  induction es generalizing c with
  | nil => exact h
  | cons e es ih =>
    rw [deliver]
    have hnext := hstep c e mem_cons_self h
    split_ifs
    · exact ih (fun c e' he' => hstep c e' (mem_cons_of_mem _ he')) hnext
    · exact hnext

/-- Some event is refused whatever came before it. -/
theorem deliver_refused {es : List TarEvent} {e : TarEvent} (he : e ∈ es) (hno : ∀ c, (on c e).2 = false) (c : σ) :
    (deliver on c es).2 = false := by
  induction es generalizing c with
  | nil => cases he
  | cons e' es ih =>
    rw [deliver]
    split_ifs with hgo
    · rcases mem_cons.mp he with rfl | he
      · rw [hno c] at hgo
        cases hgo
      · exact ih he _
    · simpa using hgo

end Stream

/-! ### Opening -/

theorem bind_ok {ε α β : Type} {x : Except ε α} {f : α → Except ε β} {b : β} (h : x >>= f = .ok b) :
    ∃ a, x = .ok a ∧ f a = .ok b := by
  cases x with
  | error e => cases h
  | ok a => exact ⟨a, rfl, h⟩

theorem openArchive_listing {tools : Tools} {pkg : Pkg} {bytes : List UInt8} {a : Archive}
    (h : openArchive tools pkg bytes = .ok a) :
    a.listing = listed (heard tools a.data) ∧ (streamInto tools collect [] a.data).2 = .ok () := by
  obtain ⟨raws, -, h⟩ := bind_ok h
  obtain ⟨wanted, -, h⟩ := bind_ok h
  obtain ⟨controlAt, -, h⟩ := bind_ok h
  obtain ⟨-, -, h⟩ := bind_ok h
  obtain ⟨members, -, h⟩ := bind_ok h
  obtain ⟨controlData, -, h⟩ := bind_ok h
  obtain ⟨control, -, h⟩ := bind_ok h
  obtain ⟨pkginfo, -, h⟩ := bind_ok h
  obtain ⟨expected, -, h⟩ := bind_ok h
  obtain ⟨-, -, h⟩ := bind_ok h
  obtain ⟨⟨⟩, hread, h⟩ := bind_ok h
  obtain rfl := Except.ok.inj h
  have hfollows := @streamInto_follows tools (bytes.drop ((raws.take (controlAt + 1)).map List.length).sum) _ collectListing []
  rw [deliver_collectListing] at hfollows
  exact ⟨hfollows.1, hfollows.2.symm.trans hread⟩

/-! ### Writing -/

/-- The second reading has written only entries of the list that were not there before, and it has
    recorded only what it has written. -/
structure Extract.Within (layer : Text) (native : List Text) (listing : List (Text × Kind)) (x : Extract) : Prop where
  events : ∀ e ∈ x.events, (∃ path, e = .mkdir path) ∨
    ∃ path kind, (path, kind) ∈ listing ∧ kind ≠ .dir ∧ kind ≠ .other ∧ path ∉ native ∧ e = .write (targetPath layer path)
  files : ∀ path ∈ x.files, ∃ kind, (path, kind) ∈ listing ∧ kind ≠ .dir ∧ kind ≠ .other ∧ path ∉ native

section Write

variable {w : World} {layer : Text} {native : List Text} {listing : List (Text × Kind)} {x : Extract}

theorem mem_listed {es : List TarEvent} {entry : StreamEntry} (h : TarEvent.begins entry ∈ es) :
    (entry.path, entry.kind) ∈ listed es :=
  mem_filterMap.mpr ⟨_, h, rfl⟩

section

variable (h : x.Within layer native listing)

include h

theorem Extract.Within.writes {path : Text} {kind : Kind} (hin : (path, kind) ∈ listing)
    (hd : kind ≠ .dir) (ho : kind ≠ .other) (hn : path ∉ native) (opened : Option Text) (failure : Option InstallError)
    (tick : Nat) {files : List Text} (hf : files = x.files ∨ files = x.files ++ [path]) :
    Extract.Within layer native listing ⟨files, opened, failure, x.events ++ [.write (targetPath layer path)], tick⟩ where
  events e he := by
    rcases mem_append.mp he with he | he
    · exact h.events e he
    · exact .inr ⟨path, kind, hin, hd, ho, hn, mem_singleton.mp he⟩
  files f hin' := by
    rcases hf with rfl | rfl
    · exact h.files f hin'
    · rcases mem_append.mp hin' with hin' | hin'
      · exact h.files f hin'
      · rw [mem_singleton.mp hin']
        exact ⟨kind, hin, hd, ho, hn⟩

theorem Extract.Within.writeFile {path : Text} {kind : Kind}
    (hin : (path, kind) ∈ listing) (hd : kind ≠ .dir) (ho : kind ≠ .other) (hn : path ∉ native) (e : InstallError)
    (answer : Answer) : (x.writeFile path (targetPath layer path) e answer).1.Within layer native listing := by
  cases answer with
  | refused => exact ⟨h.events, h.files⟩
  | cut => exact h.writes hin hd ho hn _ _ _ (.inl rfl)
  | done => exact h.writes hin hd ho hn _ _ _ (.inr rfl)

/-- One event of the second reading. -/
theorem Extract.Within.write {e : TarEvent}
    (he : ∀ entry, e = .begins entry → (entry.path, entry.kind) ∈ listing) :
    (Extract.write w layer native x e).1.Within layer native listing := by
  have hsame : ∀ (opened : Option Text) (failure : Option InstallError) (tick : Nat),
      Extract.Within layer native listing ⟨x.files, opened, failure, x.events, tick⟩ :=
    fun _ _ _ => ⟨h.events, h.files⟩
  cases e with
  | begins entry =>
    have hin := he entry rfl
    unfold Extract.write
    dsimp only
    by_cases hskip : entry.kind ≠ .dir ∧ entry.path ∈ native
    · rw [if_pos hskip]
      exact hsame _ _ _
    rw [if_neg hskip]
    have hnative : entry.kind ≠ .dir → entry.path ∉ native := fun hd hm => hskip ⟨hd, hm⟩
    cases hk : entry.kind with
    | file =>
      have hd : entry.kind ≠ .dir := by rw [hk]; nofun
      have ho : entry.kind ≠ .other := by rw [hk]; nofun
      dsimp only
      split_ifs
      · exact hsame _ _ _
      · exact hsame _ _ _
      · exact h.writes hin hd ho (hnative hd) _ _ _ (.inr rfl)
    | dir =>
      refine ⟨fun e he => ?_, h.files⟩
      rcases mem_append.mp he with he | he
      · exact h.events e he
      · exact .inl ⟨_, mem_singleton.mp he⟩
    | symlink target =>
      have hd : entry.kind ≠ .dir := by rw [hk]; nofun
      have ho : entry.kind ≠ .other := by rw [hk]; nofun
      exact (hsame _ _ _).writeFile hin hd ho (hnative hd) _ _
    | hardlink target =>
      have hd : entry.kind ≠ .dir := by rw [hk]; nofun
      have ho : entry.kind ≠ .other := by rw [hk]; nofun
      dsimp only
      split_ifs
      · exact (hsame _ _ _).writeFile hin hd ho (hnative hd) _ _
      · exact hsame _ _ _
    | other => exact hsame _ _ _
  | data chunk =>
    unfold Extract.write
    dsimp only
    cases x.opened with
    | none => exact hsame _ _ _
    | some dest =>
      dsimp only
      split_ifs
      · exact hsame _ _ _
      · exact hsame _ _ _
  | ends => exact hsame _ _ _

end

/-- The closure gives a reason if and only if it refuses, and the reason is not the database. -/
def Extract.Sound (r : Extract × Bool) : Prop :=
  if r.2 then r.1.failure = none else ∃ e, r.1.failure = some e ∧ e ≠ .save

theorem Extract.sound_writeFile (hx : x.failure = none) (path dest : Text) {e : InstallError} (he : e ≠ .save)
    (answer : Answer) : Extract.Sound (x.writeFile path dest e answer) := by
  cases answer with
  | refused => exact ⟨e, rfl, he⟩
  | cut => exact ⟨e, rfl, he⟩
  | done => exact hx

theorem Extract.sound_write (hx : x.failure = none) (e : TarEvent) : Extract.Sound (Extract.write w layer native x e) := by
  have hok : ∀ (opened : Option Text) (events : List Event) (files : List Text) (tick : Nat),
      Extract.Sound (⟨files, opened, x.failure, events, tick⟩, true) := fun _ _ _ _ => hx
  cases e with
  | begins entry =>
    unfold Extract.write
    dsimp only
    by_cases hskip : entry.kind ≠ .dir ∧ entry.path ∈ native
    · rw [if_pos hskip]
      exact hok _ _ _ _
    rw [if_neg hskip]
    cases entry.kind with
    | file =>
      dsimp only
      split_ifs
      · exact hok _ _ _ _
      · exact ⟨_, rfl, nofun⟩
      · exact hok _ _ _ _
    | dir => exact hok _ _ _ _
    | symlink target =>
      refine sound_writeFile ?_ _ _ ?_ _
      · exact hx
      · nofun
    | hardlink target =>
      dsimp only
      split_ifs
      · refine sound_writeFile ?_ _ _ ?_ _
        · exact hx
        · nofun
      · exact ⟨_, rfl, nofun⟩
    | other => exact hok _ _ _ _
  | data chunk =>
    unfold Extract.write
    dsimp only
    cases x.opened with
    | none => exact hok _ _ _ _
    | some dest =>
      dsimp only
      split_ifs
      · exact hok _ _ _ _
      · exact ⟨_, rfl, nofun⟩
  | ends => exact hok _ _ _ _

theorem sound_deliver (es : List TarEvent) (hx : x.failure = none) :
    Extract.Sound (deliver (Extract.write w layer native) x es) := by
  induction es generalizing x with
  | nil => exact hx
  | cons e es ih =>
    rw [deliver]
    have h := @sound_write w layer native _ hx e
    split_ifs with hgo
    · exact ih (by simpa [Extract.Sound, hgo] using h)
    · exact h

end Write

/-- The second reading of an archive that has been opened. -/
theorem extract_spec {tools : Tools} {pkg : Pkg} {bytes : List UInt8} {a : Archive} (ha : openArchive tools pkg bytes = .ok a)
    (w : World) (layer : Text) (native : List Text) :
    (extract tools w layer native a.data).1.Within layer native a.listing ∧
      (extract tools w layer native a.data).2 ≠ .error .save ∧
      ((extract tools w layer native a.data).2 = .ok () ↔
        (deliver (Extract.write w layer native) .start (heard tools a.data)).2 = true) := by
  obtain ⟨hlisting, hok⟩ := openArchive_listing ha
  obtain ⟨hstate, hend⟩ := @streamInto_follows tools a.data _ (Extract.write w layer native) .start
  have hwithin : (deliver (Extract.write w layer native) .start (heard tools a.data)).1.Within layer native a.listing := by
    refine deliver_induct (fun x e he h => h.write ?_) ⟨nofun, nofun⟩
    rintro entry rfl
    rw [hlisting]
    exact mem_listed he
  have hsound := @sound_deliver w layer native .start (heard tools a.data) rfl
  unfold extract
  dsimp only
  rw [hstate]
  refine ⟨hwithin, ?_⟩
  unfold Extract.Sound at hsound
  by_cases hgo : (deliver (Extract.write w layer native) .start (heard tools a.data)).2 = true
  · rw [if_pos hgo] at hsound hend
    rw [hsound, hend, hok, hgo]
    exact ⟨nofun, iff_of_true rfl rfl⟩
  · rw [if_neg hgo] at hsound
    obtain ⟨e, he, hne⟩ := hsound
    rw [he]
    exact ⟨fun h => hne (Except.error.inj h), iff_of_false nofun hgo⟩

/-! ### The survey -/

/-- What a survey that ends well says about each entry. -/
structure Surveyed (db : Db) (layer : Text) (pkg : Pkg) (stat : Text → Bool) (listing : List (Text × Kind))
    (taken : List (Text × Text)) (native : List Text) : Prop where
  ofTaken : ∀ o path, (o, path) ∈ taken → o ≠ pkg.name ∧ ∃ owner, db.ownerOf path = some owner ∧ owner.name = o
  ofNative : ∀ path ∈ native, stat (targetPath layer path) = true ∧ db.ownerOf path = none
  free : ∀ path kind, (path, kind) ∈ listing → kind ≠ .dir → kind ≠ .other → path ∉ native → db.ownerOf path = none →
    stat (targetPath layer path) = false
  owned : ∀ path kind owner, (path, kind) ∈ listing → kind ≠ .dir → kind ≠ .other → db.ownerOf path = some owner →
    owner.name = pkg.name ∨ (owner.name, path) ∈ taken

section Survey

variable {db : Db} {layer : Text} {pkg : Pkg} {replaces : List Text} {stat : Text → Bool} {path : Text} {kind : Kind}
  {listing : List (Text × Kind)} {taken : List (Text × Text)} {native : List Text}

/-- An entry that there is nothing to say about. -/
theorem Surveyed.skip (h : Surveyed db layer pkg stat listing taken native)
    (hfree : kind ≠ .dir → kind ≠ .other → path ∉ native → db.ownerOf path = none → stat (targetPath layer path) = false)
    (howned : ∀ owner, kind ≠ .dir → kind ≠ .other → db.ownerOf path = some owner → owner.name = pkg.name) :
    Surveyed db layer pkg stat ((path, kind) :: listing) taken native where
  ofTaken := h.ofTaken
  ofNative := h.ofNative
  free p k hin hd ho hn := by
    rcases mem_cons.mp hin with heq | hin
    · cases heq
      exact hfree hd ho hn
    · exact h.free p k hin hd ho hn
  owned p k owner hin hd ho hown := by
    rcases mem_cons.mp hin with heq | hin
    · cases heq
      exact .inl (howned owner hd ho hown)
    · exact h.owned p k owner hin hd ho hown

theorem survey_spec (h : survey db layer pkg replaces stat listing = .ok (taken, native)) :
    Surveyed db layer pkg stat listing taken native := by
  induction listing generalizing taken native with
  | nil =>
    cases h
    exact ⟨nofun, nofun, nofun, nofun⟩
  | cons entry rest ih =>
    obtain ⟨path, kind⟩ := entry
    unfold survey at h
    by_cases hk : kind = .dir ∨ kind = .other
    · rw [if_pos hk] at h
      refine (ih h).skip (fun hd ho => absurd hk (not_or.mpr ⟨hd, ho⟩)) (fun _ hd ho => absurd hk (not_or.mpr ⟨hd, ho⟩))
    rw [if_neg hk] at h
    cases hown : db.ownerOf path with
    | none =>
      rw [hown] at h
      by_cases hstat : stat (targetPath layer path) = true
      · rw [if_pos hstat] at h
        cases hr : survey db layer pkg replaces stat rest with
        | error e => rw [hr] at h; cases h
        | ok r =>
          rw [hr] at h
          cases h
          have hrec := ih hr
          refine ⟨hrec.ofTaken, ?_, ?_, ?_⟩
          · rintro p (_ | ⟨_, hp⟩)
            · exact ⟨hstat, hown⟩
            · exact hrec.ofNative p hp
          · intro p k hin hd ho hn
            obtain ⟨hne, hn⟩ := not_or.mp (mt mem_cons.mpr hn)
            rcases mem_cons.mp hin with heq | hin
            · cases heq
              exact absurd rfl hne
            · exact hrec.free p k hin hd ho hn
          · intro p k owner hin hd ho ho'
            rcases mem_cons.mp hin with heq | hin
            · cases heq
              rw [hown] at ho'
              cases ho'
            · exact hrec.owned p k owner hin hd ho ho'
      · rw [if_neg hstat] at h
        exact (ih h).skip (fun _ _ _ _ => by simpa using hstat) (fun owner _ _ ho => by rw [hown] at ho; cases ho)
    | some owner =>
      rw [hown] at h
      dsimp only at h
      by_cases hself : owner.name = pkg.name
      · rw [if_pos hself] at h
        refine (ih h).skip (fun _ _ _ ho => by rw [hown] at ho; cases ho) (fun owner' _ _ ho => ?_)
        rw [hown] at ho
        cases ho
        exact hself
      rw [if_neg hself] at h
      by_cases hmay : mayTakeOver replaces pkg owner = true
      · rw [if_pos hmay] at h
        cases hr : survey db layer pkg replaces stat rest with
        | error e => rw [hr] at h; cases h
        | ok r =>
          rw [hr] at h
          cases h
          have hrec := ih hr
          refine ⟨?_, hrec.ofNative, ?_, ?_⟩
          · intro o p hop
            rcases mem_cons.mp hop with heq | hop
            · cases heq
              exact ⟨hself, owner, hown, rfl⟩
            · exact hrec.ofTaken o p hop
          · intro p k hin hd ho hn hnone
            rcases mem_cons.mp hin with heq | hin
            · cases heq
              rw [hown] at hnone
              cases hnone
            · exact hrec.free p k hin hd ho hn hnone
          · intro p k owner' hin hd ho ho'
            rcases mem_cons.mp hin with heq | hin
            · cases heq
              rw [hown] at ho'
              cases ho'
              exact .inr mem_cons_self
            · rcases hrec.owned p k owner' hin hd ho ho' with hs | ht
              · exact .inl hs
              · exact .inr (mem_cons_of_mem _ ht)
      · rw [if_neg hmay] at h
        cases h

end Survey

end HamixOS.Pantry
