import HamixOS.Lib.Lines
import HamixOS.Pantry.Package
import HamixOS.Pantry.Tar

namespace HamixOS.Pantry

open Lib List Text

/-!
# The database on disk (`db.rs`)

`save` writes a record of lines for each package, with a blank line behind it, and the world one
name a line; `load` reads them back.  Nothing is escaped, so what comes back depends on what the
values hold: `Plain` says when the lines of a record survive.

A text is read and written whole, so the bytes on disk play no part.
-/

/-! ### Writing -/

/-- A line with a list of words, if there are any. -/
def wordsLine (key : Text) (ws : List Text) : List Text := if ws = [] then [] else [key ++ [' '].intercalate ws]

/-- The lines `save` writes for a package. -/
def recordLines (p : Installed) : List Text :=
  ["P:".toList ++ p.name, "V:".toList ++ p.version, "R:".toList ++ p.repo, "L:".toList ++ p.layer,
    "T:".toList ++ p.description] ++
  (wordsLine "D:".toList p.depends ++ (wordsLine "p:".toList p.provides ++
    (p.scripts.map ("X:".toList ++ ·) ++ (wordsLine "G:".toList p.triggers ++ p.files.map ("F:".toList ++ ·)))))

def recordText (p : Installed) : Text := (recordLines p).flatMap (· ++ ['\n']) ++ ['\n']

/-- `Vec::dedup`. -/
def dedup : List Text → List Text
  | a :: b :: l => if a = b then dedup (b :: l) else a :: dedup (b :: l)
  | l => l

namespace Db

variable (db : Db)

/-- The text `save` writes to `DB_PATH`. -/
def saveText : Text := (db.packages.filter (fun p => !p.isSystem)).flatMap recordText

/-- `world`, sorted and without the second of two equal names. -/
def savedWorld : List Text := dedup (db.world.insertionSort nameLe)

/-- The text `save` writes to `WORLD_PATH`. -/
def worldText : Text := ['\n'].intercalate db.savedWorld ++ ['\n']

end Db

/-! ### Reading -/

/-- What a block starts from. -/
def blank (repo : Text) : Installed := ⟨[], [], repo, [], [], [], [], [], [], "linux".toList⟩

/-- A line of a record of `PROVIDED_PATH`. -/
def providedLine (p : Installed) (line : Text) : Installed :=
  match Text.splitOnce ':' line with
  | none => p
  | some (key, v) =>
    if key = "P".toList then { p with name := v }
    else if key = "V".toList then { p with version := v }
    else if key = "T".toList then { p with description := v }
    else if key = "p".toList then { p with provides := Text.words v }
    else if key = "L".toList then { p with layer := v }
    else p

/-- A line of a record of `DB_PATH`. -/
def recordLine (p : Installed) (line : Text) : Installed :=
  match Text.splitOnce ':' line with
  | none => p
  | some (key, v) =>
    if key = "P".toList then { p with name := v }
    else if key = "V".toList then { p with version := v }
    else if key = "R".toList then { p with repo := v }
    else if key = "T".toList then { p with description := v }
    else if key = "D".toList then { p with depends := Text.words v }
    else if key = "p".toList then { p with provides := Text.words v }
    else if key = "F".toList then { p with files := p.files ++ [v] }
    else if key = "X".toList then { p with scripts := p.scripts ++ [v] }
    else if key = "G".toList then { p with triggers := Text.words v }
    else if key = "L".toList then { p with layer := v }
    else p

def parseRecord (block : Text) : Installed := (Text.lines block).foldl recordLine (blank [])

/-- The packages of `PROVIDED_PATH`, if it is there. -/
def providedPackages (provided : Option Text) : List Installed :=
  match provided with
  | none => []
  | some text =>
    (((Text.paragraphs text).map fun block => (Text.lines block).foldl providedLine (blank systemRepo))).filter (·.name ≠ [])

/-- A record is taken in if it has a name that is not there yet. -/
def addRecord (packages : List Installed) (p : Installed) : List Installed :=
  if p.name ≠ [] ∧ ∀ q ∈ packages, q.name ≠ p.name then packages ++ [p] else packages

namespace Db

/-- `load`, from the contents of the three files. -/
def load (provided installed world : Option Text) : Db where
  packages := (((installed.map Text.paragraphs).getD []).map parseRecord).foldl addRecord (providedPackages provided)
  world := (world.map Text.words).getD []

end Db

/-! ### Single lines -/

/-- A package whose values hold no newline. -/
structure Flat (p : Installed) : Prop where
  name : '\n' ∉ p.name
  version : '\n' ∉ p.version
  repo : '\n' ∉ p.repo
  description : '\n' ∉ p.description
  layer : '\n' ∉ p.layer
  scripts : ∀ s ∈ p.scripts, '\n' ∉ s
  files : ∀ f ∈ p.files, '\n' ∉ f

theorem flat_blank : Flat (blank []) := ⟨by decide, by decide, by decide, by decide, by decide, nofun, nofun⟩

theorem Flat.recordLine {p : Installed} (h : Flat p) {line : Text} (hl : '\n' ∉ line) : Flat (recordLine p line) := by
  unfold Pantry.recordLine
  cases hs : splitOnce ':' line with
  | none => exact h
  | some r =>
    obtain ⟨key, v⟩ := r
    have hv : '\n' ∉ v := by
      intro hm
      rw [(splitOnce_eq_some hs).1] at hl
      exact hl (by simp [hm])
    have hadd : ∀ {l : List Text}, (∀ s ∈ l, '\n' ∉ s) → ∀ s ∈ l ++ [v], '\n' ∉ s := by
      intro l hls s hm
      rcases mem_append.mp hm with hm | hm
      · exact hls s hm
      · rw [mem_singleton.mp hm]
        exact hv
    dsimp only
    -- One case for each key.
    refine iteInduction (motive := Flat) (fun _ => { h with name := hv }) fun _ => ?_
    refine iteInduction (motive := Flat) (fun _ => { h with version := hv }) fun _ => ?_
    refine iteInduction (motive := Flat) (fun _ => { h with repo := hv }) fun _ => ?_
    refine iteInduction (motive := Flat) (fun _ => { h with description := hv }) fun _ => ?_
    refine iteInduction (motive := Flat) (fun _ => { h with }) fun _ => ?_
    refine iteInduction (motive := Flat) (fun _ => { h with }) fun _ => ?_
    refine iteInduction (motive := Flat) (fun _ => { h with files := hadd h.files }) fun _ => ?_
    refine iteInduction (motive := Flat) (fun _ => { h with scripts := hadd h.scripts }) fun _ => ?_
    refine iteInduction (motive := Flat) (fun _ => { h with }) fun _ => ?_
    exact iteInduction (motive := Flat) (fun _ => { h with layer := hv }) fun _ => h

theorem flat_parseRecord (block : Text) : Flat (parseRecord block) := by
  have hloop : ∀ (ls : List Text) (p : Installed), Flat p → (∀ l ∈ ls, '\n' ∉ l) → Flat (ls.foldl recordLine p) := by
    intro ls
    induction ls with
    | nil => exact fun p hp _ => hp
    | cons l ls ih =>
      intro p hp hls
      obtain ⟨hl, hls⟩ := forall_mem_cons.mp hls
      exact ih _ (hp.recordLine hl) hls
  exact hloop _ _ flat_blank fun l hl => newline_not_mem_of_mem_lines hl

/-! ### Reading a record back -/

/-- The lists that are written as words hold words. -/
structure Worded (p : Installed) : Prop where
  depends : ∀ t ∈ p.depends, Text.IsWord t
  provides : ∀ t ∈ p.provides, Text.IsWord t
  triggers : ∀ t ∈ p.triggers, Text.IsWord t

section Fold

variable (p : Installed)

theorem recordLine_header (n v r l t : Text) :
    ["P:".toList ++ n, "V:".toList ++ v, "R:".toList ++ r, "L:".toList ++ l, "T:".toList ++ t].foldl recordLine (blank []) =
      ⟨n, v, r, t, [], [], [], [], [], l⟩ := rfl

theorem foldl_scripts (xs : List Text) :
    (xs.map ("X:".toList ++ ·)).foldl recordLine p = { p with scripts := p.scripts ++ xs } := by
  induction xs generalizing p with
  | nil => rw [append_nil]; rfl
  | cons x xs ih =>
    rw [map_cons, foldl_cons, ih]
    show ({ p with scripts := (p.scripts ++ [x]) ++ xs } : Installed) = _
    rw [append_assoc]
    rfl

theorem foldl_files (fs : List Text) :
    (fs.map ("F:".toList ++ ·)).foldl recordLine p = { p with files := p.files ++ fs } := by
  induction fs generalizing p with
  | nil => rw [append_nil]; rfl
  | cons f fs ih =>
    rw [map_cons, foldl_cons, ih]
    show ({ p with files := (p.files ++ [f]) ++ fs } : Installed) = _
    rw [append_assoc]
    rfl

/-- A line of words sets its field, and none leaves it empty. -/
theorem foldl_wordsLine {key : Text} (set : List Text → Installed) {ws : List Text} (hws : ∀ w ∈ ws, Text.IsWord w)
    (hline : ∀ v, recordLine p (key ++ v) = set (Text.words v)) (hnil : set [] = p) :
    (wordsLine key ws).foldl recordLine p = set ws := by
  unfold wordsLine
  split_ifs with h
  · rw [h, hnil]
    rfl
  · rw [foldl_cons, foldl_nil, hline, words_intercalate (by decide) hws]

end Fold

/-- The lines of a record give back its package. -/
theorem foldl_recordLines {p : Installed} (hw : Worded p) : (recordLines p).foldl recordLine (blank []) = p := by
  obtain ⟨n, v, r, t, ds, ps, fs, xs, gs, l⟩ := p
  have hd : (wordsLine "D:".toList ds).foldl recordLine ⟨n, v, r, t, [], [], [], [], [], l⟩ = ⟨n, v, r, t, ds, [], [], [], [], l⟩ :=
    foldl_wordsLine _ (fun ws => ⟨n, v, r, t, ws, [], [], [], [], l⟩) hw.depends (fun _ => rfl) rfl
  have hp : (wordsLine "p:".toList ps).foldl recordLine ⟨n, v, r, t, ds, [], [], [], [], l⟩ = ⟨n, v, r, t, ds, ps, [], [], [], l⟩ :=
    foldl_wordsLine _ (fun ws => ⟨n, v, r, t, ds, ws, [], [], [], l⟩) hw.provides (fun _ => rfl) rfl
  have hg : (wordsLine "G:".toList gs).foldl recordLine ⟨n, v, r, t, ds, ps, [], xs, [], l⟩ = ⟨n, v, r, t, ds, ps, [], xs, gs, l⟩ :=
    foldl_wordsLine _ (fun ws => ⟨n, v, r, t, ds, ps, [], xs, ws, l⟩) hw.triggers (fun _ => rfl) rfl
  unfold recordLines
  rw [foldl_append, recordLine_header, foldl_append, hd, foldl_append, hp, foldl_append,
    foldl_scripts, foldl_append]
  dsimp only
  rw [nil_append, hg, foldl_files]
  rfl

/-- The lines of a record survive: no value holds a newline, and none but the last line's ends in a
    carriage return. -/
structure Plain (p : Installed) : Prop where
  single : ∀ l ∈ recordLines p, '\n' ∉ l
  solid : ∀ l ∈ (recordLines p).dropLast, l.getLast? ≠ some '\r'

theorem recordLines_ne_nil (p : Installed) : recordLines p ≠ [] := by
  unfold recordLines
  simp

variable {c d : Char}

theorem ne_nil_of_mem_wordsLine {ws : List Text} {l : Text} (h : l ∈ wordsLine [c, d] ws) : l ≠ [] := by
  unfold wordsLine at h
  split_ifs at h
  · cases h
  · rw [mem_singleton.mp h]
    simp

theorem ne_nil_of_mem_recordLines {p : Installed} {l : Text} (h : l ∈ recordLines p) : l ≠ [] := by
  unfold recordLines at h
  simp only [mem_append] at h
  rcases h with h | h | h | h | h | h
  · simp only [mem_cons, not_mem_nil, or_false] at h
    rcases h with rfl | rfl | rfl | rfl | rfl
    all_goals simp
  · exact ne_nil_of_mem_wordsLine h
  · exact ne_nil_of_mem_wordsLine h
  · obtain ⟨s, -, rfl⟩ := mem_map.mp h
    simp
  · exact ne_nil_of_mem_wordsLine h
  · obtain ⟨f, -, rfl⟩ := mem_map.mp h
    simp

theorem newline_not_mem_wordsLine {key : Text} (hkey : '\n' ∉ key) {ws : List Text} (hws : ∀ w ∈ ws, Text.IsWord w)
    {l : Text} (h : l ∈ wordsLine key ws) : '\n' ∉ l := by
  unfold wordsLine at h
  split_ifs at h
  · cases h
  · rw [mem_singleton.mp h]
    intro hm
    rcases mem_append.mp hm with hm | hm
    · exact hkey hm
    · have hchar : ∀ {ws : List Text}, (∀ w ∈ ws, Text.IsWord w) → '\n' ∉ [' '].intercalate ws := by
        intro ws hws
        induction ws with
        | nil => simp
        | cons w ws ih =>
          obtain ⟨hw, hws⟩ := forall_mem_cons.mp hws
          have hwn : '\n' ∉ w := fun hin => absurd (hw.solid _ hin) (by decide)
          cases ws with
          | nil =>
            rw [intercalate_singleton]
            exact hwn
          | cons v vs =>
            rw [intercalate_cons_cons]
            simp only [mem_append, mem_singleton, not_or]
            exact ⟨⟨hwn, by decide⟩, ih hws⟩
      exact hchar hws hm

/-- A package whose values hold no newline has lines that hold none. -/
theorem Flat.recordLines {p : Installed} (h : Flat p) (hw : Worded p) : ∀ l ∈ recordLines p, '\n' ∉ l := by
  intro l hl
  have hkey : ∀ {c d : Char} {v : Text}, c ≠ '\n' → d ≠ '\n' → '\n' ∉ v → '\n' ∉ [c, d] ++ v := by
    intro c d v hc hd hv
    simp [Ne.symm hc, Ne.symm hd, hv]
  unfold Pantry.recordLines at hl
  simp only [mem_append] at hl
  rcases hl with hl | hl | hl | hl | hl | hl
  · simp only [mem_cons, not_mem_nil, or_false] at hl
    rcases hl with rfl | rfl | rfl | rfl | rfl
    · exact hkey (by decide) (by decide) h.name
    · exact hkey (by decide) (by decide) h.version
    · exact hkey (by decide) (by decide) h.repo
    · exact hkey (by decide) (by decide) h.layer
    · exact hkey (by decide) (by decide) h.description
  · exact newline_not_mem_wordsLine (by decide) hw.depends hl
  · exact newline_not_mem_wordsLine (by decide) hw.provides hl
  · obtain ⟨s, hs, rfl⟩ := mem_map.mp hl
    exact hkey (by decide) (by decide) (h.scripts s hs)
  · exact newline_not_mem_wordsLine (by decide) hw.triggers hl
  · obtain ⟨f, hf, rfl⟩ := mem_map.mp hl
    exact hkey (by decide) (by decide) (h.files f hf)

/-! ### Carriage returns -/

/-- Joined words end in a character of a word. -/
theorem getLast?_intercalate {ws : List Text} (hne : ws ≠ []) (hws : ∀ w ∈ ws, Text.IsWord w) :
    ∃ c, ([' '].intercalate ws).getLast? = some c ∧ isWhitespace c = false := by
  induction ws with
  | nil => exact absurd rfl hne
  | cons w ws ih =>
    obtain ⟨hw, hws⟩ := forall_mem_cons.mp hws
    cases ws with
    | nil =>
      rw [intercalate_singleton]
      refine ⟨w.getLast hw.nonempty, getLast?_eq_some_getLast hw.nonempty, hw.solid _ (getLast_mem _)⟩
    | cons v vs =>
      obtain ⟨c, hc, hsolid⟩ := ih (by simp) hws
      refine ⟨c, ?_, hsolid⟩
      rw [intercalate_cons_cons, getLast?_append, hc]
      rfl

/-- A line of words does not end in a carriage return. -/
theorem map_stripCr_wordsLine (key : Text) {ws : List Text} (hws : ∀ w ∈ ws, Text.IsWord w) :
    (wordsLine key ws).map stripCr = wordsLine key ws := by
  unfold wordsLine
  split_ifs with h
  · rfl
  · obtain ⟨c, hc, hsolid⟩ := getLast?_intercalate h hws
    rw [map_cons, map_nil, stripCr_eq_self_iff.mpr]
    rw [getLast?_append, hc]
    rintro ⟨⟩
    cases hsolid

theorem stripCr_key (hd : d ≠ '\r') (v : Text) : stripCr ([c, d] ++ v) = [c, d] ++ stripCr v := by
  show stripCr (c :: d :: v) = c :: d :: stripCr v
  rw [stripCr_cons]
  cases v with
  | nil =>
    rw [stripCr_eq_self_iff.mpr (by simpa using hd)]
    rfl
  | cons e v => rw [stripCr_cons]

/-- The package without the carriage returns at the ends of its values. -/
def stripped (p : Installed) : Installed :=
  { p with
    name := Text.stripCr p.name
    version := Text.stripCr p.version
    repo := Text.stripCr p.repo
    layer := Text.stripCr p.layer
    description := Text.stripCr p.description
    scripts := p.scripts.map Text.stripCr
    files := p.files.map Text.stripCr }

theorem map_stripCr_keyed (hd : d ≠ '\r') (vs : List Text) :
    (vs.map ([c, d] ++ ·)).map stripCr = (vs.map stripCr).map ([c, d] ++ ·) := by
  rw [map_map, map_map]
  exact map_congr_left fun v _ => stripCr_key hd v

theorem mapInit_keyed (hd : d ≠ '\r') (vs : List Text) :
    mapInit stripCr (vs.map ([c, d] ++ ·)) = (mapInit stripCr vs).map ([c, d] ++ ·) := by
  rcases eq_nil_or_concat vs with rfl | ⟨vs, v, rfl⟩
  · rfl
  · have hmap : ∀ us : List Text, (us ++ [v]).map ([c, d] ++ ·) = us.map ([c, d] ++ ·) ++ [[c, d] ++ v] := fun us =>
      map_append
    rw [concat_eq_append, mapInit_concat, hmap, hmap, mapInit_concat, map_stripCr_keyed hd]

theorem mapInit_wordsLine (key : Text) (ws : List Text) :
    mapInit stripCr (wordsLine key ws) = wordsLine key ws := by
  unfold wordsLine
  split_ifs
  · rfl
  · rfl

theorem wordsLine_eq_nil {key : Text} {ws : List Text} : wordsLine key ws = [] ↔ ws = [] := by
  unfold wordsLine
  split_ifs with h
  · simp [h]
  · simp [h]

/-- Stripping the lines of a record but the last gives the record of another package. -/
theorem mapInit_recordLines {p : Installed} (hw : Worded p) :
    ∃ p', mapInit stripCr (recordLines p) = recordLines p' ∧ Worded p' := by
  have hd := map_stripCr_wordsLine "D:".toList hw.depends
  have hp := map_stripCr_wordsLine "p:".toList hw.provides
  have hg := map_stripCr_wordsLine "G:".toList hw.triggers
  have hhead : (["P:".toList ++ p.name, "V:".toList ++ p.version, "R:".toList ++ p.repo, "L:".toList ++ p.layer,
      "T:".toList ++ p.description].map stripCr) = ["P:".toList ++ (stripped p).name,
      "V:".toList ++ (stripped p).version, "R:".toList ++ (stripped p).repo, "L:".toList ++ (stripped p).layer,
      "T:".toList ++ (stripped p).description] := by
    simp only [map_cons, map_nil]
    rw [show stripCr ("P:".toList ++ p.name) = _ from stripCr_key (by decide) _,
      show stripCr ("V:".toList ++ p.version) = _ from stripCr_key (by decide) _,
      show stripCr ("R:".toList ++ p.repo) = _ from stripCr_key (by decide) _,
      show stripCr ("L:".toList ++ p.layer) = _ from stripCr_key (by decide) _,
      show stripCr ("T:".toList ++ p.description) = _ from stripCr_key (by decide) _]
    rfl
  have hxs : (p.scripts.map ("X:".toList ++ ·)).map stripCr = (stripped p).scripts.map ("X:".toList ++ ·) :=
    map_stripCr_keyed (by decide) _
  -- which lines stand before the last depends on the lists that are empty
  by_cases hf : p.files = []
  · by_cases ht : p.triggers = []
    · by_cases hx : p.scripts = []
      · by_cases hdp : wordsLine "D:".toList p.depends ++ wordsLine "p:".toList p.provides = []
        · -- the description is the last line
          obtain ⟨hd0, hp0⟩ := append_eq_nil_iff.mp hdp
          refine ⟨{ stripped p with description := p.description }, ?_, ⟨hw.depends, hw.provides, hw.triggers⟩⟩
          have hgen : mapInit stripCr (["P:".toList ++ p.name, "V:".toList ++ p.version, "R:".toList ++ p.repo,
              "L:".toList ++ p.layer] ++ ["T:".toList ++ p.description]) =
              ["P:".toList ++ (stripped p).name, "V:".toList ++ (stripped p).version, "R:".toList ++ (stripped p).repo,
                "L:".toList ++ (stripped p).layer] ++ ["T:".toList ++ p.description] := by
            rw [mapInit_concat, append_cancel_right_eq]
            exact congrArg (take 4) hhead
          unfold recordLines
          dsimp only [stripped]
          rw [hf, ht, hx, hd0, hp0]
          exact hgen
        · refine ⟨stripped p, ?_, ⟨hw.depends, hw.provides, hw.triggers⟩⟩
          unfold recordLines
          dsimp only [stripped]
          rw [hf, ht, hx]
          show mapInit stripCr (_ ++ (wordsLine "D:".toList p.depends ++ (wordsLine "p:".toList p.provides ++ []))) =
            _ ++ (wordsLine "D:".toList p.depends ++ (wordsLine "p:".toList p.provides ++ []))
          rw [append_nil, mapInit_append_of_ne_nil _ hdp, hhead]
          refine congrArg₂ (· ++ ·) rfl ?_
          by_cases hp0 : wordsLine "p:".toList p.provides = []
          · rw [hp0, append_nil]
            exact mapInit_wordsLine _ _
          · rw [mapInit_append_of_ne_nil _ hp0, hd, mapInit_wordsLine]
      · -- a script is the last line
        refine ⟨{ stripped p with scripts := mapInit stripCr p.scripts }, ?_,
          ⟨hw.depends, hw.provides, hw.triggers⟩⟩
        have hx' : p.scripts.map ("X:".toList ++ ·) ++ [] ≠ [] := by simpa using hx
        unfold recordLines
        dsimp only [stripped]
        rw [hf, ht]
        show mapInit stripCr (_ ++ (wordsLine "D:".toList p.depends ++ (wordsLine "p:".toList p.provides ++
          (p.scripts.map ("X:".toList ++ ·) ++ [])))) = _
        rw [mapInit_append_of_ne_nil _ (by simp [hx]), mapInit_append_of_ne_nil _ (by simp [hx]),
          mapInit_append_of_ne_nil _ hx', hhead, hd, hp, append_nil,
          show mapInit stripCr (p.scripts.map ("X:".toList ++ ·)) = _ from mapInit_keyed (by decide) _]
        show _ = _ ++ (_ ++ (_ ++ (_ ++ [])))
        rw [append_nil]
        rfl
    · refine ⟨stripped p, ?_, ⟨hw.depends, hw.provides, hw.triggers⟩⟩
      have ht' : wordsLine "G:".toList p.triggers ++ [] ≠ [] := by
        rw [append_nil]
        exact mt wordsLine_eq_nil.mp ht
      unfold recordLines
      dsimp only [stripped]
      rw [hf]
      show mapInit stripCr (_ ++ (wordsLine "D:".toList p.depends ++ (wordsLine "p:".toList p.provides ++
        (p.scripts.map ("X:".toList ++ ·) ++ (wordsLine "G:".toList p.triggers ++ []))))) = _
      rw [mapInit_append_of_ne_nil _ (by simp [wordsLine_eq_nil, ht]), mapInit_append_of_ne_nil _ (by simp [wordsLine_eq_nil, ht]),
        mapInit_append_of_ne_nil _ (by simp [wordsLine_eq_nil, ht]), mapInit_append_of_ne_nil _ ht', hhead, hd, hp, hxs,
        append_nil, mapInit_wordsLine]
      show _ = _ ++ (_ ++ (_ ++ (_ ++ (_ ++ []))))
      rw [append_nil]
      rfl
  · -- a file is the last line
    refine ⟨{ stripped p with files := mapInit stripCr p.files }, ?_, ⟨hw.depends, hw.provides, hw.triggers⟩⟩
    have hf' : p.files.map ("F:".toList ++ ·) ≠ [] := by simpa using hf
    unfold recordLines
    dsimp only [stripped]
    rw [mapInit_append_of_ne_nil _ (by simp [hf]), mapInit_append_of_ne_nil _ (by simp [hf]),
      mapInit_append_of_ne_nil _ (by simp [hf]), mapInit_append_of_ne_nil _ (by simp [hf]),
      mapInit_append_of_ne_nil _ hf', hhead, hd, hp, hxs, hg,
      show mapInit stripCr (p.files.map ("F:".toList ++ ·)) = _ from mapInit_keyed (by decide) _]
    rfl

/-! ### The whole file -/

theorem recordText_eq (p : Installed) : recordText p = ['\n'].intercalate (recordLines p) ++ '\n' :: '\n' :: [] := by
  have hjoin : ∀ {ls : List Text}, ls ≠ [] → ls.flatMap (· ++ ['\n']) = ['\n'].intercalate ls ++ ['\n'] := by
    intro ls hne
    induction ls with
    | nil => exact absurd rfl hne
    | cons l ls ih =>
      cases ls with
      | nil => simp
      | cons m ms =>
        rw [flatMap_cons, ih (by simp), intercalate_cons_cons]
        simp
  unfold recordText
  rw [hjoin (recordLines_ne_nil p), append_assoc]
  rfl

/-- The records of flat packages are the paragraphs of the file. -/
theorem paragraphs_records {ps : List Installed} (h : ∀ p ∈ ps, ∀ l ∈ recordLines p, '\n' ∉ l) :
    Text.paragraphs (ps.flatMap recordText) = ps.map (fun p => ['\n'].intercalate (recordLines p)) ++ [[]] := by
  induction ps with
  | nil => rfl
  | cons p ps ih =>
    obtain ⟨hp, hps⟩ := forall_mem_cons.mp h
    rw [flatMap_cons, recordText_eq, append_assoc, cons_append, cons_append, nil_append,
      paragraphs_append (recordLines_ne_nil p) (fun l hl => ⟨hp l hl, ne_nil_of_mem_recordLines hl⟩), ih hps]
    rfl

/-- What is taken in are records of the file, in their order. -/
theorem foldl_addRecord_sublist (qs acc : List Installed) : (qs.foldl addRecord acc).Sublist (acc ++ qs) := by
  induction qs generalizing acc with
  | nil => rw [append_nil]; exact List.Sublist.refl acc
  | cons q qs ih =>
    refine (ih _).trans ?_
    unfold addRecord
    split_ifs
    · rw [append_assoc]
      exact List.Sublist.refl _
    · exact List.Sublist.append_left (sublist_cons_self q qs) acc

theorem foldl_addRecord_eq {qs acc : List Installed} (hu : ((acc ++ qs).map (·.name)).Nodup)
    (hne : ∀ q ∈ qs, q.name ≠ []) : qs.foldl addRecord acc = acc ++ qs := by
  induction qs generalizing acc with
  | nil => rw [append_nil]; rfl
  | cons q qs ih =>
    have hnew : q.name ≠ [] ∧ ∀ p ∈ acc, p.name ≠ q.name := by
      refine ⟨hne q mem_cons_self, fun p hp heq => ?_⟩
      rw [map_append, map_cons, nodup_append] at hu
      exact hu.2.2 p.name (mem_map.mpr ⟨p, hp, rfl⟩) q.name mem_cons_self heq
    rw [foldl_cons, addRecord, if_pos hnew, ih (by simpa using hu) fun p hp => hne p (mem_cons_of_mem _ hp)]
    simp

theorem mem_dedup {l : List Text} {w : Text} : w ∈ dedup l ↔ w ∈ l := by
  induction l with
  | nil => rfl
  | cons a l ih =>
    cases l with
    | nil => rfl
    | cons b l =>
      unfold dedup
      split_ifs with h
      · rw [ih, h]
        simp
      · rw [mem_cons, ih, ← mem_cons]

namespace Db

variable {db : Db}

/-- A database as the program keeps it: no package of the system, names that are there and differ,
    and lists of words. -/
structure Storable (db : Db) : Prop extends db.Named where
  own : ∀ p ∈ db.packages, p.isSystem = false
  worded : ∀ p ∈ db.packages, Worded p

theorem saveText_eq (h : Storable db) : db.saveText = db.packages.flatMap recordText := by
  unfold saveText
  rw [filter_eq_self.mpr fun p hp => by simp [h.own p hp]]

/-- The world comes back if it consists of words. -/
theorem words_worldText : Text.words db.worldText = db.savedWorld ↔ ∀ w ∈ db.world, Text.IsWord w := by
  have hmem : ∀ w, w ∈ db.savedWorld ↔ w ∈ db.world := fun w =>
    mem_dedup.trans (perm_insertionSort nameLe db.world).mem_iff
  constructor
  · intro h w hw
    refine isWord_of_mem_words (h ▸ ?_ : w ∈ Text.words db.worldText)
    exact (hmem w).mpr hw
  · intro h
    unfold worldText
    rw [Text.words, words_append_space (by decide)]
    exact words_intercalate (by decide) fun w hw => h w ((hmem w).mp hw)

/-- Where no value holds a newline, a record comes back as it was if and only if its lines do. -/
theorem parseRecord_eq_iff {p : Installed} (hw : Worded p) (hs : ∀ l ∈ recordLines p, '\n' ∉ l) :
    parseRecord (['\n'].intercalate (recordLines p)) = p ↔ Plain p := by
  obtain ⟨p', hp', hw'⟩ := mapInit_recordLines hw
  have hparse : parseRecord (['\n'].intercalate (recordLines p)) = p' := by
    unfold parseRecord
    rw [lines_intercalate (recordLines_ne_nil p) fun l hl => ⟨hs l hl, ne_nil_of_mem_recordLines hl⟩, hp']
    exact foldl_recordLines hw'
  have hplain : mapInit stripCr (recordLines p) = recordLines p ↔ Plain p := by
    rw [mapInit_eq_self_iff]
    constructor
    · exact fun h => ⟨hs, fun l hl => stripCr_eq_self_iff.mp (h l hl)⟩
    · exact fun h l hl => stripCr_eq_self_iff.mpr (h.solid l hl)
  rw [hparse, ← hplain, hp']
  constructor
  · rintro rfl
    rfl
  · intro h
    have := congrArg (foldl recordLine (blank [])) h
    rw [foldl_recordLines hw', foldl_recordLines hw] at this
    exact this

/-- The packages come back if and only if the lines of every record survive. -/
theorem packages_load_save (h : Storable db) :
    ((Text.paragraphs db.saveText).map parseRecord).foldl addRecord [] = db.packages ↔ ∀ p ∈ db.packages, Plain p := by
  rw [saveText_eq h]
  have hnil : parseRecord [] = blank [] := rfl
  have hload : (∀ p ∈ db.packages, ∀ l ∈ recordLines p, '\n' ∉ l) →
      ((Text.paragraphs (db.packages.flatMap recordText)).map parseRecord).foldl addRecord [] =
        (db.packages.map fun p => parseRecord (['\n'].intercalate (recordLines p))).foldl addRecord [] := by
    intro hs
    rw [paragraphs_records hs, map_append, map_map, foldl_append, map_singleton, hnil]
    -- the empty text behind the last record has no name
    have hblank : ∀ ps, addRecord ps (blank []) = ps := fun ps => if_neg fun hn => hn.1 rfl
    exact hblank _
  constructor
  · intro heq
    have hs : ∀ p ∈ db.packages, ∀ l ∈ recordLines p, '\n' ∉ l := by
      intro p hp
      rw [← heq] at hp
      have hin := (foldl_addRecord_sublist _ _).subset hp
      obtain ⟨block, -, rfl⟩ := mem_map.mp (by simpa using hin)
      rw [heq] at hp
      exact (flat_parseRecord block).recordLines (h.worded _ hp)
    rw [hload hs] at heq
    have hsub := foldl_addRecord_sublist (db.packages.map fun p => parseRecord (['\n'].intercalate (recordLines p))) []
    rw [heq, nil_append] at hsub
    have hall := hsub.eq_of_length (by simp)
    intro p hp
    have hid := map_inj_left.mp ((map_id _).trans hall) p hp
    exact (parseRecord_eq_iff (h.worded p hp) (hs p hp)).mp hid.symm
  · intro hplain
    have hid : (db.packages.map fun p => parseRecord (['\n'].intercalate (recordLines p))) = db.packages :=
      (map_congr_left fun p hp => (parseRecord_eq_iff (h.worded p hp) (hplain p hp).single).mpr (hplain p hp)).trans
        (map_id _)
    rw [hload fun p hp => (hplain p hp).single, hid]
    exact foldl_addRecord_eq h.unique h.nonempty

/-- Loading what was saved gives the database back exactly where no line is broken by what its value
    holds. -/
theorem load_save (db : Db) (h : Storable db) (provided : Option Text) (hprovided : providedPackages provided = []) :
    Db.load provided (some db.saveText) (some db.worldText) = ⟨db.packages, db.savedWorld⟩ ↔
      (∀ p ∈ db.packages, Plain p) ∧ ∀ w ∈ db.world, Text.IsWord w := by
  rw [← packages_load_save h, ← words_worldText]
  unfold load
  rw [hprovided]
  exact Db.mk.injEq _ _ _ _ ▸ Iff.rfl

/-- A package with the files `files`. -/
def fileDb (files : List Text) : Db :=
  ⟨[⟨"tool".toList, "1".toList, "main".toList, "a tool".toList, ["so:libc".toList], [], files, [".post-install".toList], [],
    "linux".toList⟩], ["tool".toList]⟩

theorem isWord_of_all {w : Text} (hne : w ≠ []) (h : w.all (!isWhitespace ·) = true) : Text.IsWord w :=
  ⟨hne, fun c hc => by simpa using all_eq_true.mp h c hc⟩

theorem storable_fileDb (files : List Text) : Storable (fileDb files) where
  unique := by simp [fileDb]
  nonempty p hp := by
    rw [mem_singleton.mp hp]
    simp
  own p hp := by
    rw [mem_singleton.mp hp]
    rfl
  worded p hp := by
    rw [mem_singleton.mp hp]
    refine ⟨fun t ht => ?_, nofun, nofun⟩
    rw [mem_singleton.mp ht]
    exact isWord_of_all (by decide) (by decide)

theorem load_save_tool : Db.load none (some (fileDb ["bin/tool".toList, "etc/x\r".toList]).saveText)
    (some (fileDb ["bin/tool".toList, "etc/x\r".toList]).worldText) = ⟨(fileDb ["bin/tool".toList, "etc/x\r".toList]).packages,
      ["tool".toList]⟩ := by
  refine (load_save (fileDb ["bin/tool".toList, "etc/x\r".toList]) (storable_fileDb _) none rfl).mpr ⟨fun p hp => ?_, fun w hw => ?_⟩
  · rw [mem_singleton.mp hp]
    exact ⟨by decide, by decide⟩
  · rw [mem_singleton.mp hw]
    exact isWord_of_all (by decide) (by decide)

/-- A path that an archive can hold is cut at its newline. -/
theorem newline_cuts_path : clean "etc/a\nP:b".toList = "etc/a\nP:b".toList ∧ Storable (fileDb ["etc/a\nP:b".toList]) ∧
    (Db.load none (some (fileDb ["etc/a\nP:b".toList]).saveText) (some (fileDb ["etc/a\nP:b".toList]).worldText)).packages ≠
      (fileDb ["etc/a\nP:b".toList]).packages :=
  ⟨by decide, storable_fileDb _, by decide⟩

end Db

end HamixOS.Pantry
