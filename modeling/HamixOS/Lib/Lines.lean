import HamixOS.Lib.Text

namespace HamixOS.Lib.Text

open List

/-!
# Lines, words and paragraphs

How a text falls into lines, words and blocks between blank lines, and that what was joined
falls apart again:

* `Text.lines` — `str::lines`; a carriage return in front of a newline goes with it;
* `Text.words` — `split_whitespace`;
* `Text.paragraphs` — `split("\n\n")`;
* `lines_intercalate`, `words_intercalate`, `paragraphs_append` — the pieces come back, the
  lines but for their carriage returns (`mapInit`).
-/

/-- The line without a carriage return at its end. -/
def stripCr (l : Text) : Text := if l.getLast? = some '\r' then l.dropLast else l

/-- `f` on every element but the last. -/
def mapInit {α : Type} (f : α → α) (l : List α) : List α :=
  match l.getLast? with
  | none => []
  | some last => l.dropLast.map f ++ [last]

/-- `str::lines`. -/
def lines (t : Text) : List Text :=
  let pieces := mapInit stripCr (t.splitOn '\n')
  if pieces.getLast? = some [] then pieces.dropLast else pieces

/-- `c` in front of the first piece. -/
def prepend (c : Char) : List Text → List Text
  | [] => [[c]]
  | p :: ps => (c :: p) :: ps

/-- `split("\n\n")`. -/
def paragraphs : Text → List Text
  | [] => [[]]
  | '\n' :: '\n' :: t => [] :: paragraphs t
  | c :: t => prepend c (paragraphs t)

/-- The words of a text of which `cur` has been read as the beginning of one. -/
def wordsFrom (cur : Text) : Text → List Text
  | [] => if cur = [] then [] else [cur]
  | c :: t =>
    if isWhitespace c then if cur = [] then wordsFrom [] t else cur :: wordsFrom [] t
    else wordsFrom (cur ++ [c]) t

/-- `split_whitespace`. -/
def words (t : Text) : List Text := wordsFrom [] t

/-- A word: not empty, and without whitespace. -/
structure IsWord (w : Text) : Prop where
  nonempty : w ≠ []
  solid : ∀ c ∈ w, isWhitespace c = false

/-! ### Lines -/

section MapInit

variable {α : Type} {f : α → α}

@[simp] theorem mapInit_nil : mapInit f [] = [] := rfl

theorem mapInit_concat (l : List α) (a : α) : mapInit f (l ++ [a]) = l.map f ++ [a] := by
  unfold mapInit
  rw [getLast?_concat, dropLast_concat]

theorem mapInit_append_of_ne_nil (l : List α) {m : List α} (h : m ≠ []) :
    mapInit f (l ++ m) = l.map f ++ mapInit f m := by
  obtain ⟨m, a, rfl⟩ := eq_nil_or_concat m |>.resolve_left h
  rw [concat_eq_append, ← append_assoc, mapInit_concat, mapInit_concat, map_append, append_assoc]

theorem mapInit_eq_self_iff {l : List α} : mapInit f l = l ↔ ∀ a ∈ l.dropLast, f a = a := by
  rcases eq_nil_or_concat l with rfl | ⟨l, a, rfl⟩
  · simp
  · rw [concat_eq_append, mapInit_concat, dropLast_concat, append_cancel_right_eq]
    constructor
    · intro h b hb
      have := map_inj_left.mp (h.trans (map_id l).symm) b hb
      exact this
    · intro h
      exact (map_congr_left h).trans (map_id l)

theorem getLast?_mapInit (l : List α) : (mapInit f l).getLast? = l.getLast? := by
  rcases eq_nil_or_concat l with rfl | ⟨l, a, rfl⟩
  · rfl
  · rw [concat_eq_append, mapInit_concat, getLast?_concat, getLast?_concat]

end MapInit

variable {c : Char}

theorem mem_stripCr {l : Text} (h : c ∈ stripCr l) : c ∈ l := by
  unfold stripCr at h
  split_ifs at h
  · exact dropLast_subset _ h
  · exact h

theorem stripCr_eq_self_iff {l : Text} : stripCr l = l ↔ l.getLast? ≠ some '\r' := by
  unfold stripCr
  split_ifs with h
  · refine ⟨fun heq => ?_, fun hne => absurd h hne⟩
    have hlen := congrArg length heq
    rw [length_dropLast] at hlen
    cases l with
    | nil => cases h
    | cons c l => simp at hlen
  · exact ⟨fun _ => h, fun _ => rfl⟩

/-- A line of several characters keeps the first. -/
theorem stripCr_cons {c d : Char} (l : Text) : stripCr (c :: d :: l) = c :: stripCr (d :: l) := by
  unfold stripCr
  rw [getLast?_cons_cons, dropLast_cons_cons]
  split_ifs
  · rfl
  · rfl

theorem not_mem_of_mem_splitOn {t l : Text} (h : l ∈ t.splitOn c) : c ∉ l := by
  induction t generalizing l with
  | nil =>
    have : l = [] := by simpa [splitOn_eq_splitOnP] using h
    rw [this]
    exact not_mem_nil
  | cons d t ih =>
    rw [splitOn_cons_eq_if_modifyHead] at h
    split_ifs at h with hd
    · rcases mem_cons.mp h with rfl | h
      · exact not_mem_nil
      · exact ih h
    · cases hs : t.splitOn c with
      | nil => exact absurd hs (splitOn_ne_nil c t)
      | cons p ps =>
        rw [hs, modifyHead_cons] at h
        rcases mem_cons.mp h with rfl | h
        · refine fun hm => (mem_cons.mp hm).elim (fun heq => hd (by simp [heq])) ?_
          exact ih (hs ▸ mem_cons_self)
        · exact ih (hs ▸ mem_cons_of_mem _ h)

theorem mem_mapInit {f : Text → Text} {l : List Text} {x : Text} (h : x ∈ mapInit f l) :
    ∃ y ∈ l, x = y ∨ x = f y := by
  rcases eq_nil_or_concat l with rfl | ⟨l, a, rfl⟩
  · cases h
  · rw [concat_eq_append, mapInit_concat] at h
    rw [concat_eq_append]
    rcases mem_append.mp h with h | h
    · obtain ⟨y, hy, rfl⟩ := mem_map.mp h
      exact ⟨y, mem_append_left _ hy, .inr rfl⟩
    · exact ⟨a, mem_append_right _ (mem_singleton.mpr rfl), .inl (mem_singleton.mp h)⟩

/-- No line holds a newline. -/
theorem newline_not_mem_of_mem_lines {t l : Text} (h : l ∈ lines t) : '\n' ∉ l := by
  have hin : l ∈ mapInit stripCr (t.splitOn '\n') := by
    unfold lines at h
    dsimp only at h
    split_ifs at h
    · exact dropLast_subset _ h
    · exact h
  obtain ⟨y, hy, rfl | rfl⟩ := mem_mapInit hin
  · exact not_mem_of_mem_splitOn hy
  · exact fun hm => not_mem_of_mem_splitOn hy (mem_stripCr hm)

/-- Joined lines come apart again, but for the carriage returns before the newlines. -/
theorem lines_intercalate {ls : List Text} (hne : ls ≠ []) (hls : ∀ l ∈ ls, '\n' ∉ l ∧ l ≠ []) :
    lines (['\n'].intercalate ls) = mapInit stripCr ls := by
  unfold lines
  rw [splitOn_intercalate '\n' (fun l hl => (hls l hl).1) hne]
  dsimp only
  rw [getLast?_mapInit, if_neg]
  intro hlast
  exact (hls [] (mem_of_getLast? hlast)).2 rfl

/-! ### Paragraphs -/

theorem paragraphs_cons_of_ne (h : c ≠ '\n') (t : Text) : paragraphs (c :: t) = prepend c (paragraphs t) := by
  rw [paragraphs]
  rintro u rfl
  exact fun _ => h rfl

theorem paragraphs_newline (h : c ≠ '\n') (t : Text) :
    paragraphs ('\n' :: c :: t) = prepend '\n' (paragraphs (c :: t)) := by
  rw [paragraphs]
  rintro u - heq
  cases heq
  exact h rfl

/-- A text without newlines in front of the first piece. -/
theorem paragraphs_append_left {a : Text} (ha : '\n' ∉ a) {t p : Text} {ps : List Text} (ht : paragraphs t = p :: ps) :
    paragraphs (a ++ t) = (a ++ p) :: ps := by
  induction a with
  | nil => exact ht
  | cons c a ih =>
    obtain ⟨hc, ha⟩ := not_or.mp (mt mem_cons.mpr ha)
    rw [cons_append, paragraphs_cons_of_ne (Ne.symm hc), ih ha]
    rfl

/-- Lines that are not empty, with a blank line behind them, are a paragraph. -/
theorem paragraphs_append {ls : List Text} (hne : ls ≠ []) (hls : ∀ l ∈ ls, '\n' ∉ l ∧ l ≠ []) (rest : Text) :
    paragraphs (['\n'].intercalate ls ++ '\n' :: '\n' :: rest) = ['\n'].intercalate ls :: paragraphs rest := by
  induction ls with
  | nil => exact absurd rfl hne
  | cons l ls ih =>
    obtain ⟨hl, hls⟩ := forall_mem_cons.mp hls
    cases ls with
    | nil =>
      rw [intercalate_singleton, paragraphs_append_left (p := []) hl.1 rfl, append_nil]
    | cons m ms =>
      have hrest := ih (by simp) hls
      -- the next line begins with a character that is no newline
      have hstart : paragraphs ('\n' :: (['\n'].intercalate (m :: ms) ++ '\n' :: '\n' :: rest)) =
          prepend '\n' (paragraphs (['\n'].intercalate (m :: ms) ++ '\n' :: '\n' :: rest)) := by
        obtain ⟨c, m', rfl⟩ := exists_cons_of_ne_nil (hls m mem_cons_self).2
        have hc : c ≠ '\n' := fun heq => (hls _ mem_cons_self).1 (by simp [heq])
        cases ms with
        | nil => exact paragraphs_newline hc _
        | cons k ks =>
          rw [intercalate_cons_cons]
          exact paragraphs_newline hc _
      rw [hrest] at hstart
      rw [intercalate_cons_cons, append_assoc, append_assoc, append_assoc]
      exact paragraphs_append_left hl.1 hstart

/-! ### Words -/

theorem wordsFrom_append {w : Text} (h : ∀ c ∈ w, isWhitespace c = false) (cur t : Text) :
    wordsFrom cur (w ++ t) = wordsFrom (cur ++ w) t := by
  induction w generalizing cur with
  | nil => rw [append_nil, nil_append]
  | cons c w ih =>
    obtain ⟨hc, hw⟩ := forall_mem_cons.mp h
    rw [cons_append, wordsFrom, if_neg (by simp [hc]), ih hw, append_assoc]
    rfl

theorem wordsFrom_space {sep : Char} (hsep : isWhitespace sep = true) {cur : Text} (hcur : cur ≠ []) (t : Text) :
    wordsFrom cur (sep :: t) = cur :: words t := by
  rw [wordsFrom, if_pos hsep, if_neg hcur]
  rfl

/-- Joined words come apart again. -/
theorem words_intercalate {sep : Char} (hsep : isWhitespace sep = true) {ws : List Text} (hws : ∀ w ∈ ws, IsWord w) :
    words ([sep].intercalate ws) = ws := by
  induction ws with
  | nil => rfl
  | cons w ws ih =>
    obtain ⟨hw, hws⟩ := forall_mem_cons.mp hws
    cases ws with
    | nil =>
      have h := wordsFrom_append hw.solid [] []
      rw [append_nil, nil_append, wordsFrom, if_neg hw.nonempty] at h
      rw [intercalate_singleton]
      exact h
    | cons v vs =>
      rw [intercalate_cons_cons, append_assoc, words, wordsFrom_append hw.solid, nil_append,
        singleton_append, wordsFrom_space hsep hw.nonempty, ih hws]

theorem words_append_space {sep : Char} (hsep : isWhitespace sep = true) {cur t : Text} :
    wordsFrom cur (t ++ [sep]) = wordsFrom cur t := by
  induction t generalizing cur with
  | nil =>
    rw [nil_append, wordsFrom, wordsFrom, if_pos hsep]
    rfl
  | cons c t ih =>
    rw [cons_append, wordsFrom, wordsFrom, ih, ih]

theorem isWord_of_mem_wordsFrom {cur t w : Text} (hcur : ∀ c ∈ cur, isWhitespace c = false)
    (h : w ∈ wordsFrom cur t) : IsWord w := by
  induction t generalizing cur with
  | nil =>
    unfold wordsFrom at h
    split_ifs at h with hn
    · cases h
    · rw [mem_singleton.mp h]
      exact ⟨hn, hcur⟩
  | cons c t ih =>
    unfold wordsFrom at h
    split_ifs at h with hc hn
    · exact ih (fun _ hc => absurd hc not_mem_nil) h
    · rcases mem_cons.mp h with rfl | h
      · exact ⟨hn, hcur⟩
      · exact ih (fun _ hc => absurd hc not_mem_nil) h
    · refine ih (fun d hd => ?_) h
      rcases mem_append.mp hd with hd | hd
      · exact hcur d hd
      · rw [mem_singleton.mp hd]
        simpa using hc

theorem isWord_of_mem_words {t w : Text} (h : w ∈ words t) : IsWord w := isWord_of_mem_wordsFrom (fun _ hc => absurd hc not_mem_nil) h

end HamixOS.Lib.Text
