import HamixOS.Kernel.VfsPath

namespace HamixOS.Linux

open Lib Kernel.Vfs List

/-!
# The paths a Linux program sees (`linux/loader.rs`)

A Linux program sees `/linux` as its root, with some directories and files of the system in their usual
places and the whole system under `/hamix`.  `toNative` takes a path as the program writes it to the
system's path, `toLinux` goes back.

* `nativeParts`, `linuxParts` — the two maps on lists of parts;
* `view_consistent_iff` — the paths for which the two maps agree: not those in `/linux` whose names
  mean something else in the program's root.
-/

def linuxRoot : Path := "/linux".toList

def hamixView : Name := "hamix".toList

def linuxName : Name := "linux".toList

def etcName : Name := "etc".toList

/-- `SHARED`. -/
def shared : List Name :=
  ["home", "root", "tmp", "run", "dev", "proc", "sys", "mnt", "media"].map String.toList

/-- `SHARED_ETC`. -/
def sharedEtc : List Name :=
  ["passwd", "group", "shadow", "hostname", "hosts", "resolv.conf", "localtime", "timezone", "machine-id",
    "sudoers", "hamix"].map String.toList

/-- The second part names a shared file. -/
def sharedFile (rest : List Name) : Bool := (rest.head?.map fun n => decide (n ∈ sharedEtc)).getD false

def nativeOf : List Name → Path
  | [] => linuxRoot
  | first :: rest =>
    if first = hamixView then render rest
    else if first ∈ shared then render (first :: rest)
    else if first = etcName ∧ sharedFile rest then render (first :: rest)
    else linuxRoot ++ render (first :: rest)

def splitComponents (path : Path) : List Name := (path.splitOn '/').filter fun c => c ≠ [] ∧ c ≠ ['.']

/-- What `to_native` does with a component. -/
def pushComponent (parts : List Name) (component : Name) : List Name :=
  if component = ['.', '.'] then parts.dropLast else parts ++ [component]

/-- The parts of a path as `to_native` collects them. -/
def viewOf (linuxView : Path) : List Name := (splitComponents linuxView).foldl pushComponent []

def toNative (linuxView : Path) : Path := nativeOf (viewOf linuxView)

def toLinux (native : Path) : Path :=
  match (native.splitOn '/').filter (· ≠ []) with
  | [] => render [hamixView]
  | first :: rest =>
    if first = linuxName then render rest
    else if first ∈ shared then render (first :: rest)
    else if first = etcName ∧ sharedFile rest then render (first :: rest)
    else render (hamixView :: first :: rest)

/-! ### The parts of a path -/

/-- A name that means a part of the system in the root of a Linux program: a shared directory, or `/etc`
where a shared file follows. -/
def Shared : List Name → Prop
  | [] => False
  | first :: rest => first ∈ shared ∨ first = etcName ∧ sharedFile rest = true

instance (parts : List Name) : Decidable (Shared parts) := by
  cases parts with
  | nil => exact .isFalse id
  | cons first rest => exact inferInstanceAs (Decidable (_ ∨ _))

/-- The parts of `nativeOf`. -/
def nativeParts : List Name → List Name
  | [] => [linuxName]
  | first :: rest =>
    if first = hamixView then rest
    else if Shared (first :: rest) then first :: rest
    else linuxName :: first :: rest

/-- The parts of `toLinux`. -/
def linuxParts : List Name → List Name
  | [] => [hamixView]
  | first :: rest =>
    if first = linuxName then rest
    else if Shared (first :: rest) then first :: rest
    else hamixView :: first :: rest

theorem plain_linux : Plain linuxName := ⟨by decide, by decide, by decide, by decide⟩

theorem plain_hamix : Plain hamixView := ⟨by decide, by decide, by decide, by decide⟩

theorem plain_nativeParts {view : List Name} (h : ∀ n ∈ view, Plain n) : ∀ n ∈ nativeParts view, Plain n := by
  cases view with
  | nil => exact forall_mem_singleton.mpr plain_linux
  | cons first rest =>
    rw [nativeParts]
    split_ifs
    · exact fun n hn => h n (mem_cons_of_mem _ hn)
    · exact h
    · exact forall_mem_cons.mpr ⟨plain_linux, h⟩

variable {parts : List Name}

theorem plain_linuxParts (h : ∀ n ∈ parts, Plain n) : ∀ n ∈ linuxParts parts, Plain n := by
  cases parts with
  | nil => exact forall_mem_singleton.mpr plain_hamix
  | cons first rest =>
    rw [linuxParts]
    split_ifs
    · exact fun n hn => h n (mem_cons_of_mem _ hn)
    · exact h
    · exact forall_mem_cons.mpr ⟨plain_hamix, h⟩

theorem render_cons (first second : Name) (rest : List Name) :
    render (first :: second :: rest) = '/' :: first ++ render (second :: rest) := by
  unfold render
  rw [intercalate_cons_cons]
  simp

theorem if_shared {α : Type} (first : Name) (rest : List Name) (x y : α) :
    (if first ∈ shared then x else if first = etcName ∧ sharedFile rest = true then x else y) =
      if Shared (first :: rest) then x else y := by
  by_cases hshared : first ∈ shared
  · rw [if_pos hshared, if_pos (show Shared (first :: rest) from .inl hshared)]
  rw [if_neg hshared]
  by_cases hetc : first = etcName ∧ sharedFile rest = true
  · rw [if_pos hetc, if_pos (show Shared (first :: rest) from .inr hetc)]
  · rw [if_neg hetc, if_neg (show ¬ Shared (first :: rest) from fun h => h.elim hshared hetc)]

theorem nativeOf_eq (view : List Name) : nativeOf view = render (nativeParts view) := by
  cases view with
  | nil => rfl
  | cons first rest =>
    rw [nativeOf, nativeParts]
    by_cases hhamix : first = hamixView
    · rw [if_pos hhamix, if_pos hhamix]
    rw [if_neg hhamix, if_neg hhamix, if_shared, apply_ite render, render_cons]
    rfl

theorem toLinux_render (h : ∀ n ∈ parts, Plain n) :
    toLinux (render parts) = render (linuxParts parts) := by
  unfold toLinux
  rw [filter_splitOn_render h]
  cases parts with
  | nil => rfl
  | cons first rest =>
    rw [linuxParts]
    dsimp only
    by_cases hlinux : first = linuxName
    · rw [if_pos hlinux, if_pos hlinux]
    rw [if_neg hlinux, if_neg hlinux, if_shared, apply_ite render]

theorem splitComponents_plain (path : Path) : ∀ n ∈ splitComponents path, Plain n ∨ n = ['.', '.'] := by
  intro n hn
  obtain ⟨hmem, hne⟩ := mem_filter.mp hn
  have hparts := of_decide_eq_true hne
  by_cases hup : n = ['.', '.']
  · exact .inr hup
  · exact .inl ⟨hparts.1, hparts.2, hup, Text.not_mem_splitOn hmem⟩

theorem pushComponent_plain {component : Name} (hparts : ∀ n ∈ parts, Plain n)
    (h : Plain component ∨ component = ['.', '.']) : ∀ n ∈ pushComponent parts component, Plain n := by
  unfold pushComponent
  split_ifs with hup
  · exact fun n hn => hparts n ((List.dropLast_prefix parts).subset hn)
  · intro n hn
    rcases mem_append.mp hn with hold | hnew
    · exact hparts n hold
    · rw [mem_singleton.mp hnew]
      exact h.resolve_right hup

theorem foldl_pushComponent_plain {rest parts : List Name} (hparts : ∀ n ∈ parts, Plain n)
    (hrest : ∀ n ∈ rest, Plain n ∨ n = ['.', '.']) : ∀ n ∈ rest.foldl pushComponent parts, Plain n := by
  induction rest generalizing parts with
  | nil => exact hparts
  | cons c rest ih =>
    obtain ⟨hc, hrest⟩ := forall_mem_cons.mp hrest
    exact ih (pushComponent_plain hparts hc) hrest

theorem plain_viewOf (path : Path) : ∀ n ∈ viewOf path, Plain n :=
  foldl_pushComponent_plain (fun _ hn => absurd hn not_mem_nil) (splitComponents_plain path)

theorem foldl_pushComponent_of_plain {rest : List Name} (h : ∀ n ∈ rest, Plain n) (parts : List Name) :
    rest.foldl pushComponent parts = parts ++ rest := by
  induction rest generalizing parts with
  | nil => exact (append_nil parts).symm
  | cons c rest ih =>
    obtain ⟨hc, hrest⟩ := forall_mem_cons.mp h
    rw [foldl_cons, pushComponent, if_neg hc.ne_dots, ih hrest, append_assoc, singleton_append]

theorem splitComponents_render (h : ∀ n ∈ parts, Plain n) :
    splitComponents (render parts) = parts := by
  have hsplit : splitComponents (render parts) =
      (((render parts).splitOn '/').filter (· ≠ [])).filter (· ≠ ['.']) := by
    rw [filter_filter]
    refine filter_congr fun c _ => ?_
    rw [← Bool.decide_and]
    exact decide_eq_decide.mpr and_comm
  rw [hsplit, filter_splitOn_render h]
  exact filter_eq_self.mpr fun n hn => decide_eq_true (h n hn).ne_dot

theorem toNative_render (h : ∀ n ∈ parts, Plain n) :
    toNative (render parts) = render (nativeParts parts) := by
  unfold toNative viewOf
  rw [splitComponents_render h, foldl_pushComponent_of_plain h, nil_append, nativeOf_eq]

theorem render_inj {parts parts' : List Name} (h : ∀ n ∈ parts, Plain n) (h' : ∀ n ∈ parts', Plain n) :
    render parts = render parts' ↔ parts = parts' := by
  refine ⟨fun heq => ?_, congrArg render⟩
  rw [← filter_splitOn_render h, ← filter_splitOn_render h', heq]

/-! ### There and back -/

/-- A list of parts that a Linux program uses for something outside `/linux`. -/
def Elsewhere (parts : List Name) : Prop := parts.head? = some hamixView ∨ Shared parts

instance (parts : List Name) : Decidable (Elsewhere parts) := inferInstanceAs (Decidable (_ ∨ _))

section

variable (rest : List Name)

include rest

theorem not_shared_linux : ¬ Shared (linuxName :: rest) := by
  rintro (h | h)
  · exact absurd h (by decide)
  · exact absurd h.1 (by decide)

theorem not_shared_hamix : ¬ Shared (hamixView :: rest) := by
  rintro (h | h)
  · exact absurd h (by decide)
  · exact absurd h.1 (by decide)

theorem nativeParts_hamix : nativeParts (hamixView :: rest) = rest := by
  rw [nativeParts, if_pos rfl]

theorem linuxParts_linux : linuxParts (linuxName :: rest) = rest := by
  rw [linuxParts, if_pos rfl]

end

theorem nativeParts_shared (h : Shared parts) : nativeParts parts = parts := by
  cases parts with
  | nil => exact h.elim
  | cons first rest =>
    rw [nativeParts, if_neg, if_pos h]
    rintro rfl
    exact not_shared_hamix rest h

theorem linuxParts_shared (h : Shared parts) : linuxParts parts = parts := by
  cases parts with
  | nil => exact h.elim
  | cons first rest =>
    rw [linuxParts, if_neg, if_pos h]
    rintro rfl
    exact not_shared_linux rest h

theorem nativeParts_own (h : ¬ Elsewhere parts) : nativeParts parts = linuxName :: parts := by
  unfold Elsewhere at h
  rw [not_or] at h
  cases parts with
  | nil => rfl
  | cons first rest =>
    rw [nativeParts, if_neg fun heq => h.1 (congrArg some heq), if_neg h.2]

theorem linuxParts_other (h : ¬ (parts.head? = some linuxName ∨ Shared parts)) :
    linuxParts parts = hamixView :: parts := by
  rw [not_or] at h
  cases parts with
  | nil => rfl
  | cons first rest =>
    rw [linuxParts, if_neg fun heq => h.1 (congrArg some heq), if_neg h.2]

theorem nativeParts_eq_linux : nativeParts parts = linuxName :: parts ↔ ¬ Elsewhere parts := by
  refine ⟨?_, nativeParts_own⟩
  rintro heq (hhamix | hshared)
  · obtain ⟨rest, rfl⟩ : ∃ rest, parts = hamixView :: rest := ⟨_, eq_cons_of_mem_head? hhamix⟩
    rw [nativeParts_hamix] at heq
    have hlen := congrArg length heq
    simp only [length_cons] at hlen
    omega
  · rw [nativeParts_shared hshared] at heq
    exact cons_ne_self _ _ heq.symm

theorem linuxParts_eq_hamix :
    linuxParts parts = hamixView :: parts ↔ ¬ (parts.head? = some linuxName ∨ Shared parts) := by
  refine ⟨?_, linuxParts_other⟩
  rintro heq (hlinux | hshared)
  · obtain ⟨rest, rfl⟩ : ∃ rest, parts = linuxName :: rest := ⟨_, eq_cons_of_mem_head? hlinux⟩
    rw [linuxParts_linux] at heq
    have hlen := congrArg length heq
    simp only [length_cons] at hlen
    omega
  · rw [linuxParts_shared hshared] at heq
    exact cons_ne_self _ _ heq.symm

/-- A path of the window `/hamix` into `/linux`, to something whose name is taken in the root of a Linux
program. -/
def Hidden (view : List Name) : Prop := ∃ rest, view = hamixView :: linuxName :: rest ∧ Elsewhere rest

/-- A path in `/linux/hamix` to something that has another name in the root of a Linux program. -/
def Doubled (parts : List Name) : Prop :=
  ∃ rest, parts = linuxName :: hamixView :: rest ∧ (rest.head? = some linuxName ∨ Shared rest)

theorem nativeParts_linuxParts (view : List Name) :
    nativeParts (linuxParts (nativeParts view)) = nativeParts view ↔ ¬ Hidden view := by
  by_cases helse : Elsewhere view
  · rcases helse with hhamix | hshared
    · obtain ⟨rest, rfl⟩ : ∃ rest, view = hamixView :: rest := ⟨_, eq_cons_of_mem_head? hhamix⟩
      rw [nativeParts_hamix]
      by_cases hlinux : rest.head? = some linuxName
      · obtain ⟨tail, rfl⟩ : ∃ tail, rest = linuxName :: tail := ⟨_, eq_cons_of_mem_head? hlinux⟩
        rw [linuxParts_linux, nativeParts_eq_linux, not_iff_not]
        refine ⟨fun h => ⟨tail, rfl, h⟩, ?_⟩
        rintro ⟨tail', heq, h⟩
        injection heq with _ heq
        injection heq with _ heq
        rwa [heq]
      · have hnot : ¬ Hidden (hamixView :: rest) := by
          rintro ⟨tail, heq, -⟩
          injection heq with _ heq
          rw [heq] at hlinux
          exact hlinux rfl
        refine iff_of_true ?_ hnot
        by_cases hshared : Shared rest
        · rw [linuxParts_shared hshared, nativeParts_shared hshared]
        · rw [linuxParts_other fun h => h.elim hlinux hshared, nativeParts_hamix]
    · rw [nativeParts_shared hshared, linuxParts_shared hshared, nativeParts_shared hshared]
      refine iff_of_true rfl ?_
      rintro ⟨tail, rfl, -⟩
      exact not_shared_hamix _ hshared
  · rw [nativeParts_own helse, linuxParts_linux, nativeParts_own helse]
    refine iff_of_true rfl ?_
    rintro ⟨tail, rfl, -⟩
    exact helse (.inl rfl)

theorem linuxParts_nativeParts (parts : List Name) :
    linuxParts (nativeParts (linuxParts parts)) = linuxParts parts ↔ ¬ Doubled parts := by
  by_cases hlinux : parts.head? = some linuxName
  · obtain ⟨rest, rfl⟩ : ∃ rest, parts = linuxName :: rest := ⟨_, eq_cons_of_mem_head? hlinux⟩
    rw [linuxParts_linux]
    by_cases helse : Elsewhere rest
    · rcases helse with hhamix | hshared
      · obtain ⟨tail, rfl⟩ : ∃ tail, rest = hamixView :: tail := ⟨_, eq_cons_of_mem_head? hhamix⟩
        rw [nativeParts_hamix, linuxParts_eq_hamix, not_iff_not]
        refine ⟨fun h => ⟨tail, rfl, h⟩, ?_⟩
        rintro ⟨tail', heq, h⟩
        injection heq with _ heq
        injection heq with _ heq
        rwa [heq]
      · rw [nativeParts_shared hshared, linuxParts_shared hshared]
        refine iff_of_true rfl ?_
        rintro ⟨tail, heq, -⟩
        injection heq with _ heq
        rw [heq] at hshared
        exact not_shared_hamix _ hshared
    · rw [nativeParts_own helse, linuxParts_linux]
      refine iff_of_true rfl ?_
      rintro ⟨tail, heq, -⟩
      injection heq with _ heq
      rw [heq] at helse
      exact helse (.inl rfl)
  · have hnot : ¬ Doubled parts := by
      rintro ⟨tail, rfl, -⟩
      exact hlinux rfl
    refine iff_of_true ?_ hnot
    by_cases hshared : Shared parts
    · rw [linuxParts_shared hshared, nativeParts_shared hshared, linuxParts_shared hshared]
    · rw [linuxParts_other fun h => h.elim hlinux hshared, nativeParts_hamix,
        linuxParts_other fun h => h.elim hlinux hshared]

/-- A path of the system, written for a Linux program and read back, is the same path but for the paths
behind `/hamix/linux` whose names mean something else in the program's root; and what is written for a Linux
program stays as it is but for the paths behind `/linux/hamix` that have another name there. -/
theorem view_consistent_iff (v n : Path) (hn : Normal n) :
    (toNative (toLinux (toNative v)) = toNative v ↔ ¬ Hidden (viewOf v)) ∧
      (toLinux (toNative (toLinux n)) = toLinux n ↔ ¬ Doubled (splitComponents n)) := by
  constructor
  · have hview := plain_viewOf v
    have hnative := plain_nativeParts hview
    have hlinux := plain_linuxParts hnative
    have hto : toNative v = render (nativeParts (viewOf v)) := nativeOf_eq _
    rw [hto, toLinux_render hnative, toNative_render hlinux, render_inj (plain_nativeParts hlinux) hnative]
    exact nativeParts_linuxParts (viewOf v)
  · obtain ⟨parts, hparts, rfl⟩ := hn
    have hlinux := plain_linuxParts hparts
    have hnative := plain_nativeParts hlinux
    rw [splitComponents_render hparts, toLinux_render hparts, toNative_render hlinux, toLinux_render hnative,
      render_inj (plain_linuxParts hnative) hlinux]
    exact linuxParts_nativeParts parts

/-- The home directories of the system, in either direction. -/
theorem view_consistent_iff_home :
    (toNative (toLinux (toNative "/home/..//./home/user".toList)) = toNative "/home/..//./home/user".toList ↔
      ¬ Hidden (viewOf "/home/..//./home/user".toList)) ∧
    (toLinux (toNative (toLinux "/home".toList)) = toLinux "/home".toList ↔ ¬ Doubled (splitComponents "/home".toList)) := by
  refine view_consistent_iff _ _ ⟨["home".toList], fun n hn => ?_, rfl⟩
  rw [mem_singleton.mp hn]
  exact ⟨by decide, by decide, by decide, by decide⟩

/-- `/linux/home`, reached through the window, is written as `/home`; and `/linux/hamix/home` is written as
`/hamix/home`, which is `/home`. -/
theorem view_inconsistent :
    toNative (toLinux (toNative "/hamix/linux/home".toList)) ≠ toNative "/hamix/linux/home".toList ∧
      toLinux (toNative (toLinux "/linux/hamix/home".toList)) ≠ toLinux "/linux/hamix/home".toList := by
  decide

end HamixOS.Linux
