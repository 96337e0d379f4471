import HamixOS.Lib.Text
import HamixOS.Kernel.VfsRename

namespace HamixOS.Kernel

namespace Vfs

open Lib List Option

/-!
# Paths as texts and as walks (`fs::absolute`, `Vfs::resolve`)

`absolute` works on the text of a path alone, with a stack of parts; `resolve` follows the
links of the tree.  `Plain` names are the parts that such a stack can hold, and `render` is the
text of a stack.

* `resolveFrom_pushPart` — one part of a path does to the stack what it does to the walk;
* `resolve_absolute` — so the path that `absolute` makes leads where the walk leads.
-/

/-- What `absolute` does with a part of the path. -/
def pushPart (parts : List Name) (part : Name) : List Name :=
  if part = [] ∨ part = ['.'] then parts
  else if part = ['.', '.'] then parts.dropLast
  else parts ++ [part]

/-- The text of a stack of parts. -/
def render (parts : List Name) : Path := '/' :: ['/'].intercalate parts

/-- The parts `absolute` begins with. -/
def startParts (cwd path : Path) : List Name :=
  if path.head? = some '/' then [] else (cwd.splitOn '/').filter (· ≠ [])

def absolute (cwd path : Path) : Path := render ((path.splitOn '/').foldl pushPart (startParts cwd path))

/-- A name that a path can hold as a part of its own. -/
structure Plain (name : Name) : Prop where
  ne_nil : name ≠ []
  ne_dot : name ≠ ['.']
  ne_dots : name ≠ ['.', '.']
  no_slash : '/' ∉ name

/-- A path that starts with `/` and has no empty part, `.` or `..`. -/
def Normal (path : Path) : Prop := ∃ parts, (∀ n ∈ parts, Plain n) ∧ path = render parts

/-! ### The text -/

variable {part : Name} {parts : List Name}

theorem pushPart_plain (hparts : ∀ n ∈ parts, Plain n) (hpart : '/' ∉ part) :
    ∀ n ∈ pushPart parts part, Plain n := by
  unfold pushPart
  split_ifs with hskip hup
  · exact hparts
  · exact fun n hn => hparts n ((List.dropLast_prefix parts).subset hn)
  · intro n hn
    rcases mem_append.mp hn with hold | hnew
    · exact hparts n hold
    · rw [mem_singleton.mp hnew]
      exact ⟨fun h => hskip (.inl h), fun h => hskip (.inr h), hup, hpart⟩

theorem foldl_pushPart_plain (rest : List Name) (hparts : ∀ n ∈ parts, Plain n)
    (hrest : ∀ n ∈ rest, '/' ∉ n) : ∀ n ∈ rest.foldl pushPart parts, Plain n := by
  induction rest generalizing parts with
  | nil => exact hparts
  | cons part rest ih =>
    exact ih (pushPart_plain hparts (hrest part mem_cons_self)) fun n hn => hrest n (mem_cons_of_mem _ hn)

theorem pushPart_of_plain (h : Plain part) (parts : List Name) : pushPart parts part = parts ++ [part] := by
  unfold pushPart
  rw [if_neg (fun hor => hor.elim h.ne_nil h.ne_dot), if_neg h.ne_dots]

theorem foldl_pushPart_of_plain {rest : List Name} (h : ∀ n ∈ rest, Plain n) (parts : List Name) :
    rest.foldl pushPart parts = parts ++ rest := by
  induction rest generalizing parts with
  | nil => exact (List.append_nil parts).symm
  | cons part rest ih =>
    rw [foldl_cons, pushPart_of_plain (h part mem_cons_self), ih fun n hn => h n (mem_cons_of_mem _ hn),
      append_assoc, singleton_append]

section

variable (h : ∀ n ∈ parts, Plain n)

include h

/-- The parts of a rendered stack, but for the empty ones: one before the first slash, and one
    after it where the stack is empty. -/
theorem splitOn_render :
    ∃ rest, (render parts).splitOn '/' = [] :: rest ∧ (rest = parts ∨ rest = [[]] ∧ parts = []) := by
  have hcons : (render parts).splitOn '/' = [] :: (['/'].intercalate parts).splitOn '/' :=
    splitOn_append_cons_self [] (['/'].intercalate parts)
  refine ⟨_, hcons, ?_⟩
  by_cases hnil : parts = []
  · rw [hnil]
    exact .inr ⟨rfl, rfl⟩
  · exact .inl (splitOn_intercalate '/' (fun n hn => (h n hn).no_slash) hnil)

theorem filter_splitOn_render :
    ((render parts).splitOn '/').filter (· ≠ []) = parts := by
  have hself : parts.filter (· ≠ []) = parts :=
    filter_eq_self.mpr fun n hn => decide_eq_true (h n hn).ne_nil
  obtain ⟨rest, hsplit, rfl | ⟨rfl, rfl⟩⟩ := splitOn_render h
  · rw [hsplit, filter_cons_of_neg (by simp)]
    exact hself
  · rw [hsplit]
    rfl

theorem absolute_render (cwd : Path) :
    absolute cwd (render parts) = render parts := by
  have hstart : startParts cwd (render parts) = [] := if_pos rfl
  unfold absolute
  rw [hstart]
  obtain ⟨rest, hsplit, rfl | ⟨rfl, rfl⟩⟩ := splitOn_render h
  · rw [hsplit, foldl_cons]
    exact congrArg render ((foldl_pushPart_of_plain h []).trans (nil_append rest))
  · rw [hsplit]
    rfl

end

theorem startParts_plain {cwd : Path} (h : Normal cwd) (path : Path) : ∀ n ∈ startParts cwd path, Plain n := by
  obtain ⟨parts, hparts, rfl⟩ := h
  unfold startParts
  split_ifs
  · exact fun n hn => absurd hn not_mem_nil
  · rw [filter_splitOn_render hparts]
    exact hparts

theorem normal_absolute {cwd : Path} (h : Normal cwd) (path : Path) : Normal (absolute cwd path) :=
  ⟨_, foldl_pushPart_plain _ (startParts_plain h path) fun _ hn => Text.not_mem_splitOn hn, rfl⟩

/-! ### The walk -/

namespace Tree

variable {v : Tree} {cur x : Nat}

theorem resolveFrom_skip (h : part = [] ∨ part = ['.']) (cur : Nat) (rest : List Name) :
    v.resolveFrom cur (part :: rest) = v.resolveFrom cur rest := if_pos h

theorem resolveFrom_plain (h : Plain part) (cur : Nat) (rest : List Name) :
    v.resolveFrom cur (part :: rest) = (v.child cur part).bind fun next => v.resolveFrom next rest := by
  rw [resolveFrom, if_neg (fun hor => hor.elim h.ne_nil h.ne_dot), if_neg h.ne_dots]
  cases v.child cur part with
  | none => rfl
  | some next => rfl

theorem resolve_render (v : Tree) (h : ∀ n ∈ parts, Plain n) (cwd : Nat) :
    v.resolve cwd (render parts) = v.resolveFrom 0 parts := by
  have horigin : origin cwd (render parts) = 0 := if_pos rfl
  unfold resolve
  rw [horigin]
  obtain ⟨rest, hsplit, rfl | ⟨rfl, rfl⟩⟩ := splitOn_render h
  · rw [hsplit, resolveFrom_skip (.inl rfl)]
  · rw [hsplit]
    rfl

/-- One part of a path does to the stack what it does to the walk. -/
theorem resolveFrom_pushPart (hv : v.IsTree) (hroot : v.parent 0 = 0)
    (hparts : ∀ n ∈ parts, Plain n) (hcur : v.resolveFrom 0 parts = some cur)
    (hx : v.resolveFrom cur [part] = some x) : v.resolveFrom 0 (pushPart parts part) = some x := by
  unfold pushPart
  split_ifs with hskip hup
  · rw [resolveFrom_skip hskip] at hx
    rw [hcur]
    exact hx
  · have hup' : v.parent cur = x := by
      rw [hup] at hx
      exact some.inj hx
    rcases eq_nil_or_concat parts with rfl | ⟨init, last, rfl⟩
    · -- `..` of the root is the root
      cases hcur
      rw [← hup', hroot]
      rfl
    · rw [concat_eq_append] at hcur hparts ⊢
      rw [dropLast_concat]
      rw [resolveFrom_append] at hcur
      obtain ⟨dir, hdir, hlast⟩ := bind_eq_some_iff.mp hcur
      have hplain := hparts last (mem_append_right _ (mem_singleton_self last))
      rw [resolveFrom_plain hplain] at hlast
      obtain ⟨next, hchild, hnext⟩ := bind_eq_some_iff.mp hlast
      cases hnext
      rw [hdir, ← hup', hv.parent_lists dir last cur hchild]
  · rw [resolveFrom_append, hcur]
    exact hx

theorem resolveFrom_foldl (hv : v.IsTree) (hroot : v.parent 0 = 0) (rest : List Name)
    (hparts : ∀ n ∈ parts, Plain n) (hrest : ∀ n ∈ rest, '/' ∉ n) (hcur : v.resolveFrom 0 parts = some cur)
    (hx : v.resolveFrom cur rest = some x) : v.resolveFrom 0 (rest.foldl pushPart parts) = some x := by
  induction rest generalizing parts cur with
  | nil =>
    cases hx
    exact hcur
  | cons part rest ih =>
    have hslash := hrest part mem_cons_self
    have hsplit : v.resolveFrom cur ([part] ++ rest) = some x := hx
    rw [resolveFrom_append] at hsplit
    obtain ⟨next, hnext, htail⟩ := bind_eq_some_iff.mp hsplit
    exact ih (pushPart_plain hparts hslash) (fun n hn => hrest n (mem_cons_of_mem _ hn))
      (resolveFrom_pushPart hv hroot hparts hcur hnext) htail

/-- Where a walk from a directory leads, the path that `absolute` makes of the directory's path
    leads as well; that path is normal, and `absolute` leaves it as it is. -/
theorem resolve_absolute (hv : v.IsTree) (hroot : v.parent 0 = 0) {c : Path} (hc : Normal c) (p : Path) {d : Nat}
    (hd : v.resolve 0 c = some d) :
    (∀ x, v.resolve d p = some x → v.resolve 0 (absolute c p) = some x) ∧ Normal (absolute c p) ∧
      ∀ c', absolute c' (absolute c p) = absolute c p := by
  have hslash : ∀ n ∈ p.splitOn '/', '/' ∉ n := fun _ hn => Text.not_mem_splitOn hn
  have hstart := startParts_plain hc p
  have hplain := foldl_pushPart_plain (p.splitOn '/') hstart hslash
  refine ⟨fun x hx => ?_, normal_absolute hc p, absolute_render hplain⟩
  unfold absolute
  rw [resolve_render v hplain]
  refine resolveFrom_foldl hv hroot (p.splitOn '/') hstart hslash ?_ hx
  obtain ⟨parts, hparts, rfl⟩ := hc
  unfold origin startParts
  split_ifs
  · rfl
  · rw [filter_splitOn_render hparts, ← resolve_render v hparts 0]
    exact hd

/-- In a tree with one directory, out of it and into it again. -/
theorem resolve_absolute_around :
    (((new true).mkdir 0 "/a".toList 0).1).resolve 0 (absolute "/a".toList "..//./a".toList) = some 1 := by
  have hv : (((new true).mkdir 0 "/a".toList 0).1).WellLinked := (WellLinked.of_new true).mkdir Nat.zero_lt_one _ 0
  have hc : Normal "/a".toList := by
    refine ⟨["a".toList], ?_, rfl⟩
    intro n hn
    rw [mem_singleton.mp hn]
    exact ⟨by decide, by decide, by decide, by decide⟩
  exact (resolve_absolute hv.isTree rfl hc "..//./a".toList (d := 1) (by decide)).1 1 (by decide)

end Tree

end Vfs

end HamixOS.Kernel
