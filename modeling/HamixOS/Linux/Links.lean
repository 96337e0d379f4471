import HamixOS.Linux.View
import HamixOS.Lib.Utf8

namespace HamixOS.Linux

open Lib Kernel.Vfs List Option Except Tree

/-!
# Symbolic links (`linux/loader.rs`, `Vfs::link_target`)

A symbolic link is a file whose bytes begin with `LINK_MAGIC`; the rest is its target.  `resolve_links` and
`resolve_links_linux` take a path apart and put the target of every link they meet in front of what is
left.  The two loops are one `walk`: it differs in how the parts are looked up and how a target is read.

* `Visits` — the parts behind and the parts ahead at every turn of the loop;
* `walk_of_visits`, `visits_of_walk` — the loop returns what it has when it stops;
* `resolve_links_iff` — when the result is clean: a `..` after a part that is not there is left standing,
  and a Linux program's path is never looked up at `/linux` and `/etc` themselves.
-/

/-! ### Links in the tree -/

/-- `FileBody`: the bytes in memory, if `resident`, or the size of the file and where it is stored. -/
structure FileBody where
  bytes : List UInt8
  size : Nat
  resident : Bool
  backing : Nat

def FileBody.len (body : FileBody) : Nat := if body.resident then body.bytes.length else body.size

def FileBody.adopt (body : FileBody) (data : List UInt8) : FileBody :=
  { body with size := data.length, bytes := data, resident := true }

/-- `LINK_MAGIC`. -/
def linkMagic : List UInt8 := [0x7f, 0x48, 0x58, 0x4c, 0x49, 0x4e, 0x4b, 0x0a]

def linkMax : Nat := 4096

/-- A tree with the bytes of its files.  `load` is what the device of a node has stored for it, and nothing
where that cannot be read. -/
structure LinkTree extends Tree where
  body : Nat → FileBody
  load : Nat → Nat → List UInt8
  root_dir : toTree.isDir 0 = true

namespace LinkTree

variable (v : LinkTree)

def isFile (id : Nat) : Bool :=
  match (v.node id).kind with
  | .file => true
  | _ => false

/-- The bytes of a file after `make_resident`.  The time stamp of the use is left out. -/
def loaded (id : Nat) : FileBody :=
  if v.isFile id ∧ (v.body id).resident = false ∧ (v.body id).backing ≠ 0 then
    (v.body id).adopt (v.load (v.node id).dev (v.body id).backing)
  else v.body id

def makeResident (id : Nat) : LinkTree := { v with body := Function.update v.body id (v.loaded id) }

def peekLink (id : Nat) : Option Path :=
  let bytes := (v.body id).bytes
  if v.isFile id ∧ (v.body id).resident ∧ linkMagic.length < bytes.length ∧
      bytes.length ≤ linkMagic.length + linkMax ∧ linkMagic <+: bytes then
    some (fromUtf8Lossy (bytes.drop linkMagic.length))
  else none

def linkTarget (id : Nat) : Option Path :=
  if v.isFile id then
    let size := (v.body id).len
    if size ≤ linkMagic.length ∨ linkMagic.length + linkMax < size then none
    else (v.makeResident id).peekLink id
  else none

theorem linkTarget_root : v.linkTarget 0 = none := by
  have hdir := v.root_dir
  have hfile : v.isFile 0 = false := by
    unfold isDir at hdir
    unfold isFile
    cases hkind : (v.node 0).kind with
    | file =>
      rw [hkind] at hdir
      cases hdir
    | dir m => rfl
    | device d => rfl
    | proc => rfl
  unfold linkTarget
  rw [if_neg (by rw [hfile]; exact Bool.false_ne_true)]

end LinkTree

/-! ### The loops -/

/-- What the two loops do differently: the path at which the parts are looked up, and the parts of a
target met after other parts. -/
structure Walk where
  locate : List Name → Path
  components : List Name → Path → List Name
  plain : ∀ resolved target, ∀ n ∈ components resolved target, Plain n ∨ n = ['.', '.']

/-- `resolve_links_linux`. -/
def linuxWalk : Walk where
  locate := nativeOf
  components := fun _ target => splitComponents target
  plain := fun _ target => splitComponents_plain target

/-- `resolve_links`: an absolute target met in `/linux` is a path of the Linux root. -/
def nativeWalk : Walk where
  locate := render
  components := fun resolved target =>
    splitComponents (if target.head? = some '/' ∧ resolved.head? = some linuxName then toNative target else target)
  plain := fun _ _ => splitComponents_plain _

def maxLinkHops : Nat := 40

def tooManyLinks : String := "too many levels of symbolic links"

section Loop

variable (v : LinkTree) (w : Walk) (followLast : Bool)

/-- The parts that stay behind when a link is followed. -/
def base (resolved : List Name) (target : Path) : List Name := if target.head? = some '/' then [] else resolved

/-- The target of the link at a node, where it is to be followed. -/
def followed (id : Nat) (pending : List Name) : Option Path :=
  if pending ≠ [] ∨ followLast then v.linkTarget id else none

/-- The loop up to the next link, which is left to `onLink`. -/
def scan (onLink : List Name → List Name → Except String (List Name)) :
    List Name → List Name → Except String (List Name)
  | resolved, [] => .ok resolved
  | resolved, component :: pending =>
    if component = ['.', '.'] then scan onLink resolved.dropLast pending
    else
      match v.resolve 0 (w.locate (resolved ++ [component])) with
      | none => .ok (resolved ++ component :: pending)
      | some id =>
        match followed v followLast id pending with
        | none => scan onLink (resolved ++ [component]) pending
        | some target => onLink (base resolved target) (w.components resolved target ++ pending)

/-- The loop with `hops` links left to follow. -/
def walk : Nat → List Name → List Name → Except String (List Name)
  | 0 => scan v w followLast fun _ _ => .error tooManyLinks
  | hops + 1 => scan v w followLast (walk hops)

end Loop

def resolveLinksLinux (v : LinkTree) (path : Path) (followLast : Bool) : Except String Path :=
  (walk v linuxWalk followLast maxLinkHops [] (splitComponents path)).map nativeOf

def resolveLinks (v : LinkTree) (path : Path) (followLast : Bool) : Except String Path :=
  (walk v nativeWalk followLast maxLinkHops [] (splitComponents path)).map render

def followLinux (vfs : Option LinkTree) (path : Path) (followLast : Bool) : Path :=
  match vfs with
  | some v =>
    match resolveLinksLinux v path followLast with
    | .ok r => r
    | .error _ => toNative path
  | none => toNative path

/-! ### The turns of the loop -/

section Turns

variable (v : LinkTree) (w : Walk) (followLast : Bool) (path : Path)

/-- The loop comes to a turn after so many links, with some parts behind and some ahead. -/
inductive Visits : Nat → List Name → List Name → Prop where
  | start : Visits 0 [] (splitComponents path)
  | up {hops resolved pending} : Visits hops resolved (['.', '.'] :: pending) → Visits hops resolved.dropLast pending
  | pass {hops resolved component pending id} : Visits hops resolved (component :: pending) →
      component ≠ ['.', '.'] → v.resolve 0 (w.locate (resolved ++ [component])) = some id →
      followed v followLast id pending = none → Visits hops (resolved ++ [component]) pending
  | link {hops resolved component pending id target} : Visits hops resolved (component :: pending) →
      component ≠ ['.', '.'] → v.resolve 0 (w.locate (resolved ++ [component])) = some id →
      followed v followLast id pending = some target → hops < maxLinkHops →
      Visits (hops + 1) (base resolved target) (w.components resolved target ++ pending)

/-- The loop stops here: nothing is ahead, or a part that is not there. -/
def Stops (resolved : List Name) : List Name → Prop
  | [] => True
  | component :: _ => component ≠ ['.', '.'] ∧ v.resolve 0 (w.locate (resolved ++ [component])) = none

/-- Where the loop stops, no `..` is left ahead. -/
def Straight : Prop :=
  ∀ hops resolved pending, Visits v w followLast path hops resolved pending → Stops v w resolved pending →
    ['.', '.'] ∉ pending

/-- The loop stops at a turn or says that there are too many links. -/
def Settles : Prop :=
  walk v w followLast maxLinkHops [] (splitComponents path) = .error tooManyLinks ∨
    ∃ hops resolved pending, Visits v w followLast path hops resolved pending ∧ Stops v w resolved pending

variable {v w followLast path}

variable {resolved pending : List Name}

theorem walk_stop (h : Stops v w resolved pending) (n : Nat) :
    walk v w followLast n resolved pending = .ok (resolved ++ pending) := by
  cases pending with
  | nil => cases n <;> simp only [walk, scan, append_nil]
  | cons component pending =>
    obtain ⟨hup, hnone⟩ := h
    cases n <;> simp only [walk, scan, if_neg hup, hnone]

theorem walk_up (n : Nat) (resolved pending : List Name) :
    walk v w followLast n resolved (['.', '.'] :: pending) = walk v w followLast n resolved.dropLast pending := by
  cases n <;> simp only [walk, scan, if_true]

theorem walk_pass {component : Name} {id : Nat} (hup : component ≠ ['.', '.'])
    (hid : v.resolve 0 (w.locate (resolved ++ [component])) = some id)
    (hlink : followed v followLast id pending = none) (n : Nat) :
    walk v w followLast n resolved (component :: pending) =
      walk v w followLast n (resolved ++ [component]) pending := by
  cases n <;> simp only [walk, scan, if_neg hup, hid, hlink]

theorem walk_link {component : Name} {id : Nat} {target : Path}
    (hup : component ≠ ['.', '.']) (hid : v.resolve 0 (w.locate (resolved ++ [component])) = some id)
    (hlink : followed v followLast id pending = some target) (n : Nat) :
    walk v w followLast n resolved (component :: pending) =
      match n with
      | 0 => .error tooManyLinks
      | n + 1 => walk v w followLast n (base resolved target) (w.components resolved target ++ pending) := by
  cases n <;> simp only [walk, scan, if_neg hup, hid, hlink]

variable {hops : Nat}

/-- From a turn that the loop comes to, it goes on to the same result. -/
theorem walk_of_visits (h : Visits v w followLast path hops resolved pending) :
    hops ≤ maxLinkHops ∧ walk v w followLast maxLinkHops [] (splitComponents path) =
      walk v w followLast (maxLinkHops - hops) resolved pending := by
  induction h with
  | start => exact ⟨Nat.zero_le _, rfl⟩
  | up _ ih => exact ⟨ih.1, ih.2.trans (walk_up ..)⟩
  | pass _ hup hid hlink ih => exact ⟨ih.1, ih.2.trans (walk_pass hup hid hlink _)⟩
  | @link hops resolved component pending id target _ hup hid hlink hlt ih =>
    refine ⟨hlt, ih.2.trans ?_⟩
    obtain ⟨n, hn⟩ : ∃ n, maxLinkHops - hops = n + 1 := ⟨maxLinkHops - hops - 1, by omega⟩
    rw [walk_link hup hid hlink, hn, show maxLinkHops - (hops + 1) = n by omega]

/-- From every turn the loop comes to a stop or to a link: between two links the parts ahead get fewer. -/
theorem stops_or_links (h : Visits v w followLast path hops resolved pending) :
    ∃ resolved' pending', Visits v w followLast path hops resolved' pending' ∧
      (Stops v w resolved' pending' ∨ ∃ component rest id target, pending' = component :: rest ∧
        component ≠ ['.', '.'] ∧ v.resolve 0 (w.locate (resolved' ++ [component])) = some id ∧
        followed v followLast id rest = some target) := by
  induction pending generalizing resolved with
  | nil => exact ⟨resolved, [], h, .inl trivial⟩
  | cons component pending ih =>
    by_cases hup : component = ['.', '.']
    · subst hup
      exact ih h.up
    cases hid : v.resolve 0 (w.locate (resolved ++ [component])) with
    | none => exact ⟨resolved, _, h, .inl ⟨hup, hid⟩⟩
    | some id =>
      cases hlink : followed v followLast id pending with
      | none => exact ih (h.pass hup hid hlink)
      | some target => exact ⟨resolved, _, h, .inr ⟨component, pending, id, target, rfl, hup, hid, hlink⟩⟩

/-- The loop stops, after at most `maxLinkHops` links, or says that there are more. -/
theorem settles : Settles v w followLast path := by
  have hall : ∀ left hops resolved pending, left = maxLinkHops - hops →
      Visits v w followLast path hops resolved pending → Settles v w followLast path := by
    intro left
    induction left with
    | zero =>
      intro hops resolved pending hleft h
      obtain ⟨r, p, hv, hs | ⟨component, rest, id, target, rfl, hup, hid, hlink⟩⟩ := stops_or_links h
      · exact .inr ⟨hops, r, p, hv, hs⟩
      · have hwalk := (walk_of_visits hv).2
        rw [walk_link hup hid hlink, ← hleft] at hwalk
        exact .inl hwalk
    | succ left ih =>
      intro hops resolved pending hleft h
      obtain ⟨r, p, hv, hs | ⟨component, rest, id, target, rfl, hup, hid, hlink⟩⟩ := stops_or_links h
      · exact .inr ⟨hops, r, p, hv, hs⟩
      · exact ih (hops + 1) _ _ (by omega) (hv.link hup hid hlink (by omega))
  exact hall _ 0 _ _ rfl .start

theorem walk_of_stop (h : Visits v w followLast path hops resolved pending)
    (hstop : Stops v w resolved pending) :
    walk v w followLast maxLinkHops [] (splitComponents path) = .ok (resolved ++ pending) :=
  (walk_of_visits h).2.trans (walk_stop hstop _)

theorem stop_of_walk {parts : List Name}
    (h : walk v w followLast maxLinkHops [] (splitComponents path) = .ok parts) :
    ∃ hops resolved pending, Visits v w followLast path hops resolved pending ∧ Stops v w resolved pending ∧
      parts = resolved ++ pending := by
  have hsettles : Settles v w followLast path := settles
  rcases hsettles with herr | ⟨hops, r, p, hv, hs⟩
  · rw [h] at herr
    cases herr
  · exact ⟨hops, r, p, hv, hs, Except.ok.inj (h.symm.trans (walk_of_stop hv hs))⟩

/-! ### What is behind and what is ahead -/

theorem visits_plain (h : Visits v w followLast path hops resolved pending) :
    (∀ n ∈ resolved, Plain n) ∧ ∀ n ∈ pending, Plain n ∨ n = ['.', '.'] := by
  induction h with
  | start => exact ⟨fun _ hn => absurd hn not_mem_nil, splitComponents_plain path⟩
  | @up hops resolved pending _ ih =>
    exact ⟨fun n hn => ih.1 n ((List.dropLast_prefix resolved).subset hn), fun n hn => ih.2 n (.tail _ hn)⟩
  | @pass hops resolved component pending id _ hup _ _ ih =>
    refine ⟨fun n hn => ?_, fun n hn => ih.2 n (.tail _ hn)⟩
    rcases mem_append.mp hn with hold | hnew
    · exact ih.1 n hold
    · rw [mem_singleton.mp hnew]
      exact (ih.2 component mem_cons_self).resolve_right hup
  | @link hops resolved component pending id target _ _ _ _ _ ih =>
    constructor
    · unfold base
      split
      · exact fun _ hn => absurd hn not_mem_nil
      · exact ih.1
    · intro n hn
      rcases mem_append.mp hn with hnew | hold
      · exact w.plain resolved target n hnew
      · exact ih.2 n (.tail _ hold)

/-- With `follow_last`, no part that was passed is a link. -/
theorem visits_noLink (h : Visits v w true path hops resolved pending) {parts : List Name} (hpre : parts <+: resolved)
    (hne : parts ≠ []) {id : Nat} (hid : v.resolve 0 (w.locate parts) = some id) : v.linkTarget id = none := by
  induction h with
  | start => exact absurd (prefix_nil.mp hpre) hne
  | up _ ih => exact ih (hpre.trans (List.dropLast_prefix _))
  | @pass hops resolved component pending id' _ _ hid' hlink ih =>
    rcases prefix_concat_iff.mp hpre with rfl | hpre
    · rw [hid'] at hid
      rwa [followed, if_pos (.inr rfl), some.inj hid] at hlink
    · exact ih hpre
  | link _ _ _ _ _ ih =>
    unfold base at hpre
    split at hpre
    · exact absurd (prefix_nil.mp hpre) hne
    · exact ih hpre

/-- Without links, the loop does to the parts what `to_native` does. -/
theorem visits_viewOf (hno : ∀ id, v.linkTarget id = none)
    (h : Visits v w followLast path hops resolved pending) : pending.foldl pushComponent resolved = viewOf path := by
  induction h with
  | start => rfl
  | up _ ih => exact ih
  | pass _ hup _ _ ih =>
    rw [← ih, foldl_cons, pushComponent, if_neg hup]
  | @link hops resolved component pending id target _ _ _ hlink =>
    rw [followed, hno, ite_self] at hlink
    cases hlink

theorem straight_iff {parts : List Name} (h : walk v w followLast maxLinkHops [] (splitComponents path) = .ok parts) :
    Straight v w followLast path ↔ ['.', '.'] ∉ parts := by
  constructor
  · intro hstraight
    obtain ⟨hops, resolved, pending, hv, hs, rfl⟩ := stop_of_walk h
    intro hmem
    rcases mem_append.mp hmem with hback | hahead
    · exact ((visits_plain hv).1 _ hback).ne_dots rfl
    · exact hstraight hops resolved pending hv hs hahead
  · intro hno hops resolved pending hv hs hahead
    rw [Except.ok.inj (h.symm.trans (walk_of_stop hv hs))] at hno
    exact hno (mem_append_right _ hahead)

theorem straight_of_error (h : walk v w followLast maxLinkHops [] (splitComponents path) = .error tooManyLinks) :
    Straight v w followLast path := by
  intro hops resolved pending hv hs
  rw [walk_of_stop hv hs] at h
  cases h

/-- The parts that the loop returns. -/
theorem walk_parts {parts : List Name} (h : walk v w followLast maxLinkHops [] (splitComponents path) = .ok parts) :
    ∀ n ∈ parts, Plain n ∨ n = ['.', '.'] := by
  obtain ⟨hops, resolved, pending, hv, -, rfl⟩ := stop_of_walk h
  intro n hn
  rcases mem_append.mp hn with hback | hahead
  · exact .inl ((visits_plain hv).1 n hback)
  · exact (visits_plain hv).2 n hahead

theorem walk_plain {parts : List Name} (h : walk v w followLast maxLinkHops [] (splitComponents path) = .ok parts)
    (hstraight : Straight v w followLast path) : ∀ n ∈ parts, Plain n := fun n hn =>
  (walk_parts h n hn).resolve_right fun hup => (straight_iff h).mp hstraight (hup ▸ hn)

theorem walk_viewOf (hno : ∀ id, v.linkTarget id = none) :
    ∃ parts, walk v w followLast maxLinkHops [] (splitComponents path) = .ok parts ∧
      (Straight v w followLast path → parts = viewOf path) := by
  have hstart : Visits v w followLast path 0 [] (splitComponents path) := .start
  obtain ⟨resolved, pending, hv, hs | ⟨component, rest, id, target, rfl, -, -, hlink⟩⟩ := stops_or_links hstart
  · refine ⟨resolved ++ pending, walk_of_stop hv hs, fun hstraight => ?_⟩
    have hplain : ∀ n ∈ pending, Plain n := fun n hn =>
      ((visits_plain hv).2 n hn).resolve_right fun hup => hstraight 0 resolved pending hv hs (hup ▸ hn)
    rw [← visits_viewOf hno hv, foldl_pushComponent_of_plain hplain]
  · rw [followed, hno, ite_self] at hlink
    cases hlink

end Turns

/-! ### Clean results -/

theorem exists_of_map {f : List Name → Path} {x : Except String (List Name)} {r : Path} (h : x.map f = .ok r) :
    ∃ parts, x = .ok parts ∧ r = f parts := by
  cases x with
  | error e => cases h
  | ok parts => exact ⟨parts, rfl, (Except.ok.inj h).symm⟩

def NoDots (path : Path) : Prop := ['.'] ∉ path.splitOn '/' ∧ ['.', '.'] ∉ path.splitOn '/'

instance (path : Path) : Decidable (NoDots path) := inferInstanceAs (Decidable (_ ∧ _))

/-- No part of a path that is there is a link. -/
def NoLinks (v : LinkTree) (path : Path) : Prop :=
  ∀ parts, parts <+: path.splitOn '/' → ∀ id, v.resolveFrom 0 parts = some id → v.linkTarget id = none

theorem splitOn_parts {parts : List Name} (h : ∀ n ∈ parts, Plain n ∨ n = ['.', '.']) (hne : parts ≠ []) :
    (render parts).splitOn '/' = [] :: parts := by
  have hcons : (render parts).splitOn '/' = [] :: (['/'].intercalate parts).splitOn '/' :=
    splitOn_append_cons_self [] (['/'].intercalate parts)
  have hslash : ∀ n ∈ parts, '/' ∉ n := by
    intro n hn
    rcases h n hn with hplain | rfl
    · exact hplain.no_slash
    · decide
  rw [hcons, splitOn_intercalate '/' hslash hne]

theorem noDots_render {parts : List Name} (h : ∀ n ∈ parts, Plain n ∨ n = ['.', '.']) :
    NoDots (render parts) ↔ ['.', '.'] ∉ parts := by
  by_cases hne : parts = []
  · subst hne
    exact ⟨fun _ => not_mem_nil, fun _ => ⟨by decide, by decide⟩⟩
  unfold NoDots
  rw [splitOn_parts h hne]
  constructor
  · exact fun hno hmem => hno.2 (.tail _ hmem)
  · intro hno
    constructor
    · rintro (_ | ⟨_, hmem⟩)
      rcases h _ hmem with hplain | heq
      · exact hplain.ne_dot rfl
      · cases heq
    · rintro (_ | ⟨_, hmem⟩)
      exact hno hmem

theorem noLinks_render (v : LinkTree) {parts : List Name} (h : ∀ n ∈ parts, Plain n) :
    NoLinks v (render parts) ↔
      ∀ front, front <+: parts → ∀ id, v.resolveFrom 0 front = some id → v.linkTarget id = none := by
  obtain ⟨rest, hsplit, hrest⟩ := splitOn_render h
  unfold NoLinks
  rw [hsplit]
  constructor
  · intro hno front hfront id hid
    rcases hrest with rfl | ⟨-, rfl⟩
    · exact hno ([] :: front) (cons_prefix_cons.mpr ⟨rfl, hfront⟩) id hid
    · rw [prefix_nil.mp hfront] at hid
      rw [← some.inj hid]
      exact v.linkTarget_root
  · intro hno front hfront id hid
    have hroot : v.resolveFrom 0 [] = some id → v.linkTarget id = none := by
      intro hid
      rw [← some.inj hid]
      exact v.linkTarget_root
    rcases prefix_cons_iff.mp hfront with rfl | ⟨names, rfl, hnames⟩
    · exact hroot hid
    rcases hrest with rfl | ⟨rfl, rfl⟩
    · exact hno names hnames id hid
    · rcases prefix_cons_iff.mp hnames with rfl | ⟨more, rfl, hmore⟩
      · exact hroot hid
      · rw [prefix_nil.mp hmore] at hid
        exact hroot hid

/-- A path without `.` and `..`, and no link on it. -/
structure Clean (v : LinkTree) (path : Path) : Prop where
  noDots : NoDots path
  noLinks : NoLinks v path

variable {front parts : List Name}

theorem resolveFrom_none_of_front {v : Tree} (h : front <+: parts)
    (hnone : v.resolveFrom 0 front = none) : v.resolveFrom 0 parts = none := by
  obtain ⟨rest, rfl⟩ := h
  rw [resolveFrom_append, hnone, bind_none]

/-- The first parts of a path end in what is behind, or reach into what is ahead. -/
theorem prefix_append_cases {front resolved pending : List Name} (h : front <+: resolved ++ pending) :
    front <+: resolved ∨ ∃ component rest, pending = component :: rest ∧ resolved ++ [component] <+: front := by
  rcases prefix_or_prefix_of_prefix h (prefix_append resolved pending) with hback | ⟨more, rfl⟩
  · exact .inl hback
  cases more with
  | nil =>
    rw [append_nil]
    exact .inl prefix_rfl
  | cons component more =>
    obtain ⟨rest, rfl⟩ := (prefix_append_right_inj resolved).mp h
    exact .inr ⟨component, more ++ rest, rfl, more, (append_cons ..).symm⟩

/-- The result of `resolve_links` is clean unless the loop stops before a `..`. -/
theorem clean_resolveLinks {v : LinkTree} {path r : Path} (h : resolveLinks v path true = .ok r) :
    Clean v r ↔ Straight v nativeWalk true path := by
  obtain ⟨parts, hwalk, rfl⟩ := exists_of_map h
  have hparts := walk_parts hwalk
  constructor
  · exact fun hclean => (straight_iff hwalk).mpr ((noDots_render hparts).mp hclean.noDots)
  · intro hstraight
    have hplain := walk_plain hwalk hstraight
    refine ⟨(noDots_render hparts).mpr ((straight_iff hwalk).mp hstraight), ?_⟩
    rw [noLinks_render v hplain]
    intro front hfront id hid
    obtain ⟨hops, resolved, pending, hv, hs, rfl⟩ := stop_of_walk hwalk
    have hlocate : ∀ names, names <+: resolved ++ pending → v.resolve 0 (render names) = v.resolveFrom 0 names :=
      fun names hnames => resolve_render _ (fun n hn => hplain n (hnames.subset hn)) 0
    rcases prefix_append_cases hfront with hback | ⟨component, rest, rfl, hahead⟩
    · by_cases hne : front = []
      · rw [hne] at hid
        rw [← some.inj hid]
        exact v.linkTarget_root
      · exact visits_noLink hv hback hne ((hlocate front hfront).trans hid)
    · -- what lies beyond a part that is not there is not there
      have hnone := (hlocate _ (hahead.trans hfront)).symm.trans hs.2
      rw [resolveFrom_none_of_front hahead hnone] at hid
      cases hid

/-! ### The parts of a Linux program's path -/

section

variable (h : front <+: parts)

include h

theorem sharedFile_of_front (hshared : sharedFile front = true) :
    sharedFile parts = true := by
  obtain ⟨rest, rfl⟩ := h
  cases front with
  | nil => cases hshared
  | cons n front => exact hshared

theorem sharedFile_front (hne : front ≠ [])
    (hshared : sharedFile parts = true) : sharedFile front = true := by
  obtain ⟨rest, rfl⟩ := h
  cases front with
  | nil => exact absurd rfl hne
  | cons n front => exact hshared

theorem shared_of_front (hshared : Shared front) : Shared parts := by
  obtain ⟨rest, rfl⟩ := h
  cases front with
  | nil => exact hshared.elim
  | cons n front => exact hshared.imp_right fun ⟨hetc, hfile⟩ => ⟨hetc, sharedFile_of_front (prefix_append ..) hfile⟩

/-- The one name that is shared only for what follows it. -/
theorem eq_etc_of_not_shared (hne : front ≠ [])
    (hshared : Shared parts) (hnot : ¬ Shared front) : front = [etcName] := by
  obtain ⟨rest, rfl⟩ := h
  cases front with
  | nil => exact absurd rfl hne
  | cons n front =>
    rcases hshared with hdir | ⟨rfl, hfile⟩
    · exact absurd (.inl hdir) hnot
    · by_cases hfront : front = []
      · rw [hfront]
      · exact absurd (.inr ⟨rfl, sharedFile_front (prefix_append ..) hfront hfile⟩) hnot

/-- What a longer path of the program is, a longer path of the system is too, but for `/etc`. -/
theorem nativeParts_front (hne : front ≠ []) :
    nativeParts front <+: nativeParts parts ∨ front = [etcName] ∧ nativeParts parts = parts := by
  obtain ⟨n, front, rfl⟩ := exists_cons_of_ne_nil hne
  by_cases hhamix : n = hamixView
  · obtain ⟨rest, rfl⟩ := h
    rw [hhamix, cons_append, nativeParts_hamix, nativeParts_hamix]
    exact .inl (prefix_append ..)
  have hhead : parts.head? = some n := by
    obtain ⟨rest, rfl⟩ := h
    rfl
  by_cases hparts : Shared parts
  · rw [nativeParts_shared hparts]
    by_cases hfront : Shared (n :: front)
    · rw [nativeParts_shared hfront]
      exact .inl h
    · exact .inr ⟨eq_etc_of_not_shared h hne hparts hfront, rfl⟩
  · have hown : ¬ Elsewhere parts := fun helse =>
      helse.elim (fun heq => hhamix (some.inj (hhead.symm.trans heq))) hparts
    have hfront : ¬ Elsewhere (n :: front) := fun helse =>
      helse.elim (fun heq => hhamix (some.inj heq)) fun hshared => hparts (shared_of_front h hshared)
    rw [nativeParts_own hown, nativeParts_own hfront]
    exact .inl (cons_prefix_cons.mpr ⟨rfl, h⟩)

end

/-- The first parts of a path of the system are a path of the program, but for `/linux` and `/etc`. -/
theorem prefix_nativeParts (h : front <+: nativeParts parts) :
    front = [] ∨ front = [linuxName] ∨ front = [etcName] ∨
      ∃ names, names ≠ [] ∧ names <+: parts ∧ front = nativeParts names := by
  by_cases hempty : front = []
  · exact .inl hempty
  refine .inr ?_
  by_cases hhamix : parts.head? = some hamixView
  · obtain ⟨rest, rfl⟩ : ∃ rest, parts = hamixView :: rest := ⟨_, eq_cons_of_mem_head? hhamix⟩
    rw [nativeParts_hamix] at h
    exact .inr (.inr ⟨hamixView :: front, cons_ne_nil _ _, cons_prefix_cons.mpr ⟨rfl, h⟩,
      (nativeParts_hamix front).symm⟩)
  by_cases hparts : Shared parts
  · rw [nativeParts_shared hparts] at h
    by_cases hfront : Shared front
    · exact .inr (.inr ⟨front, hempty, h, (nativeParts_shared hfront).symm⟩)
    · exact .inr (.inl (eq_etc_of_not_shared h hempty hparts hfront))
  · rw [nativeParts_own fun helse => helse.elim hhamix hparts] at h
    obtain ⟨names, rfl, hnames⟩ := (prefix_cons_iff.mp h).resolve_left hempty
    by_cases hne : names = []
    · exact .inl (by rw [hne])
    refine .inr (.inr ⟨names, hne, hnames, (nativeParts_own fun helse => ?_).symm⟩)
    rcases helse with hhead | hshared
    · obtain ⟨rest, rfl⟩ := hnames
      obtain ⟨n, names, rfl⟩ := exists_cons_of_ne_nil hne
      exact hhamix hhead
    · exact hparts (shared_of_front hnames hshared)

theorem nativeParts_parts {parts : List Name} (h : ∀ n ∈ parts, Plain n ∨ n = ['.', '.']) :
    ∀ n ∈ nativeParts parts, Plain n ∨ n = ['.', '.'] := by
  cases parts with
  | nil => exact forall_mem_singleton.mpr (.inl plain_linux)
  | cons first rest =>
    rw [nativeParts]
    split_ifs
    · exact fun n hn => h n (mem_cons_of_mem _ hn)
    · exact h
    · exact forall_mem_cons.mpr ⟨.inl plain_linux, h⟩

theorem dots_mem_nativeParts {parts : List Name} : ['.', '.'] ∈ nativeParts parts ↔ ['.', '.'] ∈ parts := by
  cases parts with
  | nil => decide
  | cons first rest =>
    rw [nativeParts]
    split_ifs with hhamix
    · rw [mem_cons, hhamix]
      exact (or_iff_right (by decide)).symm
    · exact .rfl
    · rw [mem_cons]
      exact or_iff_right (by decide)

/-! ### A Linux program's path -/

/-- A link on the way that was never looked up: at `/linux`, at `/etc`, or in `/etc` where there is no
`/linux/etc`. -/
def Overlooked (v : LinkTree) (resolved pending : List Name) : Prop :=
  ∃ front, front <+: nativeParts (resolved ++ pending) ∧
    (front = [linuxName] ∨ front = [etcName] ∨
      resolved = [] ∧ pending.head? = some etcName ∧ front.head? = some etcName) ∧
    ∃ id, v.resolveFrom 0 front = some id ∧ v.linkTarget id ≠ none

/-- Where the loop stops, no link was overlooked. -/
def Probed (v : LinkTree) (path : Path) : Prop :=
  ∀ hops resolved pending, Visits v linuxWalk true path hops resolved pending →
    Stops v linuxWalk resolved pending → ¬ Overlooked v resolved pending

theorem noDots_nativeOf {v : LinkTree} {followLast : Bool} {path : Path} {parts : List Name}
    (h : walk v linuxWalk followLast maxLinkHops [] (splitComponents path) = .ok parts) :
    NoDots (nativeOf parts) ↔ Straight v linuxWalk followLast path := by
  rw [nativeOf_eq, noDots_render (nativeParts_parts (walk_parts h)), dots_mem_nativeParts]
  exact (straight_iff h).symm

/-- The result of `resolve_links_linux` is clean unless the loop stops before a `..` or has overlooked a
link. -/
theorem clean_resolveLinksLinux {v : LinkTree} {path r : Path} (h : resolveLinksLinux v path true = .ok r) :
    Clean v r ↔ Straight v linuxWalk true path ∧ Probed v path := by
  obtain ⟨parts, hwalk, rfl⟩ := exists_of_map h
  have hdots := noDots_nativeOf hwalk
  have hlinks : Straight v linuxWalk true path → (NoLinks v (nativeOf parts) ↔
      ∀ front, front <+: nativeParts parts → ∀ id, v.resolveFrom 0 front = some id → v.linkTarget id = none) := by
    intro hstraight
    rw [nativeOf_eq]
    exact noLinks_render v (plain_nativeParts (walk_plain hwalk hstraight))
  constructor
  · intro hclean
    have hstraight := hdots.mp hclean.noDots
    refine ⟨hstraight, ?_⟩
    rintro hops resolved pending hv hs ⟨front, hfront, -, id, hid, hlink⟩
    rw [← Except.ok.inj (hwalk.symm.trans (walk_of_stop hv hs))] at hfront
    exact hlink ((hlinks hstraight).mp hclean.noLinks front hfront id hid)
  · rintro ⟨hstraight, hprobed⟩
    refine ⟨hdots.mpr hstraight, (hlinks hstraight).mpr fun front hfront id hid => ?_⟩
    have hplain := walk_plain hwalk hstraight
    obtain ⟨hops, resolved, pending, hv, hs, rfl⟩ := stop_of_walk hwalk
    by_contra hlink
    have hseen : ¬ (front = [linuxName] ∨ front = [etcName] ∨
        resolved = [] ∧ pending.head? = some etcName ∧ front.head? = some etcName) :=
      fun hor => hprobed hops resolved pending hv hs ⟨front, hfront, hor, id, hid, hlink⟩
    rcases prefix_nativeParts hfront with rfl | hlinux | hetc | ⟨names, hne, hnames, rfl⟩
    · rw [← some.inj hid] at hlink
      exact hlink v.linkTarget_root
    · exact hseen (.inl hlinux)
    · exact hseen (.inr (.inl hetc))
    have hlocate : ∀ q, q <+: resolved ++ pending → v.resolve 0 (nativeOf q) = v.resolveFrom 0 (nativeParts q) := by
      intro q hq
      rw [nativeOf_eq]
      exact resolve_render _ (plain_nativeParts fun n hn => hplain n (hq.subset hn)) 0
    rcases prefix_append_cases hnames with hback | ⟨component, rest, rfl, hahead⟩
    · exact hlink (visits_noLink hv hback hne ((hlocate names hnames).trans hid))
    have hnone := (hlocate _ (hahead.trans hnames)).symm.trans hs.2
    rcases nativeParts_front hahead (append_ne_nil_of_right_ne_nil resolved (cons_ne_nil _ _)) with
      hpre | ⟨hetc, hown⟩
    · rw [resolveFrom_none_of_front hpre hnone] at hid
      cases hid
    · -- there is no `/linux/etc`, and the rest is in `/etc`
      obtain ⟨rfl, hcomponent⟩ : resolved = [] ∧ component = etcName := by
        cases resolved with
        | nil => exact ⟨rfl, head_eq_of_cons_eq hetc⟩
        | cons n resolved => simp at hetc
      refine hseen (.inr (.inr ⟨rfl, congrArg some hcomponent, ?_⟩))
      obtain ⟨more, rfl⟩ := hahead
      rw [hown, hcomponent]
      rfl

/-! ### The text alone -/

theorem foldl_pushPart_filter (names parts : List Name) :
    names.foldl pushPart parts = (names.filter fun c => c ≠ [] ∧ c ≠ ['.']).foldl pushComponent parts := by
  induction names generalizing parts with
  | nil => rfl
  | cons c names ih =>
    rw [foldl_cons, pushPart]
    by_cases hskip : c = [] ∨ c = ['.']
    · rw [if_pos hskip, filter_cons_of_neg (by simpa [or_iff_not_imp_left] using hskip)]
      exact ih parts
    · rw [if_neg hskip, filter_cons_of_pos (by simpa using hskip), foldl_cons]
      exact ih _

theorem absolute_root (path : Path) : absolute ['/'] path = render (viewOf path) := by
  have hstart : startParts ['/'] path = [] := by
    unfold startParts
    split_ifs
    · rfl
    · decide
  unfold absolute viewOf splitComponents
  rw [hstart, foldl_pushPart_filter]

theorem noDots_absolute (path : Path) : NoDots (absolute ['/'] path) := by
  rw [absolute_root, noDots_render fun n hn => .inl (plain_viewOf path n hn)]
  exact fun hmem => (plain_viewOf path _ hmem).ne_dots rfl

theorem noDots_toNative (path : Path) : NoDots (toNative path) := by
  have hplain := plain_nativeParts (plain_viewOf path)
  unfold toNative
  rw [nativeOf_eq, noDots_render fun n hn => .inl (hplain n hn)]
  exact fun hmem => (hplain _ hmem).ne_dots rfl

/-- What `followLinux` gives is a path of the program's view unless the loop stops before a `..`. -/
theorem followLinux_view (v : LinkTree) (path : Path) (followLast : Bool) :
    (∃ q, followLinux (some v) path followLast = toNative q) ↔ Straight v linuxWalk followLast path := by
  cases hwalk : walk v linuxWalk followLast maxLinkHops [] (splitComponents path) with
  | error e =>
    have hresult : resolveLinksLinux v path followLast = .error e := congrArg (Except.map nativeOf) hwalk
    have hfollow : followLinux (some v) path followLast = toNative path := by simp only [followLinux, hresult]
    refine iff_of_true ⟨path, hfollow⟩ ?_
    have hsettles : Settles v linuxWalk followLast path := settles
    rcases hsettles with herr | ⟨hops, resolved, pending, hv, hs⟩
    · exact straight_of_error herr
    · rw [walk_of_stop hv hs] at hwalk
      cases hwalk
  | ok parts =>
    have hresult : resolveLinksLinux v path followLast = .ok (nativeOf parts) := congrArg (Except.map nativeOf) hwalk
    have hfollow : followLinux (some v) path followLast = nativeOf parts := by simp only [followLinux, hresult]
    rw [hfollow]
    constructor
    · rintro ⟨q, hq⟩
      have hdots := noDots_toNative q
      rw [← hq] at hdots
      exact (noDots_nativeOf hwalk).mp hdots
    · intro hstraight
      refine ⟨render parts, ?_⟩
      rw [toNative_render (walk_plain hwalk hstraight), ← nativeOf_eq]

/-- Both loops end.  Their results are clean, and without links they are the lexical ones, exactly where the
loop does not stop before a `..` and, for a Linux program, has overlooked no link; and what a Linux program
opens is a path of its view exactly where the loop does not stop before a `..`. -/
theorem resolve_links_iff (v : LinkTree) (p : Path) :
    (∀ followLast, ((∃ r, resolveLinks v p followLast = .ok r) ∨ resolveLinks v p followLast = .error tooManyLinks) ∧
      ((∃ r, resolveLinksLinux v p followLast = .ok r) ∨ resolveLinksLinux v p followLast = .error tooManyLinks)) ∧
    (∀ r, resolveLinks v p true = .ok r → (Clean v r ↔ Straight v nativeWalk true p)) ∧
    (∀ r, resolveLinksLinux v p true = .ok r → (Clean v r ↔ Straight v linuxWalk true p ∧ Probed v p)) ∧
    ((∀ id, v.linkTarget id = none) → ∀ followLast,
      (resolveLinks v p followLast = .ok (absolute ['/'] p) ↔ Straight v nativeWalk followLast p) ∧
      (resolveLinksLinux v p followLast = .ok (toNative p) ↔ Straight v linuxWalk followLast p)) ∧
    ∀ followLast, (∃ q, followLinux (some v) p followLast = toNative q) ↔ Straight v linuxWalk followLast p := by
  have hends : ∀ (w : Walk) (f : List Name → Path) followLast,
      (∃ r, (walk v w followLast maxLinkHops [] (splitComponents p)).map f = .ok r) ∨
        (walk v w followLast maxLinkHops [] (splitComponents p)).map f = .error tooManyLinks := by
    intro w f followLast
    have hsettles : Settles v w followLast p := settles
    rcases hsettles with herr | ⟨hops, resolved, pending, hv, hs⟩
    · rw [herr]
      exact .inr rfl
    · rw [walk_of_stop hv hs]
      exact .inl ⟨_, rfl⟩
  refine ⟨fun followLast => ⟨hends _ _ followLast, hends _ _ followLast⟩, fun r => clean_resolveLinks,
    fun r => clean_resolveLinksLinux, fun hno followLast => ⟨?_, ?_⟩, followLinux_view v p⟩
  · obtain ⟨parts, hwalk, hview⟩ : ∃ parts, walk v nativeWalk followLast maxLinkHops [] (splitComponents p) = .ok parts ∧
        (Straight v nativeWalk followLast p → parts = viewOf p) := walk_viewOf hno
    have hresult : resolveLinks v p followLast = .ok (render parts) := congrArg (Except.map render) hwalk
    rw [hresult]
    constructor
    · intro heq
      have hdots := noDots_absolute p
      rw [← Except.ok.inj heq, noDots_render (walk_parts hwalk)] at hdots
      exact (straight_iff hwalk).mpr hdots
    · intro hstraight
      rw [hview hstraight, absolute_root]
  · obtain ⟨parts, hwalk, hview⟩ : ∃ parts, walk v linuxWalk followLast maxLinkHops [] (splitComponents p) = .ok parts ∧
        (Straight v linuxWalk followLast p → parts = viewOf p) := walk_viewOf hno
    have hresult : resolveLinksLinux v p followLast = .ok (nativeOf parts) := congrArg (Except.map nativeOf) hwalk
    rw [hresult]
    constructor
    · intro heq
      have hdots := noDots_toNative p
      rw [← Except.ok.inj heq] at hdots
      exact (noDots_nativeOf hwalk).mp hdots
    · intro hstraight
      rw [hview hstraight]
      rfl

/-- `/linux`, `/etc` and `/x`, with `/etc/passwd` and `/etc/localtime`; the last has the bytes given. -/
def sample (localtime : List UInt8) : LinkTree where
  node := fun id =>
    let kind : Kind :=
      match id with
      | 0 => .dir [(linuxName, 1), (etcName, 2), (['x'], 3)]
      | 1 => .dir []
      | 2 => .dir [("passwd".toList, 4), ("localtime".toList, 5)]
      | _ => .file
    ⟨kind, if id = 4 ∨ id = 5 then 2 else 0, 0, 0, 0, 0, 0, 0⟩
  count := 6
  tracking := false
  removed := []
  body := fun id => ⟨if id = 5 then localtime else [], 0, true, 0⟩
  load := fun _ _ => []
  root_dir := rfl

def sampleLink : List UInt8 := linkMagic ++ [0x2f, 0x78]

theorem sample_noLink (id : Nat) : (sample []).linkTarget id = none := by
  have hlen : ((sample []).body id).len = 0 := congrArg length (ite_self (c := id = 5) [])
  unfold LinkTree.linkTarget
  split
  · exact if_pos (.inl (by rw [hlen]; exact Nat.zero_le _))
  · rfl

theorem resolve_links_iff_sample :
    (Clean (sample sampleLink) "/x".toList ↔ Straight (sample sampleLink) nativeWalk true "/etc/localtime".toList) ∧
      (Clean (sample sampleLink) "/linux/x".toList ↔
        Straight (sample sampleLink) linuxWalk true "/hamix/etc/localtime".toList ∧
          Probed (sample sampleLink) "/hamix/etc/localtime".toList) ∧
      (resolveLinks (sample []) "/etc/../x".toList true = .ok (absolute ['/'] "/etc/../x".toList) ↔
        Straight (sample []) nativeWalk true "/etc/../x".toList) :=
  ⟨(resolve_links_iff (sample sampleLink) "/etc/localtime".toList).2.1 _ (by decide +kernel),
    (resolve_links_iff (sample sampleLink) "/hamix/etc/localtime".toList).2.2.1 _ (by decide +kernel),
    ((resolve_links_iff (sample []) "/etc/../x".toList).2.2.2.1 sample_noLink true).1⟩

/-- With no link in the tree, `/nope/../x` and `/etc/passwd/../../x` keep their `..`, and the second leads a
Linux program to `/x` and not to its own `/x`; and the link `/etc/localtime` is handed out as it is. -/
theorem resolve_links_unclean :
    (∀ id, (sample []).linkTarget id = none) ∧
      resolveLinks (sample []) "/nope/../x".toList true = .ok "/nope/../x".toList ∧
      ¬ NoDots "/nope/../x".toList ∧ absolute ['/'] "/nope/../x".toList = "/x".toList ∧
      resolveLinksLinux (sample []) "/etc/passwd/../../x".toList true = .ok "/etc/passwd/../../x".toList ∧
      toNative "/etc/passwd/../../x".toList = "/linux/x".toList ∧
      (sample []).resolve 0 "/etc/passwd/../../x".toList = some 3 ∧ (sample []).resolve 0 "/linux/x".toList = none ∧
      resolveLinksLinux (sample sampleLink) "/etc/localtime".toList true = .ok "/etc/localtime".toList ∧
      ¬ NoLinks (sample sampleLink) "/etc/localtime".toList := by
  refine ⟨sample_noLink, by decide +kernel, by decide +kernel, by decide +kernel, by decide +kernel, by decide +kernel, by decide +kernel, by decide +kernel, by decide +kernel, ?_⟩
  intro h
  have hlink := h [[], etcName, "localtime".toList] (by decide +kernel) 5 (by decide +kernel)
  revert hlink
  decide +kernel

end HamixOS.Linux
