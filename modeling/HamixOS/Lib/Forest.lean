import Mathlib.Data.List.Perm.Lattice

namespace HamixOS.Lib

/-!
# Named links that form a forest

A directory tree without its directories' contents: `E i` are the links kept in node `i`, each with
a name and a node it leads to.  `Forest` says that the links of a node have different names, that
every live node is the end of exactly one link (the `loose` ones apart, which have none), and that
there are no cycles.
-/

section

variable {α ν κ : Type} (name : α → κ) (node : α → ν)

/-- Links with unique names and one link to every live node that is not loose. -/
structure Forest (live dir : ν → Prop) (E : ν → List α) (loose : ν → Prop) : Prop where
  names : ∀ i, dir i → ((E i).map name).Nodup
  target : ∀ i, dir i → ∀ x ∈ E i, live (node x) ∧ ¬ loose (node x)
  once : ∀ i, dir i → ((E i).map node).Nodup
  apart : ∀ i j, dir i → dir j → i ≠ j → ∀ x ∈ E i, ∀ y ∈ E j, node x ≠ node y
  named : ∀ j, live j → ¬ loose j → ∃ i, dir i ∧ ∃ x ∈ E i, node x = j
  ranked : ∃ r : ν → Nat, ∀ i, dir i → ∀ x ∈ E i, r i < r (node x)

end

end HamixOS.Lib
