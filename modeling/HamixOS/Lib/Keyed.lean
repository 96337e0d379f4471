import Mathlib.Data.List.Perm.Lattice

namespace HamixOS.Lib

open List Function

/-!
# Lists that stand for finite maps

`Lists key val m l` says that the list `l`, in whatever order, holds one element for each key of
the map `m`, and that element carries the value of the key.
-/

section

variable {α κ ν : Type} (key : α → κ) (val : α → ν)

/-- The list holds the keys of the map, each once, with their values. -/
structure Lists (m : κ → Option ν) (l : List α) : Prop where
  nodup : (l.map key).Nodup
  mem : ∀ k v, m k = some v ↔ ∃ x ∈ l, key x = k ∧ val x = v

end

namespace Lists

variable {α κ ν : Type} {key : α → κ} {val : α → ν} {m : κ → Option ν} {l l' : List α}

theorem nil : Lists key val (fun _ => none) ([] : List α) := by
  refine ⟨nodup_nil, fun k v => ?_⟩
  constructor
  · intro h
    cases h
  · rintro ⟨x, hx, -⟩
    cases hx

/-- A key that the map lacks is not in the list. -/
theorem none_iff (h : Lists key val m l) (k : κ) : m k = none ↔ k ∉ l.map key := by
  constructor
  · intro hnone hk
    obtain ⟨x, hx, hkey⟩ := mem_map.mp hk
    have hsome := (h.mem k (val x)).mpr ⟨x, hx, hkey, rfl⟩
    rw [hnone] at hsome
    cases hsome
  · intro hk
    cases hm : m k with
    | none => rfl
    | some v =>
      obtain ⟨x, hx, hkey, -⟩ := (h.mem k v).mp hm
      exact absurd (mem_map.mpr ⟨x, hx, hkey⟩) hk

variable [DecidableEq κ]

/-- A new element for a new key. -/
theorem insert (h : Lists key val m l) {x : α} (hnew : m (key x) = none) (hp : l'.Perm (x :: l)) :
    Lists key val (update m (key x) (some (val x))) l' := by
  refine ⟨?_, fun k v => ?_⟩
  · rw [(hp.map key).nodup_iff, map_cons, nodup_cons]
    exact ⟨(h.none_iff _).mp hnew, h.nodup⟩
  · by_cases hk : k = key x
    · rw [hk, update_self]
      constructor
      · intro hv
        cases hv
        exact ⟨x, hp.mem_iff.mpr mem_cons_self, rfl, rfl⟩
      · rintro ⟨y, hy, hkey, rfl⟩
        rcases mem_cons.mp (hp.mem_iff.mp hy) with rfl | hmem
        · rfl
        · exact absurd (mem_map.mpr ⟨y, hmem, hkey⟩) ((h.none_iff _).mp hnew)
    · rw [update_of_ne hk, h.mem]
      constructor
      · rintro ⟨y, hy, hkey, hval⟩
        exact ⟨y, hp.mem_iff.mpr (mem_cons_of_mem x hy), hkey, hval⟩
      · rintro ⟨y, hy, hkey, hval⟩
        rcases mem_cons.mp (hp.mem_iff.mp hy) with rfl | hmem
        · exact absurd hkey.symm hk
        · exact ⟨y, hmem, hkey, hval⟩

/-- An element taken out with its key. -/
theorem erase (h : Lists key val m l) {y : α} (hp : l.Perm (y :: l')) :
    Lists key val (update m (key y) none) l' := by
  have hnodup := h.nodup
  rw [(hp.map key).nodup_iff, map_cons, nodup_cons] at hnodup
  refine ⟨hnodup.2, fun k v => ?_⟩
  by_cases hk : k = key y
  · rw [hk, update_self]
    constructor
    · intro hv
      cases hv
    · rintro ⟨x, hx, hkey, -⟩
      exact absurd (mem_map.mpr ⟨x, hx, hkey⟩) hnodup.1
  · rw [update_of_ne hk, h.mem]
    constructor
    · rintro ⟨x, hx, hkey, hval⟩
      rcases mem_cons.mp (hp.mem_iff.mp hx) with rfl | hmem
      · exact absurd hkey.symm hk
      · exact ⟨x, hmem, hkey, hval⟩
    · rintro ⟨x, hx, hkey, hval⟩
      exact ⟨x, hp.mem_iff.mpr (mem_cons_of_mem y hx), hkey, hval⟩

end Lists

end HamixOS.Lib
