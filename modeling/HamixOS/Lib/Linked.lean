import Mathlib.Data.List.Basic

namespace HamixOS.Lib

open List

/-!
# Doubly linked lists

`next` and `prev` give the links of a node.  `Linked next prev p l q` says that the nodes of `l` are linked both ways, in
their order, after `p` and before `q`; a list between null links is one with `p = 0` and `q = 0`.

* `Linked.append` — the two parts of a list and the links where they meet;
* `Linked.congr` — the links of the list's own nodes are all that matter;
* `Linked.push`, `Linked.remove` — a node is put in front, or taken out.
-/

variable {next next' prev prev' : Nat → Nat} {l l₁ l₂ : List Nat} {b p q : Nat}

def Linked (next prev : Nat → Nat) (p : Nat) : List Nat → Nat → Prop
  | [], _ => True
  | b :: l, q => prev b = p ∧ next b = l.headD q ∧ Linked next prev b l q

namespace Linked

theorem append : Linked next prev p (l₁ ++ l₂) q ↔
    Linked next prev p l₁ (l₂.headD q) ∧ Linked next prev (l₁.getLastD p) l₂ q := by
  induction l₁ generalizing p with
  | nil => exact ⟨fun h => ⟨trivial, h⟩, And.right⟩
  | cons b l₁ ih =>
    have hhead : (l₁ ++ l₂).headD q = l₁.headD (l₂.headD q) := by
      cases l₁ with
      | nil => rfl
      | cons c l => rfl
    rw [cons_append, getLastD_cons]
    change _ ∧ _ ∧ _ ↔ (_ ∧ _ ∧ _) ∧ _
    rw [ih, hhead, and_assoc, and_assoc]

section

variable (h : Linked next prev p l q)

include h

theorem congr (hsame : ∀ c ∈ l, next' c = next c ∧ prev' c = prev c) :
    Linked next' prev' p l q := by
  induction l generalizing p with
  | nil => trivial
  | cons b l ih =>
    obtain ⟨hprev, hnext, hl⟩ := h
    obtain ⟨hn, hp⟩ := hsame b (mem_cons_self ..)
    exact ⟨hp.trans hprev, hn.trans hnext, ih hl fun c hc => hsame c (mem_cons_of_mem _ hc)⟩

/-- The first node comes after another. -/
theorem set_first {p' : Nat} (hnext : ∀ c ∈ l, next' c = next c)
    (hfirst : ∀ c, l.head? = some c → prev' c = p') (hprev : ∀ c ∈ l.tail, prev' c = prev c) : Linked next' prev' p' l q := by
  cases l with
  | nil => trivial
  | cons b l =>
    obtain ⟨-, hn, hl⟩ := h
    exact ⟨hfirst b rfl, (hnext b (mem_cons_self ..)).trans hn,
      hl.congr fun c hc => ⟨hnext c (mem_cons_of_mem _ hc), hprev c hc⟩⟩

/-- The last node comes before another. -/
theorem set_last {q' : Nat} (hnodup : l.Nodup) (hprev : ∀ c ∈ l, prev' c = prev c)
    (hlast : l ≠ [] → next' (l.getLastD p) = q') (hnext : ∀ c ∈ l, c ≠ l.getLastD p → next' c = next c) :
    Linked next' prev' p l q' := by
  induction l generalizing p with
  | nil => trivial
  | cons b l ih =>
    obtain ⟨hp, hn, hl⟩ := h
    obtain ⟨hb, hnodup⟩ := nodup_cons.mp hnodup
    have hp' : prev' b = p := (hprev b (mem_cons_self ..)).trans hp
    rw [getLastD_cons] at hlast hnext
    cases l with
    | nil => exact ⟨hp', hlast (cons_ne_nil _ _), trivial⟩
    | cons c l =>
      have hmem : (c :: l).getLastD b ∈ c :: l := by
        rw [getLastD_eq_getLast?, getLast?_eq_some_getLast (cons_ne_nil _ _)]
        exact getLast_mem _
      refine ⟨hp', (hnext b (mem_cons_self ..) fun heq => hb (heq ▸ hmem)).trans hn, ?_⟩
      exact ih hl hnodup (fun d hd => hprev d (mem_cons_of_mem _ hd)) (fun _ => hlast (cons_ne_nil _ _))
        fun d hd => hnext d (mem_cons_of_mem _ hd)

end

theorem push (h : Linked next prev 0 l 0) (hnodup : l.Nodup) (hnext : next' b = l.headD 0) (hprev : prev' b = 0)
    (hfirst : ∀ c, l.head? = some c → prev' c = b)
    (hother : ∀ c ∈ l, next' c = next c ∧ (l.head? ≠ some c → prev' c = prev c)) : Linked next' prev' 0 (b :: l) 0 := by
  refine ⟨hprev, hnext, h.set_first (fun c hc => (hother c hc).1) hfirst fun c hc => ?_⟩
  cases l with
  | nil => cases hc
  | cons d l =>
    refine (hother c (mem_cons_of_mem _ hc)).2 fun heq => ?_
    obtain rfl := Option.some.inj heq
    exact (nodup_cons.mp hnodup).1 hc

theorem remove (h : Linked next prev 0 (l₁ ++ b :: l₂) 0) (hnodup : (l₁ ++ b :: l₂).Nodup)
    (hnext : l₁ ≠ [] → next' (l₁.getLastD 0) = l₂.headD 0) (hprev : ∀ c, l₂.head? = some c → prev' c = l₁.getLastD 0)
    (hother : ∀ c, c ∈ l₁ ∨ c ∈ l₂ → (l₁ ≠ [] → c ≠ l₁.getLastD 0) → next' c = next c)
    (hother' : ∀ c, c ∈ l₁ ∨ c ∈ l₂ → l₂.head? ≠ some c → prev' c = prev c) : Linked next' prev' 0 (l₁ ++ l₂) 0 := by
  obtain ⟨h₁, -, -, h₂⟩ := append.mp h
  obtain ⟨hnodup₁, hnodup₂, hapart⟩ := nodup_append.mp hnodup
  have hlast : l₁ ≠ [] → l₁.getLastD 0 ∈ l₁ := by
    intro hne
    rw [getLastD_eq_getLast?, getLast?_eq_some_getLast hne]
    exact getLast_mem _
  refine append.mpr ⟨h₁.set_last hnodup₁ (fun c hc => hother' c (.inl hc) fun heq => ?_) hnext
      fun c hc hne => hother c (.inl hc) fun _ => hne,
    h₂.set_first (fun c hc => hother c (.inr hc) fun hne heq => ?_) hprev
      fun c hc => hother' c (.inr (mem_of_mem_tail hc)) fun heq => ?_⟩
  · exact hapart c hc c (mem_cons_of_mem _ (mem_of_mem_head? heq)) rfl
  · exact hapart _ (hlast hne) c (mem_cons_of_mem _ hc) heq.symm
  · cases l₂ with
    | nil => cases hc
    | cons d l =>
      obtain rfl := Option.some.inj heq
      exact (nodup_cons.mp (nodup_cons.mp hnodup₂).2).1 hc

end Linked

end HamixOS.Lib
