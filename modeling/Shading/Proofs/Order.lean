import Mathlib.Data.List.Induction

/-!
# Lists in order

Functions and structs are declared one after another, and what one uses stands before it. The lemmas say
how this is kept when a list grows at its end, is filtered, or is put behind another one.
-/

namespace Shading

open List

/-- Each element of a list stands in the relation to those before it. -/
def InOrder {α : Type} (P : List α → α → Prop) (l : List α) : Prop :=
  ∀ before a after, l = before ++ a :: after → P before a

namespace InOrder

variable {α : Type} {P Q : List α → α → Prop} {l : List α} {a : α}

theorem nil : InOrder P [] := by
  intro before a after h
  simp at h

theorem concat (hl : InOrder P l) (ha : P l a) : InOrder P (l ++ [a]) := by
  intro before b after h
  rcases append_eq_append_iff.1 h with ⟨mid, hbefore, hmid⟩ | ⟨mid, hl', hmid⟩
  · cases mid with
    | nil =>
      obtain ⟨rfl, -⟩ := List.cons.inj hmid
      rw [hbefore, append_nil]
      exact ha
    | cons c mid => simp at hmid
  · cases mid with
    | nil =>
      obtain ⟨rfl, -⟩ := List.cons.inj hmid
      rw [append_nil] at hl'
      exact hl' ▸ ha
    | cons c mid =>
      obtain ⟨rfl, -⟩ := List.cons.inj hmid
      exact hl before b mid hl'

theorem mono (h : InOrder P l) (hPQ : ∀ before a, P before a → Q before a) : InOrder Q l :=
  fun before a after hl => hPQ before a (h before a after hl)

theorem of_concat (h : InOrder P (l ++ [a])) : InOrder P l ∧ P l a := by
  refine ⟨fun before b after hl => h before b (after ++ [a]) (by simp [hl]), ?_⟩
  exact h l a [] rfl

/-- An element has what follows from the elements before it having it. -/
theorem forall_mem {R : α → Prop} (h : InOrder P l)
    (step : ∀ before a, a ∈ l → P before a → (∀ b ∈ before, R b) → R a) : ∀ a ∈ l, R a := by
  induction l using List.reverseRecOn with
  | nil => exact nofun
  | append_singleton l b ih =>
    obtain ⟨hl, hb⟩ := h.of_concat
    have hall := ih hl fun before a ha => step before a (mem_append_left _ ha)
    intro a ha
    rcases mem_append.1 ha with ha | ha
    · exact hall a ha
    · rw [mem_singleton.1 ha]
      exact step l b (by simp) hb hall

theorem pairwise {R : α → α → Prop} (h : InOrder P l)
    (hPR : ∀ before a, P before a → ∀ b ∈ before, R b a) : l.Pairwise R := by
  induction l using List.reverseRecOn with
  | nil => exact .nil
  | append_singleton l a ih =>
    obtain ⟨hl, ha⟩ := h.of_concat
    refine pairwise_append.2 ⟨ih hl, pairwise_singleton _ _, ?_⟩
    intro b hb c hc
    rw [mem_singleton.1 hc]
    exact hPR l a ha b hb

/-- In a list behind another one, both count as standing before. -/
theorem append {l' : List α} (hl : InOrder P l) (hl' : InOrder (fun before a => P (l ++ before) a) l') :
    InOrder P (l ++ l') := by
  induction l' using List.reverseRecOn with
  | nil => simpa using hl
  | append_singleton l' a ih =>
    obtain ⟨hrest, ha⟩ := hl'.of_concat
    rw [← append_assoc]
    exact (ih hrest).concat ha

theorem map {β : Type} {f : β → α} {k : List β} (h : InOrder (fun before b => P (before.map f) (f b)) k) :
    InOrder P (k.map f) := by
  induction k using List.reverseRecOn with
  | nil => exact nil
  | append_singleton k b ih =>
    obtain ⟨hk, hb⟩ := h.of_concat
    rw [map_append]
    exact (ih hk).concat hb

/-- What is left of a list has before it what is left of those before it. -/
theorem filter {p : α → Bool} (h : InOrder P l)
    (hPQ : ∀ before a, a ∈ l → P before a → p a = true → Q (before.filter p) a) : InOrder Q (l.filter p) := by
  induction l using List.reverseRecOn with
  | nil => exact nil
  | append_singleton l a ih =>
    obtain ⟨hl, ha⟩ := h.of_concat
    have hrest := ih hl fun before b hb => hPQ before b (mem_append_left _ hb)
    rw [filter_append]
    cases hp : p a with
    | true =>
      rw [filter_cons_of_pos hp, filter_nil]
      exact hrest.concat (hPQ l a (by simp) ha hp)
    | false => simpa [hp] using hrest

theorem of_forall (h : ∀ a ∈ l, ∀ before, P before a) : InOrder P l := by
  intro before a after hl
  exact h a (by simp [hl]) before

end InOrder

end Shading
