import Shading.Proofs.References

/-!
# What checking keeps

A relation between expansions that is reflexive and transitive and does not look at events is kept by every step as soon as
it is kept by looking names up, so a fact about all runs needs a proof for the opening of a function and of a struct and
for nothing else.
-/

namespace Shading

open List

namespace Check

section Openings

variable {top : TopLevel} {vars : Scope Var}

/-- A relation that every run keeps, because the opening of a function and of a struct does. It may
depend on what is unfinished; what holds while more is unfinished must hold while less is. -/
structure OpenFrame (top : TopLevel) (vars : Scope Var) (R : Unfinished → Expansion → Expansion → Prop) :
    Prop where
  frame : ∀ u, Frame (R u)
  inFn : ∀ {u x s s'}, R (u.addFn x) s s' → R u s s'
  inStruct : ∀ {u x s s'}, R (u.addStruct x) s s' → R u s s'
  fn : ∀ {k u d f s s'}, d ∈ top.fns → s.fn? d.name = none → d.name ∉ u.fns →
    (∀ x span, Keeps (R (u.addFn d.name)) (globals top vars k (u.addFn d.name) x span)) →
    Gives (fn (globals top vars k (u.addFn d.name)) d) s f s' → R u s (s'.addFn f)
  struct : ∀ {k u d f s s'}, d ∈ top.structs → s.struct? d.name = none → d.name ∉ u.structs →
    (∀ x span, Keeps (R (u.addStruct d.name)) (globals top vars k (u.addStruct d.name) x span)) →
    Gives (struct (globals top vars k (u.addStruct d.name)) d) s f s' → R u s (s'.addStruct f)

variable {R : Unfinished → Expansion → Expansion → Prop} (hR : OpenFrame top vars R)
include hR

theorem keeps_openFn {k : Nat} (hk : ∀ u x span, Keeps (R u) (globals top vars k u x span))
    (u : Unfinished) {d : FnDecl} (hd : d ∈ top.fns) (span : Span) :
    Keeps (R u) (openFn (globals top vars k) u d span) := by
  intro s
  have hF := hR.frame u
  simp only [openFn, outcome_bind, outcome_get]
  cases hf : s.fn? d.name with
  | some f => exact hF.refl s
  | none =>
    dsimp only
    split
    · exact hF.refl s
    · rename_i hnew
      have hfn := keeps_fn (hR.frame _) (hk (u.addFn d.name)) d s
      rw [outcome_bind]
      rcases ho : (fn (globals top vars k (u.addFn d.name)) d).outcome s with ⟨r, s₁⟩
      rw [ho] at hfn
      cases r with
      | error e => exact hR.inFn hfn
      | ok f =>
        have hopened := hR.fn hd hf (by simpa using hnew) (hk _) ho
        exact hF.trans hopened (hF.note _ _)

theorem keeps_openStruct {k : Nat} (hk : ∀ u x span, Keeps (R u) (globals top vars k u x span))
    (u : Unfinished) {d : StructDecl} (hd : d ∈ top.structs) (span : Span) :
    Keeps (R u) (openStruct (globals top vars k) u d span) := by
  intro s
  have hF := hR.frame u
  simp only [openStruct, outcome_bind, outcome_get]
  cases hf : s.struct? d.name with
  | some f => exact hF.refl s
  | none =>
    dsimp only
    split
    · exact hF.refl s
    · rename_i hnew
      have hstruct := keeps_struct (hR.frame _) (hk (u.addStruct d.name)) d s
      rw [outcome_bind]
      rcases ho : (struct (globals top vars k (u.addStruct d.name)) d).outcome s with ⟨r, s₁⟩
      rw [ho] at hstruct
      cases r with
      | error e => exact hR.inStruct hstruct
      | ok f =>
        have hopened := hR.struct hd hf (by simpa using hnew) (hk _) ho
        exact hF.trans hopened (hF.note _ _)

/-- Looking a top-level name up keeps what openings keep, however many of them are unfinished. -/
theorem keeps_globals (n : Nat) (u : Unfinished) (x : Ident) (span : Span) :
    Keeps (R u) (globals top vars n u x span) := by
  induction n generalizing u x span with
  | zero => exact keeps_pure (hR.frame u) _
  | succ k ih =>
    simp only [globals, resolve]
    split
    · exact keeps_pure (hR.frame u) _
    · rename_i hd
      have hmem := mem_of_find?_eq_some hd
      exact keeps_bind (hR.frame u) (keeps_openFn hR ih u hmem span) fun f => keeps_pure (hR.frame u) _
    · rename_i hd
      have hmem := mem_of_find?_eq_some hd
      exact keeps_bind (hR.frame u) (keeps_openStruct hR ih u hmem span) fun f => keeps_pure (hR.frame u) _
    · exact keeps_pure (hR.frame u) _

end Openings

/-- The later expansion has all that the earlier one has, and behind it functions and structs that were
not unfinished. -/
structure Grows (u : Unfinished) (s s' : Expansion) : Prop where
  fns : ∃ new, s'.fns = s.fns ++ new ∧ ∀ f ∈ new, f.name ∉ u.fns
  structs : ∃ new, s'.structs = s.structs ++ new ∧ ∀ d ∈ new, d.name ∉ u.structs

section Growth

variable {u : Unfinished} {s s' : Expansion}

theorem frame_grows (u : Unfinished) : Frame (Grows u) where
  refl s := ⟨⟨[], by simp⟩, ⟨[], by simp⟩⟩
  trans := by
    rintro s₁ s₂ s₃ ⟨⟨fs, hfs, hfnew⟩, ss, hss, hsnew⟩ ⟨⟨fs', hfs', hfnew'⟩, ss', hss', hsnew'⟩
    refine ⟨⟨fs ++ fs', by rw [hfs', hfs, append_assoc], ?_⟩, ss ++ ss', by rw [hss', hss, append_assoc], ?_⟩
    · intro f hf
      exact (mem_append.1 hf).elim (hfnew f) (hfnew' f)
    · intro d hd
      exact (mem_append.1 hd).elim (hsnew d) (hsnew' d)
  note s e := ⟨⟨[], by simp [Expansion.note]⟩, ⟨[], by simp [Expansion.note]⟩⟩

theorem Grows.inFn {x : Ident} (h : Grows (u.addFn x) s s') : Grows u s s' := by
  obtain ⟨⟨fs, hfs, hnew⟩, hstructs⟩ := h
  refine ⟨⟨fs, hfs, fun f hf hmem => hnew f hf ?_⟩, hstructs⟩
  simp [Unfinished.addFn, hmem]

theorem Grows.inStruct {x : Ident} (h : Grows (u.addStruct x) s s') : Grows u s s' := by
  obtain ⟨hfns, ss, hss, hnew⟩ := h
  refine ⟨hfns, ss, hss, fun d hd hmem => hnew d hd ?_⟩
  simp [Unfinished.addStruct, hmem]

theorem Grows.addFn {f : FnDef} (h : Grows u s s') (hf : f.name ∉ u.fns) : Grows u s (s'.addFn f) := by
  obtain ⟨⟨fs, hfs, hnew⟩, hstructs⟩ := h
  refine ⟨⟨fs ++ [f], by simp [Expansion.addFn, hfs], ?_⟩, hstructs⟩
  intro g hg
  rcases mem_append.1 hg with hg | hg
  · exact hnew g hg
  · rwa [mem_singleton.1 hg]

theorem Grows.addStruct {d : StructDef} (h : Grows u s s') (hd : d.name ∉ u.structs) :
    Grows u s (s'.addStruct d) := by
  obtain ⟨hfns, ss, hss, hnew⟩ := h
  refine ⟨hfns, ss ++ [d], by simp [Expansion.addStruct, hss], ?_⟩
  intro g hg
  rcases mem_append.1 hg with hg | hg
  · exact hnew g hg
  · rwa [mem_singleton.1 hg]

theorem Grows.mem_fns {f : FnDef} (h : Grows u s s') (hf : f ∈ s.fns) : f ∈ s'.fns := by
  obtain ⟨⟨fs, hfs, -⟩, -⟩ := h
  simp [hfs, hf]

theorem Grows.mem_structs {d : StructDef} (h : Grows u s s') (hd : d ∈ s.structs) : d ∈ s'.structs := by
  obtain ⟨-, ss, hss, -⟩ := h
  simp [hss, hd]

end Growth

end Check

end Shading
