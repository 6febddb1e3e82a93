import Mathlib.Data.List.Perm.Subperm
import Mathlib.Logic.Function.Iterate
import Shading.Proofs.Methods

/-!
# Checking comes to an end

Opening a function or struct leads to openings inside it. Each of them adds a name to the unfinished ones that
is declared and was not there before, so there are never more of them than declarations. The recursion may be
unrolled as often as the depth of a shader tells or more often, and whatever stands at its bottom is not reached:
checking a shader comes to the same.
-/

namespace Shading

open List

namespace Check

section Room

variable {top : TopLevel} {vars : Scope Var} {u : Unfinished}

/-- What is unfinished is declared, and nothing of it is unfinished twice. -/
structure Nests (top : TopLevel) (u : Unfinished) : Prop where
  fns : u.fns.Nodup ∧ u.fns ⊆ top.fns.map FnDecl.name
  structs : u.structs.Nodup ∧ u.structs ⊆ top.structs.map StructDecl.name

/-- How many declarations are not unfinished. -/
def room (top : TopLevel) (u : Unfinished) : Nat :=
  (top.fns.length - u.fns.length) + (top.structs.length - u.structs.length)

theorem nests_start (top : TopLevel) : Nests top {} := ⟨⟨nodup_nil, by simp⟩, ⟨nodup_nil, by simp⟩⟩

/-- One more distinct name of a list leaves room for one name less. -/
theorem nodup_concat {names l : List Ident} {x : Ident} (h : l.Nodup ∧ l ⊆ names) (hx : x ∈ names) (hnew : x ∉ l) :
    ((l ++ [x]).Nodup ∧ l ++ [x] ⊆ names) ∧ l.length < names.length := by
  have hnodup : (l ++ [x]).Nodup := nodup_append.2 ⟨h.1, by simp, by
    intro a ha b hb heq
    rw [mem_singleton] at hb
    exact hnew (hb ▸ heq ▸ ha)⟩
  have hsubset : l ++ [x] ⊆ names := append_subset.2 ⟨h.2, by simpa using hx⟩
  have hlength := (subperm_of_subset hnodup hsubset).length_le
  rw [length_append, length_singleton] at hlength
  exact ⟨⟨hnodup, hsubset⟩, hlength⟩

theorem Nests.addFn (h : Nests top u) {d : FnDecl} (hd : d ∈ top.fns) (hnew : d.name ∉ u.fns) :
    Nests top (u.addFn d.name) ∧ room top (u.addFn d.name) < room top u := by
  obtain ⟨hfns, hlength⟩ := nodup_concat h.fns (mem_map_of_mem hd) hnew
  rw [length_map] at hlength
  refine ⟨⟨hfns, h.structs⟩, ?_⟩
  simp only [room, Unfinished.addFn, length_append, length_singleton]
  omega

theorem Nests.addStruct (h : Nests top u) {d : StructDecl} (hd : d ∈ top.structs) (hnew : d.name ∉ u.structs) :
    Nests top (u.addStruct d.name) ∧ room top (u.addStruct d.name) < room top u := by
  obtain ⟨hstructs, hlength⟩ := nodup_concat h.structs (mem_map_of_mem hd) hnew
  rw [length_map] at hlength
  refine ⟨⟨h.fns, hstructs⟩, ?_⟩
  simp only [room, Unfinished.addStruct, length_append, length_singleton]
  omega

theorem refuse_bind {α β : Type} (cause : Cause) (span : Span) (k : α → Check β) :
    refuse cause span >>= k = refuse cause span := rfl

theorem openFn_congr {inside inside' : Unfinished → Globals} {d : FnDecl}
    (h : d.name ∉ u.fns → inside (u.addFn d.name) = inside' (u.addFn d.name)) (span : Span) :
    openFn inside u d span = openFn inside' u d span := by
  unfold openFn
  by_cases hmem : d.name ∈ u.fns
  · simp only [contains_iff_mem.2 hmem, if_true, refuse_bind]
  · rw [h hmem]

theorem openStruct_congr {inside inside' : Unfinished → Globals} {d : StructDecl}
    (h : d.name ∉ u.structs → inside (u.addStruct d.name) = inside' (u.addStruct d.name)) (span : Span) :
    openStruct inside u d span = openStruct inside' u d span := by
  unfold openStruct
  by_cases hmem : d.name ∈ u.structs
  · simp only [contains_iff_mem.2 hmem, if_true, refuse_bind]
  · rw [h hmem]

/-- Looking a name up needs the look-ups inside a further opening only. -/
theorem resolve_congr {inside inside' : Unfinished → Globals}
    (hfn : ∀ d ∈ top.fns, d.name ∉ u.fns → inside (u.addFn d.name) = inside' (u.addFn d.name))
    (hstruct : ∀ d ∈ top.structs, d.name ∉ u.structs → inside (u.addStruct d.name) = inside' (u.addStruct d.name)) :
    resolve top vars inside u = resolve top vars inside' u := by
  funext x span
  unfold resolve
  split
  · rfl
  · rename_i hd
    rw [openFn_congr (hfn _ (mem_of_find?_eq_some hd))]
  · rename_i hd
    rw [openStruct_congr (hstruct _ (mem_of_find?_eq_some hd))]
  · rfl

/-- With enough turns it does not matter how many there are, nor what stands at the bottom. -/
theorem iterate_resolve_eq {n n' : Nat} {bottom bottom' : Unfinished → Globals} (hu : Nests top u)
    (hn : room top u < n) (hn' : room top u < n') :
    (resolve top vars)^[n] bottom u = (resolve top vars)^[n'] bottom' u := by
  induction n generalizing n' u with
  | zero => omega
  | succ k ih =>
    obtain ⟨k', rfl⟩ : ∃ k', n' = k' + 1 := ⟨n' - 1, by omega⟩
    rw [Function.iterate_succ_apply', Function.iterate_succ_apply']
    refine resolve_congr (fun d hd hnew => ?_) fun d hd hnew => ?_
    · obtain ⟨hu', hroom⟩ := hu.addFn hd hnew
      exact ih hu' (by omega) (by omega)
    · obtain ⟨hu', hroom⟩ := hu.addStruct hd hnew
      exact ih hu' (by omega) (by omega)

theorem globals_eq_iterate (top : TopLevel) (vars : Scope Var) (n : Nat) :
    globals top vars n = (resolve top vars)^[n] fun _ _ _ => pure none := by
  induction n with
  | zero => rfl
  | succ k ih =>
    rw [Function.iterate_succ_apply', ← ih]
    rfl

end Room

/-- However often the look-ups are unrolled beyond the depth of the shader, and whatever they do at the bottom,
checking comes to the same. -/
theorem program_unrolled (builtins : Builtins) (shared : Bool) (decls : List Decl) {n : Nat}
    (hn : (TopLevel.ofDecls builtins decls).depth ≤ n) (bottom : Unfinished → Globals) :
    let top := TopLevel.ofDecls builtins decls
    let m := Method.ofLookup top fun vars => (resolve top vars)^[n] bottom
    program builtins shared decls = programBy m shared decls := by
  intro top m
  change top.depth ≤ n at hn
  have hroom : room top {} < top.depth := by simp [room, TopLevel.depth]
  have hnames : ∀ vars, globals top vars top.depth {} = (resolve top vars)^[n] bottom {} := by
    intro vars
    rw [globals_eq_iterate]
    exact iterate_resolve_eq (nests_start top) hroom (Nat.lt_of_lt_of_le hroom hn)
  have hentry : ∀ vars stage, entryBy top (fun d => openFn (globals top vars top.depth) {} d d.span) stage =
      entryBy top (fun d => openFn ((resolve top vars)^[n] bottom) {} d d.span) stage := by
    intro vars stage
    unfold entryBy
    cases hd : top.fn? stage.entryPoint with
    | none => rfl
    | some d =>
      have hopen : openFn (globals top vars top.depth) {} d d.span =
          openFn ((resolve top vars)^[n] bottom) {} d d.span := by
        refine openFn_congr (fun hnew => ?_) d.span
        obtain ⟨hu, hless⟩ := (nests_start top).addFn (mem_of_find?_eq_some hd) hnew
        rw [globals_eq_iterate]
        exact iterate_resolve_eq hu (by omega) (by omega)
      simp only [hopen]
  have hmethod : Method.usual top = m := by
    rw [Method.usual_eq]
    unfold Method.ofLookup
    simp only [hnames, funext fun vars => funext (hentry vars), m, Method.ofLookup]
  rw [← hmethod]
  exact program_eq_by builtins shared decls

end Check

end Shading
