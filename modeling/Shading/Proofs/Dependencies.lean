import Mathlib.Data.List.Nodup
import Mathlib.Logic.Relation
import Shading.Proofs.Programs

/-!
# Needs are exact

The needs that are collected for a function are read off the code that is left of it and of the functions
it reaches by calls: it needs a function if and only if it reaches it, and a block, the attributes or the
varyings if and only if they occur in its own code or in that of a function it reaches. The functions called
stand before the caller, so both directions are inductions along the order in which functions are finished.
-/

namespace Shading

open Relation

/-- There is a call of `g` in the code that is left of `f`. -/
def Calls (fns : List FnDef) (f g : Ident) : Prop := ∃ d ∈ fns, d.name = f ∧ ∃ deps, Use.fn g deps ∈ d.uses

/-- The use occurs in the code that is left of `f` or of a function that `f` reaches by calls. -/
def Reaches (fns : List FnDef) (f : Ident) (use : Use) : Prop :=
  ∃ d ∈ fns, ReflTransGen (Calls fns) f d.name ∧ use ∈ d.uses

/-- The needs stored for a function are exactly those of the code that is left: of its own, and of the
functions it reaches. -/
structure DepsExact (fns : List FnDef) (f : FnDef) : Prop where
  calls : ∀ g, f.deps.hasFn g = true ↔ TransGen (Calls fns) f.name g
  listed : ∀ g, f.deps.hasFn g = true → ∃ d ∈ fns, d.name = g
  blocks : ∀ b, f.deps.hasBlock b = true ↔ ∃ x, Reaches fns f.name (.uniformVar b x)
  attributes : f.deps.readsAttributes = true ↔ ∃ x, Reaches fns f.name (.attributeVar x)
  varyingsRead : f.deps.readsVaryings = true ↔ ∃ x, Reaches fns f.name (.varyingRead x)
  varyingsWritten : f.deps.writesVaryings = true ↔ ∃ x, Reaches fns f.name (.varyingWrite x)

/-- The use has the need by itself and not through the function that is called. -/
def Use.Directly : Use → Need → Prop
  | .fn f _, n => n = .fn f
  | use, n => use.Needs n

theorem Use.needs_iff (use : Use) (n : Need) :
    use.Needs n ↔ use.Directly n ∨ ∃ g deps, use = .fn g deps ∧ deps.Has n := by
  cases use <;> simp [Use.Needs, Use.Directly]

namespace Sound

variable {top : TopLevel} {vars : Scope Var} {s : Expansion}

theorem fn_unique (hs : Sound top vars s) {f g : FnDef} (hf : f ∈ s.fns) (hg : g ∈ s.fns)
    (hname : f.name = g.name) : f = g :=
  List.inj_on_of_nodup_map hs.nodup_fns hf hg hname

theorem covers (hs : Sound top vars s) {f : FnDef} (hf : f ∈ s.fns) : Covers f.deps f.uses := by
  obtain ⟨before, after, hsplit⟩ := List.append_of_mem hf
  exact (hs.fns before f after hsplit).2.1

/-- Whatever is needed occurs in code that is reached. -/
theorem reaches_of_has (hs : Sound top vars s) : ∀ f ∈ s.fns, ∀ n, f.deps.Has n →
    ∃ use, Reaches s.fns f.name use ∧ use.Directly n := by
  refine hs.fns.forall_mem ?_
  rintro before f hf ⟨-, hcovers, hknown⟩ ih n hn
  obtain ⟨use, huse, hneeds⟩ := (hcovers n).1 hn
  rcases (use.needs_iff n).1 hneeds with hdirect | ⟨g, deps, rfl, hdeps⟩
  · exact ⟨use, ⟨f, hf, .refl, huse⟩, hdirect⟩
  · obtain ⟨d, hd, rfl, rfl⟩ := hknown _ huse
    obtain ⟨use', ⟨e, he, hpath, huse'⟩, hdirect⟩ := ih d hd n hdeps
    exact ⟨use', ⟨e, he, .head ⟨f, hf, rfl, _, huse⟩ hpath, huse'⟩, hdirect⟩

/-- Whatever occurs in code that is reached is needed. -/
theorem has_of_reaches (hs : Sound top vars s) {f : FnDef} (hf : f ∈ s.fns) {use : Use} {n : Need}
    (h : Reaches s.fns f.name use) (hdirect : use.Directly n) : f.deps.Has n := by
  obtain ⟨d, hd, hpath, huse⟩ := h
  have hall : ∀ f ∈ s.fns, ∀ a, f.name = a → ReflTransGen (Calls s.fns) a d.name → f.deps.Has n := by
    intro f hf a hname hpath
    induction hpath using ReflTransGen.head_induction_on generalizing f with
    | refl =>
      obtain rfl := hs.fn_unique hf hd hname
      exact (hs.covers hf n).2 ⟨use, huse, (use.needs_iff n).2 (.inl hdirect)⟩
    | head hcall _ ih =>
      obtain ⟨f', hf', hname', deps, hmem⟩ := hcall
      obtain rfl := hs.fn_unique hf hf' (hname.trans hname'.symm)
      obtain ⟨g, hg, hgname, rfl⟩ := hs.of_mem_fns hf _ hmem
      exact (hs.covers hf n).2 ⟨_, hmem, .inr (ih g hg hgname)⟩
  exact hall f hf _ rfl hpath

theorem has_iff_reaches (hs : Sound top vars s) {f : FnDef} (hf : f ∈ s.fns) (n : Need) :
    f.deps.Has n ↔ ∃ use, Reaches s.fns f.name use ∧ use.Directly n :=
  ⟨hs.reaches_of_has f hf n, fun ⟨_, h, hdirect⟩ => hs.has_of_reaches hf h hdirect⟩

/-- A need that only one kind of variable has comes from a variable of that kind in code that is reached. -/
theorem has_iff_exists (hs : Sound top vars s) {f : FnDef} (hf : f ∈ s.fns) {n : Need} {kind : Ident → Use}
    (hkind : ∀ use : Use, use.Directly n ↔ ∃ x, use = kind x) :
    f.deps.Has n ↔ ∃ x, Reaches s.fns f.name (kind x) := by
  rw [hs.has_iff_reaches hf]
  constructor
  · rintro ⟨use, hreach, hdirect⟩
    obtain ⟨x, rfl⟩ := (hkind use).1 hdirect
    exact ⟨x, hreach⟩
  · rintro ⟨x, hreach⟩
    exact ⟨kind x, hreach, (hkind _).2 ⟨x, rfl⟩⟩

/-- The needs of every function of a sound expansion are exact. -/
theorem depsExact (hs : Sound top vars s) {f : FnDef} (hf : f ∈ s.fns) : DepsExact s.fns f where
  calls g := by
    refine (hs.has_iff_reaches hf (.fn g)).trans ?_
    constructor
    · rintro ⟨use, ⟨d, hd, hpath, huse⟩, hdirect⟩
      cases use <;> cases hdirect
      exact .tail' hpath ⟨d, hd, rfl, _, huse⟩
    · intro h
      obtain ⟨a, hpath, d, hd, rfl, deps, huse⟩ := TransGen.tail'_iff.1 h
      exact ⟨_, ⟨d, hd, hpath, huse⟩, rfl⟩
  listed g hg := by
    obtain ⟨use, ⟨d, hd, -, huse⟩, hdirect⟩ := (hs.has_iff_reaches hf (.fn g)).1 hg
    cases use <;> cases hdirect
    obtain ⟨e, he, hname, -⟩ := hs.of_mem_fns hd _ huse
    exact ⟨e, he, hname⟩
  blocks b := by
    refine hs.has_iff_exists (n := .block b) hf fun use => ?_
    cases use <;> simp [Use.Directly, Use.Needs, eq_comm]
  attributes := by
    refine hs.has_iff_exists (n := .readsAttributes) hf fun use => ?_
    cases use <;> simp [Use.Directly, Use.Needs]
  varyingsRead := by
    refine hs.has_iff_exists (n := .readsVaryings) hf fun use => ?_
    cases use <;> simp [Use.Directly, Use.Needs]
  varyingsWritten := by
    refine hs.has_iff_exists (n := .writesVaryings) hf fun use => ?_
    cases use <;> simp [Use.Directly, Use.Needs]

end Sound

namespace Check

/-- Needs are exact: for every shader, whether or not it is accepted, the needs stored for a function that
was opened for the vertex stage or is open at the end are those of the code that is left of it. -/
theorem needs_exact (builtins : Builtins) (shared : Bool) (decls : List Decl) :
    (∀ f ∈ ((vertexPart builtins decls).outcome {}).2.fns,
      DepsExact ((vertexPart builtins decls).outcome {}).2.fns f) ∧
    ∀ f ∈ ((program builtins shared decls).outcome {}).2.fns,
      DepsExact ((program builtins shared decls).outcome {}).2.fns f := by
  constructor
  · obtain ⟨vars, hs⟩ := exists_sound_vertexPart builtins decls
    exact fun f hf => hs.depsExact hf
  · obtain ⟨vars, hs⟩ := sound_program builtins shared decls
    exact fun f hf => hs.depsExact hf

/-- A call in the branch that a constant test does not take leaves no need; a call that is kept does. -/
theorem pruned_call_leaves_no_need :
    let callOf (f : Ident) : Expr := .call f [] .unset
    let vec4 : TyExpr := .keyword (.vector .float .four) .unset
    let readsAttribute (f : Ident) : Decl :=
      .fn ⟨f, [], some vec4, .mk [.returnStmt (some (.var "a" .unset)) .unset] .unset, .unset⟩
    let pruned : Stmt :=
      .ifStmt (.lit (.bool false) .unset) (.mk [.exprStmt (callOf "g") .unset] .unset) none .unset
    let vertex : Decl := .fn ⟨"vertex", [], some vec4,
      .mk [pruned, .returnStmt (some (callOf "f")) .unset] .unset, .unset⟩
    let decls : List Decl := [.attributeVar ⟨"a", vec4, .unset⟩, readsAttribute "f", readsAttribute "g", vertex]
    let fns := ((vertexPart [] decls).outcome {}).2.fns
    ∃ d ∈ fns, d.name = "vertex" ∧ d.deps.hasFn "f" = true ∧ d.deps.hasFn "g" = false ∧
      d.deps.readsAttributes = true ∧ DepsExact fns d := by
  intro callOf vec4 readsAttribute pruned vertex decls fns
  have hany : fns.any (fun d => d.name = "vertex" ∧ d.deps.hasFn "f" = true ∧ d.deps.hasFn "g" = false ∧
      d.deps.readsAttributes = true) = true := by decide +kernel
  obtain ⟨d, hd, h⟩ := List.any_eq_true.1 hany
  obtain ⟨hname, hf, hg, ha⟩ := of_decide_eq_true h
  exact ⟨d, hd, hname, hf, hg, ha, (needs_exact [] false decls).1 d hd⟩

end Check

end Shading
