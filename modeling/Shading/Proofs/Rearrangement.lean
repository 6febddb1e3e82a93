import Mathlib.Data.List.Find
import Mathlib.Data.List.Nodup
import Shading.Compile
import Shading.Proofs.Programs

/-!
# The order of declarations

Functions and structs are found by their names and opened where they are first used, so where they stand in
a shader does not matter. Of the interface variables those of one kind keep their order, which is that of
their declarations in the texts. A shader whose declarations are rearranged within these limits comes to the
same texts, needs and interface, or to the same error.
-/

namespace Shading

open List

namespace Decl

def isAttribute : Decl → Bool
  | attributeVar _ => true
  | _ => false

def isUniform : Decl → Bool
  | uniformVar .. => true
  | _ => false

def isVarying : Decl → Bool
  | varyingVar _ => true
  | _ => false

end Decl

/-- The same declarations in another order, which keeps that of the attributes, that of the uniforms and that
of the varyings. -/
structure Rearranged (decls decls' : List Decl) : Prop where
  perm : decls.Perm decls'
  attributes : decls.filter Decl.isAttribute = decls'.filter Decl.isAttribute
  uniforms : decls.filter Decl.isUniform = decls'.filter Decl.isUniform
  varyings : decls.filter Decl.isVarying = decls'.filter Decl.isVarying

/-- A declaration that is looked for by name is found wherever it stands, if no two share a name. -/
theorem find?_name_of_perm {α : Type} {name : α → Ident} {l l' : List α} (h : l.Perm l')
    (hnames : (l.map name).Nodup) (x : Ident) :
    l.find? (fun a => name a == x) = l'.find? fun a => name a == x := by
  refine find?_eq_find?_of_perm h ?_
  rintro a ⟨ha, hax⟩ b ⟨hb, hbx⟩
  have hname : name a = name b := (beq_iff_eq.1 hax).trans (beq_iff_eq.1 hbx).symm
  exact inj_on_of_nodup_map hnames ha hb hname

/-- Declarations of distinct names redefine nothing. -/
theorem firstRedefined?_eq_none {decls : List Decl} {seen : List Ident} (hnames : (decls.map Decl.name).Nodup)
    (hseen : ∀ d ∈ decls, d.name ∉ seen) : firstRedefined? seen decls = none := by
  induction decls generalizing seen with
  | nil => rfl
  | cons d ds ih =>
    obtain ⟨hd, hds⟩ := nodup_cons.1 hnames
    have hnew : seen.contains d.name = false := by simpa using hseen d mem_cons_self
    rw [firstRedefined?, hnew]
    refine ih hds fun e he hmem => ?_
    rcases mem_cons.1 hmem with heq | hmem
    · exact hd (mem_map.2 ⟨e, he, heq⟩)
    · exact hseen e (mem_cons_of_mem _ he) hmem

/-- The functions among declarations of distinct names have distinct names, and so have the structs. -/
theorem nodup_filterMap_name {α : Type} {decls : List Decl} {pick : Decl → Option α} {name : α → Ident}
    (hpick : ∀ d a, pick d = some a → name a = d.name) (hnames : (decls.map Decl.name).Nodup) :
    ((decls.filterMap pick).map name).Nodup := by
  refine List.Nodup.sublist ?_ hnames
  rw [map_filterMap]
  clear hnames
  induction decls with
  | nil => exact .slnil
  | cons d ds ih =>
    cases hd : pick d with
    | none => simpa [hd] using ih.cons d.name
    | some a => simpa [hd, hpick d a hd] using ih.cons_cons d.name

/-- The interface variables of one kind are the declarations of that kind. -/
theorem filter_interfaceVar? {kind : VarKind → Bool} {form : Decl → Bool}
    (hform : ∀ d, form d = d.interfaceVar?.any fun v => kind v.2) (decls : List Decl) :
    (decls.filterMap Decl.interfaceVar?).filter (fun v => kind v.2) =
      (decls.filter form).filterMap Decl.interfaceVar? := by
  rw [filter_filterMap, filterMap_filter]
  refine filterMap_congr fun d _ => ?_
  rw [hform d]
  cases d.interfaceVar? with
  | none => rfl
  | some v => rfl

namespace TopLevel

/-- The two have the same declarations by name, and as many of them. -/
structure Agree (top top' : TopLevel) : Prop where
  fn? : ∀ x, top.fn? x = top'.fn? x
  struct? : ∀ x, top.struct? x = top'.struct? x
  builtins : top.builtins = top'.builtins
  depth : top.depth = top'.depth

end TopLevel

namespace Rearranged

variable {decls decls' : List Decl}

theorem agree (h : Rearranged decls decls') (hnames : (decls.map Decl.name).Nodup) (builtins : Builtins) :
    TopLevel.Agree (.ofDecls builtins decls) (.ofDecls builtins decls') where
  fn? x := by
    refine find?_name_of_perm (h.perm.filterMap _) (nodup_filterMap_name ?_ hnames) x
    rintro (_ | _ | _ | _ | d) a ⟨⟩
    rfl
  struct? x := by
    refine find?_name_of_perm (h.perm.filterMap _) (nodup_filterMap_name ?_ hnames) x
    rintro (_ | _ | _ | d | _) a ⟨⟩
    rfl
  builtins := rfl
  depth := by
    simp only [TopLevel.depth, TopLevel.ofDecls, (h.perm.filterMap Decl.fn?).length_eq,
      (h.perm.filterMap Decl.struct?).length_eq]

theorem interfaceOrder_eq (h : Rearranged decls decls') :
    Check.interfaceOrder decls = Check.interfaceOrder decls' := by
  have hattribute : ∀ d : Decl, d.isAttribute = d.interfaceVar?.any fun v => v.2.isAttribute := by
    rintro (_ | _ | _ | _ | _) <;> rfl
  have huniform : ∀ d : Decl, d.isUniform = d.interfaceVar?.any fun v => v.2.isUniform := by
    rintro (_ | _ | _ | _ | _) <;> rfl
  have hvarying : ∀ d : Decl, d.isVarying = d.interfaceVar?.any fun v => v.2.isVarying := by
    rintro (_ | _ | _ | _ | _) <;> rfl
  simp only [Check.interfaceOrder, filter_interfaceVar? hattribute, filter_interfaceVar? huniform,
    filter_interfaceVar? hvarying, h.attributes, h.uniforms, h.varyings]

theorem firstRedefined? (h : Rearranged decls decls') (hnames : (decls.map Decl.name).Nodup) :
    Shading.firstRedefined? [] decls = none ∧ Shading.firstRedefined? [] decls' = none :=
  ⟨firstRedefined?_eq_none hnames (by simp),
    firstRedefined?_eq_none ((h.perm.map Decl.name).nodup_iff.1 hnames) (by simp)⟩

end Rearranged

namespace Check

section Agree

variable {top top' : TopLevel} (h : top.Agree top')
include h

/-- Looking names up comes to the same: the same openings nest in each other, whatever is unfinished. -/
theorem globals_eq_of_agree (vars : Scope Var) (n : Nat) : globals top vars n = globals top' vars n := by
  induction n with
  | zero => rfl
  | succ k ih =>
    funext u x span
    simp only [globals, resolve, ih, h.fn?, h.struct?, h.builtins]

theorem interfaceVars_eq_of_agree (vars : Scope Var) (ds : List (TypedName × VarKind)) :
    interfaceVars top vars ds = interfaceVars top' vars ds := by
  induction ds generalizing vars with
  | nil => rfl
  | cons d ds ih => simp only [interfaceVars, globals_eq_of_agree h, h.depth, ih]

theorem entry_eq_of_agree (vars : Scope Var) (stage : Stage) : entry top vars stage = entry top' vars stage := by
  simp only [entry, globals_eq_of_agree h, h.fn?, h.depth]

end Agree

variable {decls decls' : List Decl}

theorem vertexPart_rearranged (h : Rearranged decls decls') (hnames : (decls.map Decl.name).Nodup)
    (builtins : Builtins) : vertexPart builtins decls = vertexPart builtins decls' := by
  have hagree := h.agree hnames builtins
  obtain ⟨hnone, hnone'⟩ := h.firstRedefined? hnames
  simp only [vertexPart, hnone, hnone', interfaceVars_eq_of_agree hagree, h.interfaceOrder_eq,
    entry_eq_of_agree hagree]

theorem program_rearranged (h : Rearranged decls decls') (hnames : (decls.map Decl.name).Nodup)
    (builtins : Builtins) (shared : Bool) : program builtins shared decls = program builtins shared decls' := by
  have hfragment : fragmentPart builtins shared decls = fragmentPart builtins shared decls' := by
    funext v
    simp only [fragmentPart, entry_eq_of_agree (h.agree hnames builtins)]
  rw [program_eq, program_eq, vertexPart_rearranged h hnames, hfragment]

end Check

/-- Where functions and structs stand does not matter: a shader of distinct names whose declarations are
rearranged comes to the same texts, needs and interface, or to the same error, and the same happens on the
way. -/
theorem emit_rearranged {decls decls' : List Decl} (h : Rearranged decls decls')
    (hnames : (decls.map Decl.name).Nodup) (d : Dialect) (extra : Builtins) :
    emit d extra decls = emit d extra decls' := by
  simp only [emit, Program.check, Check.program_rearranged h hnames]

/-- A shader that makes a struct in the second of two helpers compiles alike when it is read from its end, and so
does the one whose second helper calls the first, with the cycle told in the same order. -/
theorem reversed_shader_compiles_alike :
    let vec4 : TyExpr := .keyword (.vector .float .four) .unset
    let var (x : Ident) : Expr := .var x .unset
    let callOf (f : Ident) (args : List Expr) : Expr := .call f args .unset
    let fn (f : Ident) (body : List Stmt) (result : Expr) : Decl :=
      .fn ⟨f, [], some vec4, .mk (body ++ [.returnStmt (some result) .unset]) .unset, .unset⟩
    let shader (last : Expr) : List Decl := [.attributeVar ⟨"pos", vec4, .unset⟩,
      .uniformVar ⟨"tint", vec4, .unset⟩ none, .varyingVar ⟨"shade", vec4, .unset⟩,
      fn "vertex" [.exprStmt (.bin .assign (var "shade") (var "pos") .unset) .unset] (callOf "first" []),
      fn "fragment" [] (var "shade"), fn "first" [] (callOf "second" []),
      .struct ⟨"Paint", [⟨"colour", vec4, .unset⟩], .unset⟩, fn "second" [] last]
    let made := .member (callOf "Paint" [var "tint"]) "colour" .unset
    let cyclic := callOf "first" []
    (((shader made).map Decl.name).Nodup ∧ Rearranged (shader made) (shader made).reverse ∧
      emit (Glsl.dialect {}) [] (shader made) = emit (Glsl.dialect {}) [] (shader made).reverse ∧
      (emit (Glsl.dialect {}) [] (shader made)).1.isOk = true) ∧
    ((shader cyclic).map Decl.name).Nodup ∧ Rearranged (shader cyclic) (shader cyclic).reverse ∧
      emit (Glsl.dialect {}) [] (shader cyclic) = emit (Glsl.dialect {}) [] (shader cyclic).reverse ∧
      (emit (Glsl.dialect {}) [] (shader cyclic)).1 =
        .error (.refused ⟨.cyclicFn "first" ["first", "second", "first"], .unset⟩) := by
  intro vec4 var callOf fn shader made cyclic
  have hnames : ∀ last, ((shader last).map Decl.name).Nodup := by
    intro last
    change (["pos", "tint", "shade", "vertex", "fragment", "first", "Paint", "second"] : List Ident).Nodup
    decide
  have hreversed : ∀ last, Rearranged (shader last) (shader last).reverse := by
    intro last
    exact ⟨(reverse_perm _).symm, rfl, rfl, rfl⟩
  refine ⟨⟨hnames made, hreversed made, emit_rearranged (hreversed made) (hnames made) _ _, ?_⟩,
    hnames cyclic, hreversed cyclic, emit_rearranged (hreversed cyclic) (hnames cyclic) _ _, ?_⟩
  · decide +kernel
  · decide +kernel

end Shading
