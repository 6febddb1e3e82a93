import Shading.Proofs.Dependencies
import Shading.Proofs.Items

/-!
# The interface variables of a text

The text of a stage declares the interface variables that its functions use, with one exception: attributes
are declared for the vertex stage only, and nothing keeps the functions of the fragment stage from reading
them. So the text of the vertex stage always stands on its own, and that of the fragment stage does if and
only if no attribute is needed there.
-/

namespace Shading

open Relation

/-- A variable of the interface is used. -/
def Use.IsVar : Use → Prop
  | .attributeVar _ | .uniformVar _ _ | .varyingRead _ | .varyingWrite _ => True
  | .fn _ _ | .struct _ | .localStruct _ => False

/-- The declaration is that of the variable that is used. -/
def Item.Declares : Item → Use → Prop
  | .attributeVar v, .attributeVar x => v.1 = x
  | .block b, .uniformVar name x => b.name = name ∧ ∃ v ∈ b.vars, v.1 = x
  | .varyingVar v, .varyingRead x => v.1 = x
  | .varyingVar v, .varyingWrite x => v.1 = x
  | _, _ => False

/-- The interface variables that the functions of a text use are declared in it. -/
def SelfContained (items : List Item) : Prop :=
  ∀ f, .fn f ∈ items → ∀ use ∈ f.uses, use.IsVar → ∃ i ∈ items, i.Declares use

namespace StageUnit

variable {u : StageUnit}

@[simp] theorem struct_mem_items {d : StructDef} : .struct d ∈ u.items ↔ d ∈ u.structs := by
  simp [items, interfaceItems]

@[simp] theorem fn_mem_items {f : FnDef} : .fn f ∈ u.items ↔ f ∈ u.fns := by simp [items, interfaceItems]

@[simp] theorem attributeVar_mem_items {v : Ident × Ty} : .attributeVar v ∈ u.items ↔ v ∈ u.attributes := by
  simp [items, interfaceItems]

@[simp] theorem block_mem_items {b : UniformBlock} : .block b ∈ u.items ↔ b ∈ u.blocks := by
  simp [items, interfaceItems]

@[simp] theorem varyingVar_mem_items {v : Ident × Ty} : .varyingVar v ∈ u.items ↔ v ∈ u.varyings := by
  simp [items, interfaceItems]

end StageUnit

namespace Check

section Unit

variable {top : TopLevel} {scope : Scope Var} {vars : List (Ident × Var)} {stage : Stage} {s : Expansion}
  {f d : FnDef} {i : Interface}

/-- The functions of a unit are those that the function of the stage reaches. -/
theorem StageEnd.mem_fns_iff (h : StageEnd top scope stage s f) :
    d ∈ (StageUnit.ofEntry i s stage f).fns ↔ d ∈ s.fns ∧ ReflTransGen (Calls s.fns) f.name d.name := by
  rw [reflTransGen_iff_eq_or_transGen, ← (h.sound.depsExact h.mem).calls]
  simp [StageUnit.ofEntry]

/-- Attributes are needed if and only if a function of the unit reads one. -/
theorem StageEnd.readsAttributes_iff (h : StageEnd top scope stage s f) :
    f.deps.readsAttributes = true ↔
      ∃ d ∈ (StageUnit.ofEntry i s stage f).fns, ∃ x, .attributeVar x ∈ d.uses := by
  rw [(h.sound.depsExact h.mem).attributes]
  constructor
  · rintro ⟨x, d, hd, hpath, huse⟩
    exact ⟨d, h.mem_fns_iff.2 ⟨hd, hpath⟩, x, huse⟩
  · rintro ⟨d, hd, x, huse⟩
    obtain ⟨hmem, hpath⟩ := h.mem_fns_iff.1 hd
    exact ⟨x, d, hmem, hpath, huse⟩

/-- A variable that a function of the unit uses is declared, attributes of the fragment stage apart. -/
theorem StageEnd.declared (h : StageEnd top scope stage s f)
    (hvars : ∀ x v, scope.lookup? x = some v ↔ (x, v) ∈ vars)
    (hd : d ∈ (StageUnit.ofEntry (.ofVars vars) s stage f).fns) {use : Use} (huse : use ∈ d.uses)
    (hvar : use.IsVar) (hstage : stage = .vertex ∨ ∀ x, use ≠ .attributeVar x) :
    ∃ i ∈ (StageUnit.ofEntry (.ofVars vars) s stage f).items, i.Declares use := by
  have hknown := h.sound.of_mem_fns (h.mem_fns_iff.1 hd).1 use huse
  cases use with
  | fn | struct | localStruct => exact hvar.elim
  | attributeVar x =>
    obtain ⟨ty, hx⟩ := hknown
    obtain rfl := hstage.resolve_right fun hne => hne x rfl
    have hmem : (x, ty) ∈ Interface.varsOf VarKind.isAttribute vars :=
      Interface.mem_varsOf.2 ⟨.attributeVar, rfl, (hvars x _).1 hx⟩
    exact ⟨.attributeVar (x, ty), StageUnit.attributeVar_mem_items.2 hmem, rfl⟩
  | uniformVar block x =>
    obtain ⟨ty, hx⟩ := hknown
    have hlisted := (hvars x _).1 hx
    have hmem : (x, ty) ∈ Interface.varsOf (fun k => k == .uniformVar block) vars :=
      Interface.mem_varsOf.2 ⟨.uniformVar block, beq_self_eq_true _, hlisted⟩
    refine ⟨.block ⟨block, Interface.varsOf (fun k => k == .uniformVar block) vars⟩, ?_, rfl, (x, ty), hmem, rfl⟩
    exact StageUnit.block_mem_items.2 (List.mem_map.2 ⟨block, Interface.mem_blockNames.2 ⟨x, ty, hlisted⟩, rfl⟩)
  | varyingRead x | varyingWrite x =>
    obtain ⟨ty, hx⟩ := hknown
    have hmem : (x, ty) ∈ Interface.varsOf VarKind.isVarying vars :=
      Interface.mem_varsOf.2 ⟨.varyingVar, rfl, (hvars x _).1 hx⟩
    exact ⟨.varyingVar (x, ty), StageUnit.varyingVar_mem_items.2 hmem, rfl⟩

/-- The fragment stage declares no attribute. -/
theorem not_declares_attribute {j : Item} {x : Ident} (hj : j ∈ (StageUnit.ofEntry i s .fragment f).items) :
    ¬ j.Declares (.attributeVar x) := by
  cases j with
  | attributeVar v =>
    rw [StageUnit.attributeVar_mem_items] at hj
    cases hj
  | struct | block | varyingVar | fn => exact id

end Unit

namespace Accepted

variable {top : TopLevel} {p : Program}

theorem vertex_selfContained {shared : Bool} (a : Accepted top shared p) : SelfContained p.vertex.items := by
  intro f hf use huse hvar
  rw [a.vertex, a.interface] at hf ⊢
  exact a.atVertex.declared a.lookup?_iff (StageUnit.fn_mem_items.1 hf) huse hvar (.inl rfl)

theorem fragment_eq (a : Accepted top false p) :
    p.fragment = .ofEntry (.ofVars a.vars) a.fragmentEnd .fragment a.fragmentFn := by
  rw [a.fragment, a.interface]
  rfl

/-- Of the variables that the functions of the fragment stage use, all but the attributes are declared. -/
theorem fragment_declares_iff (a : Accepted top false p) {f : FnDef} (hf : .fn f ∈ p.fragment.items) {use : Use}
    (huse : use ∈ f.uses) (hvar : use.IsVar) :
    (∃ i ∈ p.fragment.items, i.Declares use) ↔ ∀ x, use ≠ .attributeVar x := by
  rw [a.fragment_eq] at hf ⊢
  constructor
  · rintro ⟨i, hi, hdeclares⟩ x rfl
    exact not_declares_attribute hi hdeclares
  · intro hne
    exact a.atFragment.declared a.lookup?_iff (StageUnit.fn_mem_items.1 hf) huse hvar (.inr hne)

theorem fragment_selfContained_iff (a : Accepted top false p) :
    SelfContained p.fragment.items ↔ p.fragmentDeps.readsAttributes = false := by
  rw [a.fragmentDeps, ← Bool.not_eq_true, a.atFragment.readsAttributes_iff, ← a.fragment_eq]
  constructor
  · rintro h ⟨f, hf, x, huse⟩
    have hmem := StageUnit.fn_mem_items.2 hf
    exact (a.fragment_declares_iff hmem huse trivial).1 (h f hmem _ huse trivial) x rfl
  · intro hnone f hf use huse hvar
    refine (a.fragment_declares_iff hf huse hvar).2 ?_
    rintro x rfl
    exact hnone ⟨f, StageUnit.fn_mem_items.1 hf, x, huse⟩

end Accepted

end Check

/-- When each stage has a text of its own, the vertex text declares all interface variables its functions
use. The fragment text declares all but the attributes, so it stands on its own if and only if the stage
needs no attribute. -/
theorem emit_self_contained_iff {d : Dialect} {extra : Builtins} {decls : List Decl} {c : Compiled}
    {events : List Event} (h : emit d extra decls = (.ok c, events)) (hshared : d.sharesDecls = false) :
    ∃ p, (Program.check (Builtin.defaults ++ extra) d.sharesDecls decls).1 = .ok p ∧ c = p.write d ∧
      d.IsText .vertex c.interface.varyings p.vertex.items c.vertexText ∧
      d.IsText .fragment c.interface.varyings p.fragment.items c.fragmentText ∧
      SelfContained p.vertex.items ∧
      (∀ f, .fn f ∈ p.fragment.items → ∀ use ∈ f.uses, use.IsVar →
        ((∃ i ∈ p.fragment.items, i.Declares use) ↔ ∀ x, use ≠ .attributeVar x)) ∧
      (SelfContained p.fragment.items ↔ c.fragmentDeps.readsAttributes = false) := by
  obtain ⟨p, hp, rfl, ⟨a⟩⟩ := accepted_of_emit h
  refine ⟨p, hp, rfl, a.isText_vertex d, a.isText_fragment d, a.vertex_selfContained, ?_⟩
  rw [hshared] at a
  refine ⟨?_, a.fragment_selfContained_iff⟩
  intro f hf use huse hvar
  exact a.fragment_declares_iff hf huse hvar

/-- Both texts stand on their own where an attribute goes through a varying to the fragment stage, which adds
a uniform to it in a helper. -/
theorem passed_attribute_self_contained :
    let vec4 : TyExpr := .keyword (.vector .float .four) .unset
    let var (x : Ident) : Expr := .var x .unset
    let fn (f : Ident) (body : List Stmt) : Decl := .fn ⟨f, [], some vec4, .mk body .unset, .unset⟩
    let decls : List Decl := [.attributeVar ⟨"pos", vec4, .unset⟩, .uniformVar ⟨"tint", vec4, .unset⟩ none,
      .varyingVar ⟨"shade", vec4, .unset⟩,
      fn "vertex" [.exprStmt (.bin .assign (var "shade") (var "pos") .unset) .unset,
        .returnStmt (some (var "pos")) .unset],
      fn "helper" [.returnStmt (some (.bin (.arith .add) (var "shade") (var "tint") .unset)) .unset],
      fn "fragment" [.returnStmt (some (.call "helper" [] .unset)) .unset]]
    ∃ (c : Compiled) (events : List Event) (p : Program),
      emit (Glsl.dialect {}) [] decls = (.ok c, events) ∧ c = p.write (Glsl.dialect {}) ∧
      c.fragmentDeps.readsAttributes = false ∧ SelfContained p.vertex.items ∧ SelfContained p.fragment.items := by
  intro vec4 var fn decls
  obtain ⟨p, events, hp, h, hreads⟩ := emit_of_check
    (show (Program.check (Builtin.defaults ++ []) (Glsl.dialect {}).sharesDecls decls).1.toOption.any
      (fun p => !p.fragmentDeps.readsAttributes) = true by decide +kernel)
  obtain ⟨p', hp', heq, -, -, hvertex, -, hfragment⟩ := emit_self_contained_iff h rfl
  obtain rfl : p = p' := Except.ok.inj (hp.symm.trans hp')
  have hnone : p.fragmentDeps.readsAttributes = false := by simpa using hreads
  exact ⟨p.write _, events, p, h, heq, hnone, hvertex, hfragment.2 hnone⟩

/-- A fragment function may read an attribute, and the text of its stage does not declare it. -/
theorem fragment_attribute_undeclared :
    let vec4 : TyExpr := .keyword (.vector .float .four) .unset
    let stage (f : Ident) : Decl :=
      .fn ⟨f, [], some vec4, .mk [.returnStmt (some (.var "pos" .unset)) .unset] .unset, .unset⟩
    let decls : List Decl := [.attributeVar ⟨"pos", vec4, .unset⟩, stage "vertex", stage "fragment"]
    ∃ (c : Compiled) (events : List Event) (p : Program),
      emit (Glsl.dialect {}) [] decls = (.ok c, events) ∧ c = p.write (Glsl.dialect {}) ∧
      (∃ f, .fn f ∈ p.fragment.items ∧ .attributeVar "pos" ∈ f.uses) ∧ p.fragment.attributes = [] ∧
      ¬ SelfContained p.fragment.items := by
  intro vec4 stage decls
  obtain ⟨p, events, hp, h, hq⟩ := emit_of_check
    (show (Program.check (Builtin.defaults ++ []) (Glsl.dialect {}).sharesDecls decls).1.toOption.any
      (fun p => p.fragment.attributes = [] ∧
        p.fragment.fns.any (fun f => f.uses.any fun | .attributeVar x => x == "pos" | _ => false) = true) = true
      by decide +kernel)
  obtain ⟨hnone, hany⟩ := of_decide_eq_true hq
  obtain ⟨f, hf, huse⟩ := List.any_eq_true.1 hany
  obtain ⟨use, huse, hname⟩ := List.any_eq_true.1 huse
  have hx : Use.attributeVar "pos" ∈ f.uses := by
    cases use <;> simp at hname
    exact hname ▸ huse
  have hmem := StageUnit.fn_mem_items.2 hf
  refine ⟨p.write _, events, p, h, rfl, ⟨f, hmem, hx⟩, hnone, fun hall => ?_⟩
  obtain ⟨i, hi, hdeclares⟩ := hall f hmem _ hx trivial
  cases i with
  | attributeVar v =>
    rw [StageUnit.attributeVar_mem_items, hnone] at hi
    cases hi
  | struct | block | varyingVar | fn => exact hdeclares

end Shading
