import Shading.Proofs.Items
import Shading.Proofs.Origins
import Shading.Proofs.Scoping.Bodies
import Shading.Proofs.Scoping.Sites

/-!
# Local names keep their declarations

Each function in the texts of an accepted shader comes from a declaration of the shader, with the top-level names
around it that are no local variables. Checking it with its sites gives the same function, and its body is read in
block scopes as it was checked.
-/

namespace Shading

namespace Check

/-- Interface variables are no local variables. -/
def InterfaceOnly (vars : Scope Var) : Prop := ∀ {x v}, vars.lookup? x = some v → ∀ mutable, v.kind ≠ .localVar mutable

theorem noLocals_globals {vars : Scope Var} (hvars : InterfaceOnly vars) (top : TopLevel) (n : Nat) (u : Unfinished) :
    NoLocals (globals top vars n u) := by
  intro x span s v s' h
  cases n with
  | zero => simp [globals] at h
  | succ n =>
    simp only [globals, resolve] at h
    split at h
    · rename_i w hw
      simp only [gives_pure, Option.some.injEq, Info.var.injEq] at h
      rw [← h.1]
      exact hvars hw
    · simp [gives_map] at h
    · simp [gives_map] at h
    · simp only [gives_pure, Option.map_eq_some_iff] at h
      obtain ⟨⟨_, -, heq⟩, -⟩ := h
      cases heq

/-- The function is what checking one of the declarations gives. -/
def Opened (top : TopLevel) (f : FnDef) : Prop :=
  ∃ decl ∈ top.fns, ∃ vars n u s s', InterfaceOnly vars ∧ Gives (fn (globals top vars n u) decl) s f s'

theorem interfaceOrder_kinds {decls : List Decl} : ∀ d ∈ interfaceOrder decls, ∀ mutable, d.2 ≠ .localVar mutable := by
  intro d hd mutable heq
  simp only [interfaceOrder, List.mem_append, List.mem_filter, heq] at hd
  simp [VarKind.isAttribute, VarKind.isUniform, VarKind.isVarying] at hd

/-- The interface variables that are bound are no local variables. -/
theorem interfaceOnly_of_gives {top : TopLevel} {decls : List Decl} {scope : Scope Var} {vars : List (Ident × Var)}
    {s s' : Expansion} (h : Gives (interfaceVars top .empty (interfaceOrder decls)) s (scope, vars) s') :
    InterfaceOnly scope := by
  intro x v hv mutable hkind
  have hmem : (x, v) ∈ vars := by simpa [hv] using lookup?_of_interfaceVars h x v
  have hlisted : (x, v.kind) ∈ (interfaceOrder decls).map fun d => (d.1.name, d.2) := by
    rw [← kinds_of_interfaceVars h]
    exact List.mem_map.2 ⟨_, hmem, rfl⟩
  obtain ⟨d, hd, heq⟩ := List.mem_map.1 hlisted
  exact interfaceOrder_kinds d hd mutable ((Prod.mk.inj heq).2.trans hkind)

/-- Every function in the texts of a shader comes from a declaration. -/
theorem opened_of_program {builtins : Builtins} {shared : Bool} {decls : List Decl} {p : Program} {s' : Expansion}
    (h : Gives (program builtins shared decls) {} p s') :
    ∀ f ∈ p.vertex.fns ++ p.fragment.fns, Opened (.ofDecls builtins decls) f := by
  obtain ⟨-, scope, vars, t, t', hvars, horigin⟩ := origin_of_program h
  intro f hf
  obtain ⟨d, hd, n, u, s, s', hfn⟩ := horigin f hf
  exact ⟨d, hd, scope, n, u, s, s', interfaceOnly_of_gives hvars, hfn⟩

end Check

/-- The emitted bodies of an accepted shader keep local scoping. Each function in the texts comes from a function of
the shader; checked with its sites it is the same function, with declarations that are among those of the source. Read
in block scopes it declares no name twice in a scope, and each local name in it means the declaration that it was
resolved to in the source. -/
theorem emit_keeps_scoping {d : Dialect} {extra : Builtins} {decls : List Decl} {c : Compiled} {events : List Event}
    (hd : d.Separates) (h : emit d extra decls = (.ok c, events)) :
    ∃ p, (Program.check (Builtin.defaults ++ extra) d.sharesDecls decls).1 = .ok p ∧ c = p.write d ∧
      d.IsText .vertex c.interface.varyings p.vertex.items c.vertexText ∧
      d.IsText .fragment c.interface.varyings p.fragment.items c.fragmentText ∧
      ∀ f, .fn f ∈ p.vertex.items ∨ .fn f ∈ p.fragment.items →
        ∃ decl, .fn decl ∈ decls ∧ (decl.sites.map Prod.fst).Nodup ∧ ∃ vars n u s s' traced,
          Check.Gives (Check.fn (Check.globals (.ofDecls (Builtin.defaults ++ extra) decls) vars n u) decl) s f s' ∧
          Check.Gives (Check.traceFn (Check.globals (.ofDecls (Builtin.defaults ++ extra) decls) vars n u) decl)
            s traced s' ∧
          traced.forget = f ∧ traced.sites.Sublist decl.sites ∧ traced.Scoped d := by
  obtain ⟨p, hp, rfl, ⟨a⟩⟩ := accepted_of_emit h
  refine ⟨p, hp, rfl, a.isText_vertex d, a.isText_fragment d, fun f hf => ?_⟩
  obtain ⟨s', hgives⟩ := Check.gives_of_check hp
  have hmem : f ∈ p.vertex.fns ++ p.fragment.fns := by simpa [StageUnit.items, StageUnit.interfaceItems] using hf
  obtain ⟨decl, hdecl, vars, n, u, s, s', honly, hfn⟩ := Check.opened_of_program hgives f hmem
  obtain ⟨traced, htraced, hforget⟩ := Check.gives_map.1 (Check.forget_fn _ decl ▸ hfn)
  obtain ⟨decl', hmem', hfn?⟩ := List.mem_filterMap.1 hdecl
  have hdecls : .fn decl ∈ decls := by
    cases decl' <;> cases hfn?
    exact hmem'
  refine ⟨decl, hdecls, decl.nodup_sites, vars, n, u, s, s', traced, hfn, htraced, hforget, ?_, ?_⟩
  · exact Check.sublist_of_traceFn htraced
  · exact Check.scoped_of_traceFn hd (Check.noLocals_globals honly _ n u) htraced

/-- Blocks that are the only ones in a pruned branch, a loop or a branch lose their braces, unless they declare the
variable of the loop again, and a branch behind `else` is chained. -/
theorem shadowed_names_keep_scoping :
    let marked : Dialect := { Glsl.dialect {} with ident := ("n_" ++ ·) }
    let vec4 : TyExpr := .keyword (.vector .float .four) .unset
    let var (x : Ident) : Expr := .var x .unset
    let int (n : Int32) : Expr := .lit (.int n) .unset
    let block (body : List Stmt) : Block := .mk body .unset
    let store (x y : Ident) : Stmt := .exprStmt (.bin .assign (var x) (var y) .unset) .unset
    let shadow (x y : Ident) : Stmt := .blockStmt (block [.letStmt x none (some (var y)) .unset, store y x]) .unset
    let fn (f : Ident) (body : List Stmt) : Decl := .fn ⟨f, [], some vec4, block body, .unset⟩
    let decls : List Decl := [.attributeVar ⟨"pos", vec4, .unset⟩,
      .uniformVar ⟨"flag", .keyword (.scalar .bool) .unset, .unset⟩ none,
      fn "vertex" [.letStmt "x" none (some (var "pos")) .unset,
        .ifStmt (.lit (.bool true) .unset) (block [.blockStmt (block [shadow "y" "x"]) .unset]) none .unset,
        .forStmt "i" (int 0) (int 2) none (block [shadow "i" "x"]) .unset,
        .forStmt "j" (int 0) (int 2) none (block [shadow "x" "x"]) .unset,
        .ifStmt (var "flag") (block [shadow "y" "x"])
          (some (block [.ifStmt (var "flag") (block [store "x" "x"]) none .unset])) .unset,
        .returnStmt (some (var "x")) .unset],
      fn "fragment" [.returnStmt (some (var "flat")) .unset],
      .varyingVar ⟨"flat", vec4, .unset⟩]
    let shape : FnDef → Bool
      | ⟨_, _, _, _, [.declare .., .block [.declare .., .assign ..],
          .loop _ _ _ _ [.block [.declare .., .assign ..]], .loop _ _ _ _ [.declare .., .assign ..],
          .branch _ [.declare .., .assign ..] (some (.branch ..)), .ret _]⟩ => true
      | _ => false
    ∃ (c : Compiled) (events : List Event) (p : Program) (f : FnDef) (traced : TracedFn), marked.Separates ∧
      emit marked [] decls = (.ok c, events) ∧ c = p.write marked ∧ .fn f ∈ p.vertex.items ∧ shape f = true ∧
      traced.forget = f ∧ traced.Scoped marked := by
  intro marked vec4 var int block store shadow fn decls shape
  have hd : marked.Separates := by
    refine ⟨fun x y heq => (String.append_right_inj _).1 heq, fun x y heq => ?_, fun x _ y heq => ?_, fun x y heq => ?_⟩
    all_goals
      have hheads := congrArg (fun text => text.toList.head?) heq
      simp [marked, Glsl.dialect, Glsl.attributeMark, Glsl.uniformMark, Glsl.varyingMark] at hheads
  obtain ⟨p, events, hp, h, hshape⟩ := emit_of_check
    (show (Program.check (Builtin.defaults ++ []) marked.sharesDecls decls).1.toOption.any
      (fun p => p.vertex.fns.any shape) = true by decide +kernel)
  obtain ⟨f, hf, hfshape⟩ := List.any_eq_true.1 hshape
  obtain ⟨p', hp', heq, -, -, hscoped⟩ := emit_keeps_scoping hd h
  obtain rfl : p = p' := Except.ok.inj (hp.symm.trans hp')
  have hitem : .fn f ∈ p.vertex.items := by simp [StageUnit.items, hf]
  obtain ⟨decl, -, -, vars, n, u, s, s', traced, -, -, hforget, -, hread⟩ := hscoped f (.inl hitem)
  exact ⟨_, events, p, f, traced, hd, h, heq, hitem, hfshape, hforget, hread⟩

end Shading
