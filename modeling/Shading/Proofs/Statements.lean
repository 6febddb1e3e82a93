import Shading.Check.Program
import Shading.Proofs.Outcome

/-!
# Accepted statements and declarations

What follows from the success of checking a statement, a block, a function or a struct: which steps
succeeded on the way, on which expansions, and what was kept of their results. As with expressions, a later
proof starts from these lemmas.
-/

namespace Shading

/-- Induction over statements, where those of a block inside a statement are smaller. -/
@[elab_as_elim, induction_eliminator]
theorem Stmt.induct {P : Stmt → Prop}
    (breakStmt : ∀ span, P (.breakStmt span))
    (continueStmt : ∀ span, P (.continueStmt span))
    (forStmt : ∀ x first bound step body span, (∀ st ∈ body.stmts, P st) →
      P (.forStmt x first bound step body span))
    (ifStmt : ∀ test yes no span, (∀ st ∈ yes.stmts, P st) →
      (∀ b, no = some b → ∀ st ∈ b.stmts, P st) → P (.ifStmt test yes no span))
    (letStmt : ∀ x ty init span, P (.letStmt x ty init span))
    (returnStmt : ∀ value span, P (.returnStmt value span))
    (blockStmt : ∀ b span, (∀ st ∈ b.stmts, P st) → P (.blockStmt b span))
    (exprStmt : ∀ e span, P (.exprStmt e span)) (st : Stmt) : P st := by
  refine @Stmt.rec P (fun b => ∀ st ∈ b.stmts, P st) (fun no => ∀ b, no = some b → ∀ st ∈ b.stmts, P st)
    (fun l => ∀ st ∈ l, P st) breakStmt continueStmt forStmt ifStmt letStmt returnStmt blockStmt exprStmt
    (fun _ _ h => h) nofun ?_ nofun ?_ st
  · rintro b hb _ ⟨⟩
    exact hb
  · intro st l hst hl st' hmem
    rcases List.mem_cons.1 hmem with rfl | hmem
    · exact hst
    · exact hl st' hmem

namespace Check

variable {x : Ident} {span : Span} {last : Scope Var}

section Parts

variable {ctx : Context} {s s' : Expansion}

/-- The type of a variable is the one written, which its value must have, or that of its value. -/
theorem gives_letTy {ty : Option TyExpr} {init : Option (Typed × Span)} {t : Ty}
    (h : Gives (letTy ctx x ty init span) s t s') :
    (∃ te, ty = some te ∧ Gives (tyExpr ctx te) s t s' ∧ ∀ e, init = some e → e.1.ty = t) ∨
    (ty = none ∧ s = s' ∧ ∃ e, init = some e ∧ e.1.ty = t ∧ t ≠ .void) := by
  unfold letTy at h
  match ty, init with
  | some te, none => exact .inl ⟨te, rfl, h, nofun⟩
  | some te, some (e, at_) =>
    simp only [gives_bind, gives_guard, gives_pure, ne_eq, Decidable.not_not] at h
    obtain ⟨t', s₁, ht, heq, rfl, rfl⟩ := h
    refine .inl ⟨te, rfl, ht, ?_⟩
    rintro _ ⟨⟩
    exact heq
  | none, some (e, at_) =>
    simp only [gives_ite, gives_refuse, gives_pure, and_false, false_or] at h
    obtain ⟨hvoid, rfl, rfl⟩ := h
    exact .inr ⟨rfl, rfl, (e, at_), rfl, rfl, hvoid⟩
  | none, none => simp at h

end Parts

section Statements

variable {fc : FnContext} {inLoop : Bool} {outer : List (Scope Var)} {inner : Scope Var}
  {s s' : Expansion} {r : Scope Var × Option Kept} {span : Span}

theorem gives_break (h : Gives (stmt fc inLoop outer inner (.breakStmt span)) s r s') :
    inLoop = true ∧ r = (inner, some ⟨.none, .exitLoop, []⟩) ∧ s = s' := by
  simp only [stmt, gives_guard, gives_pure, Bool.not_eq_true', Bool.not_eq_false] at h
  exact ⟨h.1, h.2.1.symm, h.2.2⟩

theorem gives_continue (h : Gives (stmt fc inLoop outer inner (.continueStmt span)) s r s') :
    inLoop = true ∧ r = (inner, some ⟨.none, .nextTurn, []⟩) ∧ s = s' := by
  simp only [stmt, gives_guard, gives_pure, Bool.not_eq_true', Bool.not_eq_false] at h
  exact ⟨h.1, h.2.1.symm, h.2.2⟩

/-- A loop that never turns or has nothing to do is left out. -/
theorem gives_for {first bound : Expr} {step : Option Expr} {body : Block}
    (h : Gives (stmt fc inLoop outer inner (.forStmt x first bound step body span)) s r s') :
    ∃ a s₁ b s₂ i s₃ kept s₄,
      Gives (constInt ⟨inner :: outer, fc.globals⟩ first) s a s₁ ∧
      Gives (constInt ⟨inner :: outer, fc.globals⟩ bound) s₁ b s₂ ∧
      Gives (loopStep ⟨inner :: outer, fc.globals⟩ x a b step) s₂ i s₃ ∧
      Gives (block fc true (inner :: outer) ⟨[(x, ⟨.int, .localVar false⟩)]⟩ body) s₃ kept s₄ ∧
      (((a = b ∨ kept.isEmpty = true) ∧ r = (inner, none) ∧ s' = s₄.note (.prunedLoop x span)) ∨
        (¬ (a = b ∨ kept.isEmpty = true) ∧ s' = s₄ ∧
          r = (inner, some ⟨kept.deps, .loop x a b i kept.body, []⟩))) := by
  simp only [stmt, gives_bind, gives_ite, gives_note, gives_pure] at h
  obtain ⟨a, s₁, ha, b, s₂, hb, i, s₃, hi, kept, s₄, hkept, h⟩ := h
  refine ⟨a, s₁, b, s₂, i, s₃, kept, s₄, ha, hb, hi, hkept, ?_⟩
  rcases h with ⟨hpruned, -, _, rfl, rfl, rfl⟩ | ⟨hkeep, rfl, rfl⟩
  · exact .inl ⟨hpruned, rfl, rfl⟩
  · exact .inr ⟨hkeep, rfl, rfl⟩

/-- The block behind `else`, where there is one. -/
def elseBlock (fc : FnContext) (inLoop : Bool) (outer : List (Scope Var)) (no : Option Block) :
    Check KeptBlock :=
  match no with
  | none => pure KeptBlock.empty
  | some b => block fc inLoop outer .empty b

theorem stmt_if (test : Expr) (yes : Block) (no : Option Block) :
    stmt fc inLoop outer inner (.ifStmt test yes no span) = do
      let t ← expr ⟨inner :: outer, fc.globals⟩ false test
      if t.ty ≠ .bool then refuse (.mismatch .bool t.ty) test.span
      let yes' ← block fc inLoop (inner :: outer) .empty yes
      let no' ← elseBlock fc inLoop (inner :: outer) no
      match t.term.value? with
      | some v =>
        note (.prunedBranch v.toBool span)
        return (inner, (if v.toBool then yes' else no').kept?)
      | none =>
        let deps := (t.deps.union yes'.deps).union no'.deps
        return (inner, some ⟨deps, .ofBranch t.term yes' no', []⟩) := by
  cases no <;> simp only [stmt] <;> rfl

/-- A branch on a constant is the block that is taken, if anything of it is kept. -/
theorem gives_if {test : Expr} {yes : Block} {no : Option Block}
    (h : Gives (stmt fc inLoop outer inner (.ifStmt test yes no span)) s r s') :
    ∃ t s₁ yes' s₂ no' s₃,
      Gives (expr ⟨inner :: outer, fc.globals⟩ false test) s t s₁ ∧ t.ty = .bool ∧
      Gives (block fc inLoop (inner :: outer) .empty yes) s₁ yes' s₂ ∧
      Gives (elseBlock fc inLoop (inner :: outer) no) s₂ no' s₃ ∧
      ((∃ v, t.term = .const v ∧ r = (inner, (if v.toBool then yes' else no').kept?) ∧
          s' = s₃.note (.prunedBranch v.toBool span)) ∨
        ((∀ v, t.term ≠ .const v) ∧ s' = s₃ ∧
          r = (inner, some ⟨(t.deps.union yes'.deps).union no'.deps, .ofBranch t.term yes' no', []⟩))) := by
  simp only [stmt_if, gives_bind, gives_guard, ne_eq, Decidable.not_not] at h
  obtain ⟨t, s₁, ht, hty, yes', s₂, hyes, no', s₃, hno, h⟩ := h
  refine ⟨t, s₁, yes', s₂, no', s₃, ht, hty, hyes, hno, ?_⟩
  cases hv : t.term.value? with
  | none =>
    simp only [hv, gives_pure] at h
    obtain ⟨rfl, rfl⟩ := h
    refine .inr ⟨?_, rfl, rfl⟩
    intro v hconst
    rw [value?_eq_some.2 hconst] at hv
    cases hv
  | some v =>
    simp only [hv, gives_bind, gives_note, gives_pure] at h
    obtain ⟨-, s₄, rfl, rfl, rfl⟩ := h
    exact .inl ⟨v, value?_eq_some.1 hv, rfl, rfl⟩

/-- The value that a variable is declared with, where there is one. -/
def initValue (ctx : Context) (init : Option Expr) : Check (Option (Typed × Span)) :=
  match init with
  | none => pure none
  | some e => do
    let e' ← expr ctx false e
    pure (some (e', e.span))

theorem gives_initValue {ctx : Context} {init : Option Expr} {value : Option (Typed × Span)}
    (h : Gives (initValue ctx init) s value s') :
    (init = none ∧ value = none ∧ s = s') ∨
    ∃ e e', init = some e ∧ Gives (expr ctx false e) s e' s' ∧ value = some (e', e.span) := by
  cases init with
  | none =>
    simp only [initValue, gives_pure] at h
    exact .inl ⟨rfl, h.1.symm, h.2⟩
  | some e =>
    simp only [initValue, gives_bind, gives_pure] at h
    obtain ⟨e', s₁, he, rfl, rfl⟩ := h
    exact .inr ⟨e, e', rfl, he, rfl⟩

theorem stmt_let (x : Ident) (ty : Option TyExpr) (init : Option Expr) :
    stmt fc inLoop outer inner (.letStmt x ty init span) = do
      let value ← initValue ⟨inner :: outer, fc.globals⟩ init
      let t ← letTy ⟨inner :: outer, fc.globals⟩ x ty value span
      match inner.insert? x ⟨t, .localVar true⟩ with
      | none => refuse (.redefined x) span
      | some inner' =>
        let deps := value.elim Deps.none fun v => v.1.deps
        return (inner', some ⟨deps, .declare x t (value.map fun v => v.1.term), []⟩) := by
  cases init with
  | none =>
    unfold stmt initValue
    rfl
  | some e =>
    unfold stmt initValue
    refine Eq.trans ?_ (bind_assoc _ _ _).symm
    rfl

/-- A declared variable is new in its block and can be assigned. -/
theorem gives_let {ty : Option TyExpr} {init : Option Expr}
    (h : Gives (stmt fc inLoop outer inner (.letStmt x ty init span)) s r s') :
    ∃ value s₁ t inner', Gives (initValue ⟨inner :: outer, fc.globals⟩ init) s value s₁ ∧
      Gives (letTy ⟨inner :: outer, fc.globals⟩ x ty value span) s₁ t s' ∧
      inner.insert? x ⟨t, .localVar true⟩ = some inner' ∧
      r = (inner', some ⟨value.elim Deps.none fun v => v.1.deps,
        .declare x t (value.map fun v => v.1.term), []⟩) := by
  simp only [stmt_let, gives_bind] at h
  obtain ⟨value, s₁, hvalue, t, s₂, ht, h⟩ := h
  cases hi : inner.insert? x ⟨t, .localVar true⟩ with
  | none => simp [hi] at h
  | some inner' =>
    simp only [hi, gives_pure] at h
    obtain ⟨rfl, rfl⟩ := h
    exact ⟨value, s₁, t, inner', hvalue, ht, hi, rfl⟩

theorem gives_return {value : Option Expr}
    (h : Gives (stmt fc inLoop outer inner (.returnStmt value span)) s r s') :
    (value = none ∧ fc.result = .void ∧ r = (inner, some ⟨.none, .ret none, []⟩) ∧ s = s') ∨
    ∃ e e', value = some e ∧ Gives (expr ⟨inner :: outer, fc.globals⟩ false e) s e' s' ∧
      e'.ty = fc.result ∧ r = (inner, some ⟨e'.deps, .ret (some e'.term), []⟩) := by
  cases value with
  | none =>
    simp only [stmt, gives_guard, gives_pure, ne_eq, Decidable.not_not] at h
    exact .inl ⟨rfl, h.1, h.2.1.symm, h.2.2⟩
  | some e =>
    simp only [stmt, gives_bind, gives_guard, gives_pure, ne_eq, Decidable.not_not] at h
    obtain ⟨e', s₁, he, hty, rfl, rfl⟩ := h
    exact .inr ⟨e, e', rfl, he, hty, rfl⟩

theorem gives_blockStmt {b : Block} (h : Gives (stmt fc inLoop outer inner (.blockStmt b span)) s r s') :
    ∃ kept, Gives (block fc inLoop (inner :: outer) .empty b) s kept s' ∧ r = (inner, kept.kept?) := by
  simp only [stmt_block, gives_bind, gives_pure] at h
  obtain ⟨kept, s₁, hkept, rfl, rfl⟩ := h
  exact ⟨kept, hkept, rfl⟩

theorem gives_exprStmt {e : Expr} (h : Gives (stmt fc inLoop outer inner (.exprStmt e span)) s r s') :
    ∃ e', Gives (expr ⟨inner :: outer, fc.globals⟩ false e) s e' s' ∧
      r = (inner, some ⟨e'.deps, .ofExpr e e'.term, []⟩) := by
  simp only [stmt, gives_bind, gives_pure] at h
  obtain ⟨e', s₁, he, rfl, rfl⟩ := h
  exact ⟨e', he, rfl⟩

theorem gives_stmts_nil {kept : List Kept} (h : Gives (stmts fc inLoop outer inner []) s (last, kept) s') :
    last = inner ∧ kept = [] ∧ s = s' := by
  simp only [stmts, gives_pure, Prod.mk.injEq] at h
  exact ⟨h.1.1.symm, h.1.2.symm, h.2⟩

theorem gives_stmts_cons {st : Stmt} {rest : List Stmt} {kept : List Kept}
    (h : Gives (stmts fc inLoop outer inner (st :: rest)) s (last, kept) s') :
    ∃ inner' k s₁ more, Gives (stmt fc inLoop outer inner st) s (inner', k) s₁ ∧
      Gives (stmts fc inLoop outer inner' rest) s₁ (last, more) s' ∧ kept = k.toList ++ more := by
  simp only [stmts, gives_bind, gives_pure] at h
  obtain ⟨⟨inner', k⟩, s₁, hst, ⟨last', more⟩, s₂, hrest, heq, rfl⟩ := h
  cases heq
  exact ⟨inner', k, s₁, more, hst, hrest, rfl⟩

theorem gives_block {b : Block} {kept : KeptBlock} (h : Gives (block fc inLoop outer inner b) s kept s') :
    ∃ last ks, Gives (stmts fc inLoop outer inner b.stmts) s (last, ks) s' ∧
      kept = KeptBlock.gather last ks := by
  cases b with
  | mk ss span =>
    simp only [block, gives_bind, gives_pure] at h
    obtain ⟨⟨last, ks⟩, s₁, hss, rfl, rfl⟩ := h
    exact ⟨last, ks, hss, rfl⟩

end Statements

section Declarations

variable {g : Globals} {s s' : Expansion}

variable {scope : Scope Var} {d : FnDecl} {f : FnDef}

theorem gives_bindName {scope' : Scope Var} {v : Var} :
    Gives (bindName scope x v span) s scope' s' ↔ scope.insert? x v = some scope' ∧ s = s' := by
  unfold bindName
  cases h : scope.insert? x v <;> simp

theorem gives_params_nil {ps : List (Ident × Ty)}
    (h : Gives (params g scope []) s (last, ps) s') : last = scope ∧ ps = [] ∧ s = s' := by
  simp only [params, gives_pure, Prod.mk.injEq] at h
  exact ⟨h.1.1.symm, h.1.2.symm, h.2⟩

theorem gives_params_cons {p : TypedName} {rest : List TypedName} {ps : List (Ident × Ty)}
    (h : Gives (params g scope (p :: rest)) s (last, ps) s') :
    ∃ ty s₁ scope' more, Gives (tyExpr ⟨[scope], g⟩ p.ty) s ty s₁ ∧
      scope.insert? p.name ⟨ty, .localVar false⟩ = some scope' ∧
      Gives (params g scope' rest) s₁ (last, more) s' ∧ ps = (p.name, ty) :: more := by
  simp only [params, gives_bind, gives_bindName, gives_pure] at h
  obtain ⟨ty, s₁, hty, scope', s₂, ⟨hbind, rfl⟩, ⟨last', more⟩, s₃, hrest, heq, rfl⟩ := h
  cases heq
  exact ⟨ty, s₁, scope', more, hty, hbind, hrest, rfl⟩

def resultTy (g : Globals) (result : Option TyExpr) : Check Ty :=
  match result with
  | none => pure .void
  | some t => tyExpr ⟨[.empty], g⟩ t

theorem fn_eq (d : FnDecl) : fn g d = do
    let result ← resultTy g d.result
    let (scope, ps) ← params g .empty d.params
    let body ← block ⟨g, result⟩ false [] scope d.body
    if body.deps.readsVaryings && body.deps.writesVaryings then
      refuse (.readsAndWritesVaryings d.name) d.span
    return ⟨d.name, ps, result, body.deps, body.body⟩ := by
  unfold fn resultTy
  cases d.result <;> rfl

theorem gives_fn (h : Gives (fn g d) s f s') :
    ∃ result s₁ scope ps s₂ body, Gives (resultTy g d.result) s result s₁ ∧
      Gives (params g .empty d.params) s₁ (scope, ps) s₂ ∧
      Gives (block ⟨g, result⟩ false [] scope d.body) s₂ body s' ∧
      ¬ (body.deps.readsVaryings = true ∧ body.deps.writesVaryings = true) ∧
      f = ⟨d.name, ps, result, body.deps, body.body⟩ := by
  simp only [fn_eq, gives_bind, gives_guard, gives_pure, Bool.and_eq_true] at h
  obtain ⟨result, s₁, hresult, ⟨scope, ps⟩, s₂, hparams, body, s₃, hbody, hvaryings, rfl, rfl⟩ := h
  exact ⟨result, s₁, scope, ps, s₂, body, hresult, hparams, hbody, hvaryings, rfl⟩

/-- A function without the rule for its varyings. -/
def laxFn (g : Globals) (d : FnDecl) : Check FnDef := do
  let result ← resultTy g d.result
  let (scope, ps) ← params g .empty d.params
  let body ← block ⟨g, result⟩ false [] scope d.body
  return ⟨d.name, ps, result, body.deps, body.body⟩

theorem fn_eq_laxFn (d : FnDecl) : fn g d = do
    let f ← laxFn g d
    if f.deps.readsVaryings && f.deps.writesVaryings then refuse (.readsAndWritesVaryings d.name) d.span
    return f := by
  rw [fn_eq, laxFn]
  simp only [bind_assoc, pure_bind]

theorem gives_laxFn (h : Gives (laxFn g d) s f s') :
    ∃ result s₁ scope ps s₂ body, Gives (resultTy g d.result) s result s₁ ∧
      Gives (params g .empty d.params) s₁ (scope, ps) s₂ ∧
      Gives (block ⟨g, result⟩ false [] scope d.body) s₂ body s' ∧
      f = ⟨d.name, ps, result, body.deps, body.body⟩ := by
  simp only [laxFn, gives_bind, gives_pure] at h
  obtain ⟨result, s₁, hresult, ⟨scope, ps⟩, s₂, hparams, body, s₃, hbody, rfl, rfl⟩ := h
  exact ⟨result, s₁, scope, ps, s₂, body, hresult, hparams, hbody, rfl⟩

/-- A function is accepted if it is without the rule and does not break it. -/
theorem gives_fn_iff : Gives (fn g d) s f s' ↔
    Gives (laxFn g d) s f s' ∧ ¬ (f.deps.readsVaryings = true ∧ f.deps.writesVaryings = true) := by
  simp only [fn_eq_laxFn, gives_bind, gives_guard, gives_pure, Bool.and_eq_true]
  constructor
  · rintro ⟨f', s₁, hlax, hvaryings, rfl, rfl⟩
    exact ⟨hlax, hvaryings⟩
  · rintro ⟨hlax, hvaryings⟩
    exact ⟨f, s', hlax, hvaryings, rfl, rfl⟩

theorem gives_members_nil {earlier ms : List (Ident × Ty)} {arrays arrays' : Bool}
    (h : Gives (members g earlier arrays []) s (ms, arrays') s') :
    ms = earlier ∧ arrays' = arrays ∧ s = s' := by
  simp only [members, gives_pure, Prod.mk.injEq] at h
  exact ⟨h.1.1.symm, h.1.2.symm, h.2⟩

theorem gives_members_cons {earlier ms : List (Ident × Ty)} {arrays arrays' : Bool} {m : TypedName}
    {rest : List TypedName} (h : Gives (members g earlier arrays (m :: rest)) s (ms, arrays') s') :
    ∃ ty s₁ inside, Gives (tyExpr ⟨[], g⟩ m.ty) s ty s₁ ∧ earlier.lookup m.name = none ∧
      Gives (hasArrays ty) s₁ inside s₁ ∧
      Gives (members g (earlier ++ [(m.name, ty)]) (arrays || inside) rest) s₁ (ms, arrays') s' := by
  simp only [members, gives_bind, gives_guard, Option.isSome_iff_ne_none, ne_eq, Decidable.not_not] at h
  obtain ⟨ty, s₁, hty, hnew, inside, s₂, hinside, hrest⟩ := h
  obtain rfl := gives_hasArrays_state hinside
  exact ⟨ty, s₁, inside, hty, hnew, hinside, hrest⟩

theorem gives_struct {d : StructDecl} {f : StructDef} (h : Gives (struct g d) s f s') :
    ∃ ms arrays, Gives (members g [] false d.members) s (ms, arrays) s' ∧ f = ⟨d.name, ms, arrays⟩ := by
  simp only [struct, gives_bind, gives_pure] at h
  obtain ⟨⟨ms, arrays⟩, s₁, hms, rfl, rfl⟩ := h
  exact ⟨ms, arrays, hms, rfl⟩

/-- A function is found open, or it is opened now and finished last. -/
theorem gives_openFn {inside : Unfinished → Globals} {u : Unfinished} (h : Gives (openFn inside u d span) s f s') :
    (s.fn? d.name = some f ∧ s = s') ∨
    (s.fn? d.name = none ∧ d.name ∉ u.fns ∧ ∃ s₁, Gives (fn (inside (u.addFn d.name)) d) s f s₁ ∧
      s' = (s₁.addFn f).note (.openedFn d.name f.deps.fns.names)) := by
  simp only [openFn, gives_bind, gives_get] at h
  obtain ⟨_, s₀, ⟨rfl, rfl⟩, h⟩ := h
  cases hf : s.fn? d.name with
  | some f' =>
    simp only [hf, gives_pure] at h
    exact .inl ⟨congrArg some h.1, h.2⟩
  | none =>
    simp only [hf, gives_guard, gives_bind, gives_modify, gives_note, gives_pure, List.contains_iff_mem] at h
    obtain ⟨hnew, f', s₁, hf', -, s₂, rfl, -, s₃, rfl, rfl, rfl⟩ := h
    exact .inr ⟨rfl, hnew, s₁, hf', rfl⟩

theorem gives_openStruct {inside : Unfinished → Globals} {u : Unfinished} {d : StructDecl} {f : StructDef}
    (h : Gives (openStruct inside u d span) s f s') :
    (s.struct? d.name = some f ∧ s = s') ∨
    (s.struct? d.name = none ∧ d.name ∉ u.structs ∧ ∃ s₁, Gives (struct (inside (u.addStruct d.name)) d) s f s₁ ∧
      s' = (s₁.addStruct f).note (.openedStruct d.name)) := by
  simp only [openStruct, gives_bind, gives_get] at h
  obtain ⟨_, s₀, ⟨rfl, rfl⟩, h⟩ := h
  cases hf : s.struct? d.name with
  | some f' =>
    simp only [hf, gives_pure] at h
    exact .inl ⟨congrArg some h.1, h.2⟩
  | none =>
    simp only [hf, gives_guard, gives_bind, gives_modify, gives_note, gives_pure, List.contains_iff_mem] at h
    obtain ⟨hnew, f', s₁, hf', -, s₂, rfl, -, s₃, rfl, rfl, rfl⟩ := h
    exact .inr ⟨rfl, hnew, s₁, hf', rfl⟩

end Declarations

end Check

end Shading
