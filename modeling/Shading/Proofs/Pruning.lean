import Shading.Proofs.Execution
import Shading.Proofs.Folding
import Shading.Proofs.Locals
import Shading.Proofs.Scoping

/-!
# Leaving statements out keeps the behaviour

Checking leaves out statements that do nothing, puts the taken branch in the place of a branch on a constant,
turns branches around, chains them and shares braces. What is kept of a function does what the function does as
it is written: in every world it stores and calls the same in the same order, and control leaves it the same way.

A kept statement is compared with its source in front of everything that does the same behind both. Two facts
carry the induction: the local variables of the source are those that the scopes bind, and a name that is
declared between the same braces is bound in the innermost scope, so that sharing braces declares nothing twice.
-/

namespace Shading

open List

namespace Code

variable (m : Executor)

/-- Executes what is kept of a statement and what stands behind it. -/
def execKept (declared : List Ident) (rest : List Ident → Run Flow) : Option Kept → Run Flow
  | none => rest declared
  | some k => k.code.exec m declared rest

/-- Names that the statement does not declare do not matter to it. -/
theorem exec_congr {c : Code} {declared declared' : List Ident} {rest rest' : List Ident → Run Flow}
    (hsame : ∀ x, KeptBlock.declared? c = some x → (x ∈ declared ↔ x ∈ declared'))
    (hrest : rest ((KeptBlock.declared? c).toList ++ declared) =
      rest' ((KeptBlock.declared? c).toList ++ declared')) :
    c.exec m declared rest = c.exec m declared' rest' := by
  cases c with
  | declare x ty init =>
    have hx := hsame x rfl
    have hback : rest (x :: declared) = rest' (x :: declared') := hrest
    simp only [exec, hx, hback]
  | ret value => cases value <;> rfl
  | exitLoop | nextTurn => rfl
  | assign | eval | block | loop | branch =>
    have hback : rest declared = rest' declared' := hrest
    simp only [exec, hback]

/-- Names that the statements between braces do not declare do not matter to them. -/
theorem execAll_congr {cs : List Code} {declared declared' : List Ident}
    (hsame : ∀ x ∈ cs.filterMap KeptBlock.declared?, (x ∈ declared ↔ x ∈ declared')) :
    execAll m declared cs = execAll m declared' cs := by
  induction cs generalizing declared declared' with
  | nil => rfl
  | cons c cs ih =>
    simp only [execAll]
    refine exec_congr m (fun x hx => hsame x ?_) (ih fun x hx => ?_)
    · simp [hx]
    · have hback := hsame x (by
        rw [filterMap_cons]
        split
        · exact hx
        · exact mem_cons_of_mem _ hx)
      simp [hback]

/-- An expression that is a statement is evaluated. -/
theorem exec_ofExpr (source : Expr) (t : Term) (declared : List Ident) (rest : List Ident → Run Flow) :
    (ofExpr source t).exec m declared rest = t.eval m.toMachine >>= fun _ => rest declared := by
  unfold ofExpr
  split
  · split
    · simp only [exec, Term.eval]
    · simp only [exec]
  · simp only [exec]

/-- An else-part does what its block does. -/
theorem execElse_elsePart? (b : KeptBlock) : execElse m b.elsePart? = execAll m [] b.body := by
  unfold KeptBlock.elsePart?
  split
  · rename_i hbody
    rw [hbody]
    rfl
  · rename_i hbody _
    rw [hbody]
    rfl
  · simp only [execElse, exec, Run.andThen_next]

/-- A branch that is kept executes one of its blocks, also where it is turned around. -/
theorem exec_ofBranch (test : Term) (yes no : KeptBlock) (declared : List Ident) (rest : List Ident → Run Flow) :
    (ofBranch test yes no).exec m declared rest = Run.andThen
      (Run.branch (test.eval m.toMachine) (execAll m [] yes.body) (execAll m [] no.body)) (rest declared) := by
  unfold ofBranch
  split
  · rename_i hempty
    have hyes : yes.body = [] := by
      rw [Bool.and_eq_true] at hempty
      simpa [KeptBlock.isEmpty] using hempty.1
    simp only [exec, execElse, hyes, execAll, Term.eval, Run.branch_not]
  · simp only [exec, execElse_elsePart?]

/-- A block that is kept does what its statements do, and an empty one does nothing. -/
theorem execKept_kept? (b : KeptBlock) (declared : List Ident) (rest : List Ident → Run Flow) :
    execKept m declared rest b.kept? = Run.andThen (execAll m [] b.body) (rest declared) := by
  unfold KeptBlock.kept?
  split
  · rename_i hempty
    have hbody : b.body = [] := by simpa [KeptBlock.isEmpty] using hempty
    simp [execKept, hbody, execAll]
  · simp only [execKept, exec]

end Code

/-- A kept block lists the names that it declares between its braces. -/
def Kept.Lists (k : Kept) : Prop := ∀ body, k.code = .block body → k.locals = body.filterMap KeptBlock.declared?

/-- What is kept of a block lists the names that it declares. -/
def KeptBlock.Lists (b : KeptBlock) : Prop := b.locals = b.body.filterMap declared?

namespace KeptBlock

theorem lists_gather {scope : Scope Var} {ks : List Kept} (hks : ∀ k ∈ ks, k.Lists) :
    (gather scope ks).Lists := by
  unfold gather
  split
  · split
    · rfl
    · exact hks _ mem_cons_self _ rfl
  · rfl

theorem Lists.kept {b : KeptBlock} (hb : b.Lists) {k : Kept} (hk : b.kept? = some k) : k.Lists := by
  unfold kept? at hk
  split at hk
  · cases hk
  · cases hk
    rintro _ ⟨⟩
    exact hb

/-- Sharing the braces of the only block changes nothing, for it declares no name that is bound. -/
theorem execAll_gather (m : Executor) {scope : Scope Var} {ks : List Kept} (hks : ∀ k ∈ ks, k.Lists)
    {declared : List Ident} (hdeclared : ∀ x ∈ declared, scope.contains x = true) :
    Code.execAll m declared (gather scope ks).body = Code.execAll m declared (ks.map Kept.code) := by
  unfold gather
  split
  · rename_i deps body locals
    split
    · rfl
    · rename_i hnew
      have hlocals : locals = body.filterMap declared? := hks _ mem_cons_self _ rfl
      have hapart : ∀ x ∈ body.filterMap declared?, (x ∈ declared ↔ x ∈ []) := by
        intro x hx
        refine ⟨fun hmem => absurd ?_ hnew, nofun⟩
        exact any_eq_true.2 ⟨x, hlocals ▸ hx, hdeclared x hmem⟩
      rw [Code.execAll_congr m hapart]
      simp only [map_cons, map_nil, Code.execAll, Code.exec, Run.andThen_next]
  · rfl

end KeptBlock

namespace Check

section Expressions

variable (m : Machine) {names : Ident → Option Meaning} {ctx : Context} {s s' : Expansion}

/-- An integer constant is computed without an effect. -/
theorem int_of_constInt (hnames : Explains names ctx) {e : Expr} {a : Int32}
    (h : Gives (constInt ctx e) s a s') : Run.int (e.eval m names) = pure a := by
  simp only [constInt, gives_bind, gives_guard, ne_eq, Decidable.not_not] at h
  obtain ⟨t, s₁, ht, hty, h⟩ := h
  cases hv : t.term.value? with
  | none => simp [hv] at h
  | some v =>
    simp only [hv, gives_pure] at h
    obtain ⟨rfl, -⟩ := h
    have hconst := value?_eq_some.1 hv
    have hkind : Ty.ofScalar v.kind = .int := (constTyped_of_gives ht v hconst).symm.trans hty
    rw [← (eval_of_expr m hnames ht).1, hconst]
    cases v with
    | int i => rfl
    | bool b | float f => cases hkind

/-- A written type is the type that checking finds. -/
theorem ty_of_tyExpr {te : TyExpr} {ty : Ty} (h : Gives (tyExpr ctx te) s ty s') : ty = te.ty := by
  induction te generalizing ty with
  | keyword b span => exact (gives_keyword.1 h).1
  | array elem len span ih =>
    obtain ⟨-, e, he, rfl⟩ := gives_array.1 h
    rw [TyExpr.ty, ih he]
  | named x span => exact (gives_named.1 h).1

end Expressions

section Statements

variable (m : Executor) {base : Ident → Option Meaning} {fc : FnContext} {inLoop : Bool}
  {outer : List (Scope Var)} {inner : Scope Var} {locals declared : List Ident} {s s' : Expansion}

/-- The top-level names mean what is found for them. -/
def ExplainsGlobals (base : Ident → Option Meaning) (g : Globals) : Prop :=
  ∀ x span s info s', Gives (g x span) s (some info) s' → base x = some (info.meaning x)

theorem explains_withLocals {g : Globals} (hg : ExplainsGlobals base g) {scopes : List (Scope Var)}
    (hlocals : BindLocals scopes locals) : Explains (withLocals base locals) ⟨scopes, g⟩ := by
  intro x span s info s' h
  have hx := hlocals x
  rcases gives_find.1 h with ⟨v, hv, hinfo, -⟩ | ⟨hnone, hglobal⟩
  · cases hinfo
    rw [show Scope.find? scopes x = some v from hv] at hx
    unfold withLocals
    split at hx
    · rename_i hmem
      rw [if_pos hmem]
      exact congrArg (fun r => some (Meaning.var r)) (Option.some.inj hx).symm
    · cases hx
  · rw [show Scope.find? scopes x = none from hnone] at hx
    unfold withLocals
    split at hx
    · cases hx
    · rename_i hmem
      rw [if_neg hmem]
      exact hg _ _ _ _ _ hglobal

/-- What is kept of a statement does what the statement does, in front of everything that does the same
behind both. Names stay bound, and blocks list what they declare. -/
structure Preserves (m : Executor) (base : Ident → Option Meaning) (outer : List (Scope Var)) (inner : Scope Var)
    (st : Stmt) (r : Scope Var × Option Kept) : Prop where
  grows : ∀ x, inner.contains x = true → r.1.contains x = true
  lists : ∀ k, r.2 = some k → k.Lists
  exec : ∀ {locals declared} {rest rest' : List Ident → Run Flow}, BindLocals (inner :: outer) locals →
    (∀ x ∈ declared, inner.contains x = true) →
    (∀ {locals' declared'}, BindLocals (r.1 :: outer) locals' → (∀ x ∈ declared', r.1.contains x = true) →
      rest' declared' = rest locals') →
    Code.execKept m declared rest' r.2 = st.exec m base locals rest

/-- What is kept of a block does what the block does. -/
structure PreservesBlock (m : Executor) (base : Ident → Option Meaning) (outer : List (Scope Var))
    (inner : Scope Var) (b : Block) (kept : KeptBlock) : Prop where
  lists : kept.Lists
  exec : ∀ {locals declared}, BindLocals (inner :: outer) locals → (∀ x ∈ declared, inner.contains x = true) →
    Code.execAll m declared kept.body = b.exec m base locals

/-- The statements of a block do what they do as they are written if each of them does. -/
theorem exec_of_stmts {ss : List Stmt} {last : Scope Var} {ks : List Kept}
    (ih : ∀ st ∈ ss, ∀ {inner s r s'}, Gives (stmt fc inLoop outer inner st) s r s' → Preserves m base outer inner st r)
    (h : Gives (stmts fc inLoop outer inner ss) s (last, ks) s') :
    (∀ x, inner.contains x = true → last.contains x = true) ∧ (∀ k ∈ ks, k.Lists) ∧
      ∀ {locals declared}, BindLocals (inner :: outer) locals → (∀ x ∈ declared, inner.contains x = true) →
        Code.execAll m declared (ks.map Kept.code) = Stmt.execAll m base locals ss := by
  induction ss generalizing inner s ks with
  | nil =>
    obtain ⟨rfl, rfl, -⟩ := gives_stmts_nil h
    exact ⟨fun _ hx => hx, nofun, fun _ _ => rfl⟩
  | cons st ss ihss =>
    obtain ⟨inner', k, s₁, more, hst, hrest, rfl⟩ := gives_stmts_cons h
    have hfirst := ih st mem_cons_self hst
    obtain ⟨hgrows, hlists, hexec⟩ := ihss (fun st' hst' => ih st' (mem_cons_of_mem _ hst')) hrest
    refine ⟨fun x hx => hgrows x (hfirst.grows x hx), fun k' hk' => ?_, fun {locals declared} hlocals hdeclared => ?_⟩
    · rcases mem_append.1 hk' with hk' | hk'
      · exact hfirst.lists k' (Option.mem_toList.1 hk')
      · exact hlists k' hk'
    · have hall : Code.execKept m declared (fun declared => Code.execAll m declared (more.map Kept.code)) k =
          st.exec m base locals fun locals => Stmt.execAll m base locals ss :=
        hfirst.exec hlocals hdeclared fun hlocals' hdeclared' => hexec hlocals' hdeclared'
      rw [Stmt.execAll, ← hall]
      cases k <;> rfl

theorem preserves_block_of {b : Block} {kept : KeptBlock}
    (ih : ∀ st ∈ b.stmts, ∀ {inner s r s'}, Gives (stmt fc inLoop outer inner st) s r s' →
      Preserves m base outer inner st r)
    (h : Gives (block fc inLoop outer inner b) s kept s') : PreservesBlock m base outer inner b kept := by
  obtain ⟨last, ks, hks, rfl⟩ := gives_block h
  obtain ⟨hgrows, hlists, hexec⟩ := exec_of_stmts m ih hks
  refine ⟨KeptBlock.lists_gather hlists, fun {locals declared} hlocals hdeclared => ?_⟩
  have hbound : ∀ x ∈ declared, last.contains x = true := fun x hx => hgrows x (hdeclared x hx)
  rw [KeptBlock.execAll_gather m hlists hbound, hexec hlocals hdeclared]
  cases b
  rfl

/-- A statement that declares nothing keeps the scope. -/
theorem Preserves.same {st : Stmt} {k : Option Kept} (hlists : ∀ k', k = some k' → k'.Lists)
    (hexec : ∀ {locals declared} {rest rest' : List Ident → Run Flow}, BindLocals (inner :: outer) locals →
      rest' declared = rest locals → Code.execKept m declared rest' k = st.exec m base locals rest) :
    Preserves m base outer inner st (inner, k) :=
  ⟨fun _ hx => hx, hlists, fun hlocals hdeclared hrest => hexec hlocals (hrest hlocals hdeclared)⟩

/-- A statement that is no block lists nothing. -/
theorem Kept.lists_of_ne {deps : Deps} {c : Code} {locals : List Ident} (hc : ∀ body, c ≠ .block body) :
    Kept.Lists ⟨deps, c, locals⟩ := fun body hbody => absurd hbody (hc body)

/-- A loop that is left out never turns or has nothing to do; one that is kept goes over the same values. -/
theorem preserves_for {x : Ident} {first bound : Expr} {step : Option Expr} {body : Block} {span : Span}
    {r : Scope Var × Option Kept} (hg : ExplainsGlobals base fc.globals)
    (hbody : ∀ {s kept s'}, Gives (block fc true (inner :: outer) ⟨[(x, ⟨.int, .localVar false⟩)]⟩ body) s kept s' →
      PreservesBlock m base (inner :: outer) ⟨[(x, ⟨.int, .localVar false⟩)]⟩ body kept)
    (h : Gives (stmt fc inLoop outer inner (.forStmt x first bound step body span)) s r s') :
    Preserves m base outer inner (.forStmt x first bound step body span) r := by
  obtain ⟨a, s₁, b, s₂, i, s₃, kept, s₄, ha, hb, hi, hkept, hr⟩ := gives_for h
  have hinside := hbody hkept
  -- The header is computed, and the body does what it does as it is written.
  have hsource {locals : List Ident} (rest : List Ident → Run Flow) (hlocals : BindLocals (inner :: outer) locals) :
      (Stmt.forStmt x first bound step body span).exec m base locals rest = Run.andThen
        (Run.loop x (Code.execAll m [x] kept.body) (loopValues a b i)) (rest locals) := by
    have hnames := explains_withLocals hg hlocals
    have hturn : Code.execAll m [x] kept.body = body.exec m base (x :: locals) :=
      hinside.exec (hlocals.loop x) (by simp [Scope.contains, Scope.lookup?])
    have hstep : Expr.stepOf m base locals a b step = pure i := by
      cases step with
      | none =>
        simp only [loopStep, gives_pure] at hi
        rw [Expr.stepOf, hi.1]
      | some e =>
        simp only [loopStep, gives_bind, gives_guard, gives_pure] at hi
        obtain ⟨i', s₅, hi', -, -, -, rfl, -⟩ := hi
        exact int_of_constInt m.toMachine hnames hi'
    simp only [Stmt.exec, int_of_constInt m.toMachine hnames ha, int_of_constInt m.toMachine hnames hb, pure_bind,
      hstep, hturn]
  rcases hr with ⟨hpruned, rfl, -⟩ | ⟨-, -, rfl⟩
  · refine .same m (by simp) fun {locals declared rest rest'} hlocals hrest => ?_
    have hnothing : Run.loop x (Code.execAll m [x] kept.body) (loopValues a b i) = pure .next := by
      rcases hpruned with rfl | hempty
      · rw [loopValues_self]
        rfl
      · have hnil : kept.body = [] := by simpa [KeptBlock.isEmpty] using hempty
        rw [hnil]
        exact Run.loop_next x _
    rw [hsource rest hlocals, hnothing, Run.next_andThen]
    exact hrest
  · refine .same m ?_ fun {locals declared rest rest'} hlocals hrest => ?_
    · rintro _ ⟨⟩
      exact Kept.lists_of_ne (by simp)
    · rw [hsource rest hlocals, ← hrest]
      simp only [Code.execKept, Code.exec]

/-- A branch on a constant does what the taken block does. -/
theorem preserves_if {test : Expr} {yes : Block} {no : Option Block} {span : Span} {r : Scope Var × Option Kept}
    (hg : ExplainsGlobals base fc.globals)
    (hyes : ∀ {s kept s'}, Gives (block fc inLoop (inner :: outer) .empty yes) s kept s' →
      PreservesBlock m base (inner :: outer) .empty yes kept)
    (hno : ∀ b, no = some b → ∀ {s kept s'}, Gives (block fc inLoop (inner :: outer) .empty b) s kept s' →
      PreservesBlock m base (inner :: outer) .empty b kept)
    (h : Gives (stmt fc inLoop outer inner (.ifStmt test yes no span)) s r s') :
    Preserves m base outer inner (.ifStmt test yes no span) r := by
  obtain ⟨t, s₁, yes', s₂, no', s₃, ht, hty, hyes', hno', hr⟩ := gives_if h
  have hfirst := hyes hyes'
  have helse : no'.Lists ∧ ∀ {locals}, BindLocals (inner :: outer) locals → Code.execAll m [] no'.body =
      match no with
      | none => pure Flow.next
      | some b => b.exec m base locals := by
    cases no with
    | none =>
      simp only [elseBlock, gives_pure] at hno'
      obtain ⟨rfl, -⟩ := hno'
      exact ⟨rfl, fun _ => rfl⟩
    | some b =>
      have hb := hno b rfl hno'
      exact ⟨hb.lists, fun hlocals => hb.exec hlocals.enter (forall_mem_nil _)⟩
  have hsource {locals : List Ident} (rest : List Ident → Run Flow) (hlocals : BindLocals (inner :: outer) locals) :
      (Stmt.ifStmt test yes no span).exec m base locals rest = Run.andThen (Run.branch (t.term.eval m.toMachine)
        (Code.execAll m [] yes'.body) (Code.execAll m [] no'.body)) (rest locals) := by
    rw [hfirst.exec hlocals.enter (forall_mem_nil _), helse.2 hlocals,
      (eval_of_expr m.toMachine (explains_withLocals hg hlocals) ht).1]
    cases no <;> simp only [Stmt.exec]
  rcases hr with ⟨v, hv, rfl, -⟩ | ⟨-, -, rfl⟩
  · have htruth := eval_truth m.toMachine (constTyped_of_gives ht) hty hv
    have hlists : (if v.toBool then yes' else no').Lists := by
      split
      · exact hfirst.lists
      · exact helse.1
    refine .same m (fun k hk => hlists.kept hk) fun {locals declared rest rest'} hlocals hrest => ?_
    rw [hsource rest hlocals, htruth, Run.branch_pure, Code.execKept_kept?, hrest]
    split <;> rfl
  · refine .same m ?_ fun {locals declared rest rest'} hlocals hrest => ?_
    · rintro _ ⟨⟩
      refine Kept.lists_of_ne fun body => ?_
      unfold Code.ofBranch
      split <;> simp
    · rw [hsource rest hlocals, ← hrest]
      exact Code.exec_ofBranch m t.term yes' no' declared rest'

/-- A declared variable has the same first value, and its name is new between the braces. -/
theorem preserves_let {x : Ident} {ty : Option TyExpr} {init : Option Expr} {span : Span}
    {r : Scope Var × Option Kept} (hg : ExplainsGlobals base fc.globals)
    (h : Gives (stmt fc inLoop outer inner (.letStmt x ty init span)) s r s') :
    Preserves m base outer inner (.letStmt x ty init span) r := by
  obtain ⟨value, s₁, t, inner', hvalue, hty, hinsert, rfl⟩ := gives_let h
  have hgrows : ∀ y, inner.contains y = true → inner'.contains y = true := by
    intro y hy
    rw [Scope.contains, Scope.lookup?_insert? hinsert]
    split
    · rfl
    · exact hy
  refine ⟨hgrows, ?_, fun {locals declared rest rest'} hlocals hdeclared hrest => ?_⟩
  · rintro _ ⟨⟩
    exact Kept.lists_of_ne (by simp)
  have hnames := explains_withLocals hg hlocals
  have hnew : x ∉ declared := by
    intro hx
    have hbound := hdeclared x hx
    rw [Scope.contains, Scope.lookup?_none_of_insert? hinsert] at hbound
    cases hbound
  have hfirst : m.initial t ((value.map fun v => v.1.term).map fun t => t.eval m.toMachine) =
      m.initial (ty.elim .void TyExpr.ty) (init.map fun e => e.eval m.toMachine (withLocals base locals)) := by
    rcases gives_initValue hvalue with ⟨rfl, rfl, -⟩ | ⟨e, e', rfl, he, rfl⟩
    · rcases gives_letTy hty with ⟨te, rfl, hte, -⟩ | ⟨-, -, e, he, -⟩
      · rw [ty_of_tyExpr hte]
        rfl
      · cases he
    · exact (eval_of_expr m.toMachine hnames he).1
  have hbehind : rest' (x :: declared) = rest (x :: locals) := by
    refine hrest (hlocals.insert hinsert) fun y hy => ?_
    rcases mem_cons.1 hy with rfl | hy
    · rw [Scope.contains, Scope.lookup?_insert? hinsert, if_pos rfl]
      rfl
    · exact hgrows y (hdeclared y hy)
  simp only [Code.execKept, Code.exec, Stmt.exec, if_neg hnew, hfirst, hbehind]

/-- What is kept of a statement does what the statement does. -/
theorem preserves_of_stmt (hg : ExplainsGlobals base fc.globals) {st : Stmt} {r : Scope Var × Option Kept}
    (h : Gives (stmt fc inLoop outer inner st) s r s') : Preserves m base outer inner st r := by
  induction st generalizing inLoop outer inner s r s' with
  | breakStmt span =>
    obtain ⟨-, rfl, -⟩ := gives_break h
    refine .same m ?_ fun _ _ => rfl
    rintro _ ⟨⟩
    exact Kept.lists_of_ne (by simp)
  | continueStmt span =>
    obtain ⟨-, rfl, -⟩ := gives_continue h
    refine .same m ?_ fun _ _ => rfl
    rintro _ ⟨⟩
    exact Kept.lists_of_ne (by simp)
  | forStmt x first bound step body span ih =>
    exact preserves_for m hg (fun hkept => preserves_block_of m (fun st hst => ih st hst) hkept) h
  | ifStmt test yes no span ihyes ihno =>
    exact preserves_if m hg (fun hkept => preserves_block_of m (fun st hst => ihyes st hst) hkept)
      (fun b hb => fun hkept => preserves_block_of m (fun st hst => ihno b hb st hst) hkept) h
  | letStmt x ty init span => exact preserves_let m hg h
  | returnStmt value span =>
    rcases gives_return h with ⟨rfl, -, rfl, -⟩ | ⟨e, e', rfl, he, -, rfl⟩
    · refine .same m ?_ fun _ _ => rfl
      rintro _ ⟨⟩
      exact Kept.lists_of_ne (by simp)
    · refine .same m ?_ fun hlocals _ => ?_
      · rintro _ ⟨⟩
        exact Kept.lists_of_ne (by simp)
      · simp only [Code.execKept, Code.exec, Stmt.exec,
          (eval_of_expr m.toMachine (explains_withLocals hg hlocals) he).1]
  | blockStmt b span ih =>
    obtain ⟨kept, hkept, rfl⟩ := gives_blockStmt h
    have hb := preserves_block_of m (fun st hst => ih st hst) hkept
    refine .same m (fun k hk => hb.lists.kept hk) fun hlocals hrest => ?_
    rw [Code.execKept_kept?, hb.exec hlocals.enter (forall_mem_nil _), hrest, Stmt.exec]
  | exprStmt e span =>
    obtain ⟨e', he, rfl⟩ := gives_exprStmt h
    refine .same m ?_ fun {locals declared rest rest'} hlocals hrest => ?_
    · rintro _ ⟨⟩
      refine Kept.lists_of_ne fun body => ?_
      unfold Code.ofExpr
      repeat' split
      all_goals nofun
    · rw [Code.execKept, Code.exec_ofExpr, (eval_of_expr m.toMachine (explains_withLocals hg hlocals) he).1, hrest]
      simp only [Stmt.exec]

end Statements

section Functions

variable {base : Ident → Option Meaning} {g : Globals} {s s' : Expansion}

/-- What is emitted of a function has its name and parameters, and does what the function does. -/
theorem exec_of_fn (hg : ExplainsGlobals base g) {d : FnDecl} {f : FnDef} (h : Gives (fn g d) s f s') :
    f.name = d.name ∧ f.params.map Prod.fst = d.params.map TypedName.name ∧
      ∀ m : Executor, f.exec m = d.exec m base := by
  obtain ⟨result, s₁, scope, ps, s₂, body, -, hparams, hbody, -, rfl⟩ := gives_fn h
  obtain ⟨hlocals, hnames⟩ := bindLocals_of_params BindLocals.nil.enter hparams
  rw [append_nil] at hlocals
  refine ⟨rfl, hnames, fun m => ?_⟩
  have hpreserves := preserves_block_of m (fun st _ => fun hst => preserves_of_stmt m hg hst) hbody
  rw [FnDef.exec, FnDecl.exec, hnames]
  exact hpreserves.exec hlocals fun x hx => hlocals.contains hx

end Functions

end Check

/-- The functions of an accepted shader do what they do as they are written. Each function in the texts comes from
a declaration of the same name and parameters. Whatever the machine and in every world, its emitted body has the
effect of the declared one: the same values of all variables behind it, the same stores and calls in the same
order, and control leaves it the same way, with the same value. -/
theorem emit_keeps_behaviour {d : Dialect} {extra : Builtins} {decls : List Decl} {c : Compiled}
    {events : List Event} (h : emit d extra decls = (.ok c, events)) :
    ∃ p, (Program.check (Builtin.defaults ++ extra) d.sharesDecls decls).1 = .ok p ∧ c = p.write d ∧
      d.IsText .vertex c.interface.varyings p.vertex.items c.vertexText ∧
      d.IsText .fragment c.interface.varyings p.fragment.items c.fragmentText ∧
      ∀ f, .fn f ∈ p.vertex.items ∨ .fn f ∈ p.fragment.items → ∃ decl, .fn decl ∈ decls ∧ f.name = decl.name ∧
        f.params.map Prod.fst = decl.params.map TypedName.name ∧ ∀ (m : Executor) (w : World),
          (f.exec m).run w = (decl.exec m (declaredMeaning? (Builtin.defaults ++ extra) decls)).run w := by
  obtain ⟨p, hp, rfl, ⟨a⟩⟩ := accepted_of_emit h
  refine ⟨p, hp, rfl, a.isText_vertex d, a.isText_fragment d, fun f hf => ?_⟩
  obtain ⟨s', hgives⟩ := Check.gives_of_check hp
  have hmem : f ∈ p.vertex.fns ++ p.fragment.fns := by simpa [StageUnit.items, StageUnit.interfaceItems] using hf
  obtain ⟨hnames, scope, vars, t, t', hvars, horigin⟩ := Check.origin_of_program hgives
  obtain ⟨decl, hdecl, n, u, s, s₁, hfn⟩ := horigin f hmem
  have hglobals : Check.ExplainsGlobals (declaredMeaning? (Builtin.defaults ++ extra) decls)
      (Check.globals (.ofDecls (Builtin.defaults ++ extra) decls) scope n u) :=
    fun _ _ _ _ _ hx => Check.explains_globals hnames hvars n u hx
  obtain ⟨hname, hparams, hexec⟩ := Check.exec_of_fn hglobals hfn
  exact ⟨decl, Check.mem_fns_ofDecls.1 hdecl, hname, hparams, fun m w => by rw [hexec m]⟩

/-- A function in which a loop that never turns, a loop with nothing to do and an empty block are left out, a taken
branch shares the braces of its only block, a branch is turned around and one is chained behind `else`, with
`continue` and `break` in it. Both forms run to the end alike. -/
theorem pruned_function_runs_alike :
    let vec4 : TyExpr := .keyword (.vector .float .four) .unset
    let var (x : Ident) : Expr := .var x .unset
    let int (n : Int32) : Expr := .lit (.int n) .unset
    let block (body : List Stmt) : Block := .mk body .unset
    let store (x y : Ident) : Stmt := .exprStmt (.bin .assign (var x) (var y) .unset) .unset
    let empty : Stmt := .blockStmt (block []) .unset
    let vertex : FnDecl := ⟨"vertex", [], some vec4, block [
      .letStmt "x" none (some (var "pos")) .unset,
      .forStmt "i" (int 3) (int 3) none (block [store "x" "pos"]) .unset,
      .forStmt "i" (int 0) (int 2) none (block [empty]) .unset,
      .ifStmt (.lit (.bool true) .unset)
        (block [.blockStmt (block [.letStmt "y" none (some (var "x")) .unset, store "x" "y"]) .unset])
        (some (block [.returnStmt (some (var "pos")) .unset])) .unset,
      .ifStmt (var "flag") (block [empty]) (some (block [store "x" "pos"])) .unset,
      .forStmt "i" (int 2) (int 0) none (block [.ifStmt (var "flag") (block [.continueStmt .unset])
        (some (block [.ifStmt (var "flag") (block [store "x" "pos"]) (some (block [.breakStmt .unset])) .unset]))
        .unset]) .unset,
      .returnStmt (some (var "x")) .unset], .unset⟩
    let decls : List Decl := [.attributeVar ⟨"pos", vec4, .unset⟩,
      .uniformVar ⟨"flag", .keyword (.scalar .bool) .unset, .unset⟩ none, .fn vertex,
      .fn ⟨"fragment", [], some vec4, block [.returnStmt (some (var "color")) .unset], .unset⟩,
      .varyingVar ⟨"color", vec4, .unset⟩]
    let names := declaredMeaning? (Builtin.defaults ++ []) decls
    let shape : FnDef → Bool
      | ⟨"vertex", _, _, _, [.declare .., .block [.declare .., .assign ..], .branch (.un .not _) [.assign ..] none,
          .loop _ _ _ _ [.branch _ [.nextTurn] (some (.branch _ [.assign ..] (some (.block [.exitLoop]))))],
          .ret _]⟩ => true
      | _ => false
    let m : Executor :=
      { wide := fun _ _ _ => none, wideNeg := fun _ => none, quotientByZero := fun _ => 0,
        construct := fun _ _ => none, makeStruct := fun _ _ => none, builtin := fun _ _ => none,
        call := fun _ _ _ => none, blank := fun _ _ => .array [] }
    let w : World := ⟨fun r => .scalar (.bool (r = .attributeVar "pos")), []⟩
    ∃ (c : Compiled) (events : List Event) (p : Program) (f : FnDef),
      emit (Glsl.dialect {}) [] decls = (.ok c, events) ∧ c = p.write (Glsl.dialect {}) ∧ .fn f ∈ p.vertex.items ∧
      shape f = true ∧ (f.exec m).run w = (vertex.exec m names).run w ∧ ((f.exec m).run w).isSome = true := by
  intro vec4 var int block store empty vertex decls names shape m w
  obtain ⟨p, events, hp, h, hshape⟩ := emit_of_check
    (show (Program.check (Builtin.defaults ++ []) (Glsl.dialect {}).sharesDecls decls).1.toOption.any
      (fun p => p.vertex.fns.any shape) = true by decide +kernel)
  obtain ⟨f, hf, hfshape⟩ := any_eq_true.1 hshape
  obtain ⟨p', hp', heq, -, -, hexec⟩ := emit_keeps_behaviour h
  obtain rfl : p = p' := Except.ok.inj (hp.symm.trans hp')
  have hitem : .fn f ∈ p.vertex.items := by simp [StageUnit.items, hf]
  obtain ⟨decl, hdecl, hname, -, hrun⟩ := hexec f (.inl hitem)
  have hvertex : f.name = "vertex" := by
    simp only [shape] at hfshape
    split at hfshape
    · rfl
    · cases hfshape
  have hsource : decl = vertex := by
    simp only [decls, mem_cons, not_mem_nil, or_false, reduceCtorEq, false_or, Decl.fn.injEq] at hdecl
    rcases hdecl with rfl | rfl
    · rfl
    · rw [hvertex] at hname
      exact absurd hname (by decide)
  rw [hsource] at hrun
  refine ⟨_, events, p, f, h, heq, hitem, hfshape, hrun m w, ?_⟩
  rw [hrun m w]
  decide +kernel

end Shading
