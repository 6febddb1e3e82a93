import Shading.Proofs.Statements

/-!
# Where local names are declared

A scope tells of a name what variable it stands for, but not which declaration made it. Checking is repeated
here with scopes that also hold the site of each declaration, and with code that remembers, for each
declaration that is written, the site it comes from and, for each expression, the scopes it was checked in. Both
ways of checking are one: forgetting the sites turns a traced function into the function that checking gives
(`forget_fn`), with the same outcome and the same expansion, also where it fails.
-/

namespace Shading

open List

namespace Scope

variable {α β : Type}

/-- The same names, with what they are bound to changed. -/
def map (f : α → β) (s : Scope α) : Scope β := ⟨s.entries.map fun e => (e.1, f e.2)⟩

theorem lookup?_map (f : α → β) (s : Scope α) (x : Ident) : (s.map f).lookup? x = (s.lookup? x).map f := by
  obtain ⟨entries⟩ := s
  induction entries with
  | nil => rfl
  | cons e entries ih =>
    obtain ⟨y, a⟩ := e
    simp only [map, lookup?, map_cons, lookup_cons] at ih ⊢
    cases x == y with
    | true => rfl
    | false => exact ih

theorem contains_map (f : α → β) (s : Scope α) : (s.map f).contains = s.contains := by
  funext x
  rw [contains, lookup?_map, Option.isSome_map, contains]

theorem insert?_map (f : α → β) (s : Scope α) (x : Ident) (a : α) :
    (s.map f).insert? x (f a) = (s.insert? x a).map (map f) := by
  unfold insert?
  rw [contains_map]
  split <;> rfl

theorem find?_map (f : α → β) (scopes : List (Scope α)) (x : Ident) :
    find? (scopes.map (map f)) x = (find? scopes x).map f := by
  induction scopes with
  | nil => rfl
  | cons s scopes ih =>
    simp only [find?, map_cons, findSome?_cons, lookup?_map] at ih ⊢
    cases s.lookup? x with
    | none => exact ih
    | some a => rfl

end Scope

/-- Where a local name is declared: as a parameter, or by the statement at the end of a path. A path leads from the
body of the function to a statement; it counts the statements of a block, and the blocks of a statement. -/
inductive Site where
  | param (index : Nat)
  | stmt (path : List Nat)
deriving DecidableEq

/-- A local variable with the site of its declaration. -/
structure Local where
  ty : Ty
  mutable : Bool
  site : Site

def Local.var (l : Local) : Var := ⟨l.ty, .localVar l.mutable⟩

/-- The scopes around a place of the source, innermost first. -/
abbrev Scopes := List (Scope Local)

/-- The scopes without the sites, as checking has them. -/
def Scopes.forget (scopes : Scopes) : List (Scope Var) := scopes.map (Scope.map Local.var)

/-- Emitted statements that remember where they come from: expressions have with them the scopes they were checked
in, declarations and loops the site of their variable. -/
inductive Traced where
  | exitLoop
  | nextTurn
  | assign (scopes : Scopes) (op : BinOp) (left right : Term)
  | eval (scopes : Scopes) (t : Term)
  | declare (scopes : Scopes) (site : Site) (x : Ident) (ty : Ty) (init : Option Term)
  | ret (scopes : Scopes) (t : Option Term)
  | block (body : List Traced)
  | loop (site : Site) (x : Ident) (first bound step : Int32) (body : List Traced)
  | branch (scopes : Scopes) (test : Term) (yes : List Traced) (no : Option Traced)

namespace Traced

mutual

/-- The statement that is written. -/
def forget : Traced → Code
  | .exitLoop => .exitLoop
  | .nextTurn => .nextTurn
  | .assign _ op l r => .assign op l r
  | .eval _ t => .eval t
  | .declare _ _ x ty init => .declare x ty init
  | .ret _ t => .ret t
  | .block body => .block (forgetAll body)
  | .loop _ x first bound step body => .loop x first bound step (forgetAll body)
  | .branch _ test yes no => .branch test (forgetAll yes) (forgetElse no)

def forgetAll : List Traced → List Code
  | [] => []
  | c :: cs => c.forget :: forgetAll cs

def forgetElse : Option Traced → Option Code
  | none => none
  | some c => some c.forget

end

theorem forgetAll_eq (cs : List Traced) : forgetAll cs = cs.map forget := by
  induction cs with
  | nil => rfl
  | cons c cs ih => rw [forgetAll, ih, map_cons]

theorem forgetElse_eq (no : Option Traced) : forgetElse no = no.map forget := by
  cases no <;> rfl

def declared? : Traced → Option Ident
  | .declare _ _ x _ _ => some x
  | _ => none

theorem declared?_forget (c : Traced) : KeptBlock.declared? c.forget = c.declared? := by
  cases c <;> rfl

end Traced

/-- A traced statement that is kept, as `Kept`. -/
structure TracedKept where
  deps : Deps
  code : Traced
  locals : List Ident := []

def TracedKept.forget (k : TracedKept) : Kept := ⟨k.deps, k.code.forget, k.locals⟩

/-- What is kept of a block, as `KeptBlock`. -/
structure TracedBlock where
  deps : Deps
  body : List Traced
  locals : List Ident
  shared : Bool

namespace TracedBlock

def forget (b : TracedBlock) : KeptBlock := ⟨b.deps, b.body.map Traced.forget, b.locals, b.shared⟩

def empty : TracedBlock := ⟨.none, [], [], false⟩

def isEmpty (b : TracedBlock) : Bool := b.body.isEmpty

/-- The block of the statements kept. A block that is the only one loses its braces, as for `KeptBlock.gather`. -/
def gather (scope : Scope Local) (kept : List TracedKept) : TracedBlock :=
  let deps := Deps.unionAll (kept.map TracedKept.deps)
  let own : TracedBlock :=
    ⟨deps, kept.map TracedKept.code, (kept.map TracedKept.code).filterMap Traced.declared?, false⟩
  match kept with
  | [⟨_, .block body, locals⟩] =>
    if locals.any scope.contains then own else ⟨deps, body, locals, true⟩
  | _ => own

def kept? (b : TracedBlock) : Option TracedKept :=
  if b.isEmpty then none else some ⟨b.deps, .block b.body, b.locals⟩

def elsePart? (b : TracedBlock) : Option Traced :=
  match b.body, b.shared with
  | [], _ => none
  | [.branch scopes test yes no], false => some (.branch scopes test yes no)
  | body, _ => some (.block body)

theorem isEmpty_forget (b : TracedBlock) : b.forget.isEmpty = b.isEmpty := by
  obtain ⟨_, body, _, _⟩ := b
  cases body <;> rfl

theorem kept?_forget (b : TracedBlock) : b.forget.kept? = b.kept?.map TracedKept.forget := by
  unfold KeptBlock.kept? kept?
  rw [isEmpty_forget]
  split
  · rfl
  · simp only [Option.map_some, TracedKept.forget, Traced.forget, Traced.forgetAll_eq]
    rfl

theorem elsePart?_forget (b : TracedBlock) : b.forget.elsePart? = b.elsePart?.map Traced.forget := by
  obtain ⟨deps, body, locals, shared⟩ := b
  match body, shared with
  | [], _ => rfl
  | [c], true => cases c <;> simp [forget, KeptBlock.elsePart?, elsePart?, Traced.forget, Traced.forgetAll]
  | [c], false => cases c <;> simp [forget, KeptBlock.elsePart?, elsePart?, Traced.forget, Traced.forgetAll]
  | c :: c' :: cs, shared =>
    cases c <;> simp [forget, KeptBlock.elsePart?, elsePart?, Traced.forget, Traced.forgetAll, Traced.forgetAll_eq]

theorem gather_forget (scope : Scope Local) (kept : List TracedKept) :
    KeptBlock.gather (scope.map Local.var) (kept.map TracedKept.forget) = (gather scope kept).forget := by
  have hdeps : (kept.map TracedKept.forget).map Kept.deps = kept.map TracedKept.deps := by
    rw [map_map]
    rfl
  have hcodes : (kept.map TracedKept.forget).map Kept.code = (kept.map TracedKept.code).map Traced.forget := by
    rw [map_map, map_map]
    rfl
  have hlocals : ((kept.map TracedKept.code).map Traced.forget).filterMap KeptBlock.declared? =
      (kept.map TracedKept.code).filterMap Traced.declared? := by
    rw [filterMap_map]
    exact congrArg (List.filterMap · _) (funext Traced.declared?_forget)
  unfold KeptBlock.gather gather
  rw [hdeps, hcodes, hlocals]
  match kept with
  | [] => rfl
  | [⟨deps, c, locals⟩] =>
    cases c with
    | block body =>
      simp only [map_cons, map_nil, TracedKept.forget, Traced.forget, Scope.contains_map]
      split
      · simp [TracedBlock.forget, Traced.forget]
      · simp [TracedBlock.forget, Traced.forgetAll_eq]
    | exitLoop | nextTurn | assign | eval | declare | ret | loop | branch => rfl
  | ⟨_, c, _⟩ :: k' :: ks => cases c <;> rfl

end TracedBlock

/-- The branch on a test that is not constant, as `Code.ofBranch`. -/
def Traced.ofBranch (scopes : Scopes) (test : Term) (yes no : TracedBlock) : Traced :=
  if yes.isEmpty && !no.isEmpty then .branch scopes (.un .not test) no.body none
  else .branch scopes test yes.body no.elsePart?

/-- The statement of an expression, as `Code.ofExpr`. -/
def Traced.ofExpr (scopes : Scopes) (source : Expr) (t : Term) : Traced :=
  match source, t with
  | .bin op _ _ _, .bin op' l r => if op.isAssignment then .assign scopes op' l r else .eval scopes t
  | _, _ => .eval scopes t

theorem Traced.forget_ofBranch (scopes : Scopes) (test : Term) (yes no : TracedBlock) :
    (ofBranch scopes test yes no).forget = .ofBranch test yes.forget no.forget := by
  unfold ofBranch Code.ofBranch
  rw [TracedBlock.isEmpty_forget, TracedBlock.isEmpty_forget]
  split
  · simp only [forget, forgetAll_eq, forgetElse_eq]
    rfl
  · simp only [forget, forgetAll_eq, forgetElse_eq, TracedBlock.elsePart?_forget]
    rfl

theorem Traced.forget_ofExpr (scopes : Scopes) (source : Expr) (t : Term) :
    (ofExpr scopes source t).forget = .ofExpr source t := by
  unfold ofExpr
  split
  · simp only [Code.ofExpr]
    split <;> rfl
  · rename_i hother
    unfold Code.ofExpr
    split
    · exact (hother _ _ _ _ _ _ _ rfl rfl).elim
    · rfl

namespace Check

mutual

/-- Checks the statement at the end of a path, as `stmt`. -/
def traceStmt (fc : FnContext) (inLoop : Bool) (outer : Scopes) (inner : Scope Local) (path : List Nat) :
    Stmt → Check (Scope Local × Option TracedKept)
  | .breakStmt span => do
    if !inLoop then refuse .strayBreak span
    return (inner, some ⟨.none, .exitLoop, []⟩)
  | .continueStmt span => do
    if !inLoop then refuse .strayContinue span
    return (inner, some ⟨.none, .nextTurn, []⟩)
  | .forStmt x first bound step body span => do
    let ctx : Context := ⟨Scopes.forget (inner :: outer), fc.globals⟩
    let a ← constInt ctx first
    let b ← constInt ctx bound
    let s ← loopStep ctx x a b step
    let kept ← traceBlock fc true (inner :: outer) ⟨[(x, ⟨.int, false, .stmt path⟩)]⟩ (path ++ [0]) body
    if a = b ∨ kept.isEmpty then
      note (.prunedLoop x span)
      return (inner, none)
    else return (inner, some ⟨kept.deps, .loop (.stmt path) x a b s kept.body, []⟩)
  | .ifStmt test yes no span => do
    let t ← expr ⟨Scopes.forget (inner :: outer), fc.globals⟩ false test
    if t.ty ≠ .bool then refuse (.mismatch .bool t.ty) test.span
    let yes' ← traceBlock fc inLoop (inner :: outer) .empty (path ++ [0]) yes
    let no' ← traceElse fc inLoop (inner :: outer) (path ++ [1]) no
    match t.term.value? with
    | some v =>
      note (.prunedBranch v.toBool span)
      return (inner, (if v.toBool then yes' else no').kept?)
    | none =>
      let deps := (t.deps.union yes'.deps).union no'.deps
      return (inner, some ⟨deps, .ofBranch (inner :: outer) t.term yes' no', []⟩)
  | .letStmt x ty init span => do
    let ctx : Context := ⟨Scopes.forget (inner :: outer), fc.globals⟩
    let value ← initValue ctx init
    let t ← letTy ctx x ty value span
    match inner.insert? x ⟨t, true, .stmt path⟩ with
    | none => refuse (.redefined x) span
    | some inner' =>
      let deps := value.elim Deps.none fun v => v.1.deps
      let code : Traced := .declare (inner :: outer) (.stmt path) x t (value.map fun v => v.1.term)
      return (inner', some ⟨deps, code, []⟩)
  | .returnStmt value span => do
    match value with
    | none =>
      if fc.result ≠ .void then refuse (.missingResult fc.result) span
      return (inner, some ⟨.none, .ret (inner :: outer) none, []⟩)
    | some e =>
      let e' ← expr ⟨Scopes.forget (inner :: outer), fc.globals⟩ false e
      if e'.ty ≠ fc.result then refuse (.mismatch fc.result e'.ty) e.span
      return (inner, some ⟨e'.deps, .ret (inner :: outer) (some e'.term), []⟩)
  | .blockStmt b _ => do
    let kept ← traceBlock fc inLoop (inner :: outer) .empty (path ++ [0]) b
    return (inner, kept.kept?)
  | .exprStmt e _ => do
    let e' ← expr ⟨Scopes.forget (inner :: outer), fc.globals⟩ false e
    return (inner, some ⟨e'.deps, .ofExpr (inner :: outer) e e'.term, []⟩)

/-- Checks statements of the block at the end of a path, the first of them that with the given number. -/
def traceStmts (fc : FnContext) (inLoop : Bool) (outer : Scopes) (inner : Scope Local) (path : List Nat)
    (number : Nat) : List Stmt → Check (Scope Local × List TracedKept)
  | [] => return (inner, [])
  | s :: rest => do
    let (inner', kept) ← traceStmt fc inLoop outer inner (path ++ [number]) s
    let (last, more) ← traceStmts fc inLoop outer inner' path (number + 1) rest
    return (last, kept.toList ++ more)

/-- Checks the block at the end of a path, as `block`. -/
def traceBlock (fc : FnContext) (inLoop : Bool) (outer : Scopes) (inner : Scope Local) (path : List Nat) :
    Block → Check TracedBlock
  | .mk ss _ => do
    let (last, kept) ← traceStmts fc inLoop outer inner path 0 ss
    return TracedBlock.gather last kept

/-- Checks the block behind `else`, where there is one. -/
def traceElse (fc : FnContext) (inLoop : Bool) (outer : Scopes) (path : List Nat) :
    Option Block → Check TracedBlock
  | none => pure TracedBlock.empty
  | some b => traceBlock fc inLoop outer .empty path b

end

/-- Checks parameters, of which the first is that with the given number, as `params`. -/
def traceParams (globals : Globals) (scope : Scope Local) (number : Nat) :
    List TypedName → Check (Scope Local × List (Ident × Ty))
  | [] => return (scope, [])
  | p :: ps => do
    let ty ← tyExpr ⟨Scopes.forget [scope], globals⟩ p.ty
    match scope.insert? p.name ⟨ty, false, .param number⟩ with
    | none => refuse (.redefined p.name) p.span
    | some scope' => do
      let (last, more) ← traceParams globals scope' (number + 1) ps
      return (last, (p.name, ty) :: more)

end Check

/-- A function with a body that remembers where it comes from. -/
structure TracedFn where
  name : Ident
  params : List (Ident × Ty)
  result : Ty
  deps : Deps
  body : List Traced

def TracedFn.forget (f : TracedFn) : FnDef := ⟨f.name, f.params, f.result, f.deps, f.body.map Traced.forget⟩

namespace Check

def traceFn (globals : Globals) (d : FnDecl) : Check TracedFn := do
  let result ← resultTy globals d.result
  let (scope, ps) ← traceParams globals .empty 0 d.params
  let body ← traceBlock ⟨globals, result⟩ false [] scope [] d.body
  if body.deps.readsVaryings && body.deps.writesVaryings then
    refuse (.readsAndWritesVaryings d.name) d.span
  return ⟨d.name, ps, result, body.deps, body.body⟩

/-! ### Forgetting the sites -/

section Forgetting

theorem gives_map {α β : Type} {f : α → β} {m : Check α} {s s' : Expansion} {b : β} :
    Gives (f <$> m) s b s' ↔ ∃ a, Gives m s a s' ∧ f a = b := by
  rw [map_eq_pure_bind]
  simp only [gives_bind, gives_pure]
  constructor
  · rintro ⟨a, s₁, hm, rfl, rfl⟩
    exact ⟨a, hm, rfl⟩
  · rintro ⟨a, hm, rfl⟩
    exact ⟨a, s', hm, rfl, rfl⟩

/-- A result is changed behind a test that may refuse. -/
theorem map_guard {α β γ : Type} {f : α → γ} {c : Prop} [Decidable c] {cause : Cause} {span : Span}
    {k : β → Check α} {k' : β → Check γ} {n : Check α} {n' : Check γ} (h : f <$> n = n') :
    f <$> (if c then refuse cause span >>= k else n) = if c then refuse cause span >>= k' else n' := by
  split
  · rfl
  · exact h

variable (fc : FnContext) (inLoop : Bool)

/-- What a traced statement gives, without the sites. -/
def forgetStep (r : Scope Local × Option TracedKept) : Scope Var × Option Kept :=
  (r.1.map Local.var, r.2.map TracedKept.forget)

def forgetSteps (r : Scope Local × List TracedKept) : Scope Var × List Kept :=
  (r.1.map Local.var, r.2.map TracedKept.forget)

/-- Of a statement at any place, the traced one is the one that is checked. -/
def ForgetsTo (st : Stmt) : Prop := ∀ inLoop outer inner path,
  forgetStep <$> traceStmt fc inLoop outer inner path st =
    stmt fc inLoop outer.forget (inner.map Local.var) st

variable {fc}

theorem forget_stmts {ss : List Stmt} (h : ∀ st ∈ ss, ForgetsTo fc st) (outer : Scopes) (inner : Scope Local)
    (path : List Nat) (number : Nat) :
    forgetSteps <$> traceStmts fc inLoop outer inner path number ss =
      stmts fc inLoop outer.forget (inner.map Local.var) ss := by
  induction ss generalizing inner number with
  | nil =>
    rw [traceStmts, stmts, map_pure]
    rfl
  | cons st ss ih =>
    rw [traceStmts, stmts, ← h st (.head _) inLoop outer inner (path ++ [number])]
    simp only [map_bind, bind_map_left]
    refine bind_congr fun r => ?_
    simp only [forgetStep, ← ih (fun st' hst' => h st' (.tail _ hst')) r.1 (number + 1), bind_map_left, map_pure]
    refine bind_congr fun r' => ?_
    cases r.2 <;> simp [forgetSteps]

theorem forget_block {b : Block} (h : ∀ st ∈ b.stmts, ForgetsTo fc st) (outer : Scopes) (inner : Scope Local)
    (path : List Nat) :
    TracedBlock.forget <$> traceBlock fc inLoop outer inner path b =
      block fc inLoop outer.forget (inner.map Local.var) b := by
  obtain ⟨ss, span⟩ := b
  rw [traceBlock, block, ← forget_stmts inLoop (show ∀ st ∈ ss, ForgetsTo fc st from h) outer inner path 0]
  simp only [map_bind, bind_map_left, map_pure]
  refine bind_congr fun r => ?_
  rw [forgetSteps, TracedBlock.gather_forget]

theorem forget_else {no : Option Block} (h : ∀ b, no = some b → ∀ st ∈ b.stmts, ForgetsTo fc st)
    (outer : Scopes) (path : List Nat) :
    TracedBlock.forget <$> traceElse fc inLoop outer path no = elseBlock fc inLoop outer.forget no := by
  cases no with
  | none =>
    rw [traceElse, elseBlock, map_pure]
    rfl
  | some b =>
    rw [traceElse, forget_block inLoop (h b rfl) outer .empty path]
    rfl

theorem forget_stmt (st : Stmt) : ForgetsTo fc st := by
  intro inLoop outer inner path
  induction st generalizing inLoop outer inner path with
  | breakStmt span | continueStmt span =>
    rw [traceStmt, stmt]
    exact map_guard rfl
  | forStmt x first bound step body span ih =>
    rw [traceStmt, stmt]
    simp only [map_bind]
    refine bind_congr fun a => bind_congr fun b => bind_congr fun s => ?_
    have hbody := forget_block true ih (inner :: outer) ⟨[(x, ⟨.int, false, .stmt path⟩)]⟩ (path ++ [0])
    refine Eq.trans ?_ (congrArg (· >>= _) hbody)
    rw [bind_map_left]
    refine bind_congr fun kept => ?_
    rw [TracedBlock.isEmpty_forget]
    split
    · rfl
    · simp [forgetStep, TracedKept.forget, Traced.forget, Traced.forgetAll_eq, TracedBlock.forget]
  | ifStmt test yes no span hyes hno =>
    rw [traceStmt, stmt_if]
    rw [map_bind]
    refine bind_congr fun t => map_guard ?_
    rw [map_bind]
    have hyes' := forget_block inLoop hyes (inner :: outer) .empty (path ++ [0])
    have hno' := forget_else inLoop hno (inner :: outer) (path ++ [1])
    refine Eq.trans ?_ (congrArg (· >>= _) hyes')
    rw [bind_map_left]
    refine bind_congr fun yes' => Eq.trans ?_ (congrArg (· >>= _) hno')
    rw [bind_map_left, map_bind]
    refine bind_congr fun no' => ?_
    cases t.term.value? with
    | none =>
      rw [map_pure, forgetStep, Option.map_some, TracedKept.forget, Traced.forget_ofBranch]
      rfl
    | some v =>
      simp only [map_bind, map_pure, forgetStep, ← TracedBlock.kept?_forget]
      cases v.toBool <;> rfl
  | letStmt x ty init span =>
    rw [traceStmt, stmt_let]
    simp only [map_bind]
    refine bind_congr fun value => bind_congr fun t => ?_
    have hinsert := inner.insert?_map Local.var x ⟨t, true, .stmt path⟩
    rw [Local.var] at hinsert
    rw [hinsert]
    cases inner.insert? x ⟨t, true, .stmt path⟩ <;> rfl
  | returnStmt value span =>
    cases value with
    | none =>
      rw [traceStmt, stmt]
      exact map_guard rfl
    | some e =>
      rw [traceStmt, stmt, map_bind]
      exact bind_congr fun t => map_guard rfl
  | blockStmt b span ih =>
    have hb := forget_block inLoop ih (inner :: outer) .empty (path ++ [0])
    rw [traceStmt, stmt_block]
    refine Eq.trans ?_ (congrArg (· >>= _) hb)
    simp only [map_bind, bind_map_left, map_pure, TracedBlock.kept?_forget, forgetStep]
  | exprStmt e span =>
    rw [traceStmt, stmt]
    simp only [map_bind, map_pure, forgetStep, Option.map_some, TracedKept.forget, Traced.forget_ofExpr]
    rfl

theorem forget_params (g : Globals) (ps : List TypedName) (scope : Scope Local) (number : Nat) :
    (fun r => (r.1.map Local.var, r.2)) <$> traceParams g scope number ps = params g (scope.map Local.var) ps := by
  induction ps generalizing scope number with
  | nil =>
    rw [traceParams, params, map_pure]
  | cons p ps ih =>
    rw [traceParams, params, map_bind]
    refine bind_congr fun ty => ?_
    have hinsert := scope.insert?_map Local.var p.name ⟨ty, false, .param number⟩
    rw [Local.var] at hinsert
    rw [bindName, hinsert]
    cases scope.insert? p.name ⟨ty, false, .param number⟩ with
    | none => rfl
    | some scope' =>
      simp only [Option.map_some, pure_bind, ← ih scope' (number + 1), map_bind, bind_map_left, map_pure]

/-- Checking a function with its sites gives, without them, what checking gives. -/
theorem forget_fn (g : Globals) (d : FnDecl) : TracedFn.forget <$> traceFn g d = fn g d := by
  rw [traceFn, fn_eq, map_bind]
  refine bind_congr fun result => ?_
  have hparams := forget_params g d.params .empty 0
  refine Eq.trans ?_ (congrArg (· >>= _) hparams)
  rw [bind_map_left, map_bind]
  refine bind_congr fun r => ?_
  have hbody := forget_block false (fun st _ => @forget_stmt ⟨g, result⟩ st) [] r.1 [] (b := d.body)
  refine Eq.trans ?_ (congrArg (· >>= _) hbody)
  rw [bind_map_left, map_bind]
  exact bind_congr fun body => map_guard rfl

end Forgetting

end Check

end Shading
