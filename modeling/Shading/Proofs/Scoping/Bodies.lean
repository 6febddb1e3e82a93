import Shading.Proofs.Scoping.Reading
import Shading.Proofs.Scoping.Sites

/-!
# Blocks that lose their braces

Every statement and block that is kept is read in block scopes as it was checked, through any nesting of blocks
that share braces, branches that are pruned or turned around, and chains of branches.
-/

namespace Shading

open List

/-- A kept block is read as it was checked, with its own braces or without them: in all scopes that find what the
scopes of the source find at its start and bind none of the names that it declares. -/
structure Readable (d : Dialect) (source : Scopes) (inner : Scope Local) (b : TracedBlock) : Prop where
  own : b.shared = false → b.locals = b.body.filterMap Traced.declared?
  fresh : ∀ x ∈ b.locals, inner.lookup? x = none
  reads : ∀ {outer cinner}, Agrees d (inner :: source) (cinner :: outer) →
    (∀ x ∈ b.locals, cinner.lookup? (d.ident x) = none) → Traced.ScopedAll d outer cinner b.body

/-- What a statement in the scopes `inner :: source` leaves: the scope behind it, and what is kept. A declaration is
kept, and only a declaration changes the scope; a block that is kept could lose its braces. -/
inductive Leaves (d : Dialect) (source : Scopes) (inner : Scope Local) : Scope Local → Option TracedKept → Prop where
  | nothing : Leaves d source inner inner none
  | declared {x : Ident} {l : Local} {deps : Deps} {ty : Ty} {init : Option Term} {inner' : Scope Local}
      {locals : List Ident} (bound : inner.insert? x l = some inner')
      (means : ∀ {emitted}, Agrees d (inner :: source) emitted → ∀ t, init = some t →
        t.Means d (inner :: source) emitted) :
      Leaves d source inner inner' (some ⟨deps, .declare (inner :: source) l.site x ty init, locals⟩)
  | block {b : TracedBlock} (deps : Deps) (readable : Readable d (inner :: source) .empty b) :
      Leaves d source inner inner (some ⟨deps, .block b.body, b.locals⟩)
  | other {deps : Deps} {c : Traced} {locals : List Ident} (not_block : ∀ body, c ≠ .block body)
      (undeclared : c.declared? = none)
      (reads : ∀ {outer cinner}, Agrees d (inner :: source) (cinner :: outer) → c.Scoped d outer cinner) :
      Leaves d source inner inner (some ⟨deps, c, locals⟩)

/-- What statements one after another leave. -/
inductive LeavesAll (d : Dialect) (source : Scopes) : Scope Local → Scope Local → List TracedKept → Prop where
  | nil {inner : Scope Local} : LeavesAll d source inner inner []
  | cons {inner inner' last : Scope Local} {k : Option TracedKept} {ks : List TracedKept}
      (first : Leaves d source inner inner' k) (rest : LeavesAll d source inner' last ks) :
      LeavesAll d source inner last (k.toList ++ ks)

/-- The names that kept statements declare. -/
def declaredNames (ks : List TracedKept) : List Ident := (ks.map TracedKept.code).filterMap Traced.declared?

theorem Traced.bind?_eq_some {d : Dialect} {c : Traced} (h : c.declared? = none) (inner : Scope Site) :
    c.bind? d inner = some inner := by
  cases c <;> first | rfl | cases h

/-- A branch stays a branch, whichever way it is turned. -/
theorem Traced.ofBranch_eq (source : Scopes) (test : Term) (yes no : TracedBlock) :
    ∃ test' yes' no', Traced.ofBranch source test yes no = .branch source test' yes' no' := by
  unfold ofBranch
  split
  · exact ⟨_, _, _, rfl⟩
  · exact ⟨_, _, _, rfl⟩

/-- An assignment that is a statement loses its parentheses, and every other expression stays as it is. -/
theorem Traced.ofExpr_cases (source : Scopes) (e : Expr) (t : Term) :
    ofExpr source e t = .eval source t ∨
      ∃ op l r, t = .bin op l r ∧ ofExpr source e t = .assign source op l r := by
  unfold ofExpr
  split
  · split
    · exact .inr ⟨_, _, _, rfl, rfl⟩
    · exact .inl rfl
  · exact .inl rfl

namespace LeavesAll

variable {d : Dialect} {source : Scopes} {inner last : Scope Local} {ks : List TracedKept}

/-- A block declares no name that is bound at its start. -/
theorem fresh (h : LeavesAll d source inner last ks) : ∀ x ∈ declaredNames ks, inner.lookup? x = none := by
  induction h with
  | nil => exact nofun
  | cons first rest ih =>
    intro y hy
    cases first with
    | nothing => exact ih y hy
    | declared bound means =>
      rcases mem_cons.1 hy with rfl | hy
      · exact Scope.lookup?_none_of_insert? bound
      · have hlater := ih y hy
        rw [Scope.lookup?_insert? bound] at hlater
        split at hlater
        · cases hlater
        · exact hlater
    | block deps readable => exact ih y hy
    | other not_block undeclared reads =>
      refine ih y ?_
      simpa [declaredNames, undeclared] using hy

/-- Between braces, statements are read one behind the other as they were checked. -/
theorem reads (hd : d.Separates) (h : LeavesAll d source inner last ks) {outer : TextScopes} {cinner : Scope Site}
    (ha : Agrees d (inner :: source) (cinner :: outer))
    (hnew : ∀ x ∈ declaredNames ks, cinner.lookup? (d.ident x) = none) :
    Traced.ScopedAll d outer cinner (ks.map TracedKept.code) := by
  induction h generalizing cinner with
  | nil => exact trivial
  | cons first rest ih =>
    cases first with
    | nothing => exact ih ha hnew
    | @declared x l deps ty init inner' locals bound means =>
      obtain ⟨hx, hlater⟩ := forall_mem_cons.1 hnew
      obtain ⟨cinner', hbind⟩ := Scope.exists_insert? hx l.site
      refine ⟨means ha, cinner', hbind, ih (ha.insert hd bound hbind) fun y hy => ?_⟩
      -- a later name is not the one declared here, since its own declaration was accepted
      have hy' := rest.fresh y hy
      rw [Scope.lookup?_insert? bound] at hy'
      have hne : y ≠ x := by
        rintro rfl
        simp at hy'
      rw [Scope.lookup?_insert? hbind, if_neg fun heq => hne (hd.ident heq)]
      exact hlater y hy
    | block deps readable =>
      exact ⟨readable.reads ha.enterBraces fun _ _ => rfl, cinner, rfl, ih ha hnew⟩
    | other not_block undeclared reads =>
      refine ⟨reads ha, cinner, Traced.bind?_eq_some undeclared cinner, ih ha ?_⟩
      simpa [declaredNames, undeclared] using hnew

theorem eq_of_nil (h : LeavesAll d source inner last []) : last = inner := by
  generalize hks : ([] : List TracedKept) = ks at h
  induction h with
  | nil => rfl
  | cons first rest ih =>
    cases first with
    | nothing => exact ih hks
    | declared | block | other => cases hks

/-- Where a block is all that is kept, nothing is declared around it. -/
theorem sole_block {deps : Deps} {body : List Traced} {locals : List Ident}
    (h : LeavesAll d source inner last [⟨deps, .block body, locals⟩]) :
    last = inner ∧ ∃ b, Readable d (inner :: source) .empty b ∧ b.body = body ∧ b.locals = locals := by
  generalize hks : [(⟨deps, .block body, locals⟩ : TracedKept)] = ks at h
  induction h with
  | nil => cases hks
  | cons first rest ih =>
    cases first with
    | nothing => exact ih hks
    | declared => cases hks
    | block deps readable =>
      cases hks
      exact ⟨eq_of_nil rest, _, readable, rfl, rfl⟩
    | other not_block undeclared reads =>
      cases hks
      exact absurd rfl (not_block body)

theorem readable (hd : d.Separates) (h : LeavesAll d source inner last ks) :
    Readable d source inner (TracedBlock.gather last ks) := by
  unfold TracedBlock.gather
  dsimp only
  have hown : Readable d source inner
      ⟨Deps.unionAll (ks.map TracedKept.deps), ks.map TracedKept.code, declaredNames ks, false⟩ :=
    ⟨fun _ => rfl, h.fresh, h.reads hd⟩
  split
  · split
    · exact hown
    · rename_i deps body locals hshared
      obtain ⟨rfl, b, hb, rfl, rfl⟩ := h.sole_block
      refine ⟨nofun, fun x hx => ?_, fun ha hnew => hb.reads ha.enter hnew⟩
      -- the braces go only where no name declared inside is bound outside
      have hunbound : ∀ y ∈ b.locals, last.contains y = false := by simpa using hshared
      simpa [Scope.contains] using hunbound x hx
  · exact hown

end LeavesAll

namespace Readable

variable {d : Dialect} {source : Scopes} {inner : Scope Local} {b : TracedBlock}

theorem empty (d : Dialect) (source : Scopes) (inner : Scope Local) : Readable d source inner .empty :=
  ⟨fun _ => rfl, nofun, fun _ _ => trivial⟩

/-- A block is read between braces of its own. -/
theorem braced (h : Readable d source .empty b) {emitted : TextScopes} (ha : Agrees d source emitted) :
    Traced.ScopedAll d emitted .empty b.body :=
  h.reads ha.enterBraces fun _ _ => rfl

theorem kept (h : Readable d (inner :: source) .empty b) : Leaves d source inner inner b.kept? := by
  unfold TracedBlock.kept?
  split
  · exact .nothing
  · exact .block b.deps h

/-- A block behind `else` is read with its braces, or without them if it is a branch. -/
theorem scopedElse (h : Readable d (inner :: source) .empty b) {outer : TextScopes} {cinner : Scope Site}
    (ha : Agrees d (inner :: source) (cinner :: outer)) : Traced.ScopedElse d outer cinner b.elsePart? := by
  unfold TracedBlock.elsePart?
  split
  · exact trivial
  · rename_i hbody hshared
    have hnone : b.locals = [] := by
      rw [h.own hshared, hbody]
      rfl
    have hreads := h.reads ha.enter (by simp [hnone])
    rw [hbody] at hreads
    exact hreads.1
  · exact h.braced ha

/-- A branch is read as it was checked, also when it is turned around. -/
theorem ofBranch {yes no : TracedBlock} {test : Term} (hyes : Readable d (inner :: source) .empty yes)
    (hno : Readable d (inner :: source) .empty no) {outer : TextScopes} {cinner : Scope Site}
    (ha : Agrees d (inner :: source) (cinner :: outer))
    (htest : test.Means d (inner :: source) (cinner :: outer)) :
    (Traced.ofBranch (inner :: source) test yes no).Scoped d outer cinner := by
  unfold Traced.ofBranch
  split
  · exact ⟨htest, hno.braced ha, trivial⟩
  · exact ⟨htest, hyes.braced ha, hno.scopedElse ha⟩

end Readable

namespace Check

section Statements

variable {fc : FnContext} {inLoop : Bool} {outer : Scopes} {inner : Scope Local} {path : List Nat} {s s' : Expansion}

/-- What is left of a statement is read as it was checked, and its declarations are among the given ones, in their order. -/
structure LeftBy (g : Globals) (outer : Scopes) (inner : Scope Local) (declared : List (Site × Ident))
    (inner' : Scope Local) (k : Option TracedKept) : Prop where
  leaves : ∀ {d : Dialect}, d.Separates → NoLocals g → Leaves d outer inner inner' k
  sites : (Traced.sitesAll (k.toList.map TracedKept.code)).Sublist declared

/-- The same for a block. -/
structure BlockLeftBy (g : Globals) (outer : Scopes) (inner : Scope Local) (declared : List (Site × Ident))
    (b : TracedBlock) : Prop where
  readable : ∀ {d : Dialect}, d.Separates → NoLocals g → Readable d outer inner b
  sites : (Traced.sitesAll b.body).Sublist declared

theorem BlockLeftBy.kept {g : Globals} {declared : List (Site × Ident)} {b : TracedBlock}
    (h : BlockLeftBy g (inner :: outer) .empty declared b) : LeftBy g outer inner declared inner b.kept? :=
  ⟨fun hd hg => (h.readable hd hg).kept, by rw [TracedBlock.sites_kept?]; exact h.sites⟩

/-- A block is left as its statements are. -/
theorem leftBy_of_traceBlock {b : Block}
    (ih : ∀ st ∈ b.stmts, ∀ {inner path s inner' k s'}, Gives (traceStmt fc inLoop outer inner path st) s (inner', k) s' →
      LeftBy fc.globals outer inner (st.sites path) inner' k)
    {kept : TracedBlock} (h : Gives (traceBlock fc inLoop outer inner path b) s kept s') :
    BlockLeftBy fc.globals outer inner (b.sites path) kept := by
  obtain ⟨sts, span⟩ := b
  have hleft : ∀ {sts : List Stmt}, (∀ st ∈ sts, ∀ {inner path s inner' k s'},
      Gives (traceStmt fc inLoop outer inner path st) s (inner', k) s' →
        LeftBy fc.globals outer inner (st.sites path) inner' k) →
      ∀ {inner number s last ks s'}, Gives (traceStmts fc inLoop outer inner path number sts) s (last, ks) s' →
        (∀ {d : Dialect}, d.Separates → NoLocals fc.globals → LeavesAll d outer inner last ks) ∧
          (Traced.sitesAll (ks.map TracedKept.code)).Sublist (Stmt.sitesAll path number sts) := by
    intro sts ih
    induction sts with
    | nil =>
      intro inner number s last ks s' h
      simp only [traceStmts, gives_pure, Prod.mk.injEq] at h
      obtain ⟨⟨rfl, rfl⟩, -⟩ := h
      rw [Stmt.sitesAll]
      exact ⟨fun _ _ => .nil, .slnil⟩
    | cons st sts ihsts =>
      intro inner number s last ks s' h
      simp only [traceStmts, gives_bind, gives_pure] at h
      obtain ⟨⟨inner', k⟩, s₁, hst, ⟨last', more⟩, s₂, hrest, heq, -⟩ := h
      cases heq
      have hfirst := ih st (.head _) hst
      obtain ⟨hleaves, hsites⟩ := ihsts (fun st hst => ih st (.tail _ hst)) hrest
      rw [map_append, Traced.sitesAll_append, Stmt.sitesAll]
      exact ⟨fun hd hg => .cons (hfirst.leaves hd hg) (hleaves hd hg), hfirst.sites.append hsites⟩
  simp only [traceBlock, gives_bind, gives_pure] at h
  obtain ⟨⟨last, ks⟩, s₁, hsts, rfl, -⟩ := h
  obtain ⟨hleaves, hsites⟩ := hleft ih hsts
  refine ⟨fun hd hg => (hleaves hd hg).readable hd, ?_⟩
  rwa [TracedBlock.sitesAll_gather, Block.sites]

theorem leftBy_of_traceStmt {st : Stmt} {inner' : Scope Local} {k : Option TracedKept}
    (h : Gives (traceStmt fc inLoop outer inner path st) s (inner', k) s') :
    LeftBy fc.globals outer inner (st.sites path) inner' k := by
  have hmeans : ∀ {d outer inner e s t s'}, d.Separates → NoLocals fc.globals →
      Gives (expr ⟨Scopes.forget (inner :: outer), fc.globals⟩ false e) s t s' → ∀ {emitted},
      Agrees d (inner :: outer) emitted → t.term.Means d (inner :: outer) emitted :=
    fun hd hg he _ ha => means_of_expr hd hg ha he
  induction st generalizing inLoop outer inner path s inner' k s' with
  | breakStmt span | continueStmt span =>
    simp only [traceStmt, gives_guard, gives_pure, Prod.mk.injEq] at h
    obtain ⟨-, ⟨rfl, rfl⟩, -⟩ := h
    exact ⟨fun _ _ => .other (by simp) rfl fun _ => trivial, nil_sublist _⟩
  | forStmt x first bound step body span ih =>
    simp only [traceStmt, gives_bind, gives_ite, gives_note, gives_pure] at h
    obtain ⟨a, s₁, -, b, s₂, -, i, s₃, -, kept, s₄, hkept, h⟩ := h
    have hleft := leftBy_of_traceBlock (fun st hst => ih st hst) hkept
    rw [Stmt.sites]
    rcases h with ⟨-, -, _, -, heq, -⟩ | ⟨-, heq, -⟩
    · cases heq
      exact ⟨fun _ _ => .nothing, nil_sublist _⟩
    · cases heq
      refine ⟨fun hd hg => ?_, by simpa [Traced.sitesAll, Traced.sites] using hleft.sites⟩
      have hread := hleft.readable hd hg
      refine .other (by simp) rfl fun ha => hread.reads (ha.enterLoop hd x _) fun y hy => ?_
      have hfresh := hread.fresh y hy
      rw [Scope.lookup?_single] at hfresh ⊢
      have hne : y ≠ x := by
        rintro rfl
        simp at hfresh
      exact if_neg fun heq => hne (hd.ident heq)
  | ifStmt test yes no span ihyes ihno =>
    simp only [traceStmt, gives_bind, gives_guard] at h
    obtain ⟨t, s₁, ht, -, yes', s₂, hyes, no', s₃, hno, h⟩ := h
    have hyes' := leftBy_of_traceBlock (fun st hst => ihyes st hst) hyes
    have hno' : BlockLeftBy fc.globals (inner :: outer) .empty (Block.sitesElse (path ++ [1]) no) no' := by
      cases no with
      | none =>
        simp only [traceElse, gives_pure] at hno
        rw [← hno.1]
        exact ⟨fun _ _ => .empty _ _ _, nil_sublist _⟩
      | some b => exact leftBy_of_traceBlock (fun st hst => ihno b rfl st hst) hno
    rw [Stmt.sites]
    split at h
    · simp only [gives_bind, gives_note, gives_pure, Prod.mk.injEq] at h
      obtain ⟨-, _, -, ⟨rfl, rfl⟩, -⟩ := h
      split
      · exact ⟨hyes'.kept.leaves, hyes'.kept.sites.trans (sublist_append_left _ _)⟩
      · exact ⟨hno'.kept.leaves, hno'.kept.sites.trans (sublist_append_right _ _)⟩
    · simp only [gives_pure, Prod.mk.injEq] at h
      obtain ⟨⟨rfl, rfl⟩, -⟩ := h
      refine ⟨fun hd hg => ?_, by simpa [Traced.sitesAll, Traced.sites_ofBranch] using hyes'.sites.append hno'.sites⟩
      obtain ⟨test', yes₁, no₁, hbranch⟩ := Traced.ofBranch_eq (inner :: outer) t.term yes' no'
      refine .other (by simp [hbranch]) (by simp [hbranch, Traced.declared?]) fun ha => ?_
      exact (hyes'.readable hd hg).ofBranch (hno'.readable hd hg) ha (hmeans hd hg ht ha)
  | letStmt x ty init span =>
    simp only [traceStmt, gives_bind] at h
    obtain ⟨value, s₁, hvalue, t, s₂, -, h⟩ := h
    split at h
    · simp at h
    · rename_i inner₁ hinsert
      simp only [gives_pure, Prod.mk.injEq] at h
      obtain ⟨⟨rfl, rfl⟩, -⟩ := h
      refine ⟨fun hd hg => .declared hinsert fun ha t' ht' => ?_, by simp [Traced.sitesAll, Traced.sites, Stmt.sites]⟩
      rcases gives_initValue hvalue with ⟨-, rfl, -⟩ | ⟨e, e', -, he, rfl⟩
      · cases ht'
      · cases ht'
        exact hmeans hd hg he ha
  | returnStmt value span =>
    cases value with
    | none =>
      simp only [traceStmt, gives_guard, gives_pure, Prod.mk.injEq] at h
      obtain ⟨-, ⟨rfl, rfl⟩, -⟩ := h
      refine ⟨fun _ _ => .other (by simp) rfl fun _ t ht => ?_, nil_sublist _⟩
      cases ht
    | some e =>
      simp only [traceStmt, gives_bind, gives_guard, gives_pure, Prod.mk.injEq] at h
      obtain ⟨e', s₁, he, -, ⟨rfl, rfl⟩, -⟩ := h
      refine ⟨fun hd hg => .other (by simp) rfl fun ha t ht => ?_, nil_sublist _⟩
      cases ht
      exact hmeans hd hg he ha
  | blockStmt b span ih =>
    simp only [traceStmt, gives_bind, gives_pure, Prod.mk.injEq] at h
    obtain ⟨kept, s₁, hkept, ⟨rfl, rfl⟩, -⟩ := h
    rw [Stmt.sites]
    exact (leftBy_of_traceBlock (fun st hst => ih st hst) hkept).kept
  | exprStmt e span =>
    simp only [traceStmt, gives_bind, gives_pure, Prod.mk.injEq] at h
    obtain ⟨e', s₁, he, ⟨rfl, rfl⟩, -⟩ := h
    refine ⟨fun hd hg => ?_, by simp [Traced.sitesAll, Traced.sites_ofExpr]⟩
    rcases Traced.ofExpr_cases (inner :: outer) e e'.term with heval | ⟨op, l, r, hbin, hassign⟩
    · rw [heval]
      exact .other (by simp) rfl fun ha => hmeans hd hg he ha
    · rw [hassign]
      refine .other (by simp) rfl fun ha => ?_
      have hparts := hmeans hd hg he ha
      rw [hbin] at hparts
      exact forall_mem_append.1 hparts

end Statements

section Functions

variable {d : Dialect} {g : Globals} {s s' : Expansion}

/-- Parameters are declared once each, under their names, in the scope that the body begins with. -/
theorem agrees_of_traceParams {ps : List TypedName} {scope last : Scope Local} {number : Nat}
    {params : List (Ident × Ty)} (h : Gives (traceParams g scope number ps) s (last, params) s') :
    params.map Prod.fst = ps.map TypedName.name ∧ ∀ {d : Dialect} {cscope : Scope Site}, d.Separates →
      Agrees d [scope] [cscope] → ∃ clast, paramScope? d cscope number params = some clast ∧ Agrees d [last] [clast] := by
  induction ps generalizing scope number params s with
  | nil =>
    simp only [traceParams, gives_pure, Prod.mk.injEq] at h
    obtain ⟨⟨rfl, rfl⟩, -⟩ := h
    exact ⟨rfl, fun _ ha => ⟨_, rfl, ha⟩⟩
  | cons p ps ih =>
    simp only [traceParams, gives_bind] at h
    obtain ⟨ty, s₁, -, h⟩ := h
    split at h
    · simp at h
    · rename_i scope' hinsert
      simp only [gives_bind, gives_pure, Prod.mk.injEq] at h
      obtain ⟨⟨last', more⟩, s₂, hrest, ⟨rfl, rfl⟩, rfl⟩ := h
      obtain ⟨hnames, hagrees⟩ := ih hrest
      refine ⟨by rw [map_cons, map_cons, hnames], fun {d cscope} hd ha => ?_⟩
      have hnew : cscope.lookup? (d.ident p.name) = none := by
        have hnames := ha.names p.name
        simpa [Scope.find?, Scope.lookup?_none_of_insert? hinsert] using hnames
      obtain ⟨cscope', hbind⟩ := Scope.exists_insert? hnew (.param number)
      obtain ⟨clast, hclast, hagrees⟩ := hagrees hd (ha.insert hd hinsert hbind)
      refine ⟨clast, ?_, hagrees⟩
      rw [paramScope?, hbind, Option.bind_some, hclast]

/-- The parameters and the body of an accepted function. -/
theorem gives_traceFn {decl : FnDecl} {f : TracedFn} (h : Gives (traceFn g decl) s f s') :
    ∃ scope s₁ s₂ body, Gives (traceParams g .empty 0 decl.params) s₁ (scope, f.params) s₂ ∧ f.body = body.body ∧
      BlockLeftBy g [] scope (decl.body.sites []) body := by
  simp only [traceFn, gives_bind, gives_guard, gives_pure] at h
  obtain ⟨result, s₁, -, ⟨scope, ps⟩, s₂, hparams, body, s₃, hbody, -, rfl, -⟩ := h
  exact ⟨scope, s₁, s₂, body, hparams, rfl, leftBy_of_traceBlock (fun st _ => leftBy_of_traceStmt) hbody⟩

/-- The declarations that are written of a function are among its own, in their order and with their names. -/
theorem sublist_of_traceFn {decl : FnDecl} {f : TracedFn} (h : Gives (traceFn g decl) s f s') :
    f.sites.Sublist decl.sites := by
  obtain ⟨scope, s₁, s₂, body, hparams, hbody, hleft⟩ := gives_traceFn h
  rw [TracedFn.sites, FnDecl.sites, (agrees_of_traceParams hparams).1, hbody]
  exact (List.Sublist.refl _).append hleft.sites

/-- The body of an accepted function is read as it was checked. -/
theorem scoped_of_traceFn (hd : d.Separates) (hg : NoLocals g) {decl : FnDecl} {f : TracedFn}
    (h : Gives (traceFn g decl) s f s') : f.Scoped d := by
  obtain ⟨scope, s₁, s₂, body, hparams, hbody, hleft⟩ := gives_traceFn h
  obtain ⟨cscope, hcscope, ha⟩ := (agrees_of_traceParams hparams).2 hd (Agrees.nil d).enterBraces
  have hread := hleft.readable hd hg
  refine ⟨cscope, hcscope, hbody ▸ hread.reads ha fun x hx => ?_⟩
  have hnames := ha.names x
  simpa [Scope.find?, hread.fresh x hx] using hnames

end Functions

end Check

end Shading
