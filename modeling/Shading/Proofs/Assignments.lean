import Shading.Compile
import Shading.Proofs.Assignments.Expressions
import Shading.Proofs.Items

/-!
# Only places are assigned

In an accepted shader every assignment in a function that is expanded, however deep it stands, has a place on its left:
elements, members and components of a varying or of a variable declared by `let`, with constant indices in bounds and no
component selected twice. No array is assigned as a whole, not even inside a struct. Conversely a shader that is
refused for what it assigns has an assignment that breaks these rules, where the refusal is reported.
-/

namespace Shading

open List

namespace Check

variable {builtins : Builtins} {decls : List Decl} {g : Globals}

variable {x : Ident} {ctx : Context} {e : Expr}

section Contexts

variable {scopes : List (Scope Var)} {N : Names}

theorem Reads.enter (h : Reads builtins decls ⟨scopes, g⟩ N) : Reads builtins decls ⟨.empty :: scopes, g⟩ N :=
  ⟨h.sameBuiltins, h.sameDecls, h.locals.enter, h.globals⟩

theorem Reads.insert {inner inner' : Scope Var} (h : Reads builtins decls ⟨inner :: scopes, g⟩ N) {ty : Ty}
    (b : Binder) (hinsert : inner.insert? x ⟨ty, b.kind⟩ = some inner') :
    Reads builtins decls ⟨inner' :: scopes, g⟩ (N.bind x b (some ty)) :=
  ⟨h.sameBuiltins, h.sameDecls, h.locals.insert b hinsert, h.globals⟩

theorem Reads.loop (h : Reads builtins decls ⟨scopes, g⟩ N) (x : Ident) :
    Reads builtins decls ⟨⟨[(x, ⟨.int, .localVar false⟩)]⟩ :: scopes, g⟩ (N.bind x .loopVar (some .int)) :=
  ⟨h.sameBuiltins, h.sameDecls, h.locals.loop x, h.globals⟩

theorem Resolves.reads (h : Resolves builtins decls g) : Reads builtins decls ⟨[], g⟩ ⟨builtins, decls, []⟩ :=
  ⟨rfl, rfl, .nil builtins decls, h⟩

/-! ## Types and statements -/

theorem ensures_tyExpr (hctx : Reads builtins decls ctx N) (te : TyExpr) :
    Ensures builtins decls (tyExpr ctx te) fun ty => ty = te.ty := by
  induction te with
  | keyword b span => exact ensures_pure rfl
  | array elem len span ih =>
    refine ensures_guard rfl fun _ => ensures_bind ih fun ty hty => ensures_pure ?_
    rw [hty]
    rfl
  | named x span =>
    refine ensures_bind (ensures_find hctx x span) fun info _ => ?_
    split
    · exact ensures_refuse rfl _
    · exact ensures_pure rfl
    · exact ensures_refuse rfl _

def AllAllowed (as : List Assignment) : Prop := ∀ a ∈ as, a.Allowed

/-- All assignments in a list are among those of the shader. -/
def AllOccur (builtins : Builtins) (decls : List Decl) (as : List Assignment) : Prop :=
  ∀ a ∈ as, a.OccursIn builtins decls

theorem ensures_value (hnames : (decls.map Decl.name).Nodup) (hctx : Reads builtins decls ctx N)
    (hall : AllOccur builtins decls (e.assignments N)) :
    Ensures builtins decls (expr ctx false e) (Checked N false e) :=
  ensures_expr hnames hctx hall (by simp)

theorem ensures_constInt (hnames : (decls.map Decl.name).Nodup) (hctx : Reads builtins decls ctx N)
    (hall : AllOccur builtins decls (e.assignments N)) :
    Ensures builtins decls (constInt ctx e) fun _ => AllAllowed (e.assignments N) := by
  refine ensures_bind (ensures_value hnames hctx hall) fun t ht => ensures_guard rfl fun _ => ?_
  split
  · exact ensures_pure ht.allowed
  · exact ensures_refuse rfl _

theorem ensures_loopStep (hnames : (decls.map Decl.name).Nodup) (hctx : Reads builtins decls ctx N) (x : Ident)
    (first bound : Int32) {step : Option Expr} (hall : AllOccur builtins decls (Expr.assignments? N step)) :
    Ensures builtins decls (loopStep ctx x first bound step) fun _ => AllAllowed (Expr.assignments? N step) := by
  cases step with
  | none => exact ensures_pure (forall_mem_nil _)
  | some e =>
    refine ensures_bind (ensures_constInt hnames hctx hall) fun i hi => ensures_guard rfl fun _ => ?_
    exact ensures_guard rfl fun _ => ensures_guard rfl fun _ => ensures_pure hi

theorem ensures_initValue (hnames : (decls.map Decl.name).Nodup) (hctx : Reads builtins decls ctx N)
    {init : Option Expr} (hall : AllOccur builtins decls (Expr.assignments? N init)) :
    Ensures builtins decls (initValue ctx init) fun value =>
      AllAllowed (Expr.assignments? N init) ∧ value.map (fun v => v.1.ty) = init.bind (Expr.ty? N) := by
  cases init with
  | none => exact ensures_pure ⟨forall_mem_nil _, rfl⟩
  | some e => exact ensures_bind (ensures_value hnames hctx hall) fun t ht => ensures_pure ⟨ht.allowed, ht.ty.symm⟩

theorem ensures_letTy (hctx : Reads builtins decls ctx N) (x : Ident) (ty : Option TyExpr)
    (value : Option (Typed × Span)) (span : Span) :
    Ensures builtins decls (letTy ctx x ty value span) fun t =>
      ty.elim (value.map fun v => v.1.ty) (fun te => some te.ty) = some t := by
  cases ty with
  | none =>
    cases value with
    | none => exact ensures_refuse rfl _
    | some v => exact ensures_ite (fun _ => ensures_refuse rfl _) fun _ => ensures_pure rfl
  | some te =>
    cases value with
    | none => exact (ensures_tyExpr hctx te).weaken fun t ht => congrArg some ht.symm
    | some v =>
      refine ensures_bind (ensures_tyExpr hctx te) fun t ht => ensures_guard rfl fun _ => ensures_pure ?_
      exact congrArg some ht.symm

section Statements

variable {result : Ty} {inLoop : Bool} {outer : List (Scope Var)} {inner : Scope Var}

/-- In a block the names behind each statement are those of the next. -/
theorem ensures_block {b : Block}
    (h : ∀ st ∈ b.stmts, ∀ {inner N}, Reads builtins decls ⟨inner :: outer, g⟩ N →
      AllOccur builtins decls (st.assignments N) →
      Ensures builtins decls (stmt ⟨g, result⟩ inLoop outer inner st) fun r =>
        Reads builtins decls ⟨r.1 :: outer, g⟩ (N.behind st) ∧ AllAllowed (st.assignments N))
    (hreads : Reads builtins decls ⟨inner :: outer, g⟩ N) (hall : AllOccur builtins decls (b.assignments N)) :
    Ensures builtins decls (block ⟨g, result⟩ inLoop outer inner b) fun _ => AllAllowed (b.assignments N) := by
  obtain ⟨sts, span⟩ := b
  rw [Block.assignments] at hall ⊢
  have hstmts : Ensures builtins decls (stmts ⟨g, result⟩ inLoop outer inner sts) fun _ =>
      AllAllowed (Stmt.assignmentsAll N sts) := by
    induction sts generalizing inner N with
    | nil =>
      rw [Stmt.assignmentsAll]
      exact ensures_pure (forall_mem_nil _)
    | cons st sts ih =>
      rw [Stmt.assignmentsAll] at hall ⊢
      obtain ⟨hst, hsts⟩ := forall_mem_append.1 hall
      refine ensures_bind (h st mem_cons_self hreads hst) fun r hr => ?_
      refine ensures_bind (ih hr.1 (fun st hst => h st (mem_cons_of_mem _ hst)) hsts) fun last hlast => ?_
      exact ensures_pure (forall_mem_append.2 ⟨hr.2, hlast⟩)
  exact ensures_bind hstmts fun r hr => ensures_pure hr

theorem ensures_stmt (hnames : (decls.map Decl.name).Nodup) {st : Stmt}
    (hreads : Reads builtins decls ⟨inner :: outer, g⟩ N) (hall : AllOccur builtins decls (st.assignments N)) :
    Ensures builtins decls (stmt ⟨g, result⟩ inLoop outer inner st) fun r =>
      Reads builtins decls ⟨r.1 :: outer, g⟩ (N.behind st) ∧ AllAllowed (st.assignments N) := by
  induction st generalizing inLoop outer inner N with
  | breakStmt span | continueStmt span =>
    rw [Stmt.assignments]
    exact ensures_guard rfl fun _ => ensures_pure ⟨hreads, forall_mem_nil _⟩
  | forStmt x first bound step body span ih =>
    rw [Stmt.assignments] at hall ⊢
    simp only [AllOccur, forall_mem_append] at hall
    obtain ⟨hfirst, hbound, hstep, hbody⟩ := hall
    refine ensures_bind (ensures_constInt hnames hreads hfirst) fun a ha => ?_
    refine ensures_bind (ensures_constInt hnames hreads hbound) fun b hb => ?_
    refine ensures_bind (ensures_loopStep hnames hreads x a b hstep) fun i hi => ?_
    refine ensures_bind (ensures_block (fun st hst => ih st hst) (hreads.loop x) hbody) fun kept hkept => ?_
    have hallowed : AllAllowed (first.assignments N ++ (bound.assignments N ++ (Expr.assignments? N step ++
        body.assignments (N.bind x .loopVar (some .int))))) := by
      simp only [AllAllowed, forall_mem_append]
      exact ⟨ha, hb, hi, hkept⟩
    refine ensures_ite (fun _ => ensures_bind (ensures_note _) fun _ _ => ?_) fun _ => ?_
    all_goals exact ensures_pure ⟨hreads, hallowed⟩
  | ifStmt test yes no span ihyes ihno =>
    rw [Stmt.assignments_ifStmt] at hall ⊢
    simp only [AllOccur, forall_mem_append] at hall
    obtain ⟨htest, hyes, hno⟩ := hall
    rw [stmt_if]
    refine ensures_bind (ensures_value hnames hreads htest) fun t ht => ensures_guard rfl fun _ => ?_
    refine ensures_bind (ensures_block (fun st hst => ihyes st hst) hreads.enter hyes) fun yes' hyes' => ?_
    have helse : Ensures builtins decls (elseBlock ⟨g, result⟩ inLoop (inner :: outer) no) fun _ =>
        AllAllowed (no.elim [] (Block.assignments N)) := by
      cases no with
      | none => exact ensures_pure (forall_mem_nil _)
      | some b => exact ensures_block (fun st hst => ihno b rfl st hst) hreads.enter hno
    refine ensures_bind helse fun no' hno' => ?_
    have hallowed : AllAllowed (test.assignments N ++ (yes.assignments N ++ no.elim [] (Block.assignments N))) := by
      simp only [AllAllowed, forall_mem_append]
      exact ⟨ht.allowed, hyes', hno'⟩
    split
    · exact ensures_bind (ensures_note _) fun _ _ => ensures_pure ⟨hreads, hallowed⟩
    · exact ensures_pure ⟨hreads, hallowed⟩
  | letStmt x ty init span =>
    rw [Stmt.assignments] at hall ⊢
    rw [stmt_let]
    refine ensures_bind (ensures_initValue hnames hreads hall) fun value hvalue => ?_
    refine ensures_bind (ensures_letTy hreads x ty value span) fun t ht => ?_
    split
    · exact ensures_refuse rfl _
    · rename_i inner' hinsert
      refine ensures_pure ⟨?_, hvalue.1⟩
      rw [hvalue.2] at ht
      rw [Names.behind, ht]
      exact hreads.insert .letVar hinsert
  | returnStmt value span =>
    rw [Stmt.assignments] at hall ⊢
    cases value with
    | none => exact ensures_guard rfl fun _ => ensures_pure ⟨hreads, forall_mem_nil _⟩
    | some e =>
      refine ensures_bind (ensures_value hnames hreads hall) fun t ht => ensures_guard rfl fun _ => ?_
      exact ensures_pure ⟨hreads, ht.allowed⟩
  | blockStmt b span ih =>
    rw [Stmt.assignments] at hall ⊢
    rw [stmt_block]
    refine ensures_bind (ensures_block (fun st hst => ih st hst) hreads.enter hall) fun kept hkept => ?_
    exact ensures_pure ⟨hreads, hkept⟩
  | exprStmt e span =>
    rw [Stmt.assignments] at hall ⊢
    exact ensures_bind (ensures_value hnames hreads hall) fun t ht => ensures_pure ⟨hreads, ht.allowed⟩

end Statements

/-! ## Functions and structs -/

theorem ensures_bindName {Q : Scope Var → Prop} {scope : Scope Var} {v : Var} {span : Span}
    (h : ∀ scope', scope.insert? x v = some scope' → Q scope') :
    Ensures builtins decls (bindName scope x v span) Q := by
  unfold bindName
  split
  · exact ensures_pure (h _ ‹_›)
  · exact ensures_refuse rfl _

theorem ensures_params {scope : Scope Var} (hreads : Reads builtins decls ⟨[scope], g⟩ N) (ps : List TypedName) :
    Ensures builtins decls (params g scope ps) fun r => Reads builtins decls ⟨[r.1], g⟩ (N.bindParams ps) := by
  induction ps generalizing scope N with
  | nil => exact ensures_pure hreads
  | cons p ps ih =>
    refine ensures_bind (ensures_tyExpr hreads p.ty) fun ty hty => ?_
    subst hty
    refine ensures_bind (ensures_bindName fun scope' => hreads.insert .param) fun scope' hscope' => ?_
    exact ensures_bind (ih hscope') fun last hlast => ensures_pure hlast

theorem ensures_fn (hnames : (decls.map Decl.name).Nodup) (hg : Resolves builtins decls g) {d : FnDecl}
    (hd : .fn d ∈ decls) : Ensures builtins decls (fn g d) fun f => f.name = d.name ∧
      f.result = d.result.elim .void TyExpr.ty ∧ AllAllowed (d.assignments builtins decls) := by
  have hempty := hg.reads.enter
  have hresult : Ensures builtins decls (resultTy g d.result) fun ty => ty = d.result.elim .void TyExpr.ty := by
    cases d.result with
    | none => exact ensures_pure rfl
    | some t => exact ensures_tyExpr hempty t
  rw [fn_eq]
  refine ensures_bind hresult fun result hty => ensures_bind (ensures_params hempty d.params) fun ps hps => ?_
  refine ensures_bind (ensures_block (fun st _ => ensures_stmt hnames) hps fun a ha => ⟨d, hd, ha⟩) fun body hbody => ?_
  exact ensures_guard rfl fun _ => ensures_pure ⟨rfl, hty, hbody⟩

theorem ensures_members (hg : Resolves builtins decls g) (earlier : List (Ident × Ty)) (arrays : Bool)
    (ms : List TypedName) : Ensures builtins decls (members g earlier arrays ms) fun r =>
      r.1 = earlier ++ (ms.map fun m => (m.name, m.ty.ty)) ∧
      (r.2 = true ↔ arrays = true ∨ ∃ m ∈ ms, m.ty.ty.ContainsArray decls) := by
  induction ms generalizing earlier arrays with
  | nil => exact ensures_pure ⟨(append_nil _).symm, by simp⟩
  | cons m ms ih =>
    refine ensures_bind (ensures_tyExpr hg.reads m.ty) fun ty hty => ensures_guard rfl fun _ => ?_
    subst hty
    refine ensures_bind (ensures_hasArrays _) fun inside hinside => (ih _ _).weaken fun r hr => ?_
    obtain ⟨hmembers, harrays⟩ := hr
    refine ⟨by simp [hmembers], ?_⟩
    rw [harrays, Bool.or_eq_true, hinside, exists_mem_cons_iff, or_assoc]

theorem ensures_struct (hnames : (decls.map Decl.name).Nodup) (hg : Resolves builtins decls g) {d : StructDecl}
    (hd : .struct d ∈ decls) : Ensures builtins decls (struct g d) fun f => f.name = d.name ∧
      f.members = (d.members.map fun m => (m.name, m.ty.ty)) ∧
      (f.hasArrays = true ↔ Ty.ContainsArray decls (.struct d.name)) := by
  refine ensures_bind (ensures_members hg [] false d.members) fun r hr => ensures_pure ⟨rfl, hr.1, hr.2.trans ?_⟩
  simp only [Bool.false_eq_true, false_or]
  constructor
  · rintro ⟨m, hm, harray⟩
    exact .member hd hm harray
  · intro harray
    generalize hx : Ty.struct d.name = x at harray
    cases harray with
    | array => cases hx
    | member hd' hm harray =>
      have hsame := inj_on_of_nodup_map hnames hd hd' (Ty.struct.inj hx)
      cases hsame
      exact ⟨_, hm, harray⟩

end Contexts

/-! ## Openings -/

/-- The interface variables that are in scope are declared. -/
def VarsFit (decls : List Decl) (vars : Scope Var) : Prop :=
  ∀ x v, vars.lookup? x = some v → ∃ d ∈ decls, ∃ w, d.interfaceVar? = some (w, v.kind) ∧ w.name = x ∧ v.ty = w.ty.ty

theorem VarsFit.empty (decls : List Decl) : VarsFit decls .empty := by
  intro x v hv
  cases hv

section Openings

variable (hnames : (decls.map Decl.name).Nodup) {vars : Scope Var} (hvars : VarsFit decls vars)

theorem ensures_get {α : Type} {Q : α → Prop} {f : Expansion → Check α}
    (h : ∀ s, Faithful builtins decls s → Ends builtins decls Q ((f s).outcome s)) :
    Ensures builtins decls (get >>= f) Q := by
  intro s hs
  rw [outcome_bind, outcome_get]
  exact h s hs

theorem ensures_modify {f : Expansion → Expansion}
    (h : ∀ s, Faithful builtins decls s → Faithful builtins decls (f s)) :
    Ensures builtins decls (modify f : Check Unit) fun _ => True := fun s hs => .gives True.intro (h s hs)

theorem frame_faithful : Frame fun s s' => Faithful builtins decls s → Faithful builtins decls s' :=
  ⟨fun _ hs => hs, fun h₁ h₂ hs => h₂ (h₁ hs), fun _ _ hs => ⟨hs.fns, hs.structs, hs.settled⟩⟩

/-- A name that the shader gives to no function and no struct is that of a builtin function. -/
theorem fits_builtin {overloads : List Overload} (hbuiltin : builtins.overloads? x = some overloads)
    (hfn : (TopLevel.ofDecls builtins decls).fn? x = none)
    (hstruct : (TopLevel.ofDecls builtins decls).struct? x = none) :
    Info.Fits ⟨builtins, decls, []⟩ x (.builtin overloads) := by
  intro args
  rw [Names.callTy?]
  split
  · rename_i d hd
    exact absurd (find?_some hd)
      (find?_eq_none.1 hfn d (mem_fns_ofDecls.2 (mem_of_find?_eq_some hd)))
  · rename_i d hd
    exact absurd (find?_some hd)
      (find?_eq_none.1 hstruct d (mem_structs_ofDecls.2 (mem_of_find?_eq_some hd)))
  · rw [hbuiltin]
    rfl

include hnames

theorem apart_of_varsFit (hvars : VarsFit decls vars) : Apart decls vars := by
  intro x hx
  obtain ⟨e, he, hopen, rfl⟩ := hx
  cases hv : vars.lookup? e.name with
  | none => rfl
  | some v =>
    obtain ⟨d, hd, w, hvar, hname, -⟩ := hvars _ v hv
    have hsame := inj_on_of_nodup_map hnames hd he ((Decl.meaning_of_interfaceVar? hvar).1.trans hname)
    subst hsame
    cases d with
    | attributeVar | uniformVar | varyingVar => cases hopen
    | struct | fn => cases hvar

/-- A declaration is settled if its assignments are allowed and what it refers to is settled. -/
theorem settled_of_refs {d : Decl} (hd : d ∈ decls)
    (hown : ∀ f, d = .fn f → AllAllowed (f.assignments builtins decls))
    (hrefs : ∀ x ∈ d.refs, Openable decls x → Settled builtins decls x) : Settled builtins decls d.name := by
  refine .intro (fun f hf hname => ?_) fun y hy => ?_
  · exact hown f (inj_on_of_nodup_map hnames hf hd hname).symm
  · obtain ⟨d', hd', -, hname, href, hopens⟩ := hy
    rw [inj_on_of_nodup_map hnames hd' hd hname] at href
    exact hrefs y href hopens

include hvars

variable {k : Nat}

/-- The names that a step has looked up are settled. -/
theorem settled_of_asked {α : Type} {names : List Ident} {m : Globals → Check α} (hm : Asks (fun _ => True) names m)
    {u : Unfinished} (hk : Resolves builtins decls (globals (.ofDecls builtins decls) vars k u)) {a : α}
    (hgives : ∃ s s', Faithful builtins decls s ∧ Gives (m (globals (.ofDecls builtins decls) vars k u)) s a s') :
    ∀ x ∈ names, Openable decls x → Settled builtins decls x := by
  obtain ⟨s, s', hs, hgives⟩ := hgives
  refine holds_of_asked frame_faithful (fun _ hs => hs.settled) hm (apart_of_varsFit hnames hvars) ?_ hgives hs
  exact fun x span => (hk x span).keeps

theorem ensures_openFn (hk : ∀ u, Resolves builtins decls (globals (.ofDecls builtins decls) vars k u))
    (u : Unfinished) {d : FnDecl} (hd : .fn d ∈ decls) (span : Span) :
    Ensures builtins decls (openFn (globals (.ofDecls builtins decls) vars k) u d span) fun f =>
      f.result = d.result.elim .void TyExpr.ty := by
  refine ensures_get fun s hs => ?_
  cases hf : s.fn? d.name with
  | some f =>
    obtain ⟨d', hd', hname, hresult⟩ := hs.fns f (mem_of_find?_eq_some hf)
    have hfound : f.name = d.name := by simpa using find?_some hf
    have hsame := inj_on_of_nodup_map hnames hd' hd (hname.trans hfound)
    cases hsame
    exact .gives hresult hs
  | none =>
    refine ensures_guard rfl (fun _ => ?_) s hs
    refine ensures_bind (ensures_fn hnames (hk _) hd).given fun f hf => ?_
    obtain ⟨⟨hname, hresult, hallowed⟩, s₀, s₁, hs₀, hgives⟩ := hf
    have hsettled : Settled builtins decls d.name := by
      refine settled_of_refs hnames hd (fun f hf => ?_) ?_
      · cases hf
        exact hallowed
      · exact settled_of_asked hnames hvars (asks_laxFn (.any (.decl (.fn d)))) (hk _) ⟨s₀, s₁, hs₀, (gives_fn_iff.1 hgives).1⟩
    have hadd : ∀ s, Faithful builtins decls s → Faithful builtins decls (s.addFn f) := by
      refine fun s hs => ⟨?_, hs.structs, ?_, hs.settled.2⟩
      · exact forall_mem_append.2 ⟨hs.fns, forall_mem_singleton.2 ⟨d, hd, hname.symm, hresult⟩⟩
      · exact forall_mem_append.2 ⟨hs.settled.1, forall_mem_singleton.2 (hname ▸ hsettled)⟩
    exact ensures_bind (ensures_modify hadd) fun _ _ => ensures_bind (ensures_note _) fun _ _ => ensures_pure hresult

theorem ensures_openStruct (hk : ∀ u, Resolves builtins decls (globals (.ofDecls builtins decls) vars k u))
    (u : Unfinished) {d : StructDecl} (hd : .struct d ∈ decls) (span : Span) :
    Ensures builtins decls (openStruct (globals (.ofDecls builtins decls) vars k) u d span) fun _ => True := by
  refine ensures_get fun s hs => ?_
  cases hf : s.struct? d.name with
  | some f => exact .gives True.intro hs
  | none =>
    refine ensures_guard rfl (fun _ => ?_) s hs
    refine ensures_bind (ensures_struct hnames (hk _) hd).given fun f hf => ?_
    obtain ⟨⟨hname, hmembers, harrays⟩, hgives⟩ := hf
    have hsettled : Settled builtins decls d.name :=
      settled_of_refs hnames hd (fun f hf => by cases hf)
        (settled_of_asked hnames hvars (asks_struct (.any (.decl (.struct d)))) (hk _) hgives)
    have hadd : ∀ s, Faithful builtins decls s → Faithful builtins decls (s.addStruct f) := by
      refine fun s hs => ⟨hs.fns, ?_, hs.settled.1, ?_⟩
      · refine forall_mem_append.2 ⟨hs.structs, forall_mem_singleton.2 ⟨d, hd, hname.symm, hmembers, ?_⟩⟩
        rw [hname]
        exact harrays
      · exact forall_mem_append.2 ⟨hs.settled.2, forall_mem_singleton.2 (hname ▸ hsettled)⟩
    refine ensures_bind (ensures_modify hadd) fun _ _ => ?_
    exact ensures_bind (ensures_note _) fun _ _ => ensures_pure True.intro

theorem fits_var {v : Var} (hv : vars.lookup? x = some v) :
    Info.Fits ⟨builtins, decls, []⟩ x (.var v) := by
  obtain ⟨d, hd, w, hvar, hname, hty⟩ := hvars x v hv
  have hfound : Names.decl? ⟨builtins, decls, []⟩ x = some d := by
    rw [← hname, ← (Decl.meaning_of_interfaceVar? hvar).1]
    exact find?_of_mem hnames hd
  refine ⟨?_, ?_⟩
  · simp [Names.varTy?, Names.local?, hfound, hvar, hty]
  · simp only [Names.Assigns, Names.local?, lookup_nil, hfound]
    cases d with
    | attributeVar w | uniformVar w | varyingVar w =>
      simp only [Decl.interfaceVar?, Option.some.injEq, Prod.mk.injEq] at hvar
      simp [← hvar.2, VarKind.isAssignable]
    | struct | fn => cases hvar

theorem resolves_globals (n : Nat) (u : Unfinished) :
    Resolves builtins decls (globals (.ofDecls builtins decls) vars n u) := by
  induction n generalizing u with
  | zero => exact fun x span => ensures_pure (by simp)
  | succ k ih =>
    intro x span
    have hdecl {d : Decl} (hd : d ∈ decls) (hname : d.name = x) : Names.decl? ⟨builtins, decls, []⟩ x = some d := by
      subst hname
      exact find?_of_mem hnames hd
    simp only [globals, resolve]
    cases hv : vars.lookup? x with
    | some v =>
      refine ensures_pure ?_
      rintro _ ⟨⟩
      exact fits_var hnames hvars hv
    | none =>
      cases hf : (TopLevel.ofDecls builtins decls).fn? x with
      | some d =>
        have hd := mem_fns_ofDecls.1 (mem_of_find?_eq_some hf)
        have hfound := hdecl hd (show d.name = x by simpa using find?_some hf)
        refine ensures_bind (ensures_openFn hnames hvars ih u hd span) fun f hresult => ensures_pure ?_
        rintro _ ⟨⟩ args
        rw [Names.callTy?, hfound, hresult]
      | none =>
        cases hs : (TopLevel.ofDecls builtins decls).struct? x with
        | some d =>
          have hd := mem_structs_ofDecls.1 (mem_of_find?_eq_some hs)
          have hfound := hdecl hd (show d.name = x by simpa using find?_some hs)
          refine ensures_bind (ensures_openStruct hnames hvars ih u hd span) fun f _ => ensures_pure ?_
          rintro _ ⟨⟩ args
          rw [Names.callTy?, hfound]
        | none =>
          refine ensures_pure fun i hi => ?_
          obtain ⟨overloads, hoverloads, rfl⟩ := Option.map_eq_some_iff.1 hi
          exact fits_builtin hoverloads hf hs

end Openings

/-! ## Whole shaders -/

section Programs

theorem ensures_interfaceVars (hnames : (decls.map Decl.name).Nodup) {vars : Scope Var} (hvars : VarsFit decls vars)
    {ds : List (TypedName × VarKind)} (hds : ∀ d ∈ ds, d ∈ interfaceOrder decls) :
    Ensures builtins decls (interfaceVars (.ofDecls builtins decls) vars ds) fun r => VarsFit decls r.1 ∧
      ∀ d ∈ ds, ∀ x ∈ d.1.ty.refs [], Openable decls x → Settled builtins decls x := by
  induction ds generalizing vars with
  | nil => exact ensures_pure ⟨hvars, forall_mem_nil _⟩
  | cons d ds ih =>
    obtain ⟨w, kind⟩ := d
    obtain ⟨hd, hds⟩ := forall_mem_cons.1 hds
    have hg : Resolves builtins decls _ := resolves_globals hnames hvars (TopLevel.ofDecls builtins decls).depth {}
    refine ensures_bind (ensures_tyExpr hg.reads w.ty).given fun ty hty => ?_
    obtain ⟨rfl, hgives⟩ := hty
    have hsettled := settled_of_asked hnames hvars (asks_tyExpr .nil (.any (.ty w.ty))) hg hgives
    split
    · rename_i cause hcause
      exact ensures_refuse (isAboutPlace_refusal? hcause) _
    · have hfit : ∀ vars', vars.insert? w.name ⟨w.ty.ty, kind⟩ = some vars' → VarsFit decls vars' := by
        intro vars' hinsert x v hv
        rw [Scope.lookup?_insert? hinsert] at hv
        split at hv
        · rename_i hx
          obtain rfl := Option.some.inj hv
          obtain ⟨decl, hdecl, hvar⟩ := mem_interfaceOrder.1 hd
          exact ⟨decl, hdecl, w, hvar, hx.symm, rfl⟩
        · exact hvars x v hv
      refine ensures_bind (ensures_bindName hfit) fun vars' hvars' => ?_
      refine ensures_bind (ih hvars' hds) fun r hr => ensures_pure ⟨hr.1, ?_⟩
      exact forall_mem_cons.2 ⟨hsettled, hr.2⟩

/-- The function of a stage and those that it leads to have allowed assignments. -/
theorem ensures_entry (hnames : (decls.map Decl.name).Nodup) {vars : Scope Var} (hvars : VarsFit decls vars)
    (stage : Stage) : Ensures builtins decls (entry (.ofDecls builtins decls) vars stage) fun _ =>
      Settled builtins decls stage.entryPoint := by
  have hrun : Ensures builtins decls (entry (.ofDecls builtins decls) vars stage) fun _ => True := by
    unfold entry
    split
    · exact ensures_refuse rfl _
    · rename_i d hd
      have hmem := mem_fns_ofDecls.1 (mem_of_find?_eq_some hd)
      refine ensures_guard rfl fun _ => ?_
      refine ensures_bind (ensures_openFn hnames hvars (resolves_globals hnames hvars _) {} hmem _) fun f _ => ?_
      refine ensures_guard rfl fun _ => ?_
      cases stage with
      | vertex | fragment => exact ensures_guard rfl fun _ => ensures_pure True.intro
  refine hrun.given.weaken fun f hf => ?_
  obtain ⟨-, s, s', hs, hgives⟩ := hf
  obtain ⟨hmem, hname⟩ := found_of_entry hgives
  exact hname ▸ (hrun.of_gives hs hgives).2.settled.1 f hmem

theorem ensures_vertexPart (builtins : Builtins) (decls : List Decl) :
    Ensures builtins decls (vertexPart builtins decls) fun v => (decls.map Decl.name).Nodup ∧ VarsFit decls v.scope ∧
      (∀ d ∈ interfaceOrder decls, ∀ x ∈ d.1.ty.refs [], Openable decls x → Settled builtins decls x) ∧
      Settled builtins decls Stage.vertex.entryPoint := by
  unfold vertexPart
  cases hredefined : firstRedefined? [] decls with
  | some d => exact ensures_refuse rfl _
  | none =>
    have hnames := (nodup_of_firstRedefined? hredefined).1
    refine ensures_bind (ensures_interfaceVars hnames (.empty decls) fun _ hd => hd) fun r hr => ?_
    exact ensures_bind (ensures_entry hnames hr.1 .vertex) fun f hf => ensures_pure ⟨hnames, hr.1, hr.2, hf⟩

/-- Checking a shader ends with everything settled that the stages or the interface lead to, or fails for an assignment
that is not permitted or for another reason. -/
theorem ensures_program (builtins : Builtins) (shared : Bool) (decls : List Decl) :
    Ensures builtins decls (program builtins shared decls) fun _ => ∀ x, Leads decls x → Settled builtins decls x := by
  rw [program_eq]
  refine ensures_bind (ensures_vertexPart builtins decls) fun v hv => ?_
  obtain ⟨hnames, hvars, hinterface, hvertex⟩ := hv
  have hdrop : ∀ s, Faithful builtins decls s → Faithful builtins decls { s with fns := [] } := fun s hs =>
    ⟨forall_mem_nil _, hs.structs, forall_mem_nil _, hs.settled.2⟩
  have hleads (hfragment : Settled builtins decls Stage.fragment.entryPoint) :
      ∀ x, Leads decls x → Settled builtins decls x := by
    rintro x ⟨r, ⟨hopens, hstart⟩, hpath⟩
    induction hpath with
    | refl =>
      rcases hstart with ⟨stage, rfl⟩ | ⟨d, hd, hvar, hmem⟩
      · cases stage with
        | vertex => exact hvertex
        | fragment => exact hfragment
      · cases d with
        | fn | struct => cases hvar
        | attributeVar | uniformVar | varyingVar =>
          exact hinterface _ (mem_interfaceOrder.2 ⟨_, hd, rfl⟩) r hmem hopens
    | tail _ hstep ih =>
      cases ih with
      | intro _ hrefs => exact hrefs _ hstep
  have hentry : Ensures builtins decls _ _ := ensures_entry hnames hvars .fragment
  refine ensures_get fun s hs => ensures_bind (ensures_note _) (fun _ _ => ?_) s hs
  refine ensures_ite (fun _ => ensures_bind (ensures_modify hdrop) fun _ _ => ?_) fun _ => ?_
  all_goals
    refine ensures_bind hentry fun f hf => ensures_get fun s hs => ?_
    exact ensures_bind (ensures_note _) (fun _ _ => ensures_pure (hleads hf)) s hs

end Programs

/-! ## Permitted assignments -/

section Permitted

variable {ctx : Context} {N : Names} {s s' : Expansion} {t : Typed}

/-- What can be read and is a place is accepted as a place, and opens the same. -/
theorem gives_place (hnames : (decls.map Decl.name).Nodup) (hctx : Reads builtins decls ctx N)
    (hall : AllOccur builtins decls (e.assignments N)) (hs : Faithful builtins decls s)
    (h : Gives (expr ctx false e) s t s') (ha : e.Assignable N) :
    ∃ t', Gives (expr ctx true e) s t' s' ∧ t'.ty = t.ty := by
  induction e generalizing t s' with
  | var x span =>
    obtain ⟨v, hfind, hread⟩ := gives_var.1 h
    obtain ⟨-, hassigns⟩ := ((ensures_find hctx x span).of_gives hs hfind).1 _ rfl
    have hmutable := hassigns.1 ha
    cases hstore : useVar true x v with
    | ok t' => exact ⟨t', gives_var.2 ⟨v, hfind, hstore⟩, (useVar_ok hstore).1.trans (useVar_ok hread).1.symm⟩
    | error cause =>
      rw [(useVar_error hstore).2] at hmutable
      cases hmutable
  | index b i span ihb ihi =>
    rw [Expr.assignments] at hall
    obtain ⟨b', s₁, i', ty, hb, hi, hty, hinside, rfl⟩ := gives_index.1 h
    obtain ⟨b'', hb'', htb⟩ := ihb (forall_mem_append.1 hall).1 hb ha.1
    rw [← htb] at hty hinside
    exact ⟨_, gives_index.2 ⟨b'', s₁, i', ty, hb'', hi, hty, hinside, rfl⟩, rfl⟩
  | member b name span ih =>
    rw [Expr.assignments] at hall
    obtain ⟨b', hb, hmember⟩ := gives_member.1 h
    obtain ⟨b'', hb'', htb⟩ := ih hall hb ha.1
    have hty := ((ensures_value hnames hctx hall).of_gives hs hb).1.ty
    rcases hmember with ⟨x, d, ty, hx, hd, hm, rfl⟩ | ⟨sw, hsw, -, rfl⟩
    · exact ⟨_, gives_member.2 ⟨b'', hb'', .inl ⟨x, d, ty, htb.trans hx, hd, hm, rfl⟩⟩, rfl⟩
    · have hnodup := ha.2 b'.ty sw hty hsw
      rw [← htb] at hsw
      refine ⟨_, gives_member.2 ⟨b'', hb'', .inr ⟨sw, hsw, fun _ => ?_, rfl⟩⟩, rfl⟩
      simp [Swizzle.hasDuplicates, hnodup]
  | cond | bin | un | call | construct | lit => exact ha.elim

/-- Looking for arrays fails only at a struct that has not been opened. -/
theorem outcome_hasArrays (t : Ty) (s : Expansion) :
    (∃ b, Gives (hasArrays t) s b s) ∨ ∃ x, (hasArrays t).outcome s = (.error (.unopened x), s) := by
  cases t with
  | void | basic | array => exact .inl ⟨_, gives_pure.2 ⟨rfl, rfl⟩⟩
  | struct x =>
    cases hx : s.struct? x with
    | some d => exact .inl ⟨d.hasArrays, gives_bind.2 ⟨d, s, gives_openedStruct.2 ⟨hx, rfl⟩, gives_pure.2 ⟨rfl, rfl⟩⟩⟩
    | none =>
      refine .inr ⟨x, ?_⟩
      simp only [hasArrays, openedStruct, outcome_bind, outcome_get, hx, outcome_throw]

/-- A permitted assignment is not refused, if both sides can be read and the operator takes their types. -/
theorem not_refused_of_permitted (hnames : (decls.map Decl.name).Nodup) (hctx : Reads builtins decls ctx N)
    {op : BinOp} {l r : Expr} {span : Span} (hop : op.isAssignment = true)
    (hall : AllOccur builtins decls ((Expr.bin op l r span).assignments N)) (hs : Faithful builtins decls s)
    {l' r' : Typed} {s₁ s₂ : Expansion} {ty : Ty} (hl : Gives (expr ctx false l) s l' s₁)
    (hr : Gives (expr ctx false r) s₁ r' s₂) (hty : Ty.binary? op l'.ty r'.ty = some ty)
    (hpermitted : Assignment.Permitted ⟨N, op, l⟩) (e : SemanticError) :
    ((expr ctx false (.bin op l r span)).outcome s).1 ≠ .error (.refused e) := by
  rw [Expr.assignments, AllOccur, forall_mem_append, forall_mem_append] at hall
  obtain ⟨-, hallL, hallR⟩ := hall
  obtain ⟨l'', hl'', htl⟩ := gives_place hnames hctx hallL hs hl hpermitted.1
  obtain ⟨hcheckedL, hs₁⟩ := (ensures_value hnames hctx hallL).of_gives hs hl
  have hs₂ := ((ensures_value hnames hctx hallR).of_gives hs₁ hr).2
  rw [← hop] at hl''
  rw [← htl] at hty
  have haccepted (harrays : op = .assign → Gives (hasArrays l''.ty) s₂ false s₂) :
      ((expr ctx false (.bin op l r span)).outcome s).1 ≠ .error (.refused e) := by
    have hgives : Gives (expr ctx false (.bin op l r span)) s _ s₂ :=
      gives_bin.2 ⟨rfl, l'', s₁, r', ty, hl'', hr, hty, harrays, rfl⟩
    rw [show (expr ctx false (.bin op l r span)).outcome s = (.ok _, s₂) from hgives]
    simp
  by_cases hassign : op = .assign
  · rcases outcome_hasArrays l''.ty s₂ with ⟨b, hb⟩ | ⟨x, hx⟩
    · have hnone := hpermitted.2 hassign l'.ty hcheckedL.ty
      rw [hctx.sameDecls, ← htl, ← ((ensures_hasArrays l''.ty).of_gives hs₂ hb).1, Bool.not_eq_true] at hnone
      exact haccepted fun _ => hnone ▸ hb
    · subst hassign
      have hstore : (expr ctx true l).outcome s = (.ok l'', s₁) := hl''
      have hread : (expr ctx false r).outcome s₁ = (.ok r', s₂) := hr
      rw [expr]
      simp only [notPlace, outcome_bind, outcome_pure, BinOp.isAssignment, hstore, hread, hty, Bool.false_eq_true,
        if_false, if_true, hx]
      simp
  · exact haccepted fun h => absurd h hassign

end Permitted

/-- Checking stands at a place of a shader: the scopes bind the local variables there, the top-level names are those of
the shader as far as its interface has been checked, and what has been opened is as it is declared. -/
structure StandsAt (builtins : Builtins) (decls : List Decl) (ctx : Context) (N : Names) (s : Expansion) : Prop where
  names : (decls.map Decl.name).Nodup
  sameBuiltins : N.builtins = builtins
  sameDecls : N.decls = decls
  locals : FitsLocals ctx.scopes N
  globals : ∃ vars n u, VarsFit decls vars ∧ ctx.globals = globals (.ofDecls builtins decls) vars n u
  opened : Faithful builtins decls s

theorem StandsAt.reads {N : Names} {s : Expansion} (h : StandsAt builtins decls ctx N s) :
    Reads builtins decls ctx N := by
  obtain ⟨vars, n, u, hvars, hglobals⟩ := h.globals
  exact ⟨h.sameBuiltins, h.sameDecls, h.locals, hglobals ▸ resolves_globals h.names hvars n u⟩

theorem faithful_start (builtins : Builtins) (decls : List Decl) : Faithful builtins decls {} :=
  ⟨forall_mem_nil _, forall_mem_nil _, forall_mem_nil _, forall_mem_nil _⟩

end Check

/-- Only places are assigned. In an accepted shader every assignment in a function that the stages or the interface lead
to is allowed: its left operand has a type and is a chain of elements, members and components over a varying or a
variable declared by `let`, no component is selected twice, constant indices are in bounds, and `=` assigns no array and
no struct with an array inside. Where a shader is refused for what it assigns, an assignment that is not permitted
stands there. And wherever both sides of a permitted assignment can be read and its operator takes their types, the
assignment is not refused. -/
theorem emit_assigns_places (d : Dialect) (extra : Builtins) (decls : List Decl) :
    (∀ c, (emit d extra decls).1 = .ok c → ∀ f, .fn f ∈ decls → Leads decls f.name →
      ∀ a ∈ f.assignments (Builtin.defaults ++ extra) decls, a.Allowed) ∧
    (∀ e, (emit d extra decls).1 = .error (.refused e) → e.cause.isAboutPlace = true →
      ∃ a : Assignment, a.OccursIn (Builtin.defaults ++ extra) decls ∧ e.span ∈ a.left.chain ∧ ¬ a.Permitted) ∧
    (∀ {ctx N s}, Check.StandsAt (Builtin.defaults ++ extra) decls ctx N s →
      ∀ {op l r span}, op.isAssignment = true →
      (∀ a ∈ (Expr.bin op l r span).assignments N, a.OccursIn (Builtin.defaults ++ extra) decls) →
      ∀ {l' s₁ r' s₂ ty}, Check.Gives (Check.expr ctx false l) s l' s₁ →
      Check.Gives (Check.expr ctx false r) s₁ r' s₂ → Ty.binary? op l'.ty r'.ty = some ty →
      Assignment.Permitted ⟨N, op, l⟩ →
      ∀ e, ((Check.expr ctx false (.bin op l r span)).outcome s).1 ≠ .error (.refused e)) := by
  have hstart := Check.faithful_start (Builtin.defaults ++ extra) decls
  have hprogram := Check.ensures_program (Builtin.defaults ++ extra) d.sharesDecls decls
  refine ⟨fun c hc f hf hleads => ?_, fun e he hcause => ?_, fun hstands => ?_⟩
  · obtain ⟨p, hp, -, -⟩ := accepted_of_emit_ok hc
    obtain ⟨s', hgives⟩ := Check.gives_of_check hp
    cases (hprogram.of_gives hstart hgives).1 f.name hleads with
    | intro hown _ => exact hown f hf rfl
  · obtain ⟨s', ho⟩ := outcome_of_emit_error he
    have hends := hprogram {} hstart
    rw [ho] at hends
    cases hends with
    | fails hblames _ => exact hblames hcause
  · intro op l r span hop hall l' s₁ r' s₂ ty hl hr hty hpermitted
    exact Check.not_refused_of_permitted hstands.names hstands.reads hop hall hstands.opened hl hr hty hpermitted

/-- A shader whose assignments stand in an index, in a branch that is left out and in a function that is called only
there; the same with a struct around an array that is assigned as a whole; and a permitted selection. -/
theorem nested_assignments_are_places :
    let ty (b : BasicTy) : TyExpr := .keyword b .unset
    let vec (n : Dim) : BasicTy := .vector .float n
    let int (i : Int32) : Expr := .lit (.int i) .unset
    let var (x : Ident) : Expr := .var x .unset
    let one : Expr := .construct (.scalar .float) [int 1] .unset
    let make (n : Dim) : Expr := .construct (vec n) [one] .unset
    let store (l r : Expr) : Expr := .bin .assign l r .unset
    let never (st : Stmt) : Stmt := .ifStmt (.lit (.bool false) .unset) (.mk [st] .unset) none .unset
    let colour : Stmt := .returnStmt (some (make .four)) .unset
    let end1 : Expr := .index (.member (var "cell") "ends" .unset) (int 1) .unset
    let own : List Stmt := [.letStmt "cell" (some (.named "Cell" .unset)) none .unset,
      .letStmt "i" (some (ty (.scalar .int))) none .unset,
      never (.exprStmt (store (.member end1 "yx" .unset) (make .two)) .unset),
      .exprStmt (store (.index (.member (var "tint") "wx" .unset) (store (var "i") (int 1)) .unset) (var "strength"))
        .unset]
    let shade (more : List Stmt) : FnDecl :=
      ⟨"shade", [⟨"strength", ty (.scalar .float), .unset⟩], none, .mk (own ++ more) .unset, .unset⟩
    let decls (more : List Stmt) : List Decl := [.varyingVar ⟨"tint", ty (vec .four), .unset⟩,
      .struct ⟨"Cell", [⟨"ends", .array (ty (vec .two)) 2 .unset, .unset⟩], .unset⟩, .fn (shade more),
      .fn ⟨"vertex", [], some (ty (vec .four)), .mk [never (.exprStmt (.call "shade" [one] .unset) .unset), colour] .unset,
        .unset⟩,
      .fn ⟨"fragment", [], some (ty (vec .four)), .mk [colour] .unset, .unset⟩]
    let whole : Stmt := .exprStmt (store (var "cell") (var "cell")) .unset
    let N : Names := ⟨Builtin.defaults ++ [], decls [], [("i", ⟨.letVar, some .int⟩),
      ("cell", ⟨.letVar, some (.struct "Cell")⟩), ("strength", ⟨.param, some .float⟩)]⟩
    let scope : Scope Var := ⟨[("i", ⟨.int, .localVar true⟩), ("cell", ⟨.struct "Cell", .localVar true⟩),
      ("strength", ⟨.float, .localVar false⟩)]⟩
    let ctx : Context := ⟨[scope], Check.globals (.ofDecls (Builtin.defaults ++ []) (decls [])) .empty 1 {}⟩
    (∃ c : Compiled, (emit (Glsl.dialect {}) [] (decls [])).1 = .ok c) ∧ Leads (decls []) "shade" ∧
      ((shade []).assignments (Builtin.defaults ++ []) (decls [])).length = 3 ∧
      (∀ a ∈ (shade []).assignments (Builtin.defaults ++ []) (decls []), a.Allowed) ∧
      (emit (Glsl.dialect {}) [] (decls [whole])).1 = .error (.refused ⟨.notAssignable, .unset⟩) ∧
      (∃ a : Assignment, a.OccursIn (Builtin.defaults ++ []) (decls [whole]) ∧ Span.unset ∈ a.left.chain ∧
        ¬ a.Permitted) ∧
      Check.StandsAt (Builtin.defaults ++ []) (decls []) ctx N {} ∧ Assignment.Permitted ⟨N, .assign, var "i"⟩ ∧
      ∀ e, ((Check.expr ctx false (store (var "i") (int 1))).outcome {}).1 ≠ .error (.refused e) := by
  intro ty vec int var one make store never colour end1 own shade decls whole N scope ctx
  obtain ⟨p, events, -, haccepted, -⟩ := emit_of_check
    (show (Program.check (Builtin.defaults ++ []) (Glsl.dialect {}).sharesDecls (decls [])).1.toOption.any
      (fun _ => true) = true by decide +kernel)
  have hrefused : (emit (Glsl.dialect {}) [] (decls [whole])).1 = .error (.refused ⟨.notAssignable, .unset⟩) := by
    decide +kernel
  have hlength : ((shade []).assignments (Builtin.defaults ++ []) (decls [])).length = 3 := by decide +kernel
  have hshade : .fn (shade []) ∈ decls [] := .tail _ (.tail _ (.head _))
  have hleads : Leads (decls []) "shade" := by
    have hvertex : .fn _ ∈ decls [] := .tail _ (.tail _ (.tail _ (.head _)))
    refine ⟨"vertex", ⟨⟨_, hvertex, rfl, rfl⟩, .inl ⟨.vertex, rfl⟩⟩, .single ?_⟩
    exact ⟨_, hvertex, rfl, rfl, by decide +kernel, _, hshade, rfl, rfl⟩
  have hstands : Check.StandsAt (Builtin.defaults ++ []) (decls []) ctx N {} := by
    refine ⟨by decide, rfl, rfl, ?_, ⟨.empty, 1, {}, .empty _, rfl⟩, Check.faithful_start _ _⟩
    exact (((Check.FitsLocals.nil _ _).enter.insert .param rfl).insert .letVar rfl).insert .letVar rfl
  have hpermitted : Assignment.Permitted ⟨N, .assign, var "i"⟩ := by
    refine ⟨rfl, fun _ t ht harray => ?_⟩
    cases ht
    cases harray
  have hoccurs : ∀ a ∈ (store (var "i") (int 1)).assignments N, a.OccursIn (Builtin.defaults ++ []) (decls []) :=
    forall_mem_singleton.2 ⟨shade [], hshade, .tail _ (.tail _ (.head _))⟩
  have hok := congrArg Prod.fst haccepted
  obtain ⟨hallowed, -, hconverse⟩ := emit_assigns_places (Glsl.dialect {}) [] (decls [])
  refine ⟨⟨_, hok⟩, hleads, hlength, hallowed _ hok _ hshade hleads, hrefused,
    (emit_assigns_places (Glsl.dialect {}) [] (decls [whole])).2.1 _ hrefused rfl, hstands, hpermitted, ?_⟩
  exact hconverse hstands rfl hoccurs rfl rfl rfl hpermitted

end Shading
