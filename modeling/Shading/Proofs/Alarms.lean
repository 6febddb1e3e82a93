import Shading.Proofs.Watching

/-!
# No alarm is raised

The watchful check comes to the same as the plain one. All that the plain check has at hand at some point is known
there: the types of the names in scope, of what is found at the top level and of the expressions checked so far have
only structs that have been opened, if no builtin function returns a struct. So every demand is met. The stack always
has the scope of the block that is being checked on top of those around it, since a statement changes the topmost one
only and a block removes its own.

`Alike` compares the two. It is kept by every step of the check, one lemma for each kind of expression, statement and
declaration, and it includes that the plain check never looks for a struct that has not been opened.
-/

namespace Shading

open List

namespace Check

/-- Every struct in the type has been opened. -/
def AllOpened (s : Expansion) (ty : Ty) : Prop := ∀ x ∈ ty.structNames, ∃ d, s.struct? x = some d

/-- No struct is found unopened. -/
def Safe {α : Type} (s : Expansion) (m : Check α) : Prop := ∀ x, (m.outcome s).1 ≠ .error (.unopened x)

/-- The two steps come to the same: they succeed with results that match, or fail alike, though not because a struct
is unopened. -/
def Alike {α β : Type} (R : α → β → Prop) (s : Expansion) (m : Check α) (w : Check β) : Prop :=
  (∃ a b s', Gives m s a s' ∧ Gives w s b s' ∧ R a b) ∨
  ∃ e s', m.outcome s = (.error e, s') ∧ w.outcome s = (.error e, s') ∧ ∀ x, e ≠ .unopened x

variable {x : Ident} {ty : Ty} {place : Bool} {span : Span} {s : Expansion}

section Safe

variable {α β : Type} {s : Expansion}

theorem safe_pure (a : α) : Safe s (pure a : Check α) := nofun

theorem safe_refuse (cause : Cause) (span : Span) : Safe s (refuse cause span : Check α) := nofun

theorem safe_note (e : Event) : Safe s (note e) := fun _ h => by cases h

theorem safe_bind {m : Check α} {f : α → Check β} (hm : Safe s m) (hf : ∀ a s₁, Gives m s a s₁ → Safe s₁ (f a)) :
    Safe s (m >>= f) := by
  intro x hx
  rw [outcome_bind] at hx
  rcases ho : m.outcome s with ⟨r, s₁⟩
  rw [ho] at hx
  cases r with
  | error e =>
    obtain rfl : e = .unopened x := Except.error.inj hx
    exact hm x (by rw [ho])
  | ok a => exact hf a s₁ ho x hx

theorem safe_ite {c : Prop} [Decidable c] {m n : Check α} (hm : c → Safe s m) (hn : ¬ c → Safe s n) :
    Safe s (if c then m else n) := by
  split
  · exact hm ‹_›
  · exact hn ‹_›

theorem safe_notPlace (place : Bool) (span : Span) : Safe s (notPlace place span) :=
  safe_ite (fun _ => safe_refuse _ _) fun _ => safe_pure _

theorem safe_sameCount (f : Ident) (tys : List Ty) (args : List Expr) (span : Span) :
    Safe s (sameCount f tys args span) :=
  safe_ite (fun _ => safe_refuse _ _) fun _ => safe_ite (fun _ => safe_refuse _ _) fun _ => safe_pure _

theorem safe_bindName (scope : Scope Var) (x : Ident) (v : Var) (span : Span) :
    Safe s (bindName scope x v span) := by
  unfold bindName
  split
  · exact safe_pure _
  · exact safe_refuse _ _

theorem safe_element (base index : Typed) (indexSpan span : Span) : Safe s (element base index indexSpan span) := by
  unfold element
  split
  · exact safe_refuse _ _
  · exact safe_ite (fun _ => safe_refuse _ _) fun _ => safe_pure _

theorem safe_openedStruct (h : AllOpened s (.struct x)) : Safe s (openedStruct x) := by
  obtain ⟨d, hd⟩ := h x mem_cons_self
  intro y hy
  have hgives : Gives (openedStruct x) s d s := gives_openedStruct.2 ⟨hd, rfl⟩
  rw [show (openedStruct x).outcome s = (.ok d, s) from hgives] at hy
  cases hy

theorem safe_hasArrays (h : AllOpened s ty) : Safe s (hasArrays ty) := by
  cases ty with
  | struct x => exact safe_bind (safe_openedStruct h) fun d _ _ => safe_pure _
  | _ => exact safe_pure _

theorem safe_member {base : Typed} {name : Ident} (h : AllOpened s base.ty) :
    Safe s (member place base name span) := by
  unfold member
  split
  · rename_i x hty
    refine safe_bind (safe_openedStruct (hty ▸ h)) fun d s₁ _ => ?_
    split
    · exact safe_pure _
    · exact safe_refuse _ _
  · split
    · exact safe_refuse _ _
    · exact safe_ite (fun _ => safe_refuse _ _) fun _ => safe_pure _

end Safe

/-- A demand is met if the structs are opened. -/
theorem gives_demand {alarm : Alarm → Fault} {tys : List Ty} (h : ∀ ty ∈ tys, AllOpened s ty) :
    Gives (demand alarm tys) s () s := by
  have hnone : ((tys.flatMap Ty.structNames).find? fun x => (s.struct? x).isNone) = none := by
    refine find?_eq_none.2 fun x hx => ?_
    obtain ⟨ty, hty, hx⟩ := mem_flatMap.1 hx
    obtain ⟨d, hd⟩ := h ty hty x hx
    simp [hd]
  refine gives_bind.2 ⟨s, s, gives_get.2 ⟨rfl, rfl⟩, ?_⟩
  rw [hnone]
  exact gives_pure.2 ⟨rfl, rfl⟩

namespace Alike

variable {α β γ δ : Type} {s : Expansion} {R : α → β → Prop} {Q : γ → δ → Prop}

theorem pure {a : α} {b : β} (h : R a b) : Alike R s (Pure.pure a : Check α) (Pure.pure b) :=
  .inl ⟨a, b, s, rfl, rfl, h⟩

theorem refuse (cause : Cause) (span : Span) : Alike R s (Check.refuse cause span) (Check.refuse cause span) :=
  .inr ⟨_, s, rfl, rfl, nofun⟩

theorem guard {c : Prop} [Decidable c] {cause : Cause} {k : γ → Check α} {k' : γ → Check β} {m : Check α}
    {w : Check β} (h : Alike R s m w) :
    Alike R s (if c then Check.refuse cause span >>= k else m) (if c then Check.refuse cause span >>= k' else w) := by
  split
  · exact .refuse cause span
  · exact h

theorem same {m : Check α} (h : Safe s m) : Alike Eq s m m := by
  rcases ho : m.outcome s with ⟨r, s₁⟩
  cases r with
  | ok a => exact .inl ⟨a, a, s₁, ho, ho, rfl⟩
  | error e =>
    refine .inr ⟨e, s₁, ho, ho, ?_⟩
    rintro x rfl
    exact h x (by rw [ho])

theorem bind {m : Check α} {w : Check β} {f : α → Check γ} {g : β → Check δ} (hm : Alike R s m w)
    (hf : ∀ a b s₁, Gives m s a s₁ → R a b → Alike Q s₁ (f a) (g b)) : Alike Q s (m >>= f) (w >>= g) := by
  rcases hm with ⟨a, b, s₁, ha, hb, hab⟩ | ⟨e, s₁, he, he', hsafe⟩
  · rcases hf a b s₁ ha hab with ⟨c, d, s₂, hc, hd, hcd⟩ | ⟨e, s₂, he, he', hsafe⟩
    · exact .inl ⟨c, d, s₂, gives_bind.2 ⟨a, s₁, ha, hc⟩, gives_bind.2 ⟨b, s₁, hb, hd⟩, hcd⟩
    · refine .inr ⟨e, s₂, ?_, ?_, hsafe⟩
      · rw [outcome_bind, show m.outcome s = (.ok a, s₁) from ha]
        exact he
      · rw [outcome_bind, show w.outcome s = (.ok b, s₁) from hb]
        exact he'
  · refine .inr ⟨e, s₁, ?_, ?_, hsafe⟩
    · rw [outcome_bind, he]
    · rw [outcome_bind, he']

theorem outcome_eq {m w : Check α} (h : Alike Eq s m w) : w.outcome s = m.outcome s := by
  rcases h with ⟨a, b, s₁, ha, hb, rfl⟩ | ⟨e, s₁, he, he', -⟩
  · exact hb.trans ha.symm
  · exact he'.trans he.symm

theorem safe {m : Check α} {w : Check β} (h : Alike R s m w) : Safe s m := by
  intro x hx
  rcases h with ⟨a, b, s₁, ha, -, -⟩ | ⟨e, s₁, he, -, hsafe⟩
  · rw [show m.outcome s = (.ok a, s₁) from ha] at hx
    cases hx
  · rw [he] at hx
    exact hsafe x (Except.error.inj hx)

theorem get {f : Expansion → Check α} {g : Expansion → Check β} (h : Alike R s (f s) (g s)) :
    Alike R s (MonadState.get >>= f) (MonadState.get >>= g) := by
  unfold Alike Gives
  rw [outcome_bind, outcome_bind]
  exact h

/-- After steps with the same result, both go on with it. -/
theorem andThen {m w : Check α} {f : α → Check γ} {g : α → Check δ} (hm : Alike Eq s m w)
    (hf : ∀ a s₁, Gives m s a s₁ → Alike Q s₁ (f a) (g a)) : Alike Q s (m >>= f) (w >>= g) := by
  refine hm.bind fun a b s₁ ha hab => ?_
  cases hab
  exact hf a s₁ ha

theorem notPlace {f : Unit → Check α} {g : Unit → Check β} (h : Alike R s (f ()) (g ())) :
    Alike R s (Check.notPlace place span >>= f) (Check.notPlace place span >>= g) := by
  refine (same (safe_notPlace place span)).andThen fun _ s₁ hs₁ => ?_
  obtain ⟨-, rfl⟩ := gives_notPlace.1 hs₁
  exact h

/-- A step that succeeds and changes nothing can stand in front. -/
theorem behind {m : Check α} {w : Check γ} {g : γ → Check β} {c : γ} (hw : Gives w s c s) (h : Alike R s m (g c)) :
    Alike R s m (w >>= g) := by
  have houtcome : (w >>= g).outcome s = (g c).outcome s := by
    rw [outcome_bind, show w.outcome s = (.ok c, s) from hw]
  unfold Alike Gives
  rw [houtcome]
  exact h

theorem watched {alarm : Alarm → Fault} {m w : Check Typed} (h : Alike Eq s m w)
    (hopened : ∀ t s', Gives m s t s' → AllOpened s' t.ty) : Alike Eq s m (Check.watched alarm w) := by
  rw [← bind_pure m]
  exact h.andThen fun t s₁ ht => .behind (gives_demand (by simpa using hopened t s₁ ht)) (.pure rfl)

end Alike

/-- What is known of a type is that its structs are opened, where builtin functions return no structs. -/
theorem opened_of_localUses {top : TopLevel} {vars : Scope Var} (hb : top.builtins.resultStructs = [])
    (h : AllKnown top vars s ty.localUses) : AllOpened s ty := by
  intro x hx
  rcases h _ (mem_map_of_mem hx) with ⟨d, hd, hname⟩ | hx
  · cases hfind : s.struct? x with
    | some d => exact ⟨d, rfl⟩
    | none => exact absurd (beq_iff_eq.2 hname) (find?_eq_none.1 hfind d hd)
  · rw [hb] at hx
    cases hx

theorem opened_of_uses {top : TopLevel} {vars : Scope Var} (hb : top.builtins.resultStructs = [])
    (h : AllKnown top vars s ty.uses) : AllOpened s ty :=
  opened_of_localUses hb h.ofLocal

section Names

variable {alarm : Alarm → Fault} {top : TopLevel} {vars : Scope Var} {n : Nat} {u : Unfinished} {w : Globals}
  {s : Expansion} (hb : top.builtins.resultStructs = [])
  (hg : ∀ x span, Keeps (Advance top vars u) (globals top vars n u x span))
  (hw : ∀ x span s, Sound top vars s → Alike Eq s (globals top vars n u x span) (w x span))

section Expressions

variable {scopes : List (Scope Var)}

include hw in
theorem alike_find (hready : Ready top vars scopes s) (x : Ident) (span : Span) :
    Alike Eq s (Context.find ⟨scopes, globals top vars n u⟩ x span) (Context.find ⟨scopes, w⟩ x span) := by
  unfold Context.find
  cases Scope.find? scopes x with
  | some v => exact .pure rfl
  | none => exact hw x span s hready.sound

include hw in
theorem alike_tyExpr (hready : Ready top vars scopes s) (te : TyExpr) :
    Alike Eq s (tyExpr ⟨scopes, globals top vars n u⟩ te) (tyExpr ⟨scopes, w⟩ te) := by
  induction te with
  | keyword b span => exact .pure rfl
  | array elem len span ih => exact .guard (ih.andThen fun ty _ _ => .pure rfl)
  | named x span =>
    refine (alike_find hw hready x span).andThen fun info s₁ _ => ?_
    cases info with
    | none => exact .refuse _ _
    | some info =>
      cases info with
      | struct d => exact .pure rfl
      | var v | fn d | builtin os => exact .refuse _ _

include hb hg

theorem opened_of_expr (hready : Ready top vars scopes s) {e : Expr} (t : Typed) (s' : Expansion)
    (h : Gives (expr ⟨scopes, globals top vars n u⟩ place e) s t s') : AllOpened s' t.ty :=
  opened_of_localUses hb (known_of_expr hg hready h).2

omit hb

theorem alike_exprs (hready : Ready top vars scopes s) {es : List Expr}
    (ih : ∀ e ∈ es, ∀ s, Ready top vars scopes s →
      Alike Eq s (expr ⟨scopes, globals top vars n u⟩ false e) (watchExpr alarm ⟨scopes, w⟩ false e)) :
    Alike Eq s (exprs ⟨scopes, globals top vars n u⟩ es) (watchExprs alarm ⟨scopes, w⟩ es) := by
  induction es generalizing s with
  | nil => exact .pure rfl
  | cons e es ihes =>
    rw [exprs, watchExprs]
    refine (ih e mem_cons_self s hready).andThen fun t s₁ ht => ?_
    have hready₁ := hready.advance (advance_of_expr hg ht)
    exact (ihes hready₁ fun e he => ih e (mem_cons_of_mem _ he)).andThen fun ts _ _ => .pure rfl

theorem alike_argsFor (hready : Ready top vars scopes s) {f : Ident} {i : Nat} {tys : List Ty} {es : List Expr}
    (ih : ∀ e ∈ es, ∀ s, Ready top vars scopes s →
      Alike Eq s (expr ⟨scopes, globals top vars n u⟩ false e) (watchExpr alarm ⟨scopes, w⟩ false e)) :
    Alike Eq s (argsFor ⟨scopes, globals top vars n u⟩ f i tys es) (watchArgsFor alarm ⟨scopes, w⟩ f i tys es) := by
  induction es generalizing s i tys with
  | nil => exact .pure rfl
  | cons e es ihes =>
    rw [argsFor, watchArgsFor]
    refine (ih e mem_cons_self s hready).andThen fun t s₁ ht => ?_
    have hready₁ := hready.advance (advance_of_expr hg ht)
    cases tys with
    | nil => exact .pure rfl
    | cons ty tys =>
      exact .guard ((ihes hready₁ fun e he => ih e (mem_cons_of_mem _ he)).andThen fun ts _ _ => .pure rfl)

include hb hw

/-- Watching an expression changes nothing. -/
theorem alike_expr (hready : Ready top vars scopes s) (place : Bool) (e : Expr) :
    Alike Eq s (expr ⟨scopes, globals top vars n u⟩ place e) (watchExpr alarm ⟨scopes, w⟩ place e) := by
  induction e generalizing place s <;> rw [watchExpr] <;> refine .watched ?_ (opened_of_expr hb hg hready) <;> rw [expr]
  case cond c yes no span ihc ihyes ihno =>
    refine .notPlace ((ihc hready false).andThen fun c' s₁ hc => .guard ?_)
    have hready₁ := hready.advance (advance_of_expr hg hc)
    refine (ihyes hready₁ false).andThen fun yes' s₂ hyes => ?_
    have hready₂ := hready₁.advance (advance_of_expr hg hyes)
    exact (ihno hready₂ false).andThen fun no' _ _ => .guard (.pure rfl)
  case bin op l r span ihl ihr =>
    refine .notPlace ((ihl hready _).andThen fun l' s₁ hl => ?_)
    have hready₁ := hready.advance (advance_of_expr hg hl)
    refine (ihr hready₁ false).andThen fun r' s₂ hr => ?_
    have hl' : AllOpened s₂ l'.ty :=
      opened_of_localUses hb ((known_of_expr hg hready hl).2.grows (advance_of_expr hg hr).1)
    refine .same ?_
    split
    · exact safe_refuse _ _
    · refine safe_ite (fun _ => ?_) fun _ => safe_pure _
      refine safe_ite (fun _ => ?_) fun _ => safe_pure _
      refine safe_bind (safe_hasArrays hl') fun arrays _ _ => ?_
      exact safe_ite (fun _ => safe_refuse _ _) fun _ => safe_pure _
  case un op e span ih =>
    refine .notPlace ((ih hready false).andThen fun e' _ _ => .same ?_)
    split
    · exact safe_refuse _ _
    · exact safe_pure _
  case index b i span ihb ihi =>
    refine (ihb hready place).andThen fun b' s₁ hb' => ?_
    have hready₁ := hready.advance (advance_of_expr hg hb')
    exact (ihi hready₁ false).andThen fun i' _ _ => .same (safe_element b' i' _ _)
  case member b name span ih =>
    exact (ih hready place).andThen fun b' s₁ hb' => .same (safe_member (opened_of_expr hb hg hready _ _ hb'))
  case call f args span ih =>
    refine .notPlace ((alike_find hw hready f span).andThen fun info s₁ hinfo => ?_)
    have hready₁ := hready.advance (advance_of_find hg hinfo)
    have hargs : ∀ e ∈ args, ∀ s, Ready top vars scopes s →
        Alike Eq s (expr ⟨scopes, globals top vars n u⟩ false e) (watchExpr alarm ⟨scopes, w⟩ false e) :=
      fun e he s hready => ih e he hready false
    obtain _ | ⟨v | d | d | overloads⟩ := info
    · exact .refuse _ _
    · exact .refuse _ _
    · refine (Alike.same (safe_sameCount f _ args span)).andThen fun _ s₂ hs₂ => ?_
      obtain rfl : s₁ = s₂ := (gives_sameCount.1 hs₂).2
      exact (alike_argsFor hg hready₁ hargs).andThen fun ts _ _ => .pure rfl
    · refine (Alike.same (safe_sameCount f _ args span)).andThen fun _ s₂ hs₂ => ?_
      obtain rfl : s₁ = s₂ := (gives_sameCount.1 hs₂).2
      exact (alike_argsFor hg hready₁ hargs).andThen fun ts _ _ => .pure rfl
    · refine (alike_exprs hg hready₁ hargs).andThen fun ts _ _ => .same ?_
      split
      · exact safe_refuse _ _
      · exact safe_pure _
  case construct ty args span ih =>
    refine .notPlace ((alike_exprs hg hready fun e he s hready => ih e he hready false).andThen fun ts _ _ => ?_)
    refine .same ?_
    split
    · exact safe_pure _
    · exact safe_refuse _ _
  case var x span =>
    refine (alike_find hw hready x span).andThen fun info _ _ => ?_
    obtain _ | ⟨v | d | d | overloads⟩ := info
    case some.var =>
      refine .same ?_
      dsimp only
      split
      · exact safe_pure _
      · exact safe_refuse _ _
    all_goals exact .refuse _ _
  case lit v span =>
    exact .notPlace (.pure rfl)

end Expressions

section Statements

variable {result : Ty} {inLoop : Bool} {outer : List (Scope Var)} {inner : Scope Var}

/-- The scopes are the one of the plain check and those around it. -/
def OnStack {α : Type} (outer : List (Scope Var)) (a : Scope Var × α) (b : List (Scope Var) × α) : Prop :=
  b = (a.1 :: outer, a.2)

theorem alike_bindInnermost {scope : Scope Var} {kind : VarKind} (hopened : AllOpened s ty) :
    Alike (fun scope' scopes => scopes = scope' :: outer) s (bindName scope x ⟨ty, kind⟩ span)
      (bindInnermost alarm (scope :: outer) x ⟨ty, kind⟩ span) := by
  have hbind : Alike (fun scope' scopes => scopes = scope' :: outer) s (bindName scope x ⟨ty, kind⟩ span >>= pure)
      (bindName scope x ⟨ty, kind⟩ span >>= fun scope' => pure (scope' :: outer)) :=
    (Alike.same (safe_bindName scope x ⟨ty, kind⟩ span)).andThen fun _ _ _ => .pure rfl
  rw [bind_pure] at hbind
  exact .behind (gives_demand (by simpa using hopened)) hbind

/-- A declared variable is bound in the scope of its block. -/
theorem stmt_let_bindName (fc : FnContext) (x : Ident) (ty : Option TyExpr) (init : Option Expr) (span : Span) :
    stmt fc inLoop outer inner (.letStmt x ty init span) = do
      let value ← initValue ⟨inner :: outer, fc.globals⟩ init
      let t ← letTy ⟨inner :: outer, fc.globals⟩ x ty value span
      let inner' ← bindName inner x ⟨t, .localVar true⟩ span
      let deps := value.elim Deps.none fun v => v.1.deps
      return (inner', some ⟨deps, .declare x t (value.map fun v => v.1.term), []⟩) := by
  rw [stmt_let]
  congr 1
  funext value
  congr 1
  funext t
  unfold bindName
  cases inner.insert? x ⟨t, .localVar true⟩ <;> rfl

/-- The variable of a loop is the first name in the scope of its block. -/
theorem gives_bindInnermost_loop :
    Gives (bindInnermost alarm (.empty :: outer) x ⟨.int, .localVar false⟩ span) s
      (⟨[(x, ⟨.int, .localVar false⟩)]⟩ :: outer) s := by
  refine gives_bind.2 ⟨(), s, gives_demand ?_, rfl⟩
  intro ty hty
  rw [mem_singleton.1 hty]
  exact nofun

include hb hg hw

variable {scopes : List (Scope Var)}

theorem alike_constInt (hready : Ready top vars scopes s) (e : Expr) :
    Alike Eq s (constInt ⟨scopes, globals top vars n u⟩ e) (watchConstInt alarm ⟨scopes, w⟩ e) := by
  refine (alike_expr hb hg hw hready false e).andThen fun e' _ _ => .guard (.same ?_)
  split
  · exact safe_pure _
  · exact safe_refuse _ _

theorem alike_loopStep (hready : Ready top vars scopes s) (x : Ident) (a b : Int32) (step : Option Expr) :
    Alike Eq s (loopStep ⟨scopes, globals top vars n u⟩ x a b step) (watchLoopStep alarm ⟨scopes, w⟩ x a b step) := by
  cases step with
  | none => exact .pure rfl
  | some e =>
    refine (alike_constInt hb hg hw hready e).andThen fun i _ _ => ?_
    exact .guard (.guard (.guard (.pure rfl)))

theorem alike_init (hready : Ready top vars scopes s) (init : Option Expr) :
    Alike Eq s (initValue ⟨scopes, globals top vars n u⟩ init) (watchInit alarm ⟨scopes, w⟩ init) := by
  cases init with
  | none => exact .pure rfl
  | some e => exact (alike_expr hb hg hw hready false e).andThen fun e' _ _ => .pure rfl

omit hb hg in
theorem alike_letTy (hready : Ready top vars scopes s) (x : Ident) (ty : Option TyExpr) (init : Option (Typed × Span))
    (span : Span) :
    Alike Eq s (letTy ⟨scopes, globals top vars n u⟩ x ty init span) (letTy ⟨scopes, w⟩ x ty init span) := by
  match ty, init with
  | some te, none => exact alike_tyExpr hw hready te
  | some te, some (e, at_) => exact (alike_tyExpr hw hready te).andThen fun ty _ _ => .guard (.pure rfl)
  | none, some (e, at_) => exact .same (safe_ite (fun _ => safe_refuse _ _) fun _ => safe_pure _)
  | none, none => exact .refuse _ _

/-- Watching the statement changes nothing, whatever the scopes. -/
def StmtAlike (alarm : Alarm → Fault) (top : TopLevel) (vars : Scope Var) (n : Nat) (u : Unfinished) (w : Globals)
    (st : Stmt) : Prop :=
  ∀ {result inLoop outer inner s}, Ready top vars (inner :: outer) s →
    Alike (OnStack outer) s (stmt ⟨globals top vars n u, result⟩ inLoop outer inner st)
      (watchStmt alarm ⟨w, result⟩ inLoop (inner :: outer) st)

omit hb hw in
theorem alike_stmts (hready : Ready top vars (inner :: outer) s) {ss : List Stmt}
    (ih : ∀ st ∈ ss, StmtAlike alarm top vars n u w st) :
    Alike (OnStack outer) s (stmts ⟨globals top vars n u, result⟩ inLoop outer inner ss)
      (watchStmts alarm ⟨w, result⟩ inLoop (inner :: outer) ss) := by
  induction ss generalizing inner s with
  | nil => exact .pure rfl
  | cons st ss ihss =>
    rw [stmts, watchStmts]
    refine (ih st mem_cons_self hready).bind ?_
    rintro ⟨inner', kept⟩ _ s₁ hst rfl
    have hready₁ : Ready top vars (inner' :: outer) s₁ :=
      ⟨(advance_of_stmt hg hst).2 hready.sound, (known_of_stmt hg st hready hst).1⟩
    refine (ihss hready₁ fun st hst => ih st (mem_cons_of_mem _ hst)).bind ?_
    rintro ⟨last, more⟩ _ _ _ rfl
    exact .pure rfl

omit hb hw in
/-- A block leaves the scopes around it as they are. -/
theorem alike_block (hready : Ready top vars (inner :: outer) s) {b : Block}
    (ih : ∀ st ∈ b.stmts, StmtAlike alarm top vars n u w st) :
    Alike (fun kept r => r = (outer, kept)) s (block ⟨globals top vars n u, result⟩ inLoop outer inner b)
      (watchBlock alarm ⟨w, result⟩ inLoop (inner :: outer) b) := by
  obtain ⟨ss, span⟩ := b
  rw [block, watchBlock]
  refine (alike_stmts hg hready ih).bind ?_
  rintro ⟨last, kept⟩ _ _ _ rfl
  exact .pure rfl

theorem alike_for {first bound : Expr} {step : Option Expr} {body : Block}
    (ih : ∀ st ∈ body.stmts, StmtAlike alarm top vars n u w st) :
    StmtAlike alarm top vars n u w (.forStmt x first bound step body span) := by
  intro result inLoop outer inner s hready
  rw [stmt, watchStmt]
  refine (alike_constInt hb hg hw hready first).andThen fun a s₁ ha => ?_
  have hready₁ := hready.advance (advance_of_constInt hg ha)
  refine (alike_constInt hb hg hw hready₁ bound).andThen fun b s₂ hb' => ?_
  have hready₂ := hready₁.advance (advance_of_constInt hg hb')
  refine (alike_loopStep hb hg hw hready₂ x a b step).andThen fun i s₃ hi => ?_
  have hready₃ := hready₂.advance ((keeps_loopStep (frame_advance top vars u) hg x a b step).of_gives hi)
  refine .behind gives_bindInnermost_loop ?_
  have hloop : Ready top vars (⟨[(x, ⟨.int, .localVar false⟩)]⟩ :: inner :: outer) s₃ := by
    refine hready₃.push fun y v hv => ?_
    rw [lookup?_single hv]
    exact ⟨⟨false, rfl⟩, AllKnown.basicLocal rfl⟩
  refine (alike_block hg hloop ih).bind ?_
  rintro kept _ s₄ _ rfl
  by_cases hpruned : a = b ∨ kept.isEmpty = true
  · simp only [hpruned, if_true]
    exact (Alike.same (safe_note _)).andThen fun _ _ _ => .pure rfl
  · simp only [hpruned, if_false]
    exact .pure rfl

theorem alike_if {test : Expr} {yes : Block} {no : Option Block}
    (ihyes : ∀ st ∈ yes.stmts, StmtAlike alarm top vars n u w st)
    (ihno : ∀ b, no = some b → ∀ st ∈ b.stmts, StmtAlike alarm top vars n u w st) :
    StmtAlike alarm top vars n u w (.ifStmt test yes no span) := by
  intro result inLoop outer inner s hready
  rw [stmt_if, watchStmt_if]
  refine (alike_expr hb hg hw hready false test).andThen fun t s₁ ht => .guard ?_
  have hready₁ := hready.advance (advance_of_expr hg ht)
  refine (alike_block hg hready₁.pushEmpty ihyes).bind ?_
  rintro yes' _ s₂ hyes rfl
  have hready₂ := hready₁.advance (advance_of_block hg hyes)
  have hno : Alike (fun kept r => r = (inner :: outer, kept)) s₂
      (elseBlock ⟨globals top vars n u, result⟩ inLoop (inner :: outer) no)
      (watchElse alarm ⟨w, result⟩ inLoop (inner :: outer) no) := by
    cases no with
    | none => exact .pure rfl
    | some b => exact alike_block hg hready₂.pushEmpty (ihno b rfl)
  refine hno.bind ?_
  rintro no' _ s₃ _ rfl
  cases t.term.value? with
  | none => exact .pure rfl
  | some v => exact (Alike.same (safe_note _)).andThen fun _ _ _ => .pure rfl

theorem alike_let {ty : Option TyExpr} {init : Option Expr} :
    StmtAlike alarm top vars n u w (.letStmt x ty init span) := by
  intro result inLoop outer inner s hready
  rw [stmt_let_bindName, watchStmt]
  refine (alike_init hb hg hw hready init).andThen fun value s₁ hvalue => ?_
  have hadv₁ := (keeps_initValue (frame_advance top vars u) hg init).of_gives hvalue
  refine (alike_letTy hw (hready.advance hadv₁) x ty value span).andThen fun t s₂ ht => ?_
  have hopened : AllOpened s₂ t := by
    rcases gives_letTy ht with ⟨te, -, hte, -⟩ | ⟨-, rfl, e, rfl, rfl, -⟩
    · exact opened_of_uses hb (known_of_tyExpr hte)
    · rcases gives_initValue hvalue with ⟨-, hnone, -⟩ | ⟨e₀, e', -, he, hsome⟩
      · cases hnone
      · cases hsome
        exact opened_of_expr hb hg hready _ _ he
  refine (alike_bindInnermost hopened).bind ?_
  rintro scope' _ s₃ _ rfl
  exact .pure rfl

/-- Watching a statement changes nothing. -/
theorem alike_stmt (st : Stmt) : StmtAlike alarm top vars n u w st := by
  induction st
  case forStmt x first bound step body span ih => exact alike_for hb hg hw ih
  case ifStmt test yes no span ihyes ihno => exact alike_if hb hg hw ihyes ihno
  case letStmt x ty init span => exact alike_let hb hg hw
  all_goals intro result inLoop outer inner s hready
  case breakStmt span | continueStmt span =>
    rw [stmt, watchStmt]
    exact .guard (.pure rfl)
  case returnStmt value span =>
    cases value <;> rw [stmt, watchStmt]
    case none => exact .guard (.pure rfl)
    case some e => exact (alike_expr hb hg hw hready false e).andThen fun e' _ _ => .guard (.pure rfl)
  case blockStmt b span ih =>
    rw [stmt, watchStmt]
    refine (alike_block hg hready.pushEmpty ih).bind ?_
    rintro kept _ _ _ rfl
    exact .pure rfl
  case exprStmt e span =>
    rw [stmt, watchStmt]
    exact (alike_expr hb hg hw hready false e).andThen fun e' _ _ => .pure rfl

end Statements

section Declarations

include hb hg hw

theorem alike_params {scope : Scope Var} (hready : Ready top vars [scope] s) (ps : List TypedName) :
    Alike (OnStack []) s (params (globals top vars n u) scope ps) (watchParams alarm w [scope] ps) := by
  induction ps generalizing scope s with
  | nil => exact .pure rfl
  | cons p ps ih =>
    refine (alike_tyExpr hw hready p.ty).andThen fun ty s₁ hty => ?_
    have hready₁ := hready.advance ((keeps_tyExpr (frame_advance top vars u) hg p.ty).of_gives hty)
    have hknown : AllKnown top vars s₁ ty.uses := known_of_tyExpr hty
    refine (alike_bindInnermost (opened_of_uses hb hknown)).bind ?_
    rintro scope' _ s₂ hbind rfl
    obtain ⟨hinsert, rfl⟩ := gives_bindName.1 hbind
    refine (ih ⟨hready₁.sound, hready₁.scopes.insert hknown.ofLocal hinsert⟩).bind ?_
    rintro ⟨last, more⟩ _ _ _ rfl
    exact .pure rfl

/-- Watching a function changes nothing. -/
theorem alike_fn (hs : Sound top vars s) (d : FnDecl) :
    Alike Eq s (fn (globals top vars n u) d) (watchFn alarm w d) := by
  have hstart : Ready top vars [] s := ⟨hs, nofun⟩
  have hresult : Alike Eq s (resultTy (globals top vars n u) d.result) (resultTy w d.result) := by
    cases d.result with
    | none => exact .pure rfl
    | some te => exact alike_tyExpr hw hstart.pushEmpty te
  rw [fn_eq, watchFn]
  refine hresult.andThen fun result s₁ hresult => ?_
  have hready₁ := hstart.advance ((keeps_resultTy (frame_advance top vars u) hg d.result).of_gives hresult)
  refine (alike_params hb hg hw hready₁.pushEmpty d.params).bind ?_
  rintro ⟨scope, ps⟩ _ s₂ hparams rfl
  have hready₂ := (known_of_params hg hready₁.pushEmpty hparams).1
  refine (alike_block hg hready₂ fun st _ => alike_stmt hb hg hw st).bind ?_
  rintro body _ s₃ hbody rfl
  have hfn : Gives (laxFn (globals top vars n u) d) s ⟨d.name, ps, result, body.deps, body.body⟩ s₃ := by
    simp only [laxFn, gives_bind, gives_pure]
    exact ⟨result, s₁, hresult, (scope, ps), s₂, hparams, body, s₃, hbody, rfl, rfl⟩
  refine .guard (.behind (gives_demand fun ty hty => ?_) (.pure rfl))
  refine opened_of_uses hb ((known_of_laxFn hg hs hfn).subset fun use huse => mem_append_left _ ?_)
  rcases mem_cons.1 hty with rfl | hty
  · exact mem_append_right _ huse
  · obtain ⟨p, hp, rfl⟩ := mem_map.1 hty
    exact mem_append_left _ (mem_flatMap.2 ⟨p, hp, huse⟩)

theorem alike_members (hs : Sound top vars s) (earlier : List (Ident × Ty)) (arrays : Bool) (ms : List TypedName) :
    Alike Eq s (members (globals top vars n u) earlier arrays ms) (members w earlier arrays ms) := by
  induction ms generalizing earlier arrays s with
  | nil => exact .pure rfl
  | cons m ms ih =>
    have hstart : Ready top vars [] s := ⟨hs, nofun⟩
    refine (alike_tyExpr hw hstart m.ty).andThen fun ty s₁ hty => .guard ?_
    have hs₁ := ((keeps_tyExpr (frame_advance top vars u) hg m.ty).of_gives hty).2 hs
    refine (Alike.same (safe_hasArrays (opened_of_uses hb (known_of_tyExpr hty)))).andThen ?_
    intro inside s₂ hinside
    obtain rfl := gives_hasArrays_state hinside
    exact ih hs₁ _ _

/-- Watching a struct changes nothing. -/
theorem alike_struct (hs : Sound top vars s) (d : StructDecl) :
    Alike Eq s (struct (globals top vars n u) d) (watchStruct alarm w d) := by
  have hstruct : Alike Eq s (struct (globals top vars n u) d) (struct w d) :=
    (alike_members hb hg hw hs [] false d.members).andThen fun r _ _ => .pure rfl
  rw [← bind_pure (struct (globals top vars n u) d)]
  refine hstruct.andThen fun f s₁ hf => .behind (gives_demand fun ty hty => ?_) (.pure rfl)
  obtain ⟨m, hm, rfl⟩ := mem_map.1 hty
  exact opened_of_uses hb ((known_of_struct hg hf).subset fun use huse => mem_flatMap.2 ⟨m, hm, huse⟩)

end Declarations

end Names

section Programs

variable {alarm : Alarm → Fault} {top : TopLevel} {vars : Scope Var} {s : Expansion}
  (hb : top.builtins.resultStructs = [])
include hb

section Inside

variable {k : Nat} (hk : ∀ u x span s, Sound top vars s →
  Alike Eq s (globals top vars k u x span) (globalsBy (.watchful alarm) top vars k u x span))
include hk

theorem alike_openFn (hs : Sound top vars s) (u : Unfinished) (d : FnDecl) (span : Span) :
    Alike Eq s (openFn (globals top vars k) u d span)
      (openFnBy (.watchful alarm) (globalsBy (.watchful alarm) top vars k) u d span) := by
  refine .get ?_
  cases s.fn? d.name with
  | some f => exact .pure rfl
  | none =>
    refine .guard ((alike_fn hb (advance_globals top vars k _) (hk _) hs d).andThen fun f s₂ _ => ?_)
    exact .same fun _ h => by cases h

theorem alike_openStruct (hs : Sound top vars s) (u : Unfinished) (d : StructDecl) (span : Span) :
    Alike Eq s (openStruct (globals top vars k) u d span)
      (openStructBy (.watchful alarm) (globalsBy (.watchful alarm) top vars k) u d span) := by
  refine .get ?_
  cases s.struct? d.name with
  | some f => exact .pure rfl
  | none =>
    refine .guard ((alike_struct hb (advance_globals top vars k _) (hk _) hs d).andThen fun f s₂ _ => ?_)
    exact .same fun _ h => by cases h

end Inside

/-- Watching what a look-up opens changes nothing. -/
theorem alike_globals (n : Nat) (u : Unfinished) (x : Ident) (span : Span) (s : Expansion) (hs : Sound top vars s) :
    Alike Eq s (globals top vars n u x span) (globalsBy (.watchful alarm) top vars n u x span) := by
  induction n generalizing u x span s with
  | zero => exact .pure rfl
  | succ k ih =>
    simp only [globals, resolve, globalsBy]
    cases vars.lookup? x with
    | some v => exact .pure rfl
    | none =>
      cases top.fn? x with
      | some d => exact (alike_openFn hb ih hs u d span).andThen fun f _ _ => .pure rfl
      | none =>
        cases top.struct? x with
        | some d => exact (alike_openStruct hb ih hs u d span).andThen fun f _ _ => .pure rfl
        | none => exact .pure rfl

theorem alike_interfaceVars (hs : Sound top vars s) (ds : List (TypedName × VarKind)) :
    Alike Eq s (interfaceVars top vars ds) (interfaceVarsBy (.watchful alarm top) vars ds) := by
  induction ds generalizing vars s with
  | nil => exact .pure rfl
  | cons d ds ih =>
    obtain ⟨d, kind⟩ := d
    have hstart : Ready top vars [] s := ⟨hs, nofun⟩
    refine (alike_tyExpr (alike_globals hb _ _) hstart d.ty).andThen fun ty s₁ hty => ?_
    have hknown : AllKnown top vars s₁ ty.uses := known_of_tyExpr hty
    have hs₁ := ((keeps_tyExpr (frame_advance top vars {}) (advance_globals top vars _ {}) d.ty).of_gives hty).2 hs
    cases kind.refusal? d.name ty with
    | some cause => exact .refuse _ _
    | none =>
      dsimp only [Method.watchful, Method.ofChecker]
      rw [bind_assoc]
      refine .behind (gives_demand (by simpa using opened_of_uses hb hknown)) ?_
      refine (Alike.same (safe_bindName vars d.name ⟨ty, kind⟩ d.span)).andThen fun vars' s₂ hbind => ?_
      obtain ⟨hinsert, rfl⟩ := gives_bindName.1 hbind
      exact (ih (hs₁.insert hknown hinsert)).andThen fun r _ _ => .pure rfl

theorem alike_entry (hs : Sound top vars s) (stage : Stage) :
    Alike Eq s (entry top vars stage) ((Method.watchful alarm top).entry vars stage) := by
  unfold entry
  dsimp only [Method.watchful, Method.ofChecker]
  unfold entryBy
  cases top.fn? stage.entryPoint with
  | none => exact .refuse _ _
  | some d =>
    refine .guard ((alike_openFn hb (alike_globals hb _) hs {} d d.span).andThen fun f s₁ _ => .guard (.same ?_))
    cases stage
    all_goals exact safe_ite (fun _ => safe_refuse _ _) fun _ => safe_pure f

end Programs

section Shaders

variable {alarm : Alarm → Fault} {builtins : Builtins} {shared : Bool} {decls : List Decl} {s : Expansion}
  (hb : builtins.resultStructs = [])
include hb

theorem alike_vertexPart : Alike Eq {} (vertexPart builtins decls)
    (vertexPartBy (.watchful alarm (.ofDecls builtins decls)) decls) := by
  unfold vertexPart vertexPartBy
  cases firstRedefined? [] decls with
  | some d => exact .refuse _ _
  | none =>
    have hstart := sound_start (.ofDecls builtins decls)
    refine (alike_interfaceVars hb hstart _).andThen fun r s₁ hr => ?_
    have hs₁ := sound_interfaceVars hstart (interfaceOrder decls)
    rw [show (interfaceVars (.ofDecls builtins decls) .empty (interfaceOrder decls)).outcome {} = (.ok r, s₁) from hr]
      at hs₁
    exact (alike_entry hb hs₁ .vertex).andThen fun f _ _ => .pure rfl

theorem alike_fragmentPart {v : VertexPart} (hs : Sound (.ofDecls builtins decls) v.scope s) :
    Alike Eq s (fragmentPart builtins shared decls v)
      (fragmentPartBy (.watchful alarm (.ofDecls builtins decls)) shared v) := by
  have hentry {s₁ : Expansion} {k : FnDef → Check Program} (hs₁ : Sound (.ofDecls builtins decls) v.scope s₁)
      (hk : ∀ f s₂, Safe s₂ (k f)) :
      Alike Eq s₁ (entry (.ofDecls builtins decls) v.scope .fragment >>= k)
        ((Method.watchful alarm (.ofDecls builtins decls)).entry v.scope .fragment >>= k) :=
    (alike_entry hb hs₁ .fragment).andThen fun f s₂ _ => .same (hk f s₂)
  refine Alike.get ((Alike.same (safe_note _)).andThen fun _ s₁ hnote => ?_)
  obtain rfl := gives_note.1 hnote
  cases shared with
  | true => exact hentry (hs.note _) fun f s₂ _ h => by cases h
  | false =>
    refine (Alike.same fun _ h => by cases h).andThen fun _ s₂ hmodify => ?_
    obtain rfl := gives_modify.1 hmodify
    exact hentry (hs.note _).withoutFns fun f s₂ _ h => by cases h

/-- Watching the check of a shader changes nothing. -/
theorem alike_program : Alike Eq {} (program builtins shared decls) (watchProgram alarm builtins shared decls) := by
  rw [program_eq]
  refine (alike_vertexPart hb).andThen fun v s hv => alike_fragmentPart hb ?_
  have hs := sound_vertexPart builtins decls
  rw [show (vertexPart builtins decls).outcome {} = (.ok v, s) from hv] at hs
  exact hs

end Shaders

end Check

end Shading
