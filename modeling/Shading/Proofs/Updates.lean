import Shading.Proofs.Extension
import Shading.Proofs.Updates.Expressions

/-!
# Functions with their updates written out

A function is checked alike whether its updates are written as updates or as assignments: each of its expressions and
statements is accepted in one form if it is in the other, and what is left of it is the same code with the updates
written out. Only the needs can differ, and by the reading of the varyings that are updated.

An update of a varying reads it and writes it, but counts as a write only. So the rule that no function both reads and
writes varyings lets a function pass that it refuses when the same update is written as an assignment.
-/

namespace Shading

open List

/-! ## What is left, written out -/

@[simp] theorem Term.value?_spelledOut (t : Term) : t.spelledOut.value? = t.value? := by
  cases t with
  | bin op l r => cases op <;> rfl
  | _ => rfl

theorem Code.declared?_spelledOut (c : Code) : KeptBlock.declared? c.spelledOut = KeptBlock.declared? c := by
  cases c with
  | assign op l r => cases op <;> rfl
  | _ => rfl

theorem Code.ofExpr_spelledOut (e : Expr) (t : Term) :
    Code.ofExpr e.spelledOut t.spelledOut = (Code.ofExpr e t).spelledOut := by
  cases e with
  | bin op l r span =>
    cases t with
    | bin op' l' r' =>
      cases op <;> cases op' <;> rfl
    | _ => cases op <;> rfl
  | _ => rfl

namespace Check

/-- The second result is the first one written out. Its needs are left open. -/
structure Spelled (a b : Typed) : Prop where
  ty : b.ty = a.ty
  term : b.term = a.term.spelledOut

/-- What is kept of the second statement is what is kept of the first one, written out. -/
structure SpelledKept (a b : Kept) : Prop where
  code : b.code = a.code.spelledOut
  locals : b.locals = a.locals

/-- What is kept of the second block is what is kept of the first one, written out. -/
structure SpelledBlock (a b : KeptBlock) : Prop where
  body : b.body = Code.spelledOutAll a.body
  locals : b.locals = a.locals
  shared : b.shared = a.shared

variable {op : BinOp} {ty : Ty} {b b' : KeptBlock} {ctx : Context}

section Results

variable {a b c a' b' c' : Typed}

theorem spelledOut_operation (hop : op.isAssignment = false) (ha : Spelled a a') (hb : Spelled b b') :
    Spelled (operation op ty a b) (operation op ty a' b') := by
  obtain ⟨_, d, _⟩ := a'
  obtain ⟨_, e, _⟩ := b'
  obtain ⟨rfl, rfl⟩ := ha
  obtain ⟨rfl, rfl⟩ := hb
  unfold operation
  cases op with
  | assign | update => cases hop
  | or | and =>
    cases hv : a.term.value? with
    | none =>
      simp only [Term.value?_spelledOut, hv]
      exact ⟨rfl, rfl⟩
    | some x =>
      simp only [Term.value?_spelledOut, hv]
      split <;> exact ⟨rfl, rfl⟩
  | eq | ne | compare | arith =>
    simp only [Term.value?_spelledOut]
    split
    · split <;> exact ⟨rfl, rfl⟩
    · exact ⟨rfl, rfl⟩

theorem spelledOut_unaryOperation {op : UnOp} (ha : Spelled a a') :
    Spelled (unaryOperation op ty a) (unaryOperation op ty a') := by
  unfold unaryOperation
  rw [ha.term, Term.value?_spelledOut]
  split <;> exact ⟨rfl, rfl⟩

theorem spelledOut_conditional (ha : Spelled a a') (hb : Spelled b b') (hc : Spelled c c') :
    Spelled (conditional a b c) (conditional a' b' c') := by
  unfold conditional
  rw [ha.term, Term.value?_spelledOut]
  split
  · dsimp only
    split
    · exact ⟨hb.ty, hb.term⟩
    · exact ⟨hc.ty, hc.term⟩
  · exact ⟨hb.ty, by rw [hb.term, hc.term, Term.spelledOut]⟩

/-- Lists of results, one by one. -/
def SpelledAll (as bs : List Typed) : Prop := List.Forall₂ Spelled as bs

variable {as bs : List Typed}

theorem SpelledAll.tys (h : SpelledAll as bs) : bs.map Typed.ty = as.map Typed.ty := by
  induction h with
  | nil => rfl
  | cons hab _ ih => rw [map_cons, map_cons, hab.ty, ih]

theorem SpelledAll.terms (h : SpelledAll as bs) :
    argTerms bs = Term.spelledOutAll (argTerms as) := by
  induction h with
  | nil => rfl
  | cons hab _ ih => 
    simp only [argTerms, map_cons, Term.spelledOutAll, List.cons.injEq]
    exact ⟨hab.term, ih⟩

/-- A constructor takes the written out arguments if it takes the others. -/
theorem spelledOut_construction {ty : BasicTy} (h : SpelledAll as bs) :
    construction ty bs =
      (construction ty as).map fun t => ⟨t.ty, argDeps bs, t.term.spelledOut⟩ := by
  have hall : (bs.all fun b => b.ty.isScalarOrVector) = as.all fun a => a.ty.isScalarOrVector := by
    have heq := congrArg (List.all · Ty.isScalarOrVector) h.tys
    simp only [all_map] at heq
    exact heq
  have hslots : bs.foldr (fun b n => b.ty.slots + n) 0 = as.foldr (fun a n => a.ty.slots + n) 0 := by
    have heq := congrArg (List.foldr (fun ty n => Ty.slots ty + n) 0) h.tys
    simp only [foldr_map] at heq
    exact heq
  have hterm : Term.construct ty (argTerms bs) = (Term.construct ty (argTerms as)).spelledOut := by
    rw [h.terms, Term.spelledOut]
  unfold construction
  simp only [hall, hslots, hterm, h.tys, apply_ite (Except.map _)]
  refine if_congr Iff.rfl rfl ?_
  cases h with
  | nil =>
    simp only [apply_ite (Except.map _)]
    rfl
  | cons hab hrest =>
    cases hrest with
    | nil =>
      rename_i a b
      simp only [hab.ty, hab.term, Term.value?_spelledOut]
      cases ty with
      | scalar k => cases a.term.value? <;> rfl
      | vector k n =>
        simp only [apply_ite (Except.map _)]
        rfl
      | matrix n =>
        simp only [apply_ite (Except.map _)]
        rfl
    | cons =>
      simp only [apply_ite (Except.map _)]
      rfl

end Results

section Blocks

theorem spelledOutAll_map {ks ks' : List Kept} (h : List.Forall₂ SpelledKept ks ks') :
    ks'.map Kept.code = Code.spelledOutAll (ks.map Kept.code) := by
  induction h with
  | nil => rfl
  | cons hk _ ih => rw [map_cons, map_cons, Code.spelledOutAll, hk.code, ih]

theorem declared_spelledOutAll (cs : List Code) :
    (Code.spelledOutAll cs).filterMap KeptBlock.declared? = cs.filterMap KeptBlock.declared? := by
  induction cs with
  | nil => rfl
  | cons c cs ih => simp only [Code.spelledOutAll, filterMap_cons, Code.declared?_spelledOut, ih]

theorem isEmpty_spelledOutAll (cs : List Code) : (Code.spelledOutAll cs).isEmpty = cs.isEmpty := by
  cases cs <;> rfl

theorem SpelledBlock.isEmpty (h : SpelledBlock b b') : b'.isEmpty = b.isEmpty := by
  unfold KeptBlock.isEmpty
  rw [h.body, isEmpty_spelledOutAll]

theorem spelled_empty : SpelledBlock .empty .empty := ⟨rfl, rfl, rfl⟩

theorem gather_of_more (scope : Scope Var) (k k' : Kept) (ks : List Kept) :
    KeptBlock.gather scope (k :: k' :: ks) =
      ⟨Deps.unionAll ((k :: k' :: ks).map Kept.deps), (k :: k' :: ks).map Kept.code,
        ((k :: k' :: ks).map Kept.code).filterMap KeptBlock.declared?, false⟩ := by
  obtain ⟨d, c, ls⟩ := k
  cases c <;> rfl

/-- Braces are shared alike. -/
theorem spelled_gather {scope : Scope Var} {ks ks' : List Kept} (h : List.Forall₂ SpelledKept ks ks') :
    SpelledBlock (.gather scope ks) (.gather scope ks') := by
  have hcodes := spelledOutAll_map h
  have hown : SpelledBlock
      ⟨Deps.unionAll (ks.map Kept.deps), ks.map Kept.code, (ks.map Kept.code).filterMap KeptBlock.declared?, false⟩
      ⟨Deps.unionAll (ks'.map Kept.deps), ks'.map Kept.code, (ks'.map Kept.code).filterMap KeptBlock.declared?, false⟩ :=
    ⟨hcodes, by rw [hcodes, declared_spelledOutAll], rfl⟩
  cases h with
  | nil => exact hown
  | cons hk hrest =>
    cases hrest with
    | cons =>
      rw [gather_of_more, gather_of_more]
      exact hown
    | nil =>
      rename_i k k'
      obtain ⟨d, c, ls⟩ := k
      obtain ⟨d', c', ls'⟩ := k'
      obtain ⟨hcode, hlocals⟩ := hk
      dsimp only at hcode hlocals
      subst hcode hlocals
      cases c with
      | block body =>
        unfold KeptBlock.gather
        simp only [Code.spelledOut]
        split
        · exact hown
        · exact ⟨rfl, rfl, rfl⟩
      | assign op l r => cases op <;> exact hown
      | exitLoop | nextTurn | eval | declare | ret | loop | branch => exact hown

theorem spelled_elsePart? (h : SpelledBlock b b') :
    b'.elsePart? = Code.spelledOutElse b.elsePart? := by
  obtain ⟨d, body, ls, shared⟩ := b
  obtain ⟨d', body', ls', shared'⟩ := b'
  obtain ⟨hbody, hlocals, hshared⟩ := h
  dsimp only at hbody hlocals hshared
  subst hbody hlocals hshared
  cases body with
  | nil => rfl
  | cons c cs =>
    cases cs with
    | nil =>
      cases c with
      | assign op l r => cases op <;> rfl
      | branch => cases shared' <;> rfl
      | exitLoop | nextTurn | eval | declare | ret | block | loop => rfl
    | cons c' cs =>
      cases c with
      | assign op l r => cases op <;> rfl
      | exitLoop | nextTurn | eval | declare | ret | block | loop | branch => rfl

theorem spelled_ofBranch {t : Term} {yes no yes' no' : KeptBlock} (hyes : SpelledBlock yes yes')
    (hno : SpelledBlock no no') : Code.ofBranch t.spelledOut yes' no' = (Code.ofBranch t yes no).spelledOut := by
  unfold Code.ofBranch
  rw [hyes.isEmpty, hno.isEmpty]
  split
  · rw [hno.body]
    rfl
  · rw [hyes.body, spelled_elsePart? hno]
    rfl

end Blocks

/-! ## Steps that succeed alike -/

/-- Each step succeeds where the other does, with results that match, and both leave the same. -/
def Tallies {α β : Type} (R : α → β → Prop) (m : Check α) (m' : Check β) : Prop :=
  Follows R m m' ∧ Follows (fun b a => R a b) m' m

section Steps

variable {α β γ δ : Type} {R : α → β → Prop} {Q : γ → δ → Prop}

theorem Tallies.same (m : Check α) : Tallies Eq m m := ⟨.same m, fun _ a _ h => ⟨a, h, rfl⟩⟩

theorem Tallies.pure {a : α} {b : β} (h : R a b) : Tallies R (Pure.pure a) (Pure.pure b) := ⟨.pure h, .pure h⟩

theorem Tallies.refuse (cause cause' : Cause) (span span' : Span) :
    Tallies R (Check.refuse cause span) (Check.refuse cause' span') := ⟨.refuse _ _ _, .refuse _ _ _⟩

theorem Tallies.bind {m : Check α} {m' : Check β} {f : α → Check γ} {f' : β → Check δ} (hm : Tallies R m m')
    (hf : ∀ a b, R a b → Tallies Q (f a) (f' b)) : Tallies Q (m >>= f) (m' >>= f') :=
  ⟨hm.1.bind fun a b hab => (hf a b hab).1, hm.2.bind fun b a hab => (hf a b hab).2⟩

theorem Tallies.andThen {m m' : Check α} {f : α → Check γ} {f' : α → Check δ} (hm : Tallies Eq m m')
    (hf : ∀ a, Tallies Q (f a) (f' a)) : Tallies Q (m >>= f) (m' >>= f') := by
  refine hm.bind fun a b hab => ?_
  subst hab
  exact hf a

theorem Tallies.imp {S : α → β → Prop} {m : Check α} {m' : Check β} (h : Tallies R m m') (hRS : ∀ a b, R a b → S a b) :
    Tallies S m m' := by
  constructor
  · intro s a s' ha
    obtain ⟨b, hb, hab⟩ := h.1 s a s' ha
    exact ⟨b, hb, hRS a b hab⟩
  · intro s b s' hb
    obtain ⟨a, ha, hab⟩ := h.2 s b s' hb
    exact ⟨a, ha, hRS a b hab⟩

theorem Tallies.ite {c : Prop} [Decidable c] {m k : Check α} {m' k' : Check β} (hm : Tallies R m m') (hk : Tallies R k k') :
    Tallies R (if c then m else k) (if c then m' else k') :=
  ⟨.ite hm.1 hk.1, .ite hm.2 hk.2⟩

theorem Tallies.guard {c : Prop} [Decidable c] {cause cause' : Cause} {span span' : Span} {k : γ → Check α}
    {k' : δ → Check β} {m : Check α} {m' : Check β} (h : Tallies R m m') :
    Tallies R (if c then Check.refuse cause span >>= k else m) (if c then Check.refuse cause' span' >>= k' else m') :=
  ⟨.guard h.1, .guard h.2⟩

end Steps

/-! ## Expressions -/

section Expressions

variable {u : Unfinished}

/-- The expression is checked alike when its updates are written out. -/
def ExprTallies (ctx : Context) (e : Expr) : Prop :=
  ∀ place, Tallies Spelled (expr ctx place e) (expr ctx place e.spelledOut)

theorem tallies_exprs {es : List Expr} (ih : ∀ e ∈ es, ExprTallies ctx e) :
    Tallies SpelledAll (exprs ctx es) (exprs ctx (Expr.spelledOutAll es)) := by
  induction es with
  | nil => exact .pure .nil
  | cons e es ihes =>
    rw [Expr.spelledOutAll, exprs, exprs]
    refine (ih e mem_cons_self false).bind fun t t' ht => ?_
    exact (ihes fun e he => ih e (mem_cons_of_mem _ he)).bind fun ts ts' hts => .pure (.cons ht hts)

theorem tallies_argsFor {es : List Expr} (ih : ∀ e ∈ es, ExprTallies ctx e) (f : Ident) (i : Nat) (params : List Ty) :
    Tallies SpelledAll (argsFor ctx f i params es) (argsFor ctx f i params (Expr.spelledOutAll es)) := by
  induction es generalizing i params with
  | nil => exact .pure .nil
  | cons e es ihes =>
    rw [Expr.spelledOutAll, argsFor, argsFor]
    refine (ih e mem_cons_self false).bind fun t t' ht => ?_
    cases params with
    | nil => exact .pure (.cons ht .nil)
    | cons ty tys =>
      simp only [ht.ty]
      refine .guard ?_
      exact (ihes (fun e he => ih e (mem_cons_of_mem _ he)) _ _).bind fun ts ts' hts => .pure (.cons ht hts)

theorem tallies_sameCount (f : Ident) (params : List Ty) (args : List Expr) (span : Span) :
    Tallies Eq (sameCount f params args span) (sameCount f params (Expr.spelledOutAll args) span) := by
  unfold sameCount
  rw [Expr.length_spelledOutAll]
  exact .same _

/-- The results of an operator on written out operands. An assignment or update is left as it is, with its operands
written out. -/
def SpelledBin (op : BinOp) (t t' : Typed) : Prop :=
  t'.ty = t.ty ∧ if op.isAssignment then
    ∃ l r, t.term = .bin op l r ∧ t'.term = .bin op l.spelledOut r.spelledOut
  else t'.term = t.term.spelledOut

theorem spelledBin_result {l r l' r' : Typed} (hl : Spelled l l') (hr : Spelled r r') :
    SpelledBin op
      (if op.isAssignment then ⟨ty, l.deps.union r.deps, .bin op l.term r.term⟩ else operation op ty l r)
      (if op.isAssignment then ⟨ty, l'.deps.union r'.deps, .bin op l'.term r'.term⟩ else operation op ty l' r') := by
  unfold SpelledBin
  cases hop : op.isAssignment with
  | true => exact ⟨rfl, l.term, r.term, rfl, by rw [if_pos rfl, hl.term, hr.term]⟩
  | false =>
    have h : Spelled (operation op ty l r) (operation op ty l' r') := spelledOut_operation hop hl hr
    exact ⟨h.ty, h.term⟩

theorem tallies_bin (op : BinOp) {l r l₁ r₁ : Expr} (span : Span)
    (hl : ∀ place, Tallies Spelled (expr ctx place l) (expr ctx place l₁))
    (hr : ∀ place, Tallies Spelled (expr ctx place r) (expr ctx place r₁)) (place : Bool) :
    Tallies (SpelledBin op) (expr ctx place (.bin op l r span)) (expr ctx place (.bin op l₁ r₁ span)) := by
  constructor
  · intro s t s' h
    obtain ⟨rfl, l', s₁, r', ty, hl', hr', hty, harr, rfl⟩ := gives_bin.1 h
    obtain ⟨l₁', hl₁, hsl⟩ := (hl _).1 _ _ _ hl'
    obtain ⟨r₁', hr₁, hsr⟩ := (hr _).1 _ _ _ hr'
    rw [← hsl.ty] at harr
    rw [← hsl.ty, ← hsr.ty] at hty
    exact ⟨_, gives_bin.2 ⟨rfl, l₁', s₁, r₁', ty, hl₁, hr₁, hty, harr, rfl⟩, spelledBin_result hsl hsr⟩
  · intro s t s' h
    obtain ⟨rfl, l₁', s₁, r₁', ty, hl₁, hr₁, hty, harr, rfl⟩ := gives_bin.1 h
    obtain ⟨l', hl', hsl⟩ := (hl _).2 _ _ _ hl₁
    obtain ⟨r', hr', hsr⟩ := (hr _).2 _ _ _ hr₁
    rw [hsl.ty] at harr
    rw [hsl.ty, hsr.ty] at hty
    exact ⟨_, gives_bin.2 ⟨rfl, l', s₁, r', ty, hl', hr', hty, harr, rfl⟩, spelledBin_result hsl hsr⟩

/-- An operator that is no update keeps its form when it is written out. -/
theorem SpelledBin.spelled {t t' : Typed} (hop : ∀ a, op ≠ .update a) (h : SpelledBin op t t') :
    Spelled t t' := by
  obtain ⟨hty, hterm⟩ := h
  refine ⟨hty, ?_⟩
  cases op with
  | update a => exact absurd rfl (hop a)
  | assign =>
    obtain ⟨l, r, ht, ht'⟩ := hterm
    rw [ht, ht']
    rfl
  | or | and | eq | ne | compare | arith => exact hterm

/-- An update is checked like the assignment of its written out operands. -/
theorem tallies_update (hctx : Remembers u ctx.globals) {op : Arith} {l r l₁ r₁ : Expr} {span : Span}
    (hl : ∀ place, Tallies Spelled (expr ctx place l) (expr ctx place l₁))
    (hr : ∀ place, Tallies Spelled (expr ctx place r) (expr ctx place r₁)) (place : Bool) :
    Tallies Spelled (expr ctx place (.bin (.update op) l r span))
      (expr ctx place (.bin .assign l₁ (.bin (.arith op) l₁ r₁ span) span)) := by
  have hparts := tallies_bin (.update op) span hl hr place
  constructor
  · intro s t s' h
    obtain ⟨t₁, h₁, hty, l', r', hterm, hterm₁⟩ := hparts.1 _ _ _ h
    refine ⟨_, (writtenOut_iff_update hctx).2 ⟨_, _, t₁, h₁, hterm₁, rfl⟩, hty, ?_⟩
    rw [hterm]
    rfl
  · intro s t' s' h'
    obtain ⟨l₁', r₁', t₁, h₁, hterm₁, rfl⟩ := (writtenOut_iff_update hctx).1 h'
    obtain ⟨t, h, hty, l', r', hterm, hwritten⟩ := hparts.2 _ _ _ h₁
    refine ⟨t, h, hty, ?_⟩
    rw [hterm₁] at hwritten
    cases hwritten
    rw [hterm]
    rfl

theorem tallies_element {b b' i i' : Typed} (hb : Spelled b b') (hi : Spelled i i') (at_ at_' span span' : Span) :
    Tallies Spelled (element b i at_ span) (element b' i' at_' span') := by
  unfold element
  rw [hb.ty, hi.ty, hi.term, Term.value?_spelledOut, hb.term]
  cases Ty.index? b.ty i.ty with
  | none => exact .refuse ..
  | some ty => exact .ite (.refuse ..) (.pure ⟨rfl, rfl⟩)

theorem tallies_member {b b' : Typed} (hb : Spelled b b') (place : Bool) (name : Ident) (span : Span) :
    Tallies Spelled (member place b name span) (member place b' name span) := by
  unfold member
  rw [hb.ty, hb.term]
  cases b.ty with
  | struct x =>
    refine (Tallies.same _).andThen fun d => ?_
    cases d.member? name with
    | none => exact .refuse ..
    | some ty => exact .pure ⟨rfl, rfl⟩
  | void | basic | array =>
    dsimp only
    split
    · exact .refuse ..
    · exact .ite (.refuse ..) (.pure ⟨rfl, rfl⟩)

/-- A variable has nothing to write out. -/
theorem spelledOut_useVar {place : Bool} {x : Ident} {v : Var} {t : Typed} (h : useVar place x v = .ok t) : Spelled t t := by
  unfold useVar at h
  repeat' split at h
  all_goals cases h
  all_goals exact ⟨rfl, rfl⟩

/-- **Every expression is checked alike with its updates written out.** -/
theorem tallies_expr (hctx : Remembers u ctx.globals) (e : Expr) : ExprTallies ctx e := by
  induction e with
  | cond c yes no span ihc ihyes ihno =>
    intro place
    rw [Expr.spelledOut, expr, expr]
    refine (Tallies.same _).andThen fun _ => (ihc false).bind fun c' c₁ hc => ?_
    simp only [hc.ty]
    refine .guard ((ihyes false).bind fun yes' yes₁ hyes => (ihno false).bind fun no' no₁ hno => ?_)
    simp only [hyes.ty, hno.ty]
    exact .guard (.pure (spelledOut_conditional hc hyes hno))
  | bin op l r span ihl ihr =>
    intro place
    rw [Expr.spelledOut]
    cases op with
    | update a => exact tallies_update hctx ihl ihr place
    | assign | or | and | eq | ne | compare | arith =>
      exact (tallies_bin _ span ihl ihr place).imp fun t t' ht => ht.spelled (by simp)
  | un op e span ih =>
    intro place
    rw [Expr.spelledOut, expr, expr]
    refine (Tallies.same _).andThen fun _ => (ih false).bind fun e' e₁ he => ?_
    rw [he.ty]
    cases Ty.unary? op e'.ty with
    | none => exact .refuse ..
    | some ty => exact .pure (spelledOut_unaryOperation he)
  | index b i span ihb ihi =>
    intro place
    rw [Expr.spelledOut, expr, expr]
    exact (ihb place).bind fun b' b₁ hb => (ihi false).bind fun i' i₁ hi => tallies_element hb hi ..
  | member b name span ih =>
    intro place
    rw [Expr.spelledOut, expr, expr]
    exact (ih place).bind fun b' b₁ hb => tallies_member hb ..
  | call f args span ih =>
    intro place
    rw [Expr.spelledOut, expr, expr]
    refine (Tallies.same _).andThen fun _ => (Tallies.same _).andThen fun info => ?_
    cases info with
    | none => exact .refuse ..
    | some info =>
      cases info with
      | var v => exact .refuse ..
      | fn d =>
        refine (tallies_sameCount ..).andThen fun _ => (tallies_argsFor ih ..).bind fun as bs has => ?_
        exact .pure ⟨rfl, by rw [has.terms, Term.spelledOut]⟩
      | struct d =>
        refine (tallies_sameCount ..).andThen fun _ => (tallies_argsFor ih ..).bind fun as bs has => ?_
        exact .pure ⟨rfl, by rw [has.terms, Term.spelledOut]⟩
      | builtin overloads =>
        refine (tallies_exprs ih).bind fun as bs has => ?_
        rw [has.tys]
        cases Overload.result? overloads (as.map Typed.ty) with
        | none => exact .refuse ..
        | some ty => exact .pure ⟨rfl, by rw [has.terms, Term.spelledOut]⟩
  | construct ty args span ih =>
    intro place
    rw [Expr.spelledOut, expr, expr]
    refine (Tallies.same _).andThen fun _ => (tallies_exprs ih).bind fun as bs has => ?_
    rw [spelledOut_construction has]
    cases construction ty as with
    | error cause => exact .refuse ..
    | ok t => exact .pure ⟨rfl, rfl⟩
  | var x span =>
    intro place
    rw [Expr.spelledOut, expr]
    refine (Tallies.same _).andThen fun info => ?_
    cases info with
    | none => exact .refuse ..
    | some info =>
      cases info with
      | fn | struct | builtin => exact .refuse ..
      | var v =>
        cases hv : useVar place x v with
        | error cause =>
          simp only [hv]
          exact .refuse ..
        | ok t =>
          simp only [hv]
          exact .pure (spelledOut_useVar hv)
  | lit v span =>
    intro place
    rw [Expr.spelledOut, expr_lit]
    exact (Tallies.same _).andThen fun _ => .pure ⟨rfl, rfl⟩

end Expressions

/-! ## Statements and functions -/

section Statements

variable {u : Unfinished} {outer : List (Scope Var)} {inner : Scope Var}

section Contexts

variable (hctx : Remembers u ctx.globals)
include hctx

theorem tallies_constInt (e : Expr) : Tallies Eq (constInt ctx e) (constInt ctx e.spelledOut) := by
  refine (tallies_expr hctx e false).bind fun t t' ht => ?_
  simp only [ht.ty, ht.term, Term.value?_spelledOut]
  refine .guard ?_
  cases t.term.value? with
  | none => exact .refuse ..
  | some v => exact .same _

theorem tallies_loopStep (x : Ident) (first bound : Int32) (step : Option Expr) :
    Tallies Eq (loopStep ctx x first bound step) (loopStep ctx x first bound (step.map Expr.spelledOut)) := by
  cases step with
  | none => exact .same _
  | some e => exact (tallies_constInt hctx e).andThen fun i => .guard (.guard (.guard (.same _)))

/-- The values that variables are declared with, where there are any. -/
def SpelledValue (a b : Option (Typed × Span)) : Prop := Option.Rel (fun v w => Spelled v.1 w.1) a b

theorem tallies_initValue (init : Option Expr) :
    Tallies SpelledValue (initValue ctx init) (initValue ctx (init.map Expr.spelledOut)) := by
  cases init with
  | none => exact .pure .none
  | some e => exact (tallies_expr hctx e false).bind fun t t' ht => .pure (.some ht)

end Contexts

theorem tallies_letTy (x : Ident) (ty : Option TyExpr) {value value' : Option (Typed × Span)}
    (h : SpelledValue value value') (span : Span) :
    Tallies Eq (letTy ctx x ty value span) (letTy ctx x ty value' span) := by
  unfold letTy
  cases h with
  | none => cases ty <;> exact .same _
  | some hv =>
    cases ty with
    | none =>
      simp only [hv.ty]
      exact .ite (.refuse ..) (.same _)
    | some te =>
      refine (Tallies.same _).andThen fun t => ?_
      simp only [hv.ty]
      exact .guard (.same _)

/-- What is bound behind the statement is the same, and what is kept of it is written out. -/
def SpelledStmt (a b : Scope Var × Option Kept) : Prop := b.1 = a.1 ∧ Option.Rel SpelledKept a.2 b.2

theorem spelled_kept? (h : SpelledBlock b b') : Option.Rel SpelledKept b.kept? b'.kept? := by
  unfold KeptBlock.kept?
  rw [h.isEmpty]
  split
  · exact .none
  · exact .some ⟨by rw [h.body, Code.spelledOut], h.locals⟩

theorem tallies_stmts {fc : FnContext} {inLoop : Bool} {ss : List Stmt}
    (ih : ∀ st ∈ ss, ∀ inner,
      Tallies SpelledStmt (stmt fc inLoop outer inner st) (stmt fc inLoop outer inner st.spelledOut)) :
    Tallies (fun a b => b.1 = a.1 ∧ List.Forall₂ SpelledKept a.2 b.2) (stmts fc inLoop outer inner ss)
      (stmts fc inLoop outer inner (Stmt.spelledOutAll ss)) := by
  induction ss generalizing inner with
  | nil => exact .pure ⟨rfl, .nil⟩
  | cons st ss ihss =>
    rw [Stmt.spelledOutAll, stmts, stmts]
    refine (ih st mem_cons_self inner).bind ?_
    rintro ⟨scope, k⟩ ⟨scope', k'⟩ ⟨hscope, hk⟩
    obtain rfl : scope' = scope := hscope
    refine (ihss fun st hst => ih st (mem_cons_of_mem _ hst)).bind ?_
    rintro ⟨last, ks⟩ ⟨last', ks'⟩ ⟨hlast, hks⟩
    refine .pure ⟨hlast, ?_⟩
    cases hk with
    | none => exact hks
    | some hk => exact .cons hk hks

theorem tallies_block {fc : FnContext} {inLoop : Bool} {b : Block}
    (ih : ∀ st ∈ b.stmts, ∀ inner,
      Tallies SpelledStmt (stmt fc inLoop outer inner st) (stmt fc inLoop outer inner st.spelledOut)) :
    Tallies SpelledBlock (block fc inLoop outer inner b) (block fc inLoop outer inner b.spelledOut) := by
  obtain ⟨ss, span⟩ := b
  rw [Block.spelledOut, block, block]
  refine (tallies_stmts ih).bind ?_
  rintro ⟨last, ks⟩ ⟨last', ks'⟩ ⟨hlast, hks⟩
  obtain rfl : last' = last := hlast
  exact .pure (spelled_gather hks)

/-- **Every statement is checked alike with its updates written out.** -/
theorem tallies_stmt {fc : FnContext} (hfc : Remembers u fc.globals) (inLoop : Bool) (st : Stmt)
    (outer : List (Scope Var)) (inner : Scope Var) :
    Tallies SpelledStmt (stmt fc inLoop outer inner st) (stmt fc inLoop outer inner st.spelledOut) := by
  induction st generalizing inLoop outer inner with
  | breakStmt span =>
    rw [Stmt.spelledOut, stmt]
    exact .guard (.pure ⟨rfl, .some ⟨rfl, rfl⟩⟩)
  | continueStmt span =>
    rw [Stmt.spelledOut, stmt]
    exact .guard (.pure ⟨rfl, .some ⟨rfl, rfl⟩⟩)
  | forStmt x first bound step body span ih =>
    rw [Stmt.spelledOut, stmt, stmt]
    refine (tallies_constInt hfc first).andThen fun a => (tallies_constInt hfc bound).andThen fun b => ?_
    refine (tallies_loopStep hfc x a b step).andThen fun i => ?_
    refine (tallies_block fun st hst inner => ih st hst true _ inner).bind fun kept kept' hkept => ?_
    rw [hkept.isEmpty]
    refine .ite ((Tallies.same _).andThen fun _ => .pure ⟨rfl, .none⟩) (.pure ⟨rfl, .some ⟨?_, rfl⟩⟩)
    rw [hkept.body, Code.spelledOut]
  | ifStmt test yes no span ihyes ihno =>
    rw [Stmt.spelledOut, stmt_if, stmt_if]
    refine (tallies_expr hfc test false).bind fun t t' ht => ?_
    simp only [ht.ty, ht.term, Term.value?_spelledOut]
    refine .guard ((tallies_block fun st hst inner => ihyes st hst inLoop _ inner).bind fun yes' yes₁ hyes => ?_)
    have helse : Tallies SpelledBlock (elseBlock fc inLoop (inner :: outer) no)
        (elseBlock fc inLoop (inner :: outer) (Block.spelledOutElse no)) := by
      cases no with
      | none => exact .pure spelled_empty
      | some b => exact tallies_block fun st hst inner => ihno b rfl st hst inLoop _ inner
    refine helse.bind fun no' no₁ hno => ?_
    cases t.term.value? with
    | none => exact .pure ⟨rfl, .some ⟨spelled_ofBranch hyes hno, rfl⟩⟩
    | some v =>
      refine (Tallies.same _).andThen fun _ => .pure ⟨rfl, ?_⟩
      dsimp only
      split
      · exact spelled_kept? hyes
      · exact spelled_kept? hno
  | letStmt x ty init span =>
    rw [Stmt.spelledOut, stmt_let, stmt_let]
    refine (tallies_initValue hfc init).bind fun value value' hvalue => (tallies_letTy x ty hvalue span).andThen fun t => ?_
    cases inner.insert? x ⟨t, .localVar true⟩ with
    | none => exact .refuse ..
    | some inner' =>
      refine .pure ⟨rfl, .some ⟨?_, rfl⟩⟩
      cases hvalue with
      | none => rfl
      | some hv =>
        simp only [Option.map_some, hv.term]
        rfl
  | returnStmt value span =>
    cases value with
    | none =>
      rw [Stmt.spelledOut, Option.map_none, stmt]
      exact .guard (.pure ⟨rfl, .some ⟨rfl, rfl⟩⟩)
    | some e =>
      rw [Stmt.spelledOut, Option.map_some, stmt, stmt]
      refine (tallies_expr hfc e false).bind fun t t' ht => ?_
      simp only [ht.ty, ht.term]
      exact .guard (.pure ⟨rfl, .some ⟨rfl, rfl⟩⟩)
  | blockStmt b span ih =>
    rw [Stmt.spelledOut, stmt_block, stmt_block]
    refine (tallies_block fun st hst inner => ih st hst inLoop _ inner).bind fun kept kept' hkept => ?_
    exact .pure ⟨rfl, spelled_kept? hkept⟩
  | exprStmt e span =>
    rw [Stmt.spelledOut, stmt, stmt]
    refine (tallies_expr hfc e false).bind fun t t' ht => .pure ⟨rfl, .some ⟨?_, rfl⟩⟩
    dsimp only
    rw [ht.term, Code.ofExpr_spelledOut]

/-- The second function is the first one, written out. Its needs are left open. -/
def SpelledFn (f f' : FnDef) : Prop := f' = { f.spelledOut with deps := f'.deps }

section Functions

variable {g : Globals} (hg : Remembers u g) {d : FnDecl} {f' : FnDef} {s s' : Expansion}
include hg

theorem tallies_laxFn (d : FnDecl) : Tallies SpelledFn (laxFn g d) (laxFn g d.spelledOut) := by
  refine (Tallies.same _).andThen fun result => (Tallies.same _).andThen fun r => ?_
  refine (tallies_block fun st _ inner => tallies_stmt hg false st [] inner).bind fun body body' hbody => ?_
  refine .pure ?_
  simp only [SpelledFn, FnDef.spelledOut, hbody.body, FnDecl.spelledOut]

/-- A function that is written out needs what it did, and to read varyings if it updates one. -/
theorem gives_laxFn_spelledOut :
    Gives (laxFn g d.spelledOut) s f' s' ↔
      ∃ f, Gives (laxFn g d) s f s' ∧
        f' = { f.spelledOut with deps := f.deps.reading f.updatesVarying } := by
  have hdeps {f f' : FnDef} (h : Gives (laxFn g d) s f s')
      (h' : Gives (laxFn g d.spelledOut) s f' s') (hff' : SpelledFn f f') :
      f' = { f.spelledOut with deps := f.deps.reading f.updatesVarying } := by
    have hcovers : Covers f'.deps f.spelledOut.uses := (congrArg FnDef.uses hff') ▸ exact_of_laxFn h'
    rw [← f.adds_spelledOut.deps_eq (exact_of_laxFn h) hcovers]
    exact hff'
  constructor
  · intro h'
    obtain ⟨f, h, hff'⟩ := (tallies_laxFn hg d).2 _ _ _ h'
    exact ⟨f, h, hdeps h h' hff'⟩
  · rintro ⟨f, h, rfl⟩
    obtain ⟨f', h', hff'⟩ := (tallies_laxFn hg d).1 _ _ _ h
    rw [← hdeps h h' hff']
    exact h'

/-- A function is accepted with its updates written out if it is accepted and updates no varying. -/
theorem gives_fn_spelledOut :
    Gives (fn g d.spelledOut) s f' s' ↔
      ∃ f, Gives (fn g d) s f s' ∧ f.updatesVarying = false ∧ f' = f.spelledOut := by
  simp only [gives_fn_iff, gives_laxFn_spelledOut hg]
  constructor
  · rintro ⟨⟨f, h, rfl⟩, hvaryings⟩
    cases hupdates : f.updatesVarying with
    | true =>
      -- The update counts as a write, and written out it also counts as a read.
      have hwrites : f.deps.Has .writesVaryings := (exact_of_laxFn h _).2 (f.adds_spelledOut.writes hupdates)
      exact absurd ⟨by simp [Deps.reading, hupdates], hwrites⟩ hvaryings
    | false =>
      have hsame : f.deps.reading false = f.deps := by simp [Deps.reading]
      rw [hupdates, hsame] at hvaryings
      exact ⟨f, ⟨h, hvaryings⟩, hupdates, by rw [hsame]; rfl⟩
  · rintro ⟨f, ⟨h, hvaryings⟩, hupdates, rfl⟩
    have hsame : f.deps.reading f.updatesVarying = f.deps := by simp [Deps.reading, hupdates]
    exact ⟨⟨f, h, by rw [hsame]; rfl⟩, hvaryings⟩

end Functions

end Statements

/-- **Updates and the assignments that write them out.** In every scope, `l = l op r` is accepted exactly if `l op= r`
is, with the same type and the operands left as the same code, and both leave the same. Their needs are the same up to
the reading of varyings: the assignment reads the place and the update does not count as a read, so the needs are equal
exactly if the place is in no varying or varyings are read anyway.

Hence a function is accepted with all its updates written out exactly if it is accepted and updates no varying. It then
comes to the same function, with the same needs. -/
theorem update_written_out_iff (top : TopLevel) (vars : Scope Var) (n : Nat) (u : Unfinished) :
    (∀ (scopes : List (Scope Var)) (place : Bool) (op : Arith) (l r : Expr) (span span₁ : Span) (s s' : Expansion)
      (t' : Typed),
      Gives (expr ⟨scopes, globals top vars n u⟩ place (.bin .assign l (.bin (.arith op) l r span₁) span)) s t' s' ↔
        ∃ l' r' t, Gives (expr ⟨scopes, globals top vars n u⟩ place (.bin (.update op) l r span)) s t s' ∧
          t.term = .bin (.update op) l' r' ∧
          t' = ⟨t.ty, t.deps.reading l'.inVarying, .bin .assign l' (.bin (.arith op) l' r')⟩ ∧
          (t'.deps = t.deps ↔ (l'.inVarying = true → t.deps.readsVaryings = true))) ∧
    ∀ (d : FnDecl) (s s' : Expansion) (f' : FnDef), Gives (fn (globals top vars n u) d.spelledOut) s f' s' ↔
      ∃ f, Gives (fn (globals top vars n u) d) s f s' ∧ f.updatesVarying = false ∧ f' = f.spelledOut := by
  refine ⟨?_, fun d s s' f' => gives_fn_spelledOut (remembers_globals top vars n u)⟩
  intro scopes place op l r span span₁ s s' t'
  constructor
  · intro h
    obtain ⟨l', r', t, ht, hterm, rfl⟩ := (writtenOut_iff_update (remembers_globals top vars n u)).1 h
    exact ⟨l', r', t, ht, hterm, rfl, Deps.reading_eq_iff⟩
  · rintro ⟨l', r', t, ht, hterm, heq, -⟩
    exact (writtenOut_iff_update (remembers_globals top vars n u)).2 ⟨l', r', t, ht, hterm, heq⟩

/-- A local variable is doubled in both forms, by itself and in a function. -/
theorem doubled_local_alike :
    let two : Expr := .lit (.int 2) .unset
    let x : Expr := .var "x" .unset
    let top : TopLevel := ⟨[], [], []⟩
    let ctx : Context := ⟨[⟨[("x", ⟨.int, .localVar true⟩)]⟩], globals top .empty 1 {}⟩
    let d : FnDecl := ⟨"double", [], none, .mk [.letStmt "x" none (some two) .unset,
      .exprStmt (.bin (.update .mul) x two .unset) .unset] .unset, .unset⟩
    (∃ t, Gives (expr ctx false (.bin .assign x (.bin (.arith .mul) x two .unset) .unset)) {} t {} ∧
      t.ty = .int ∧ t.deps = .none) ∧
    ∃ f, Gives (fn (globals top .empty 1 {}) d.spelledOut) {} f {} ∧ f.deps = .none := by
  intro two x top ctx d
  have h := update_written_out_iff top .empty 1 {}
  have hexpr : Gives (expr ctx false (.bin (.update .mul) x two .unset)) {}
    ⟨.int, .none, .bin (.update .mul) (.localVar "x") (.const (.int 2))⟩ {} := rfl
  have hfn : Gives (fn (globals top .empty 1 {}) d) {} ⟨"double", [], .void, .none,
    [.declare "x" .int (some (.const (.int 2))), .assign (.update .mul) (.localVar "x") (.const (.int 2))]⟩ {} := rfl
  exact ⟨⟨_, (h.1 _ _ _ _ _ _ _ _ _ _).2 ⟨_, _, _, hexpr, rfl, rfl, by simp [Deps.reading, Deps.none]⟩, rfl, rfl⟩,
    _, (h.2 _ _ _ _).2 ⟨_, hfn, rfl, rfl⟩, rfl⟩

end Check

/-- A function that doubles a varying is accepted with an update, and refused with the assignment that says the same. -/
theorem updated_varying_passes :
    let shader (doubling : String) : Source := .ofString ("varying uv: vec2;\nfn both() \x7b " ++ doubling ++
      " \x7d\nfn vertex() -> vec4 \x7b both(); return vec4(0.0); \x7d\nfn fragment() -> vec4 \x7b return vec4(1); \x7d")
    (compile {} [] (shader "uv *= 2.0;")).1.isOk = true ∧
    ∃ span, (compile {} [] (shader "uv = uv * 2.0;")).1 =
      .error (.refused (.refused ⟨.readsAndWritesVaryings "both", span⟩)) := by
  intro shader
  exact ⟨by decide +kernel, ⟨⟨2, 1, 18⟩, ⟨2, 29, 46⟩⟩, by decide +kernel⟩

end Shading
