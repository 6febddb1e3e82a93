import Shading.Proofs.NormalForm.Legibility
import Shading.Proofs.Resolution

/-!
# Checking again what checking left

An expression that was accepted leaves a term. The expression that the term's text spells is accepted as well, in the same
scopes and by every expansion that has what the first run left, and leaves the same type, the same needs and the same term
(`gives_again`). Nothing is opened the second time, and nothing is left to compute: constants stay what they are, and
what could not be computed before cannot be computed now.
-/

namespace Shading

open List

/-! ## Needs of nothing -/

theorem Deps.none_union (d : Deps) : Deps.none.union d = d := by
  refine ext_has fun n => ?_
  simp only [has_union, not_has_none, false_or]

/-- Code that uses nothing needs nothing. -/
theorem Deps.eq_none_of_covers {d : Deps} (h : Covers d []) : d = .none := by
  refine ext_has fun n => ?_
  rw [h n]
  simp only [not_mem_nil, false_and, exists_false, not_has_none]

variable {x : Ident} {args : List Expr}

namespace Check

/-! ## What later expansions remember -/

section Memory

variable {top : TopLevel} {vars : Scope Var} {n : Nat} {u : Unfinished} {s s' s₁ : Expansion}
  {f : FnDef} {span : Span}

theorem Grows.fn? (h : Grows u s s') (hf : s.fn? x = some f) : s'.fn? x = some f := by
  obtain ⟨⟨new, hnew, -⟩, -⟩ := h
  unfold Expansion.fn? at hf ⊢
  rw [hnew, find?_append, hf]
  rfl

theorem Grows.struct? {d : StructDef} (h : Grows u s s') (hd : s.struct? x = some d) :
    s'.struct? x = some d := by
  obtain ⟨-, new, hnew, -⟩ := h
  unfold Expansion.struct? at hd ⊢
  rw [hnew, find?_append, hd]
  rfl

/-- A function that is open is found under its name. -/
theorem fn?_of_openFn {d : FnDecl}
    (h : Gives (openFn (globals top vars n) u d span) s f s') : s'.fn? d.name = some f := by
  rcases gives_openFn h with ⟨hf, rfl⟩ | ⟨hnone, -, s₀, hf, rfl⟩
  · exact hf
  · have hname := name_of_fn hf
    have hgrows := (keeps_fn (frame_advance top vars _) (advance_globals top vars n _) d).of_gives hf
    have hne := hgrows.1.fns_ne hnone
    show ((s₀.fns ++ [f]).find? fun g => g.name == d.name) = some f
    rw [find?_append, find?_eq_none.2 fun g hg => by simpa using hne g hg]
    simp [hname]

theorem struct?_of_openStruct {d : StructDecl} {f : StructDef}
    (h : Gives (openStruct (globals top vars n) u d span) s f s') : s'.struct? d.name = some f := by
  rcases gives_openStruct h with ⟨hf, rfl⟩ | ⟨hnone, -, s₀, hf, rfl⟩
  · exact hf
  · have hname := name_of_struct hf
    have hgrows := (keeps_struct (frame_advance top vars _) (advance_globals top vars n _) d).of_gives hf
    have hne := hgrows.1.structs_ne hnone
    show ((s₀.structs ++ [f]).find? fun g => g.name == d.name) = some f
    rw [find?_append, find?_eq_none.2 fun g hg => by simpa using hne g hg]
    simp [hname]

theorem gives_openFn_again {d : FnDecl} (inside : Unfinished → Globals) (span : Span)
    (h : s.fn? d.name = some f) : Gives (openFn inside u d span) s f s := by
  simp only [openFn, gives_bind, gives_get]
  exact ⟨s, s, ⟨rfl, rfl⟩, by simp [h]⟩

theorem gives_openStruct_again {d : StructDecl} {f : StructDef} (inside : Unfinished → Globals) (span : Span)
    (h : s.struct? d.name = some f) : Gives (openStruct inside u d span) s f s := by
  simp only [openStruct, gives_bind, gives_get]
  exact ⟨s, s, ⟨rfl, rfl⟩, by simp [h]⟩

theorem globals_again {info : Info} (h : Gives (globals top vars n u x span) s (some info) s')
    (hgrows : Grows u s' s₁) (span' : Span) :
    Gives (globals top vars n u x span') s₁ (some info) s₁ := by
  rcases gives_globals h with ⟨v, hv, rfl, -⟩ | ⟨hvar, k, d, f, rfl, hd, hopen, rfl⟩ |
    ⟨hvar, hfn, k, d, f, rfl, hd, hopen, rfl⟩ | ⟨hvar, hfn, hstruct, overloads, hb, rfl, -⟩
  · cases n with
    | zero => simp [globals] at h
    | succ k => simp [globals, resolve, hv]
  · have hagain := gives_openFn_again (u := u) (globals top vars k) span' (hgrows.fn? (fn?_of_openFn hopen))
    simp only [globals, resolve, hvar, hd, gives_bind, gives_pure]
    exact ⟨f, s₁, hagain, rfl, rfl⟩
  · have hagain := gives_openStruct_again (u := u) (globals top vars k) span'
      (hgrows.struct? (struct?_of_openStruct hopen))
    simp only [globals, resolve, hvar, hfn, hd, gives_bind, gives_pure]
    exact ⟨f, s₁, hagain, rfl, rfl⟩
  · cases n with
    | zero => simp [globals] at h
    | succ k => simp [globals, resolve, hvar, hfn, hstruct, hb]

/-- Look-ups that may open something find the same in every later expansion, and then have nothing to open. -/
structure Remembers (u : Unfinished) (g : Globals) : Prop where
  grows : ∀ x span, Keeps (Grows u) (g x span)
  again : ∀ {x span s info s' s₁}, Gives (g x span) s (some info) s' → Grows u s' s₁ →
    ∀ span', Gives (g x span') s₁ (some info) s₁

theorem remembers_globals (top : TopLevel) (vars : Scope Var) (n : Nat) (u : Unfinished) :
    Remembers u (globals top vars n u) :=
  ⟨fun x span s => (advance_globals top vars n u x span s).1, globals_again⟩

theorem find_again {ctx : Context} (hctx : Remembers u ctx.globals) {info : Info}
    (h : Gives (ctx.find x span) s (some info) s') (hgrows : Grows u s' s₁) (span' : Span) :
    Gives (ctx.find x span') s₁ (some info) s₁ := by
  rcases gives_find.1 h with ⟨v, hv, hinfo, -⟩ | ⟨hnone, hglobal⟩
  · exact gives_find.2 (.inl ⟨v, hv, hinfo, rfl⟩)
  · exact gives_find.2 (.inr ⟨hnone, hctx.again hglobal hgrows span'⟩)

theorem hasArrays_again {ty : Ty} {b : Bool} (h : Gives (hasArrays ty) s b s) (hgrows : Grows u s s₁) :
    Gives (hasArrays ty) s₁ b s₁ := by
  cases ty with
  | void | basic | array => exact gives_pure.2 ⟨(gives_pure.1 h).1, rfl⟩
  | struct x =>
    simp only [hasArrays, gives_bind, gives_pure, gives_openedStruct] at h ⊢
    obtain ⟨d, _, ⟨hd, -⟩, hb, -⟩ := h
    exact ⟨d, s₁, ⟨hgrows.struct? hd, rfl⟩, hb, rfl⟩

end Memory

end Check

/-! ## Expressions by their bare form -/

namespace Expr

variable {e : Expr}

theorem of_bare_cond {c y n : Expr} (h : e.bare = .cond c y n .unset) :
    ∃ c' y' n' span, e = .cond c' y' n' span ∧ c'.bare = c ∧ y'.bare = y ∧ n'.bare = n := by
  cases e <;> simp only [bare, reduceCtorEq, Expr.cond.injEq] at h
  exact ⟨_, _, _, _, rfl, h.1, h.2.1, h.2.2.1⟩

theorem of_bare_bin {op : BinOp} {l r : Expr} (h : e.bare = .bin op l r .unset) :
    ∃ l' r' span, e = .bin op l' r' span ∧ l'.bare = l ∧ r'.bare = r := by
  cases e <;> simp only [bare, reduceCtorEq, Expr.bin.injEq] at h
  obtain ⟨rfl, hl, hr, -⟩ := h
  exact ⟨_, _, _, rfl, hl, hr⟩

theorem of_bare_un {op : UnOp} {a : Expr} (h : e.bare = .un op a .unset) : ∃ a' span, e = .un op a' span ∧ a'.bare = a := by
  cases e <;> simp only [bare, reduceCtorEq, Expr.un.injEq] at h
  obtain ⟨rfl, ha, -⟩ := h
  exact ⟨_, _, rfl, ha⟩

theorem of_bare_index {b i : Expr} (h : e.bare = .index b i .unset) :
    ∃ b' i' span, e = .index b' i' span ∧ b'.bare = b ∧ i'.bare = i := by
  cases e <;> simp only [bare, reduceCtorEq, Expr.index.injEq] at h
  exact ⟨_, _, _, rfl, h.1, h.2.1⟩

theorem of_bare_member {b : Expr} {name : Ident} (h : e.bare = .member b name .unset) :
    ∃ b' span, e = .member b' name span ∧ b'.bare = b := by
  cases e <;> simp only [bare, reduceCtorEq, Expr.member.injEq] at h
  obtain ⟨hb, rfl, -⟩ := h
  exact ⟨_, _, rfl, hb⟩

theorem of_bare_call {f : Ident} (h : e.bare = .call f args .unset) :
    ∃ args' span, e = .call f args' span ∧ args'.map bare = args := by
  cases e <;> simp only [bare, reduceCtorEq, Expr.call.injEq, bareAll_eq] at h
  obtain ⟨rfl, hargs, -⟩ := h
  exact ⟨_, _, rfl, hargs⟩

theorem of_bare_construct {ty : BasicTy} (h : e.bare = .construct ty args .unset) :
    ∃ args' span, e = .construct ty args' span ∧ args'.map bare = args := by
  cases e <;> simp only [bare, reduceCtorEq, Expr.construct.injEq, bareAll_eq] at h
  obtain ⟨rfl, hargs, -⟩ := h
  exact ⟨_, _, rfl, hargs⟩

theorem of_bare_var (h : e.bare = .var x .unset) : ∃ span, e = .var x span := by
  cases e <;> simp only [bare, reduceCtorEq, Expr.var.injEq] at h
  obtain ⟨rfl, -⟩ := h
  exact ⟨_, rfl⟩

theorem of_bare_lit {v : Value} (h : e.bare = .lit v .unset) : ∃ span, e = .lit v span := by
  cases e <;> simp only [bare, reduceCtorEq, Expr.lit.injEq] at h
  obtain ⟨rfl, -⟩ := h
  exact ⟨_, rfl⟩

end Expr

namespace Check

/-! ## Constants -/

section Constants

variable {ctx : Context} {place : Bool} {e : Expr} {s s' : Expansion} {t : Typed} {v : Value}

/-- A constant is no place. -/
theorem place_of_const (h : Gives (expr ctx place e) s t s') (hv : t.term = .const v) : place = false := by
  cases e with
  | cond => exact (gives_cond.1 h).1
  | bin => exact (gives_bin.1 h).1
  | un => exact (gives_un.1 h).1
  | index =>
    obtain ⟨_, _, _, _, -, -, -, -, rfl⟩ := gives_index.1 h
    cases hv
  | member =>
    obtain ⟨_, -, ⟨_, _, _, -, -, -, rfl⟩ | ⟨_, -, -, rfl⟩⟩ := gives_member.1 h
    · cases hv
    · cases hv
  | call => exact (gives_call.1 h).1
  | construct => exact (gives_construct.1 h).1
  | var x =>
    obtain ⟨w, -, hw⟩ := gives_var.1 h
    unfold useVar at hw
    repeat' split at hw
    all_goals cases hw
    all_goals cases hv
  | lit => exact (gives_lit.1 h).1

theorem deps_of_const (h : Gives (expr ctx place e) s t s') (hv : t.term = .const v) : t.deps = .none :=
  Deps.eq_none_of_covers ((exact_of_expr h).const hv)

/-- A constant that is left has the type of its kind and no needs. -/
theorem eq_of_const (h : Gives (expr ctx place e) s t s') (hv : t.term = .const v) :
    t = ⟨.ofScalar v.kind, .none, .const v⟩ := by
  have hty := constTyped_of_gives h v hv
  have hdeps := deps_of_const h hv
  obtain ⟨ty, deps, term⟩ := t
  dsimp only at hty hdeps hv
  rw [hty, hdeps, hv]

/-- The literal of a constant, behind its sign, is the constant again. -/
theorem const_again (hfinite : v.isFinite = true) (he : e.bare = v.expr) :
    Gives (expr ctx false e) s ⟨.ofScalar v.kind, .none, .const v⟩ s := by
  unfold Value.expr at he
  split at he
  · rename_i hneg
    obtain ⟨a, span, rfl, ha⟩ := Expr.of_bare_un he
    obtain ⟨span', rfl⟩ := Expr.of_bare_lit ha
    refine gives_un.2 ⟨rfl, _, .ofScalar v.kind, gives_lit.2 ⟨rfl, rfl, rfl⟩, ?_, ?_⟩
    · rw [Value.kind_magnitude]
      cases v with
      | bool b => cases hneg
      | int i => rfl
      | float f => rfl
    · have hvalue : Value.unary? .neg v.magnitude = some v := Value.neg?_magnitude hfinite hneg
      simp only [unaryOperation, Term.value?, Option.bind_some, hvalue]
  · obtain ⟨span, rfl⟩ := Expr.of_bare_lit he
    exact gives_lit.2 ⟨rfl, rfl, rfl⟩

end Constants

/-! ## All expressions -/

section Again

variable {ctx : Context} {u : Unfinished} {place : Bool} {s s' s₁ : Expansion} {t : Typed} {ts : List Typed}

/-- What is later than a step is later than what was there before it. -/
theorem Remembers.before_expr (hctx : Remembers u ctx.globals) {e : Expr} (h : Gives (expr ctx place e) s t s')
    (hgrows : Grows u s' s₁) : Grows u s s₁ :=
  (frame_grows u).trans ((keeps_expr (frame_grows u) hctx.grows place e).of_gives h) hgrows

theorem Remembers.before_exprs (hctx : Remembers u ctx.globals) {es : List Expr} (h : Gives (exprs ctx es) s ts s')
    (hgrows : Grows u s' s₁) : Grows u s s₁ :=
  (frame_grows u).trans ((keeps_exprs (frame_grows u) hctx.grows es).of_gives h) hgrows

/-- The expression is checked again to what it left, in the expansion `s₁`. -/
def Again (ctx : Context) (u : Unfinished) (s₁ : Expansion) (e : Expr) : Prop :=
  ∀ ⦃place s t s' e'⦄, Gives (expr ctx place e) s t s' → Grows u s' s₁ → e'.bare = t.term.expr →
    Gives (expr ctx place e') s₁ t s₁

theorem exprs_again (hctx : Remembers u ctx.globals) {args' : List Expr} (ih : ∀ a ∈ args, Again ctx u s₁ a)
    (h : Gives (exprs ctx args) s ts s') (hgrows : Grows u s' s₁)
    (he : args'.map Expr.bare = Term.exprAll (argTerms ts)) : Gives (exprs ctx args') s₁ ts s₁ := by
  induction args generalizing s ts args' with
  | nil =>
    obtain ⟨rfl, -⟩ := gives_exprs_nil.1 h
    obtain rfl : args' = [] := map_eq_nil_iff.1 he
    exact gives_exprs_nil.2 ⟨rfl, rfl⟩
  | cons a args iargs =>
    obtain ⟨t, s₂, more, ht, hmore, rfl⟩ := gives_exprs_cons.1 h
    cases args' with
    | nil => cases he
    | cons a' args' =>
      obtain ⟨ha, hargs⟩ := List.cons.inj he
      have hfirst := ih a mem_cons_self ht (hctx.before_exprs hmore hgrows) ha
      have hrest := iargs (fun b hb => ih b (mem_cons_of_mem _ hb)) hmore hargs
      exact gives_exprs_cons.2 ⟨t, s₁, more, hfirst, hrest, rfl⟩

/-- What a constant in front decides for leaves that part alone. -/
theorem eq_of_dropped {e : Expr} {c r : Typed} {v : Value} (hc : Gives (expr ctx place e) s c s')
    (hv : c.term = .const v) : (⟨r.ty, c.deps.union r.deps, r.term⟩ : Typed) = r := by
  rw [deps_of_const hc hv, Deps.none_union]

variable {c l r e e' b i : Expr} {span : Span}

/-- A constant is its literal, whatever it was computed from. What is left to show is the results with a form of their
own. -/
theorem again_of_computed (hlegible : e.Legible) (h : Gives (expr ctx place e) s t s') (he : e'.bare = t.term.expr)
    (hother : t.term.value? = none → Gives (expr ctx place e') s₁ t s₁) : Gives (expr ctx place e') s₁ t s₁ := by
  cases hvalue : t.term.value? with
  | none => exact hother hvalue
  | some v =>
    have hterm := value?_eq_some.1 hvalue
    have hfinite := legible_of_gives hlegible h
    obtain rfl := place_of_const h hterm
    rw [hterm] at hfinite he
    rw [eq_of_const h hterm]
    exact const_again hfinite he

variable (hctx : Remembers u ctx.globals)
include hctx

theorem again_cond {yes no : Expr} (hc : Again ctx u s₁ c) (hyes : Again ctx u s₁ yes) (hno : Again ctx u s₁ no) :
    Again ctx u s₁ (.cond c yes no span) := by
  intro place s t s' e' h hgrows he
  obtain ⟨rfl, c', s₂, yes', s₃, no', hc', hty, hyes', hno', htys, rfl⟩ := gives_cond.1 h
  have hgrows₃ : Grows u s₃ s₁ := hctx.before_expr hno' hgrows
  have hgrows₂ : Grows u s₂ s₁ := hctx.before_expr hyes' hgrows₃
  obtain ⟨v, hv, -, heq⟩ | ⟨v, hv, -, heq⟩ | heq := conditional_cases c' yes' no'
  · rw [eq_of_dropped hc' hv] at heq
    rw [heq] at he ⊢
    exact hyes hyes' hgrows₃ he
  · rw [eq_of_dropped hc' hv] at heq
    rw [heq] at he ⊢
    exact hno hno' hgrows he
  · rw [heq] at he
    obtain ⟨c₂, yes₂, no₂, span₂, rfl, hc₂, hyes₂, hno₂⟩ := Expr.of_bare_cond he
    exact gives_cond.2 ⟨rfl, c', s₁, yes', s₁, no', hc hc' hgrows₂ hc₂, hty, hyes hyes' hgrows₃ hyes₂,
      hno hno' hgrows hno₂, htys, rfl⟩

theorem again_bin {op : BinOp} (hlegible : (Expr.bin op l r span).Legible) (hl : Again ctx u s₁ l)
    (hr : Again ctx u s₁ r) : Again ctx u s₁ (.bin op l r span) := by
  intro place s t s' e' h hgrows he
  refine again_of_computed hlegible h he fun hvalue => ?_
  obtain ⟨rfl, l', s₂, r', ty, hl', hr', hty, harrays, ht⟩ := gives_bin.1 h
  have hgrows₂ : Grows u s₂ s₁ := hctx.before_expr hr' hgrows
  -- Where the operator stays, its operands are checked again on both sides of it.
  have hstays : t.term = .bin op l'.term r'.term → Gives (expr ctx false e') s₁ t s₁ := by
    intro hterm
    rw [hterm] at he
    obtain ⟨l₂, r₂, span₂, rfl, hl₂, hr₂⟩ := Expr.of_bare_bin he
    exact gives_bin.2 ⟨rfl, l', s₁, r', ty, hl hl' hgrows₂ hl₂, hr hr' hgrows hr₂, hty,
      fun hop => hasArrays_again (harrays hop) hgrows, ht⟩
  split at ht
  · exact hstays (by rw [ht])
  · obtain ⟨x, -, -, heq⟩ | ⟨x, hx, hop, heq⟩ | ⟨x, y, v, -, -, -, -, -, heq⟩ | heq := operation_cases op ty l' r'
    · rw [ht, heq] at hvalue
      cases hvalue
    · have hlogic : op = .or ∨ op = .and := hop.imp And.left And.left
      obtain ⟨-, hrty, rfl⟩ := binary?_logic hlogic hty
      rw [← hrty, eq_of_dropped hl' hx, hrty] at heq
      rw [ht, heq] at he ⊢
      exact hr hr' hgrows he
    · rw [ht, heq] at hvalue
      cases hvalue
    · exact hstays (by rw [ht, heq])

omit hctx in
theorem again_un {op : UnOp} (hlegible : (Expr.un op e span).Legible) (ha : Again ctx u s₁ e) :
    Again ctx u s₁ (.un op e span) := by
  intro place s t s' e' h hgrows he
  refine again_of_computed hlegible h he fun hvalue => ?_
  obtain ⟨rfl, a', ty, ha', hty, rfl⟩ := gives_un.1 h
  obtain ⟨x, v, -, -, heq⟩ | heq := unaryOperation_cases op ty a'
  · rw [heq] at hvalue
    cases hvalue
  · rw [heq] at he
    obtain ⟨a₂, span₂, rfl, ha₂⟩ := Expr.of_bare_un he
    exact gives_un.2 ⟨rfl, a', ty, ha ha' hgrows ha₂, hty, rfl⟩

theorem again_index (hb : Again ctx u s₁ b) (hi : Again ctx u s₁ i) : Again ctx u s₁ (.index b i span) := by
  intro place s t s' e' h hgrows he
  obtain ⟨b', s₂, i', ty, hb', hi', hty, hbound, rfl⟩ := gives_index.1 h
  have hgrows₂ : Grows u s₂ s₁ := hctx.before_expr hi' hgrows
  obtain ⟨b₂, i₂, span₂, rfl, hb₂, hi₂⟩ := Expr.of_bare_index he
  exact gives_index.2 ⟨b', s₁, i', ty, hb hb' hgrows₂ hb₂, hi hi' hgrows hi₂, hty, hbound, rfl⟩

omit hctx in
theorem again_member {name : Ident} (hb : Again ctx u s₁ b) : Again ctx u s₁ (.member b name span) := by
  intro place s t s' e' h hgrows he
  obtain ⟨b', hb', ⟨x, d, ty, hty, hd, hmember, rfl⟩ | ⟨sw, hsw, hduplicates, rfl⟩⟩ := gives_member.1 h
  all_goals obtain ⟨b₂, span₂, rfl, hb₂⟩ := Expr.of_bare_member he
  · exact gives_member.2 ⟨b', hb hb' hgrows hb₂, .inl ⟨x, d, ty, hty, hgrows.struct? hd, hmember, rfl⟩⟩
  · exact gives_member.2 ⟨b', hb hb' hgrows hb₂, .inr ⟨sw, hsw, hduplicates, rfl⟩⟩

theorem again_call {f : Ident} (ih : ∀ a ∈ args, Again ctx u s₁ a) :
    Again ctx u s₁ (.call f args span) := by
  intro place s t s' e' h hgrows he
  obtain ⟨rfl, ⟨d, s₂, ts, hf, hts, htys, rfl⟩ | ⟨overloads, s₂, ts, ty, hf, hts, hty, rfl⟩ |
    ⟨d, s₂, ts, hf, hts, htys, rfl⟩⟩ := gives_call.1 h
  all_goals
    obtain ⟨args₂, span₂, rfl, hargs₂⟩ := Expr.of_bare_call he
    have hf₂ := find_again hctx hf (hctx.before_exprs hts hgrows) span₂
    have hts₂ := exprs_again hctx ih hts hgrows hargs₂
  · exact gives_call.2 ⟨rfl, .inl ⟨d, s₁, ts, hf₂, hts₂, htys, rfl⟩⟩
  · exact gives_call.2 ⟨rfl, .inr (.inl ⟨overloads, s₁, ts, ty, hf₂, hts₂, hty, rfl⟩)⟩
  · exact gives_call.2 ⟨rfl, .inr (.inr ⟨d, s₁, ts, hf₂, hts₂, htys, rfl⟩)⟩

theorem again_construct {ty : BasicTy} (hlegible : (Expr.construct ty args span).Legible)
    (ih : ∀ a ∈ args, Again ctx u s₁ a) :
    Again ctx u s₁ (.construct ty args span) := by
  intro place s t s' e' h hgrows he
  refine again_of_computed hlegible h he fun hvalue => ?_
  obtain ⟨rfl, ts, hts, hc⟩ := gives_construct.1 h
  obtain ⟨k, a, v, -, -, -, rfl⟩ | rfl := construction_cases hc
  · cases hvalue
  · obtain ⟨args₂, span₂, rfl, hargs₂⟩ := Expr.of_bare_construct he
    exact gives_construct.2 ⟨rfl, ts, exprs_again hctx ih hts hgrows hargs₂, hc⟩

theorem again_var : Again ctx u s₁ (.var x span) := by
  intro place s t s' e' h hgrows he
  obtain ⟨w, hw, huse⟩ := gives_var.1 h
  have hterm : t.term.expr = .var x .unset := by
    unfold useVar at huse
    repeat' split at huse
    all_goals cases huse
    all_goals rfl
  obtain ⟨span₂, rfl⟩ := Expr.of_bare_var (he.trans hterm)
  exact gives_var.2 ⟨w, find_again hctx hw hgrows span₂, huse⟩

/-- The expression that is left is accepted again in its scopes, by every expansion that has what the first run left. It
leaves the same and adds nothing. -/
theorem gives_again (hlegible : e.Legible) : Again ctx u s₁ e := by
  have hargs {args : List Expr} (hall : Expr.AllLegible args) (ih : ∀ a ∈ args, a.Legible → Again ctx u s₁ a) :
      ∀ a ∈ args, Again ctx u s₁ a := fun a ha => ih a ha (Expr.allLegible_iff.1 hall a ha)
  induction e with
  | cond c yes no span ihc ihyes ihno => exact again_cond hctx (ihc hlegible.1) (ihyes hlegible.2.1) (ihno hlegible.2.2)
  | bin op l r span ihl ihr => exact again_bin hctx hlegible (ihl hlegible.1) (ihr hlegible.2)
  | un op a span ih => exact again_un hlegible (ih hlegible)
  | index b i span ihb ihi => exact again_index hctx (ihb hlegible.1) (ihi hlegible.2)
  | member b name span ih => exact again_member (ih hlegible.1)
  | call f args span ih => exact again_call hctx (hargs hlegible.2 ih)
  | construct ty args span ih => exact again_construct hctx hlegible (hargs hlegible ih)
  | var x span => exact again_var hctx
  | lit v span =>
    intro place s t s' e' h hgrows he
    obtain ⟨rfl, rfl, rfl⟩ := gives_lit.1 h
    exact const_again hlegible he

end Again

end Check

end Shading
