import Shading.Check.Decl

/-!
# Outcomes of checking

A step of checking is a function from expansions to an outcome and an expansion. `Gives m s a s'` says
that the step `m` succeeds on `s` with the result `a` and leaves `s'`. Every fact about accepted code
starts from one of the inversion lemmas below: they say once, for each form of expression, which steps
succeeded before it and what was made of their results. No later proof opens `Check.expr` again.
-/

namespace Shading

/-- Induction over expressions, where the arguments of a call are smaller than the call. -/
@[elab_as_elim, induction_eliminator]
theorem Expr.induct {P : Expr → Prop}
    (cond : ∀ c yes no span, P c → P yes → P no → P (.cond c yes no span))
    (bin : ∀ op l r span, P l → P r → P (.bin op l r span))
    (un : ∀ op e span, P e → P (.un op e span))
    (index : ∀ b i span, P b → P i → P (.index b i span))
    (member : ∀ b name span, P b → P (.member b name span))
    (call : ∀ f args span, (∀ a ∈ args, P a) → P (.call f args span))
    (construct : ∀ ty args span, (∀ a ∈ args, P a) → P (.construct ty args span))
    (var : ∀ x span, P (.var x span))
    (lit : ∀ v span, P (.lit v span)) (e : Expr) : P e := by
  refine @Expr.rec P (fun es => ∀ a ∈ es, P a) cond bin un index member call construct var lit ?_ ?_ e
  · intro a ha
    cases ha
  · intro e es he hes a ha
    rcases List.mem_cons.1 ha with rfl | ha
    · exact he
    · exact hes a ha

namespace Check

/-- What a step comes to on an expansion. -/
def outcome {α : Type} (m : Check α) (s : Expansion) : Except Fault α × Expansion := ExceptT.run m s

/-- The step succeeds on `s` with the result `a` and leaves `s'`. -/
def Gives {α : Type} (m : Check α) (s : Expansion) (a : α) (s' : Expansion) : Prop :=
  m.outcome s = (.ok a, s')

variable {span : Span} {u : Unit} {x f : Ident} {args : List Expr} {op : BinOp} {ts : List Typed}

section Steps

variable {α β : Type} {s s' : Expansion}

theorem outcome_pure (a : α) (s : Expansion) : (pure a : Check α).outcome s = (.ok a, s) := rfl

theorem outcome_throw (e : Fault) (s : Expansion) : (throw e : Check α).outcome s = (.error e, s) := rfl

theorem outcome_get (s : Expansion) : (get : Check Expansion).outcome s = (.ok s, s) := rfl

theorem outcome_modify (g : Expansion → Expansion) (s : Expansion) :
    (modify g : Check Unit).outcome s = (.ok (), g s) := rfl

/-- The second step runs on what the first one leaves, unless the first one fails. -/
theorem outcome_bind (m : Check α) (f : α → Check β) (s : Expansion) :
    (m >>= f).outcome s = match m.outcome s with
      | (.ok a, s₁) => (f a).outcome s₁
      | (.error e, s₁) => (.error e, s₁) := by
  simp only [outcome, ExceptT.run, bind, ExceptT.bind, ExceptT.mk, StateT.bind]
  rcases m s with ⟨r, s₁⟩
  cases r <;> rfl

@[simp] theorem gives_pure {a b : α} : Gives (pure a) s b s' ↔ a = b ∧ s = s' := by
  simp [Gives, outcome_pure]

@[simp] theorem gives_throw {e : Fault} {a : α} : Gives (throw e) s a s' ↔ False := by
  simp [Gives, outcome_throw]

@[simp] theorem gives_refuse {c : Cause} {a : α} :
    Gives (refuse c span) s a s' ↔ False :=
  gives_throw

@[simp] theorem gives_get {t : Expansion} :
    Gives (get : Check Expansion) s t s' ↔ s = t ∧ s = s' := by
  simp [Gives, outcome_get]

@[simp] theorem gives_modify {g : Expansion → Expansion} :
    Gives (modify g) s u s' ↔ g s = s' := by
  simp [Gives, outcome_modify]

@[simp] theorem gives_note {e : Event} : Gives (note e) s u s' ↔ s.note e = s' :=
  gives_modify

@[simp] theorem gives_bind {m : Check α} {f : α → Check β} {b : β} :
    Gives (m >>= f) s b s' ↔ ∃ a s₁, Gives m s a s₁ ∧ Gives (f a) s₁ b s' := by
  unfold Gives
  rw [outcome_bind]
  rcases m.outcome s with ⟨r, s₁⟩
  cases r with
  | error e => simp
  | ok a =>
    constructor
    · intro h
      exact ⟨a, s₁, rfl, h⟩
    · rintro ⟨a', s₂, h₁, h₂⟩
      cases h₁
      exact h₂

@[simp] theorem gives_ite {c : Prop} [Decidable c] {m n : Check α} {a : α} :
    Gives (if c then m else n) s a s' ↔ (c ∧ Gives m s a s') ∨ (¬ c ∧ Gives n s a s') := by
  by_cases h : c <;> simp [h]

/-- A guard lets through what it does not refuse. -/
@[simp] theorem gives_guard {c : Prop} [Decidable c] {cause : Cause} {k : β → Check α} {n : Check α} {a : α} :
    Gives (if c then refuse cause span >>= k else n) s a s' ↔ ¬ c ∧ Gives n s a s' := by
  by_cases h : c <;> simp [h]

end Steps

section Parts

variable {s s' : Expansion}

@[simp] theorem gives_notPlace {place : Bool} :
    Gives (notPlace place span) s u s' ↔ place = false ∧ s = s' := by
  cases place <;> simp [notPlace]

theorem gives_openedStruct {d : StructDef} :
    Gives (openedStruct x) s d s' ↔ s.struct? x = some d ∧ s = s' := by
  simp only [openedStruct, gives_bind, gives_get]
  constructor
  · rintro ⟨t, s₁, ⟨rfl, rfl⟩, h⟩
    cases hx : s.struct? x with
    | none => simp [hx] at h
    | some d' => simpa [hx] using h
  · rintro ⟨hx, rfl⟩
    exact ⟨s, s, ⟨rfl, rfl⟩, by simp [hx]⟩

/-- Looking for arrays changes nothing. -/
theorem gives_hasArrays_state {t : Ty} {b : Bool} (h : Gives (hasArrays t) s b s') : s = s' := by
  cases t with
  | void | basic | array => exact (gives_pure.1 h).2
  | struct x =>
    simp only [hasArrays, gives_bind, gives_pure] at h
    obtain ⟨d, s₁, hd, -, rfl⟩ := h
    exact (gives_openedStruct.1 hd).2

theorem gives_sameCount {params : List Ty} :
    Gives (sameCount f params args span) s u s' ↔ args.length = params.length ∧ s = s' := by
  simp only [sameCount, gives_ite, gives_refuse, gives_pure, and_false, false_or]
  constructor
  · rintro ⟨h₁, h₂, -, rfl⟩
    exact ⟨by omega, rfl⟩
  · rintro ⟨h, rfl⟩
    exact ⟨by omega, by omega, trivial, rfl⟩

/-- The names of a place come from the scopes around it, or else from the top level. -/
theorem gives_find {ctx : Context} {info : Option Info} :
    Gives (ctx.find x span) s info s' ↔
      (∃ v, Scope.find? ctx.scopes x = some v ∧ info = some (.var v) ∧ s = s') ∨
      (Scope.find? ctx.scopes x = none ∧ Gives (ctx.globals x span) s info s') := by
  unfold Context.find
  cases h : Scope.find? ctx.scopes x with
  | none => simp
  | some v =>
    simp only [gives_pure, Option.some.injEq, exists_eq_left', reduceCtorEq, false_and, or_false]
    exact and_congr_left fun _ => eq_comm

end Parts

section Results

/-- An expression that is computed already is a constant. -/
@[simp] theorem value?_eq_some {t : Term} {v : Value} : t.value? = some v ↔ t = .const v := by
  cases t <;> simp [Term.value?]

theorem operation_eq_strict (hor : op ≠ .or) (hand : op ≠ .and) (ty : Ty) (l r : Typed) :
    operation op ty l r = match l.term.value?, r.term.value? with
      | some x, some y => match Value.binary? op x y with
        | some v => ⟨ty, l.deps.union r.deps, .const v⟩
        | none => ⟨ty, l.deps.union r.deps, .bin op l.term r.term⟩
      | _, _ => ⟨ty, l.deps.union r.deps, .bin op l.term r.term⟩ := by
  cases op with
  | or => exact absurd rfl hor
  | and => exact absurd rfl hand
  | assign | update | eq | ne | compare | arith => rfl

/-- An operator that evaluates both operands is computed where both are constant. -/
theorem operation_strict (hor : op ≠ .or) (hand : op ≠ .and) (ty : Ty) (l r : Typed) :
    (∃ x y v, l.term = .const x ∧ r.term = .const y ∧ Value.binary? op x y = some v ∧
      operation op ty l r = ⟨ty, l.deps.union r.deps, .const v⟩) ∨
    operation op ty l r = ⟨ty, l.deps.union r.deps, .bin op l.term r.term⟩ := by
  rw [operation_eq_strict hor hand]
  split
  · rename_i x y hx hy
    split
    · rename_i v hv
      exact .inl ⟨x, y, v, value?_eq_some.1 hx, value?_eq_some.1 hy, hv, rfl⟩
    · exact .inr rfl
  · exact .inr rfl

/-- What an operator other than an assignment leaves: a left operand that decides, the right operand
where a constant left one does not, a computed constant, or the operator itself. -/
theorem operation_cases (op : BinOp) (ty : Ty) (l r : Typed) :
    (∃ x, l.term = .const x ∧ (op = .or ∧ x.toBool = true ∨ op = .and ∧ x.toBool = false) ∧
      operation op ty l r = ⟨ty, l.deps, .const x⟩) ∨
    (∃ x, l.term = .const x ∧ (op = .or ∧ x.toBool = false ∨ op = .and ∧ x.toBool = true) ∧
      operation op ty l r = ⟨ty, l.deps.union r.deps, r.term⟩) ∨
    (∃ x y v, l.term = .const x ∧ r.term = .const y ∧ op ≠ .or ∧ op ≠ .and ∧
      Value.binary? op x y = some v ∧ operation op ty l r = ⟨ty, l.deps.union r.deps, .const v⟩) ∨
    operation op ty l r = ⟨ty, l.deps.union r.deps, .bin op l.term r.term⟩ := by
  by_cases hstrict : op = .or ∨ op = .and
  · cases hl : l.term.value? with
    | none => exact .inr (.inr (.inr (by rcases hstrict with rfl | rfl <;> simp [operation, hl])))
    | some x =>
      have hx := value?_eq_some.1 hl
      rcases hstrict with rfl | rfl <;> cases hb : x.toBool
      · exact .inr (.inl ⟨x, hx, .inl ⟨rfl, hb⟩, by simp [operation, hl, hb]⟩)
      · exact .inl ⟨x, hx, .inl ⟨rfl, hb⟩, by simp [operation, hl, hb]⟩
      · exact .inl ⟨x, hx, .inr ⟨rfl, hb⟩, by simp [operation, hl, hb]⟩
      · exact .inr (.inl ⟨x, hx, .inr ⟨rfl, hb⟩, by simp [operation, hl, hb]⟩)
  · obtain ⟨hor, hand⟩ := not_or.1 hstrict
    rcases operation_strict hor hand ty l r with ⟨x, y, v, hx, hy, hv, h⟩ | h
    · exact .inr (.inr (.inl ⟨x, y, v, hx, hy, hor, hand, hv, h⟩))
    · exact .inr (.inr (.inr h))

theorem unaryOperation_cases (op : UnOp) (ty : Ty) (e : Typed) :
    (∃ x v, e.term = .const x ∧ Value.unary? op x = some v ∧
      unaryOperation op ty e = ⟨ty, e.deps, .const v⟩) ∨
    unaryOperation op ty e = ⟨ty, e.deps, .un op e.term⟩ := by
  unfold unaryOperation
  cases h : e.term.value?.bind (Value.unary? op) with
  | none => exact .inr rfl
  | some v =>
    obtain ⟨x, hx, hv⟩ := Option.bind_eq_some_iff.1 h
    exact .inl ⟨x, v, value?_eq_some.1 hx, hv, rfl⟩

theorem conditional_cases (c yes no : Typed) :
    (∃ v, c.term = .const v ∧ v.toBool = true ∧
      conditional c yes no = ⟨yes.ty, c.deps.union yes.deps, yes.term⟩) ∨
    (∃ v, c.term = .const v ∧ v.toBool = false ∧
      conditional c yes no = ⟨no.ty, c.deps.union no.deps, no.term⟩) ∨
    conditional c yes no =
      ⟨yes.ty, (c.deps.union yes.deps).union no.deps, .cond c.term yes.term no.term⟩ := by
  unfold conditional
  cases hv : c.term.value? with
  | none => exact .inr (.inr rfl)
  | some v =>
    have hc := value?_eq_some.1 hv
    cases hb : v.toBool
    · exact .inr (.inl ⟨v, hc, hb, by simp [hb]⟩)
    · exact .inl ⟨v, hc, hb, by simp [hb]⟩

/-- A constructor that is accepted converts one constant, or stays. -/
theorem construction_cases {ty : BasicTy} {t : Typed} (h : construction ty ts = .ok t) :
    (∃ k a v, ty = .scalar k ∧ ts = [a] ∧ a.term = .const v ∧
      t = ⟨.basic ty, argDeps ts, .const (v.convert k)⟩) ∨
    t = ⟨.basic ty, argDeps ts, .construct ty (argTerms ts)⟩ := by
  unfold construction at h
  dsimp only at h
  repeat' split at h
  all_goals cases h
  case h_1.refl v hv => exact .inl ⟨_, _, v, rfl, rfl, value?_eq_some.1 hv, rfl⟩
  all_goals exact .inr rfl

end Results

section Expressions

variable {ctx : Context} {place : Bool} {s s' : Expansion} {t : Typed} {span : Span}

theorem gives_cond {c yes no : Expr} :
    Gives (expr ctx place (.cond c yes no span)) s t s' ↔
      place = false ∧ ∃ c' s₁ yes' s₂ no',
        Gives (expr ctx false c) s c' s₁ ∧ c'.ty = .bool ∧
        Gives (expr ctx false yes) s₁ yes' s₂ ∧ Gives (expr ctx false no) s₂ no' s' ∧
        yes'.ty = no'.ty ∧ t = conditional c' yes' no' := by
  simp only [expr, gives_bind, gives_notPlace, gives_guard, gives_pure, ne_eq, Decidable.not_not]
  constructor
  · rintro ⟨-, s₀, ⟨rfl, rfl⟩, c', s₁, hc, hty, yes', s₂, hyes, no', s₃, hno, heq, rfl, rfl⟩
    exact ⟨rfl, c', s₁, yes', s₂, no', hc, hty, hyes, hno, heq, rfl⟩
  · rintro ⟨rfl, c', s₁, yes', s₂, no', hc, hty, hyes, hno, heq, rfl⟩
    exact ⟨(), s, ⟨rfl, rfl⟩, c', s₁, hc, hty, yes', s₂, hyes, no', s', hno, heq, rfl, rfl⟩

/-- What becomes of a binary operator. An assignment stays, and no array is assigned as a whole. -/
theorem gives_bin {l r : Expr} :
    Gives (expr ctx place (.bin op l r span)) s t s' ↔
      place = false ∧ ∃ l' s₁ r' ty,
        Gives (expr ctx op.isAssignment l) s l' s₁ ∧ Gives (expr ctx false r) s₁ r' s' ∧
        Ty.binary? op l'.ty r'.ty = some ty ∧
        (op = .assign → Gives (hasArrays l'.ty) s' false s') ∧
        t = if op.isAssignment then ⟨ty, l'.deps.union r'.deps, .bin op l'.term r'.term⟩
            else operation op ty l' r' := by
  simp only [expr, gives_bind, gives_notPlace]
  constructor
  · rintro ⟨-, s₀, ⟨rfl, rfl⟩, l', s₁, hl, r', s₂, hr, h⟩
    cases hty : Ty.binary? op l'.ty r'.ty with
    | none => simp [hty] at h
    | some ty =>
      simp only [hty, gives_ite, gives_bind, gives_refuse, gives_pure, false_and, exists_false,
        and_false, false_or] at h
      rcases h with ⟨ha, ⟨ho, b, s₃, hb, hnot, rfl, rfl⟩ | ⟨ho, rfl, rfl⟩⟩ | ⟨ha, rfl, rfl⟩
      · obtain rfl := gives_hasArrays_state hb
        have hbf : b = false := by simpa using hnot
        exact ⟨rfl, l', s₁, r', ty, hl, hr, hty, fun _ => hbf ▸ hb, by simp [ha]⟩
      · exact ⟨rfl, l', s₁, r', ty, hl, hr, hty, fun h => absurd h ho, by simp [ha]⟩
      · refine ⟨rfl, l', s₁, r', ty, hl, hr, hty, ?_, by simp [ha]⟩
        rintro rfl
        exact absurd rfl ha
  · rintro ⟨rfl, l', s₁, r', ty, hl, hr, hty, harr, rfl⟩
    refine ⟨(), s, ⟨rfl, rfl⟩, l', s₁, hl, r', s', hr, ?_⟩
    simp only [hty, gives_ite, gives_bind, gives_refuse, gives_pure, false_and, exists_false,
      and_false, false_or]
    by_cases ha : op.isAssignment = true
    · by_cases ho : op = .assign
      · exact .inl ⟨ha, .inl ⟨ho, false, s', harr ho, by simp, by simp [ha], rfl⟩⟩
      · exact .inl ⟨ha, .inr ⟨ho, by simp [ha], trivial⟩⟩
    · exact .inr ⟨ha, by simp [ha], trivial⟩

theorem gives_un {op : UnOp} {e : Expr} :
    Gives (expr ctx place (.un op e span)) s t s' ↔
      place = false ∧ ∃ e' ty, Gives (expr ctx false e) s e' s' ∧ Ty.unary? op e'.ty = some ty ∧
        t = unaryOperation op ty e' := by
  simp only [expr, gives_bind, gives_notPlace]
  constructor
  · rintro ⟨-, s₀, ⟨rfl, rfl⟩, e', s₁, he, h⟩
    cases hty : Ty.unary? op e'.ty with
    | none => simp [hty] at h
    | some ty =>
      simp only [hty, gives_pure] at h
      obtain ⟨rfl, rfl⟩ := h
      exact ⟨rfl, e', ty, he, hty, rfl⟩
  · rintro ⟨rfl, e', ty, he, hty, rfl⟩
    exact ⟨(), s, ⟨rfl, rfl⟩, e', s', he, by simp [hty]⟩

/-- An element that was accepted: a constant index selects an element that is there. -/
theorem gives_index {b i : Expr} :
    Gives (expr ctx place (.index b i span)) s t s' ↔
      ∃ b' s₁ i' ty, Gives (expr ctx place b) s b' s₁ ∧ Gives (expr ctx false i) s₁ i' s' ∧
        Ty.index? b'.ty i'.ty = some ty ∧
        (∀ v, i'.term.value? = some v →
          0 ≤ v.toInt32.toInt ∧ v.toInt32.toInt < b'.ty.indexBound) ∧
        t = ⟨ty, b'.deps.union i'.deps, .index b'.term i'.term⟩ := by
  simp only [expr, gives_bind]
  constructor
  · rintro ⟨b', s₁, hb, i', s₂, hi, h⟩
    unfold element at h
    cases hty : Ty.index? b'.ty i'.ty with
    | none => simp [hty] at h
    | some ty =>
      simp only [hty, gives_ite, gives_refuse, gives_pure, and_false, false_or] at h
      obtain ⟨hin, rfl, rfl⟩ := h
      refine ⟨b', s₁, i', ty, hb, hi, hty, ?_, rfl⟩
      intro v hv
      simp only [hv, Bool.or_eq_true, decide_eq_true_eq] at hin
      omega
  · rintro ⟨b', s₁, i', ty, hb, hi, hty, hin, rfl⟩
    refine ⟨b', s₁, hb, i', s', hi, ?_⟩
    unfold element
    simp only [hty, gives_ite, gives_refuse, gives_pure, and_false, false_or]
    refine ⟨?_, trivial, trivial⟩
    cases hv : i'.term.value? with
    | none => simp
    | some v =>
      have hb := hin v hv
      simp only [Bool.or_eq_true, decide_eq_true_eq]
      omega

/-- A member of a struct that was opened, or a selection of components. -/
theorem gives_member {b : Expr} {name : Ident} :
    Gives (expr ctx place (.member b name span)) s t s' ↔
      ∃ b', Gives (expr ctx place b) s b' s' ∧
        ((∃ x d ty, b'.ty = .struct x ∧ s'.struct? x = some d ∧ d.member? name = some ty ∧
            t = ⟨ty, b'.deps, .member b'.term name⟩) ∨
          ∃ sw, Swizzle.parse? b'.ty name = some sw ∧ (place = true → sw.hasDuplicates = false) ∧
            t = ⟨.basic sw.ty, b'.deps, .swizzle b'.term name⟩) := by
  simp only [expr, gives_bind]
  constructor
  · rintro ⟨b', s₁, hb, h⟩
    unfold member at h
    cases hty : b'.ty with
    | struct x =>
      simp only [hty, gives_bind, gives_openedStruct] at h
      obtain ⟨d, s₂, ⟨hd, rfl⟩, h⟩ := h
      cases hm : d.member? name with
      | none => simp [hm] at h
      | some ty =>
        simp only [hm, gives_pure] at h
        obtain ⟨rfl, rfl⟩ := h
        exact ⟨b', hb, .inl ⟨x, d, ty, hty, hd, hm, rfl⟩⟩
    | void | basic | array =>
      simp only [hty] at h
      cases hsw : Swizzle.parse? b'.ty name with
      | none => simp [← hty, hsw] at h
      | some sw =>
        simp only [← hty, hsw, gives_ite, gives_refuse, gives_pure, and_false, false_or] at h
        obtain ⟨hdup, rfl, rfl⟩ := h
        exact ⟨b', hb, .inr ⟨sw, by simpa [hty] using hsw, by simpa using hdup, rfl⟩⟩
  · rintro ⟨b', hb, ⟨x, d, ty, hty, hd, hm, rfl⟩ | ⟨sw, hsw, hdup, rfl⟩⟩
    · refine ⟨b', s', hb, ?_⟩
      unfold member
      simp only [hty, gives_bind, gives_openedStruct]
      exact ⟨d, s', ⟨hd, rfl⟩, by simp [hm]⟩
    · refine ⟨b', s', hb, ?_⟩
      unfold member
      cases hty : b'.ty with
      | struct x => simp [hty, Swizzle.parse?] at hsw
      | void | basic | array =>
        rw [hty] at hsw
        simp only [hsw, gives_ite, gives_refuse, gives_pure, and_false, false_or]
        exact ⟨by simpa using hdup, trivial, trivial⟩

@[simp] theorem gives_exprs_nil :
    Gives (exprs ctx []) s ts s' ↔ ts = [] ∧ s = s' := by
  simp only [exprs, gives_pure]
  exact and_congr_left fun _ => eq_comm

variable {es : List Expr}

theorem gives_exprs_cons {e : Expr} :
    Gives (exprs ctx (e :: es)) s ts s' ↔
      ∃ t s₁ more, Gives (expr ctx false e) s t s₁ ∧ Gives (exprs ctx es) s₁ more s' ∧ ts = t :: more := by
  simp only [exprs, gives_bind, gives_pure]
  constructor
  · rintro ⟨t, s₁, ht, more, s₂, hmore, rfl, rfl⟩
    exact ⟨t, s₁, more, ht, hmore, rfl⟩
  · rintro ⟨t, s₁, more, ht, hmore, rfl⟩
    exact ⟨t, s₁, ht, more, s', hmore, rfl, rfl⟩

theorem length_of_exprs (h : Gives (exprs ctx es) s ts s') :
    es.length = (ts.map Typed.ty).length := by
  induction es generalizing s ts with
  | nil => simp [(gives_exprs_nil.1 h).1]
  | cons e es ih =>
    obtain ⟨t, s₁, more, -, hmore, rfl⟩ := gives_exprs_cons.1 h
    simpa using ih hmore

/-- The elements of an accepted list of expressions are accepted one by one. -/
theorem forall_of_exprs {ctx : Context} {s s' : Expansion} {P : Typed → Prop} (h : Gives (exprs ctx es) s ts s')
    (ih : ∀ e ∈ es, ∀ {s t s'}, Gives (expr ctx false e) s t s' → P t) : ∀ t ∈ ts, P t := by
  induction es generalizing s ts with
  | nil =>
    obtain ⟨rfl, -⟩ := gives_exprs_nil.1 h
    exact nofun
  | cons e es ihes =>
    obtain ⟨t, s₁, more, ht, hmore, rfl⟩ := gives_exprs_cons.1 h
    intro t' ht'
    rcases List.mem_cons.1 ht' with rfl | ht'
    · exact ih e List.mem_cons_self ht
    · exact ihes hmore (fun e he => ih e (List.mem_cons_of_mem _ he)) t' ht'

/-- Arguments checked against as many parameters are arguments that have the types of the parameters. -/
theorem gives_argsFor {n : Nat} {params : List Ty} (hlen : args.length = params.length) :
    Gives (argsFor ctx f n params args) s ts s' ↔
      Gives (exprs ctx args) s ts s' ∧ ts.map Typed.ty = params := by
  induction args generalizing n params s ts with
  | nil =>
    obtain rfl : params = [] := by simpa using hlen.symm
    simp only [argsFor, gives_pure, gives_exprs_nil]
    constructor
    · rintro ⟨rfl, rfl⟩
      exact ⟨⟨rfl, rfl⟩, rfl⟩
    · rintro ⟨⟨rfl, rfl⟩, -⟩
      exact ⟨rfl, rfl⟩
  | cons e es ih =>
    cases params with
    | nil => simp at hlen
    | cons ty tys =>
      have hes : es.length = tys.length := by simpa using hlen
      simp only [argsFor, gives_bind, gives_guard, gives_pure, ne_eq, Decidable.not_not,
        gives_exprs_cons]
      constructor
      · rintro ⟨t, s₁, ht, hty, more, s₂, hmore, rfl, rfl⟩
        obtain ⟨hmore, htys⟩ := (ih hes).1 hmore
        exact ⟨⟨t, s₁, more, ht, hmore, rfl⟩, by simp [hty, htys]⟩
      · rintro ⟨⟨t, s₁, more, ht, hmore, rfl⟩, hmap⟩
        obtain ⟨hty, htys⟩ : t.ty = ty ∧ more.map Typed.ty = tys := by simpa using hmap
        exact ⟨t, s₁, ht, hty, more, s', (ih hes).2 ⟨hmore, htys⟩, rfl, rfl⟩

/-- What is called with as many arguments as it has parameters, all of their types. -/
theorem gives_applied {params : List Ty} {made : List Typed → Typed} :
    Gives (sameCount f params args span >>= fun _ =>
        argsFor ctx f 0 params args >>= fun ts => pure (made ts)) s t s' ↔
      ∃ ts, Gives (exprs ctx args) s ts s' ∧ ts.map Typed.ty = params ∧ t = made ts := by
  simp only [gives_bind, gives_sameCount, gives_pure]
  constructor
  · rintro ⟨-, s₁, ⟨hlen, rfl⟩, ts, s₂, hts, rfl, rfl⟩
    obtain ⟨hts, htys⟩ := (gives_argsFor hlen).1 hts
    exact ⟨ts, hts, htys, rfl⟩
  · rintro ⟨ts, hts, htys, rfl⟩
    have hlen := htys ▸ length_of_exprs hts
    exact ⟨(), s, ⟨hlen, rfl⟩, ts, s', (gives_argsFor hlen).2 ⟨hts, htys⟩, rfl, rfl⟩

/-- A call of a function of the shader, of a builtin function or of a struct, whose values it makes. -/
theorem gives_call :
    Gives (expr ctx place (.call f args span)) s t s' ↔
      place = false ∧
      ((∃ d s₁ ts, Gives (ctx.find f span) s (some (.fn d)) s₁ ∧ Gives (exprs ctx args) s₁ ts s' ∧
          ts.map Typed.ty = d.params.map Prod.snd ∧
          t = ⟨d.result, ((Deps.ofFn f).union d.deps).union (argDeps ts), .call f d.deps (argTerms ts)⟩) ∨
        (∃ overloads s₁ ts ty, Gives (ctx.find f span) s (some (.builtin overloads)) s₁ ∧
          Gives (exprs ctx args) s₁ ts s' ∧ Overload.result? overloads (ts.map Typed.ty) = some ty ∧
          t = ⟨ty, argDeps ts, .builtin f (argTerms ts)⟩) ∨
        ∃ d s₁ ts, Gives (ctx.find f span) s (some (.struct d)) s₁ ∧ Gives (exprs ctx args) s₁ ts s' ∧
          ts.map Typed.ty = d.members.map Prod.snd ∧
          t = ⟨.struct f, argDeps ts, .makeStruct f (argTerms ts)⟩) := by
  simp only [expr, gives_bind, gives_notPlace]
  constructor
  · rintro ⟨-, s₀, ⟨rfl, rfl⟩, info, s₁, hinfo, h⟩
    refine ⟨rfl, ?_⟩
    cases info with
    | none => simp at h
    | some info =>
      cases info with
      | var v => simp at h
      | fn d =>
        obtain ⟨ts, hts, htys, rfl⟩ := gives_applied.1 h
        exact .inl ⟨d, s₁, ts, hinfo, hts, htys, rfl⟩
      | builtin overloads =>
        simp only [gives_bind] at h
        obtain ⟨ts, s₂, hts, h⟩ := h
        cases hty : Overload.result? overloads (ts.map Typed.ty) with
        | none => simp [hty] at h
        | some ty =>
          simp only [hty, gives_pure] at h
          obtain ⟨rfl, rfl⟩ := h
          exact .inr (.inl ⟨overloads, s₁, ts, ty, hinfo, hts, hty, rfl⟩)
      | struct d =>
        obtain ⟨ts, hts, htys, rfl⟩ := gives_applied.1 h
        exact .inr (.inr ⟨d, s₁, ts, hinfo, hts, htys, rfl⟩)
  · rintro ⟨rfl, h⟩
    refine ⟨(), s, ⟨rfl, rfl⟩, ?_⟩
    rcases h with ⟨d, s₁, ts, hinfo, hts, htys, rfl⟩ | ⟨overloads, s₁, ts, ty, hinfo, hts, hty, rfl⟩ |
      ⟨d, s₁, ts, hinfo, hts, htys, rfl⟩
    · exact ⟨_, s₁, hinfo, gives_applied.2 ⟨ts, hts, htys, rfl⟩⟩
    · refine ⟨_, s₁, hinfo, ?_⟩
      simp only [gives_bind]
      exact ⟨ts, s', hts, by simp [hty]⟩
    · exact ⟨_, s₁, hinfo, gives_applied.2 ⟨ts, hts, htys, rfl⟩⟩

theorem gives_construct {ty : BasicTy} :
    Gives (expr ctx place (.construct ty args span)) s t s' ↔
      place = false ∧ ∃ ts, Gives (exprs ctx args) s ts s' ∧ construction ty ts = .ok t := by
  simp only [expr, gives_bind, gives_notPlace]
  constructor
  · rintro ⟨-, s₀, ⟨rfl, rfl⟩, ts, s₁, hts, h⟩
    cases hc : construction ty ts with
    | error cause => simp [hc] at h
    | ok t' =>
      simp only [hc, gives_pure] at h
      obtain ⟨rfl, rfl⟩ := h
      exact ⟨rfl, ts, hts, hc⟩
  · rintro ⟨rfl, ts, hts, hc⟩
    exact ⟨(), s, ⟨rfl, rfl⟩, ts, s', hts, by simp [hc]⟩

theorem gives_var :
    Gives (expr ctx place (.var x span)) s t s' ↔
      ∃ v, Gives (ctx.find x span) s (some (.var v)) s' ∧ useVar place x v = .ok t := by
  simp only [expr, gives_bind]
  constructor
  · rintro ⟨info, s₁, hinfo, h⟩
    cases info with
    | none => simp at h
    | some info =>
      cases info with
      | fn | struct | builtin => simp at h
      | var v =>
        cases hv : useVar place x v with
        | error cause => simp [hv] at h
        | ok t' =>
          simp only [hv, gives_pure] at h
          obtain ⟨rfl, rfl⟩ := h
          exact ⟨v, hinfo, hv⟩
  · rintro ⟨v, hinfo, hv⟩
    exact ⟨_, s', hinfo, by simp [hv]⟩

theorem gives_lit {v : Value} :
    Gives (expr ctx place (.lit v span)) s t s' ↔
      place = false ∧ s = s' ∧ t = ⟨.ofScalar v.kind, .none, .const v⟩ := by
  simp only [expr_lit, gives_bind, gives_notPlace, gives_pure]
  constructor
  · rintro ⟨-, s₀, ⟨rfl, rfl⟩, rfl, rfl⟩
    exact ⟨rfl, rfl, rfl⟩
  · rintro ⟨rfl, rfl, rfl⟩
    exact ⟨(), s, ⟨rfl, rfl⟩, rfl, rfl⟩

end Expressions

section Types

variable {ctx : Context} {s s' : Expansion} {ty : Ty} {span : Span}

theorem gives_keyword {b : BasicTy} :
    Gives (tyExpr ctx (.keyword b span)) s ty s' ↔ ty = .basic b ∧ s = s' := by
  simp only [tyExpr, gives_pure]
  exact and_congr_left fun _ => eq_comm

theorem gives_array {elem : TyExpr} {len : Int} :
    Gives (tyExpr ctx (.array elem len span)) s ty s' ↔
      0 < len ∧ ∃ e, Gives (tyExpr ctx elem) s e s' ∧ ty = .array e len := by
  simp only [tyExpr, gives_guard, gives_bind, gives_pure, Int.not_le]
  constructor
  · rintro ⟨hlen, e, s₁, he, rfl, rfl⟩
    exact ⟨hlen, e, he, rfl⟩
  · rintro ⟨hlen, e, he, rfl⟩
    exact ⟨hlen, e, s', he, rfl, rfl⟩

theorem gives_named :
    Gives (tyExpr ctx (.named x span)) s ty s' ↔
      ty = .struct x ∧ ∃ d, Gives (ctx.find x span) s (some (.struct d)) s' := by
  simp only [tyExpr, gives_bind]
  constructor
  · rintro ⟨info, s₁, hinfo, h⟩
    cases info with
    | none => simp at h
    | some info =>
      cases info with
      | fn | var | builtin => simp at h
      | struct d =>
        simp only [gives_pure] at h
        obtain ⟨rfl, rfl⟩ := h
        exact ⟨rfl, d, hinfo⟩
  · rintro ⟨rfl, d, hinfo⟩
    exact ⟨_, s', hinfo, by simp⟩

end Types

/-- A top-level name that is found is an interface variable, a function or struct that is open now, or a
builtin function, and no name before these in this order has been found. -/
theorem gives_globals {top : TopLevel} {vars : Scope Var} {n : Nat} {u : Unfinished} {info : Info} {s s' : Expansion}
    (h : Gives (globals top vars n u x span) s (some info) s') :
    (∃ v, vars.lookup? x = some v ∧ info = .var v ∧ s = s') ∨
    (vars.lookup? x = none ∧ ∃ k d f, n = k + 1 ∧ top.fn? x = some d ∧
      Gives (openFn (globals top vars k) u d span) s f s' ∧ info = .fn f) ∨
    (vars.lookup? x = none ∧ top.fn? x = none ∧ ∃ k d f, n = k + 1 ∧ top.struct? x = some d ∧
      Gives (openStruct (globals top vars k) u d span) s f s' ∧ info = .struct f) ∨
    (vars.lookup? x = none ∧ top.fn? x = none ∧ top.struct? x = none ∧
      ∃ overloads, top.builtins.overloads? x = some overloads ∧ info = .builtin overloads ∧ s = s') := by
  cases n with
  | zero => simp [globals] at h
  | succ k =>
    simp only [globals, resolve] at h
    cases hv : vars.lookup? x with
    | some v =>
      simp only [hv, gives_pure, Option.some.injEq] at h
      exact .inl ⟨v, rfl, h.1.symm, h.2⟩
    | none =>
      cases hf : top.fn? x with
      | some d =>
        simp only [hv, hf, gives_bind, gives_pure, Option.some.injEq] at h
        obtain ⟨f, s₁, hopen, rfl, rfl⟩ := h
        exact .inr (.inl ⟨rfl, k, d, f, rfl, rfl, hopen, rfl⟩)
      | none =>
        cases hs : top.struct? x with
        | some d =>
          simp only [hv, hf, hs, gives_bind, gives_pure, Option.some.injEq] at h
          obtain ⟨f, s₁, hopen, rfl, rfl⟩ := h
          exact .inr (.inr (.inl ⟨rfl, rfl, k, d, f, rfl, rfl, hopen, rfl⟩))
        | none =>
          simp only [hv, hf, hs, gives_pure, Option.map_eq_some_iff] at h
          obtain ⟨⟨overloads, hb, rfl⟩, rfl⟩ := h
          exact .inr (.inr (.inr ⟨rfl, rfl, rfl, overloads, hb, rfl, rfl⟩))

end Check

end Shading
