import Shading.Proofs.Assignments.Places

/-!
# Checking finds the types and the places that are written

An expression that is accepted has the type, the constant value and the assignments that its text tells, each of them
allowed. And where an expression is refused for what it assigns, one of the assignments in the functions of the shader
is not permitted, at the place that is reported.

`Ensures builtins decls m Q` says both of a step `m`: it starts where what has been opened is as it is declared, leaves
it so, gives a result with `Q`, and fails only as just said.
-/

namespace Shading

open List

/-- The cause is what is assigned. -/
def Cause.isAboutPlace : Cause → Bool
  | assignsAttribute _ | assignsImmutable _ | assignsUniform _ | notAssignable => true
  | _ => false

/-- Variables of the kind can be assigned. -/
def VarKind.isAssignable : VarKind → Bool
  | varyingVar => true
  | localVar mutable => mutable
  | attributeVar | uniformVar _ => false

/-- The variables that something binds. -/
def Binder.kind : Binder → VarKind
  | letVar => .localVar true
  | param | loopVar => .localVar false

theorem Binder.isAssignable_kind (b : Binder) : b.kind.isAssignable = true ↔ b = .letVar := by
  cases b <;> decide

/-- What a name stands for is what the text tells. -/
def Info.Fits (N : Names) (x : Ident) : Info → Prop
  | .var v => N.varTy? x = some v.ty ∧ (N.Assigns x ↔ v.kind.isAssignable = true)
  | .fn f => ∀ args, N.callTy? x args = some f.result
  | .struct _ => ∀ args, N.callTy? x args = some (.struct x)
  | .builtin overloads => ∀ args, N.callTy? x args = Overload.result? overloads args

section Shader

variable (builtins : Builtins) (decls : List Decl)

/-- One of the assignments in the functions of a shader. -/
def Assignment.OccursIn (a : Assignment) : Prop := ∃ f, .fn f ∈ decls ∧ a ∈ f.assignments builtins decls

/-- A fault about what is assigned is in an assignment that is not permitted. -/
def Fault.BlamesPlace : Fault → Prop
  | refused e => e.cause.isAboutPlace = true →
      ∃ a : Assignment, a.OccursIn builtins decls ∧ e.span ∈ a.left.chain ∧ ¬ a.Permitted
  | unopened _ => True

/-- The assignments in a function are allowed, and so are those in all functions that it leads to. -/
inductive Settled : Ident → Prop
  | intro {x : Ident} : (∀ d, .fn d ∈ decls → d.name = x → ∀ a ∈ d.assignments builtins decls, a.Allowed) →
      (∀ y, Refers decls x y → Settled y) → Settled x

namespace Check

/-- What has been opened is as it is declared, and its assignments are allowed. -/
structure Faithful (s : Expansion) : Prop where
  fns : ∀ f ∈ s.fns, ∃ d, .fn d ∈ decls ∧ d.name = f.name ∧ f.result = d.result.elim .void TyExpr.ty
  structs : ∀ d ∈ s.structs, ∃ decl, .struct decl ∈ decls ∧ decl.name = d.name ∧
    d.members = (decl.members.map fun m => (m.name, m.ty.ty)) ∧
    (d.hasArrays = true ↔ Ty.ContainsArray decls (.struct d.name))
  settled : AllOpen (Settled builtins decls) s

/-- How a step ends. -/
inductive Ends {α : Type} (Q : α → Prop) : Except Fault α × Expansion → Prop
  | gives {a : α} {s : Expansion} : Q a → Faithful builtins decls s → Ends Q (.ok a, s)
  | fails {e : Fault} {s : Expansion} : e.BlamesPlace builtins decls → Faithful builtins decls s → Ends Q (.error e, s)

/-- Where what has been opened is as it is declared, the step ends well. -/
def Ensures {α : Type} (m : Check α) (Q : α → Prop) : Prop :=
  ∀ s, Faithful builtins decls s → Ends builtins decls Q (m.outcome s)

end Check

end Shader

namespace Check

variable {builtins : Builtins} {decls : List Decl}

variable {cause : Cause} {span : Span} {x : Ident} {t : Typed} {ty : BasicTy} {ts : List Typed} {e : Expr}

section Steps

variable {α β : Type} {Q : α → Prop} {R : β → Prop} {m : Check α}

theorem Ensures.of_gives (h : Ensures builtins decls m Q) {s s' : Expansion} {a : α} (hs : Faithful builtins decls s)
    (hgives : Gives m s a s') : Q a ∧ Faithful builtins decls s' := by
  have hends := h s hs
  rw [show m.outcome s = (.ok a, s') from hgives] at hends
  cases hends with
  | gives hQ hs' => exact ⟨hQ, hs'⟩

theorem Ensures.keeps (h : Ensures builtins decls m Q) :
    Keeps (fun s s' => Faithful builtins decls s → Faithful builtins decls s') m := by
  intro s hs
  have hends := h s hs
  rcases ho : m.outcome s with ⟨r, s'⟩
  rw [ho] at hends
  cases hends with
  | gives _ hs' | fails _ hs' => exact hs'

/-- The result comes from a run of the step. -/
theorem Ensures.given (h : Ensures builtins decls m Q) :
    Ensures builtins decls m fun a => Q a ∧ ∃ s s', Faithful builtins decls s ∧ Gives m s a s' := by
  intro s hs
  have hends := h s hs
  rcases ho : m.outcome s with ⟨r, s'⟩
  rw [ho] at hends
  cases hends with
  | gives hQ hs' => exact .gives ⟨hQ, s, s', hs, ho⟩ hs'
  | fails he hs' => exact .fails he hs'

theorem Ensures.weaken {Q' : α → Prop} (h : Ensures builtins decls m Q) (hQ : ∀ a, Q a → Q' a) :
    Ensures builtins decls m Q' := by
  intro s hs
  have hends := h s hs
  rcases ho : m.outcome s with ⟨r, s'⟩
  rw [ho] at hends
  cases hends with
  | gives ha hs' => exact .gives (hQ _ ha) hs'
  | fails he hs' => exact .fails he hs'

theorem ensures_pure {a : α} (h : Q a) : Ensures builtins decls (pure a) Q := fun _ hs => .gives h hs

theorem ensures_blame (h : (Fault.refused ⟨cause, span⟩).BlamesPlace builtins decls) :
    Ensures builtins decls (refuse cause span) Q := fun _ hs => .fails h hs

/-- A refusal that is not about what is assigned. -/
theorem ensures_refuse (h : cause.isAboutPlace = false) (span : Span) :
    Ensures builtins decls (refuse cause span) Q := by
  refine ensures_blame fun hplace => ?_
  rw [h] at hplace
  cases hplace

theorem ensures_bind {f : α → Check β} (hm : Ensures builtins decls m Q)
    (hf : ∀ a, Q a → Ensures builtins decls (f a) R) : Ensures builtins decls (m >>= f) R := by
  intro s hs
  have hends := hm s hs
  rw [outcome_bind]
  rcases ho : m.outcome s with ⟨r, s'⟩
  rw [ho] at hends
  cases hends with
  | gives hQ hs' => exact hf _ hQ _ hs'
  | fails he hs' => exact .fails he hs'

theorem ensures_ite {c : Prop} [Decidable c] {n : Check α} (hm : c → Ensures builtins decls m Q)
    (hn : ¬ c → Ensures builtins decls n Q) : Ensures builtins decls (if c then m else n) Q := by
  split
  · exact hm ‹_›
  · exact hn ‹_›

theorem ensures_guard {c : Prop} [Decidable c] {k : β → Check α} (h : cause.isAboutPlace = false)
    (hm : ¬ c → Ensures builtins decls m Q) :
    Ensures builtins decls (if c then refuse cause span >>= k else m) Q :=
  ensures_ite (fun _ => ensures_bind (Q := fun _ => False) (ensures_refuse h span) fun _ => False.elim) hm

theorem ensures_note (e : Event) : Ensures builtins decls (note e) fun _ => True :=
  fun _ hs => .gives trivial ⟨hs.fns, hs.structs, hs.settled⟩

theorem ensures_openedStruct (x : Ident) : Ensures builtins decls (openedStruct x) fun d =>
    ∃ decl, .struct decl ∈ decls ∧ decl.name = x ∧ d.members = (decl.members.map fun m => (m.name, m.ty.ty)) ∧
      (d.hasArrays = true ↔ Ty.ContainsArray decls (.struct x)) := by
  intro s hs
  cases hx : s.struct? x with
  | none =>
    have ho : (openedStruct x).outcome s = (.error (.unopened x), s) := by
      simp only [openedStruct, outcome_bind, outcome_get, hx, outcome_throw]
    rw [ho]
    exact .fails True.intro hs
  | some d =>
    have ho : (openedStruct x).outcome s = (.ok d, s) := gives_openedStruct.2 ⟨hx, rfl⟩
    have hname : d.name = x := by simpa using find?_some hx
    rw [ho]
    refine .gives ?_ hs
    rw [← hname]
    exact hs.structs d (mem_of_find?_eq_some hx)

theorem ensures_hasArrays (t : Ty) :
    Ensures builtins decls (hasArrays t) fun b => b = true ↔ t.ContainsArray decls := by
  cases t with
  | void | basic =>
    refine ensures_pure (iff_of_false Bool.false_ne_true fun h => ?_)
    cases h
  | array elem len => exact ensures_pure ⟨fun _ => .array elem len, fun _ => rfl⟩
  | struct x =>
    refine ensures_bind (ensures_openedStruct x) fun d hd => ensures_pure ?_
    obtain ⟨decl, -, -, -, harrays⟩ := hd
    exact harrays

theorem ensures_sameCount (f : Ident) (params : List Ty) (args : List Expr) (span : Span) :
    Ensures builtins decls (sameCount f params args span) fun _ => args.length = params.length := by
  refine ensures_ite (fun _ => ensures_refuse rfl _) fun hfew => ?_
  exact ensures_ite (fun _ => ensures_refuse rfl _) fun hmany => ensures_pure (by omega)

end Steps

/-! ## Names -/

/-- The scopes bind the local variables that the text tells. -/
def FitsLocals (scopes : List (Scope Var)) (N : Names) : Prop :=
  ∀ x, (N.local? x).map (fun v => (v.binder.kind, v.ty)) = (Scope.find? scopes x).map fun v => (v.kind, some v.ty)

namespace FitsLocals

variable {scopes : List (Scope Var)} {N : Names}

theorem nil (builtins : Builtins) (decls : List Decl) : FitsLocals [] ⟨builtins, decls, []⟩ := fun _ => rfl

theorem enter (h : FitsLocals scopes N) : FitsLocals (.empty :: scopes) N := h

theorem insert {inner inner' : Scope Var} (h : FitsLocals (inner :: scopes) N) {ty : Ty} (b : Binder)
    (hinsert : inner.insert? x ⟨ty, b.kind⟩ = some inner') : FitsLocals (inner' :: scopes) (N.bind x b (some ty)) := by
  intro y
  have hy := h y
  rw [Scope.find?_cons] at hy ⊢
  rw [Scope.lookup?_insert? hinsert, Names.local?, Names.bind, lookup_cons]
  by_cases hxy : y = x
  · subst hxy
    simp
  · have hne : (y == x) = false := by simpa using hxy
    simp only [hxy, if_false, hne]
    exact hy

theorem loop (h : FitsLocals scopes N) (x : Ident) :
    FitsLocals (⟨[(x, ⟨.int, .localVar false⟩)]⟩ :: scopes) (N.bind x .loopVar (some .int)) :=
  h.enter.insert .loopVar rfl

end FitsLocals

/-- The top-level names that are found are what the shader declares, or builtin functions. -/
def Resolves (builtins : Builtins) (decls : List Decl) (g : Globals) : Prop :=
  ∀ x span, Ensures builtins decls (g x span) fun info => ∀ i ∈ info, i.Fits ⟨builtins, decls, []⟩ x

/-- The names in a context are those that the text tells. -/
structure Reads (builtins : Builtins) (decls : List Decl) (ctx : Context) (N : Names) : Prop where
  sameBuiltins : N.builtins = builtins
  sameDecls : N.decls = decls
  locals : FitsLocals ctx.scopes N
  globals : Resolves builtins decls ctx.globals

/-! ## Results -/

section Results

theorem value?_conditional (c yes no : Typed) : (conditional c yes no).term.value? =
    c.term.value?.bind fun v => if v.toBool then yes.term.value? else no.term.value? := by
  unfold conditional
  cases c.term.value? with
  | none => rfl
  | some v => cases hv : v.toBool <;> simp [hv]

theorem operator?_of_assignment {op : BinOp} (h : op.isAssignment = true) (l r : Option Value) :
    Value.operator? op l r = none := by
  cases op with
  | assign | update => cases l <;> rfl
  | or | and | eq | ne | compare | arith => cases h

theorem value?_operation {op : BinOp} (h : op.isAssignment = false) (ty : Ty) (l r : Typed) :
    (operation op ty l r).term.value? = Value.operator? op l.term.value? r.term.value? := by
  cases op with
  | assign | update => cases h
  | or | and =>
    unfold operation Value.operator?
    cases l.term.value? with
    | none => rfl
    | some x => cases hx : x.toBool <;> simp [hx, Term.value?]
  | eq | ne | compare | arith =>
    rw [operation_eq_strict (by simp) (by simp)]
    unfold Value.operator?
    cases l.term.value? with
    | none => rfl
    | some x =>
      cases r.term.value? with
      | none => rfl
      | some y =>
        simp only [Option.bind_some, h, Bool.false_eq_true, if_false]
        split <;> simp_all [Term.value?]

theorem value?_unaryOperation (op : UnOp) (ty : Ty) (e : Typed) :
    (unaryOperation op ty e).term.value? = e.term.value?.bind (Value.unary? op) := by
  unfold unaryOperation
  cases e.term.value?.bind (Value.unary? op) <;> rfl

/-- A scalar that is made of one constant is a constant. -/
theorem value?_construction {k : Scalar} {a : Typed} (h : construction (.scalar k) [a] = .ok t) :
    t.term.value? = a.term.value?.map (Value.convert k) := by
  unfold construction at h
  dsimp only at h
  split at h
  · cases h
  · cases ha : a.term.value? with
    | none =>
      rw [ha] at h
      cases h
      rfl
    | some v =>
      rw [ha] at h
      cases h
      rfl

theorem value?_construction_of_ne (h : construction ty ts = .ok t)
    (hne : ∀ k a, ty = .scalar k → ts ≠ [a]) : t.term.value? = none := by
  rcases construction_cases h with ⟨k, a, v, hk, ha, -⟩ | rfl
  · exact absurd ha (hne k a hk)
  · rfl

theorem isAboutPlace_construction (h : construction ty ts = .error cause) : cause.isAboutPlace = false := by
  unfold construction at h
  dsimp only at h
  repeat' split at h
  all_goals cases h
  all_goals rfl

theorem isAboutPlace_refusal? {kind : VarKind} {ty : Ty}
    (h : kind.refusal? x ty = some cause) : cause.isAboutPlace = false := by
  cases kind <;> simp only [VarKind.refusal?, reduceCtorEq, Option.ite_none_left_eq_some] at h
  all_goals
    obtain ⟨-, h⟩ := h
    cases h
    rfl

end Results

/-- An expression is checked to what its text tells. -/
structure Checked (N : Names) (place : Bool) (e : Expr) (t : Typed) : Prop where
  ty : e.ty? N = some t.ty
  const : e.const? = t.term.value?
  allowed : ∀ a ∈ e.assignments N, a.Allowed
  place : place = true → e.Assignable N

/-- The expression is what an assignment of the shader assigns, or a part of it that has to be a place too. -/
def PartOf (builtins : Builtins) (decls : List Decl) (N : Names) (e : Expr) : Prop :=
  ∃ a : Assignment, a.OccursIn builtins decls ∧ (∀ span ∈ e.chain, span ∈ a.left.chain) ∧
    (a.left.Assignable a.names → e.Assignable N)

theorem PartOf.blamed {N : Names} (h : PartOf builtins decls N e) (hspan : span ∈ e.chain) (hnot : ¬ e.Assignable N) :
    ∃ a : Assignment, a.OccursIn builtins decls ∧ span ∈ a.left.chain ∧ ¬ a.Permitted := by
  obtain ⟨a, hoccurs, hchain, hassignable⟩ := h
  exact ⟨a, hoccurs, hchain span hspan, fun hpermitted => hnot (hassignable hpermitted.1)⟩

section Parts

variable {N : Names} {b : Expr} {span : Span}

theorem PartOf.index {i : Expr} (h : PartOf builtins decls N (.index b i span)) : PartOf builtins decls N b := by
  obtain ⟨a, hoccurs, hchain, hassignable⟩ := h
  exact ⟨a, hoccurs, fun s hs => hchain s (.tail _ hs), fun ha => (hassignable ha).1⟩

theorem PartOf.member {name : Ident} (h : PartOf builtins decls N (.member b name span)) :
    PartOf builtins decls N b := by
  obtain ⟨a, hoccurs, hchain, hassignable⟩ := h
  exact ⟨a, hoccurs, fun s hs => hchain s (.tail _ hs), fun ha => (hassignable ha).1⟩

end Parts

section Expressions

variable {ctx : Context} {N : Names}

theorem ensures_find (hctx : Reads builtins decls ctx N) (x : Ident) (span : Span) :
    Ensures builtins decls (ctx.find x span) fun info => ∀ i ∈ info, i.Fits N x := by
  have hlocal := hctx.locals x
  unfold Context.find
  cases hfind : Scope.find? ctx.scopes x with
  | some v =>
    rw [hfind, Option.map_some, Option.map_eq_some_iff] at hlocal
    obtain ⟨w, hw, heq⟩ := hlocal
    obtain ⟨hkind, hty⟩ := Prod.mk.inj heq
    refine ensures_pure ?_
    rintro _ ⟨⟩
    refine ⟨?_, ?_⟩
    · rw [Names.varTy?, hw]
      exact hty
    · rw [Names.Assigns, hw, ← hkind]
      exact w.binder.isAssignable_kind.symm
  | none =>
    rw [hfind, Option.map_none, Option.map_eq_none_iff] at hlocal
    refine (hctx.globals x span).weaken fun info hinfo i hi => ?_
    have hfits := hinfo i hi
    have hbuiltins := hctx.sameBuiltins
    have hdecls := hctx.sameDecls
    subst hbuiltins hdecls
    cases i with
    | var v =>
      obtain ⟨hty, hassigns⟩ := hfits
      refine ⟨?_, ?_⟩
      · rw [← hty, Names.varTy?, hlocal]
        rfl
      · rw [← hassigns, Names.Assigns, hlocal]
        rfl
    | fn f | struct d | builtin overloads => exact hfits

theorem ensures_exprs {es : List Expr} (h : ∀ e ∈ es, Ensures builtins decls (expr ctx false e) (Checked N false e)) :
    Ensures builtins decls (exprs ctx es) (List.Forall₂ (Checked N false) es) := by
  induction es with
  | nil => exact ensures_pure .nil
  | cons e es ih =>
    obtain ⟨he, hes⟩ := forall_mem_cons.1 h
    exact ensures_bind he fun t ht => ensures_bind (ih hes) fun ts hts => ensures_pure (.cons ht hts)

theorem ensures_argsFor {f : Ident} {es : List Expr}
    (h : ∀ e ∈ es, Ensures builtins decls (expr ctx false e) (Checked N false e)) (n : Nat) {params : List Ty}
    (hlength : es.length = params.length) :
    Ensures builtins decls (argsFor ctx f n params es) (List.Forall₂ (Checked N false) es) := by
  induction es generalizing n params with
  | nil => exact ensures_pure .nil
  | cons e es ih =>
    obtain ⟨he, hes⟩ := forall_mem_cons.1 h
    cases params with
    | nil => cases hlength
    | cons ty tys =>
      refine ensures_bind he fun t ht => ensures_guard rfl fun _ => ?_
      exact ensures_bind (ih hes (n + 1) (Nat.succ.inj hlength)) fun ts hts => ensures_pure (.cons ht hts)

variable {place : Bool}

theorem ensures_notPlace (h : place = true → PartOf builtins decls N e) (hnot : ¬ e.Assignable N) :
    Ensures builtins decls (notPlace place e.span) fun _ => place = false := by
  cases place with
  | true => exact ensures_blame fun _ => (h rfl).blamed e.span_mem_chain hnot
  | false => exact ensures_pure rfl

theorem ensures_element (base index : Typed) (indexSpan span : Span) :
    Ensures builtins decls (element base index indexSpan span) fun t =>
      Ty.index? base.ty index.ty = some t.ty ∧ t.term.value? = none ∧
      ∀ v, index.term.value? = some v → 0 ≤ v.toInt32.toInt ∧ v.toInt32.toInt < base.ty.indexBound := by
  unfold element
  cases hty : Ty.index? base.ty index.ty with
  | none => exact ensures_refuse rfl _
  | some ty =>
    refine ensures_ite (fun _ => ensures_refuse rfl _) fun hinside => ensures_pure ⟨rfl, rfl, fun v hv => ?_⟩
    simp only [hv, Bool.or_eq_true, decide_eq_true_eq] at hinside
    omega

/-- A member has the type that is declared, and a place selects no component twice. -/
theorem ensures_member (hnames : (decls.map Decl.name).Nodup) (hdecls : N.decls = decls) {b : Expr} {base : Typed}
    {name : Ident} (hbase : b.ty? N = some base.ty)
    (hplace : place = true → PartOf builtins decls N (.member b name span)) :
    Ensures builtins decls (member place base name span) fun t =>
      N.memberTy? base.ty name = some t.ty ∧ t.term.value? = none ∧
      (place = true → ∀ sw, Swizzle.parse? base.ty name = some sw → sw.places.Nodup) := by
  unfold member
  split
  · rename_i x hty
    refine ensures_bind (ensures_openedStruct x) fun d hd => ?_
    obtain ⟨decl, hmem, hname, hmembers, -⟩ := hd
    have hdecl : N.decl? x = some (.struct decl) := by
      subst hdecls hname
      exact find?_of_mem hnames hmem
    cases hm : d.member? name with
    | none => exact ensures_refuse rfl _
    | some ty =>
      rw [hty]
      refine ensures_pure ⟨?_, rfl, fun _ sw hsw => by cases hsw⟩
      simp only [Names.memberTy?, hdecl]
      rw [← hmembers]
      exact hm
  · rename_i hstruct
    rw [Names.memberTy?_of_ne hstruct]
    cases hsw : Swizzle.parse? base.ty name with
    | none => exact ensures_refuse rfl _
    | some sw =>
      refine ensures_ite (fun hdup => ?_) fun hdup => ensures_pure ⟨rfl, rfl, ?_⟩
      · obtain ⟨rfl, hdup⟩ := Bool.and_eq_true_iff.1 hdup
        refine ensures_blame fun _ => (hplace rfl).blamed (.head _) fun hassignable => ?_
        have hnodup := hassignable.2 base.ty sw hbase hsw
        simp [Swizzle.hasDuplicates, hnodup] at hdup
      · rintro rfl _ ⟨⟩
        simpa [Swizzle.hasDuplicates] using hdup

theorem useVar_ok {v : Var} (h : useVar place x v = .ok t) :
    t.ty = v.ty ∧ t.term.value? = none ∧ (place = true → v.kind.isAssignable = true) := by
  obtain ⟨ty, kind⟩ := v
  unfold useVar at h
  cases kind with
  | varyingVar =>
    cases h
    exact ⟨rfl, rfl, fun _ => rfl⟩
  | attributeVar | uniformVar | localVar =>
    dsimp only at h
    split at h
    · cases h
    · rename_i hread
      cases h
      refine ⟨rfl, rfl, ?_⟩
      rintro rfl
      simp_all [VarKind.isAssignable]

theorem useVar_error {v : Var} (h : useVar place x v = .error cause) :
    place = true ∧ v.kind.isAssignable = false := by
  obtain ⟨ty, kind⟩ := v
  unfold useVar at h
  cases kind with
  | varyingVar => cases h
  | attributeVar | uniformVar | localVar =>
    dsimp only at h
    split at h
    · rename_i hplace
      simpa [VarKind.isAssignable] using hplace
    · cases h

section Lists

variable {es : List Expr} {ts : List Typed} (h : List.Forall₂ (Checked N false) es ts)
include h

theorem tys?_of_checked : Expr.tys? N es = some (ts.map Typed.ty) := by
  induction h with
  | nil => rfl
  | cons he _ ih => rw [Expr.tys?, he.ty, ih]; rfl

theorem allowed_of_checked : ∀ a ∈ Expr.assignmentsAll N es, a.Allowed := by
  induction h with
  | nil =>
    rw [Expr.assignmentsAll]
    exact forall_mem_nil _
  | cons he _ ih =>
    rw [Expr.assignmentsAll]
    exact forall_mem_append.2 ⟨he.allowed, ih⟩

/-- One constant is converted to a scalar type. -/
theorem const?_construct (ht : construction ty ts = .ok t) (span : Span) :
    (Expr.construct ty es span).const? = t.term.value? := by
  cases ty with
  | vector | matrix =>
    rw [value?_construction_of_ne ht (by simp), Expr.const?]
    simp
  | scalar k =>
    rw [Expr.const?]
    cases h with
    | nil =>
      rw [value?_construction_of_ne ht (by simp)]
      rfl
    | cons he hes =>
      cases hes with
      | nil => rw [Expr.onlyConst?, he.const, value?_construction ht]
      | cons =>
        rw [value?_construction_of_ne ht (by simp)]
        rfl

end Lists

section Operators

variable {op : BinOp} {l r : Expr} {l' r' : Typed} {ty : Ty} {span : Span}

theorem ty?_bin (hl : Checked N op.isAssignment l l') (hr : Checked N false r r') :
    (Expr.bin op l r span).ty? N = Ty.binary? op l'.ty r'.ty := by
  rw [Expr.ty?, hl.ty, hr.ty]
  rfl

theorem checked_assignment (ha : op.isAssignment = true) (hl : Checked N op.isAssignment l l')
    (hr : Checked N false r r') (hty : Ty.binary? op l'.ty r'.ty = some ty)
    (harrays : op = .assign → ¬ l'.ty.ContainsArray N.decls) :
    Checked N false (.bin op l r span) ⟨ty, l'.deps.union r'.deps, .bin op l'.term r'.term⟩ := by
  refine ⟨(ty?_bin hl hr).trans hty, ?_, ?_, by simp⟩
  · rw [Expr.const?, operator?_of_assignment ha]
    rfl
  · rw [Expr.assignments, if_pos ha, forall_mem_append, forall_mem_append, forall_mem_singleton]
    refine ⟨⟨⟨_, hl.ty⟩, hl.place ha, fun hop t ht => ?_⟩, hl.allowed, hr.allowed⟩
    obtain rfl : l'.ty = t := Option.some.inj (hl.ty.symm.trans ht)
    exact harrays hop

theorem checked_operation (ha : ¬ op.isAssignment = true) (hl : Checked N op.isAssignment l l')
    (hr : Checked N false r r') (hty : Ty.binary? op l'.ty r'.ty = some ty) :
    Checked N false (.bin op l r span) (operation op ty l' r') := by
  refine ⟨?_, ?_, ?_, by simp⟩
  · rw [ty?_bin hl hr, hty, ty_operation]
  · rw [Expr.const?, hl.const, hr.const, value?_operation (Bool.not_eq_true _ ▸ ha)]
  · rw [Expr.assignments, if_neg ha, nil_append, forall_mem_append]
    exact ⟨hl.allowed, hr.allowed⟩

/-- An operator: the left operand of an assignment is a place, and an array is not assigned as a whole. -/
theorem ensures_bin (hdecls : N.decls = decls) (hplace : place = true → PartOf builtins decls N (.bin op l r span))
    (hown : op.isAssignment = true → Assignment.OccursIn builtins decls ⟨N, op, l⟩)
    (hleft : Ensures builtins decls (expr ctx op.isAssignment l) (Checked N op.isAssignment l))
    (hright : Ensures builtins decls (expr ctx false r) (Checked N false r)) :
    Ensures builtins decls (expr ctx place (.bin op l r span)) (Checked N place (.bin op l r span)) := by
  refine ensures_bind (ensures_notPlace hplace id) fun _ hread => ?_
  subst hread
  refine ensures_bind hleft fun l' hl => ensures_bind hright fun r' hr => ?_
  split
  · exact ensures_refuse rfl _
  · rename_i ty hty
    refine ensures_ite (fun ha => ensures_ite (fun hop => ?_) fun hop => ?_) fun ha => ?_
    · refine ensures_bind (ensures_hasArrays l'.ty) fun b hb => ?_
      rw [← hdecls] at hb
      refine ensures_ite (fun htrue => ?_) fun hfalse => ?_
      · refine ensures_bind (Q := fun _ => False) (ensures_blame fun _ => ?_) fun _ => False.elim
        exact ⟨_, hown ha, l.span_mem_chain, fun hpermitted => hpermitted.2 hop l'.ty hl.ty (hb.1 htrue)⟩
      · exact ensures_pure (checked_assignment ha hl hr hty fun _ harray => hfalse (hb.2 harray))
    · exact ensures_pure (checked_assignment ha hl hr hty fun h => absurd h hop)
    · exact ensures_pure (checked_operation ha hl hr hty)

end Operators

section Calls

variable {f : Ident} {args : List Expr} {span : Span}

theorem checked_call (hts : List.Forall₂ (Checked N false) args ts) (hty : N.callTy? f (ts.map Typed.ty) = some t.ty)
    (hvalue : t.term.value? = none) :
    Checked N false (.call f args span) t := by
  refine ⟨?_, ?_, ?_, by simp⟩
  · rw [Expr.ty?, tys?_of_checked hts]
    exact hty
  · rw [Expr.const?, hvalue]
  · rw [Expr.assignments]
    exact allowed_of_checked hts

/-- A call of a function, of a builtin function, or of a struct. -/
theorem ensures_call (hctx : Reads builtins decls ctx N)
    (hplace : place = true → PartOf builtins decls N (.call f args span))
    (hargs : ∀ e ∈ args, Ensures builtins decls (expr ctx false e) (Checked N false e)) :
    Ensures builtins decls (expr ctx place (.call f args span)) (Checked N place (.call f args span)) := by
  refine ensures_bind (ensures_notPlace hplace id) fun _ hread => ?_
  subst hread
  refine ensures_bind (ensures_find hctx f span) fun info hinfo => ?_
  split
  · exact ensures_refuse rfl _
  · refine ensures_bind (ensures_sameCount f _ args span) fun _ hcount => ?_
    refine ensures_bind (ensures_argsFor hargs 0 hcount) fun ts hts => ensures_pure ?_
    exact checked_call hts (hinfo _ rfl _) rfl
  · refine ensures_bind (ensures_exprs hargs) fun ts hts => ?_
    split
    · exact ensures_refuse rfl _
    · rename_i ty hty
      exact ensures_pure (checked_call hts ((hinfo _ rfl _).trans hty) rfl)
  · refine ensures_bind (ensures_sameCount f _ args span) fun _ hcount => ?_
    refine ensures_bind (ensures_argsFor hargs 0 hcount) fun ts hts => ensures_pure ?_
    exact checked_call hts (hinfo _ rfl _) rfl
  · exact ensures_refuse rfl _

end Calls

/-- A variable that stands in a place can be assigned. -/
theorem ensures_var (hctx : Reads builtins decls ctx N)
    (hplace : place = true → PartOf builtins decls N (.var x span)) :
    Ensures builtins decls (expr ctx place (.var x span)) (Checked N place (.var x span)) := by
  refine ensures_bind (ensures_find hctx x span) fun info hinfo => ?_
  split
  · exact ensures_refuse rfl _
  · rename_i v
    obtain ⟨hty, hassigns⟩ := hinfo _ rfl
    split
    · rename_i t ht
      obtain ⟨htt, hvalue, hmutable⟩ := useVar_ok ht
      refine ensures_pure ⟨?_, ?_, ?_, fun h => hassigns.2 (hmutable h)⟩
      · rw [Expr.ty?, hty, htt]
      · rw [Expr.const?, hvalue]
      · rw [Expr.assignments]
        exact forall_mem_nil _
    · rename_i cause hcause
      obtain ⟨hp, hfixed⟩ := useVar_error hcause
      refine ensures_blame fun _ => (hplace hp).blamed (.head _) fun hassignable => ?_
      rw [hassigns.1 hassignable] at hfixed
      cases hfixed
  · exact ensures_refuse rfl _

/-- An expression that is accepted is what its text tells, and one that is refused for what it assigns stands in an
assignment that is not permitted. -/
theorem ensures_expr (hnames : (decls.map Decl.name).Nodup) (hctx : Reads builtins decls ctx N)
    (hall : ∀ a ∈ e.assignments N, a.OccursIn builtins decls) (hplace : place = true → PartOf builtins decls N e) :
    Ensures builtins decls (expr ctx place e) (Checked N place e) := by
  induction e generalizing place with
  | cond c yes no span ihc ihyes ihno =>
    rw [Expr.assignments, forall_mem_append, forall_mem_append] at hall
    obtain ⟨hc, hyes, hno⟩ := hall
    refine ensures_bind (ensures_notPlace hplace id) fun _ hread => ?_
    subst hread
    refine ensures_bind (ihc hc (by simp)) fun c' hc' => ensures_guard rfl fun _ => ?_
    refine ensures_bind (ihyes hyes (by simp)) fun yes' hyes' => ensures_bind (ihno hno (by simp)) fun no' hno' => ?_
    refine ensures_guard rfl fun hty => ensures_pure ⟨?_, ?_, ?_, by simp⟩
    · rw [Expr.ty?, hyes'.ty, ty_conditional (Decidable.not_not.1 hty)]
    · rw [Expr.const?, hc'.const, hyes'.const, hno'.const, value?_conditional]
    · rw [Expr.assignments, forall_mem_append, forall_mem_append]
      exact ⟨hc'.allowed, hyes'.allowed, hno'.allowed⟩
  | bin op l r span ihl ihr =>
    rw [Expr.assignments, forall_mem_append, forall_mem_append] at hall
    obtain ⟨hown, hl, hr⟩ := hall
    have hleft (ha : op.isAssignment = true) : Assignment.OccursIn builtins decls ⟨N, op, l⟩ := by
      rw [if_pos ha] at hown
      exact hown _ mem_cons_self
    refine ensures_bin hctx.sameDecls hplace hleft (ihl hl fun ha => ?_) (ihr hr (by simp))
    exact ⟨_, hleft ha, fun _ h => h, id⟩
  | un op e span ih =>
    rw [Expr.assignments] at hall
    refine ensures_bind (ensures_notPlace hplace id) fun _ hread => ?_
    subst hread
    refine ensures_bind (ih hall (by simp)) fun e' he' => ?_
    split
    · exact ensures_refuse rfl _
    · rename_i ty hty
      refine ensures_pure ⟨?_, ?_, ?_, by simp⟩
      · rw [Expr.ty?, he'.ty, ty_unaryOperation]
        exact hty
      · rw [Expr.const?, he'.const, value?_unaryOperation]
      · rw [Expr.assignments]
        exact he'.allowed
  | index b i span ihb ihi =>
    rw [Expr.assignments, forall_mem_append] at hall
    obtain ⟨hb, hi⟩ := hall
    refine ensures_bind (ihb hb fun h => (hplace h).index) fun b' hb' => ?_
    refine ensures_bind (ihi hi (by simp)) fun i' hi' => ?_
    refine (ensures_element b' i' i.span span).weaken fun t ht => ?_
    obtain ⟨hty, hvalue, hinside⟩ := ht
    refine ⟨?_, ?_, ?_, fun h => ⟨hb'.place h, fun ty v hbase hconst => ?_⟩⟩
    · rw [Expr.ty?, hb'.ty, hi'.ty]
      exact hty
    · rw [Expr.const?, hvalue]
    · rw [Expr.assignments, forall_mem_append]
      exact ⟨hb'.allowed, hi'.allowed⟩
    · obtain rfl : b'.ty = ty := Option.some.inj (hb'.ty.symm.trans hbase)
      exact hinside v (hi'.const.symm.trans hconst)
  | member b name span ih =>
    rw [Expr.assignments] at hall
    refine ensures_bind (ih hall fun h => (hplace h).member) fun b' hb' => ?_
    refine (ensures_member hnames hctx.sameDecls hb'.ty hplace).weaken fun t ht => ?_
    obtain ⟨hty, hvalue, hnodup⟩ := ht
    refine ⟨?_, ?_, ?_, fun h => ⟨hb'.place h, fun ty sw hbase hsw => ?_⟩⟩
    · rw [Expr.ty?, hb'.ty]
      exact hty
    · rw [Expr.const?, hvalue]
    · rw [Expr.assignments]
      exact hb'.allowed
    · obtain rfl : b'.ty = ty := Option.some.inj (hb'.ty.symm.trans hbase)
      exact hnodup h sw hsw
  | call f args span ih =>
    rw [Expr.assignments, Expr.assignmentsAll_eq, forall_mem_flatMap] at hall
    exact ensures_call hctx hplace fun e he => ih e he (hall e he) (by simp)
  | construct ty args span ih =>
    rw [Expr.assignments, Expr.assignmentsAll_eq, forall_mem_flatMap] at hall
    refine ensures_bind (ensures_notPlace hplace id) fun _ hread => ?_
    subst hread
    refine ensures_bind (ensures_exprs fun e he => ih e he (hall e he) (by simp)) fun ts hts => ?_
    split
    · rename_i t ht
      refine ensures_pure ⟨?_, const?_construct hts ht span, ?_, by simp⟩
      · rw [Expr.ty?, ty_construction ht]
      · rw [Expr.assignments]
        exact allowed_of_checked hts
    · rename_i cause hcause
      exact ensures_refuse (isAboutPlace_construction hcause) _
  | var x span => exact ensures_var hctx hplace
  | lit v span =>
    rw [expr_lit]
    refine ensures_bind (ensures_notPlace hplace id) fun _ hread => ensures_pure ⟨?_, ?_, ?_, ?_⟩
    · rw [Expr.ty?]
    · rw [Expr.const?]
      rfl
    · rw [Expr.assignments]
      exact forall_mem_nil _
    · simp [hread]

end Expressions

end Check

end Shading
