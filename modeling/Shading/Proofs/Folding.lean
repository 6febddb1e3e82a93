import Shading.Proofs.Evaluation
import Shading.Proofs.Nodes
import Shading.Proofs.Outcome

/-!
# Computing constants keeps the meaning

Checking an expression leaves a term in which constants are computed, a decided operand of `&&` or `||`
is dropped and a conditional with a constant test is one of its branches. The term does what the
expression does: it has the same value, stores the same values at the same places and calls the same
functions with the same arguments, in the same order, in every world and on every machine.

Two facts carry the induction. A constant has the type of its kind, so the left operand of `&&` is a truth
value where it is a constant. And an operator that is computed early gives what it gives at run time.
-/

namespace Shading

open Float.Model (UnpackedFloat)

section Doubles

/-- Comparing two doubles the other way round turns the order around. -/
theorem compare_swap (a b : UnpackedFloat) : b.compare a = (a.compare b).map Ordering.swap := by
  cases a with
  | notANumber => cases b <;> rfl
  | infinity s =>
    cases b with
    | infinity s' => cases s <;> cases s' <;> rfl
    | notANumber => rfl
    | zero s' => cases s <;> rfl
    | finite s' => cases s <;> cases s' <;> rfl
  | zero s =>
    cases b with
    | infinity s' => cases s' <;> rfl
    | notANumber => rfl
    | zero s' => rfl
    | finite s' => cases s' <;> rfl
  | finite s m e =>
    cases b with
    | infinity s' => cases s' <;> cases s <;> rfl
    | notANumber => cases s <;> rfl
    | zero s' => cases s <;> rfl
    | finite s' m' e' =>
      have hswap : ((compare e e').then (compare m m')).swap = (compare e' e).then (compare m' m) := by
        rw [Ordering.swap_then, Int.compare_swap, Nat.compare_swap]
      cases s with
      | positive =>
        cases s' with
        | positive => exact congrArg some hswap.symm
        | negative => rfl
      | negative =>
        cases s' with
        | positive => rfl
        | negative => exact congrArg (fun o => some (Ordering.swap o)) hswap.symm

/-- Only a NaN stands in no order. -/
theorem compare_of_number {a b : UnpackedFloat} (ha : a.isNaN = false) (hb : b.isNaN = false) :
    ∃ o, a.compare b = some o := by
  cases a with
  | notANumber => cases ha
  | infinity s =>
    cases b with
    | notANumber => cases hb
    | infinity s' => exact ⟨_, rfl⟩
    | zero | finite => cases s <;> exact ⟨_, rfl⟩
  | zero s =>
    cases b with
    | notANumber => cases hb
    | zero s' => exact ⟨_, rfl⟩
    | infinity s' | finite s' => cases s' <;> exact ⟨_, rfl⟩
  | finite s m e =>
    cases b with
    | notANumber => cases hb
    | zero s' => cases s <;> exact ⟨_, rfl⟩
    | infinity s' | finite s' => cases s <;> cases s' <;> exact ⟨_, rfl⟩

theorem float_lt_iff (x y : Float) :
    x < y ↔ x.toModel.unpack.compare y.toModel.unpack = some .lt := by
  show decide (x.toModel < y.toModel) = true ↔ _
  rw [decide_eq_true_iff]
  show x.toModel.unpack.lt y.toModel.unpack = true ↔ _
  simp [UnpackedFloat.lt]

theorem float_le_iff (x y : Float) :
    x ≤ y ↔ ∃ o, x.toModel.unpack.compare y.toModel.unpack = some o ∧ o.isLE := by
  show decide (x.toModel ≤ y.toModel) = true ↔ _
  rw [decide_eq_true_iff]
  show x.toModel.unpack.le y.toModel.unpack = true ↔ _
  simp [UnpackedFloat.le, Option.any_eq_true]

/-- Two doubles that are numbers stand in one order, and all four comparisons follow it. -/
theorem float_order {x y : Float} (hx : x.isNaN = false) (hy : y.isNaN = false) :
    ∃ o : Ordering, (x < y ↔ o = .lt) ∧ (x ≤ y ↔ o ≠ .gt) ∧ (y < x ↔ o = .gt) ∧ (y ≤ x ↔ o ≠ .lt) := by
  obtain ⟨o, ho⟩ := compare_of_number (a := x.toModel.unpack) (b := y.toModel.unpack) hx hy
  have ho' := compare_swap x.toModel.unpack y.toModel.unpack
  rw [ho] at ho'
  refine ⟨o, ?_⟩
  simp only [float_lt_iff, float_le_iff, ho, ho']
  cases o <;> simp

end Doubles

variable {op : BinOp} {x v : Value}

section Scalars

variable {m : Machine}

theorem intHolds_eq (c : Comparison) (x y : Int32) :
    Value.intHolds c x y = c.holds (if x < y then .lt else if y < x then .gt else .eq) := by
  simp only [Int32.lt_iff_toInt_lt]
  rcases Int.lt_trichotomy x.toInt y.toInt with h | h | h
  · have h' : ¬ y.toInt < x.toInt := by omega
    cases c <;> simp [Value.intHolds, Comparison.holds, h, h', Int.le_of_lt h]
  · cases c <;> simp [Value.intHolds, Comparison.holds, h]
  · have h' : ¬ x.toInt < y.toInt := by omega
    cases c <;> simp [Value.intHolds, Comparison.holds, h, h', Int.le_of_lt h]

theorem floatHolds_eq (c : Comparison) {x y : Float} (hx : x.isNaN = false) (hy : y.isNaN = false) :
    Value.floatHolds c x y = c.holds (if x < y then .lt else if y < x then .gt else .eq) := by
  obtain ⟨o, hlt, hle, hgt, hge⟩ := float_order hx hy
  cases c <;> cases o <;> simp [Value.floatHolds, Comparison.holds, hlt, hle, hgt, hge]

theorem intResult_eq {op : Arith} {x y : Int32} (h : ¬ (op = .div ∧ y = 0)) :
    Value.intResult m op x y = Value.arithInt op x y := by
  apply Int32.toInt_inj.1
  cases op with
  | add => simp [Value.intResult, Value.arithInt]
  | sub => simp [Value.intResult, Value.arithInt]
  | mul => simp [Value.intResult, Value.arithInt]
  | div =>
    have hy : y ≠ 0 := fun hy => h ⟨rfl, hy⟩
    simp [Value.intResult, Value.arithInt, hy]

theorem floatResult_eq (op : Arith) (x y : Float) : Value.floatResult op x y = Value.arithFloat op x y := by
  cases op <;> rfl

theorem equal?_eq (x y : Value) : Value.equal? x y = Value.same? x y := by
  cases x with
  | bool a => cases y <;> rfl
  | float a => cases y <;> rfl
  | int a =>
    cases y with
    | bool b => rfl
    | float b => rfl
    | int b =>
      simp only [Value.equal?, Value.same?, Option.some.injEq]
      rw [Bool.eq_iff_iff]
      simp [Int32.toInt_inj]

/-- An operator that is computed early gives what it gives at run time. -/
theorem compute?_of_binary? {y : Value} (h : Value.binary? op x y = some v) (hor : op ≠ .or)
    (hand : op ≠ .and) : Value.compute? m op x y = some v := by
  cases op with
  | or => exact absurd rfl hor
  | and => exact absurd rfl hand
  | assign => simp [Value.binary?] at h
  | update a => simp [Value.binary?] at h
  | eq => simpa [Value.compute?, Value.binary?, equal?_eq] using h
  | ne => simpa [Value.compute?, Value.binary?, equal?_eq] using h
  | compare c =>
    simp only [Value.binary?, Value.compare?] at h
    cases x <;> cases y <;> simp only [Value.order?, Option.map_none, reduceCtorEq, Option.map_some] at h
    case int a b =>
      rw [Value.compute?, intHolds_eq]
      exact h
    case float a b =>
      split at h
      · cases h
      · rename_i hnan
        simp only [Bool.or_eq_true, not_or, Bool.not_eq_true] at hnan
        rw [Value.compute?, floatHolds_eq c hnan.1 hnan.2]
        simpa using h
  | arith a =>
    simp only [Value.binary?] at h
    cases x <;> cases y <;> simp only [Value.arith?, reduceCtorEq] at h
    case int i j =>
      split at h
      · cases h
      · rename_i hdiv
        rw [Value.compute?, intResult_eq hdiv]
        exact h
    case float f g =>
      split at h
      · rw [Value.compute?, floatResult_eq]
        exact h
      · cases h

theorem unary_of_unary? {op : UnOp} (h : Value.unary? op x = some v) :
    m.unary op (.scalar x) = pure (.scalar v) := by
  cases op with
  | not =>
    cases x with
    | bool b =>
      cases h
      rfl
    | int i | float f => cases h
  | neg =>
    cases x with
    | bool b => cases h
    | int i =>
      cases h
      have hneg : Int32.ofInt (-i.toInt) = -i := by
        apply Int32.toInt_inj.1
        simp
      simp [Machine.unary, hneg]
    | float f =>
      cases h
      rfl

theorem cast_eq (k : Scalar) (x : Value) : x.cast k = x.convert k := by
  cases k <;> cases x <;> try rfl
  case bool.int i =>
    simp only [Value.cast, Value.convert, Value.bool.injEq]
    rw [Bool.eq_iff_iff]
    simp [← Int32.toInt_inj]

end Scalars

/-- A conditional on a constant is one of its branches. -/
theorem cond_pure (b : Bool) (yes no : Run Datum) :
    Run.cond (pure (.scalar (.bool b))) yes no = if b then yes else no := by
  simp [Run.cond, Datum.truth?, Run.ofOption]

/-- What a name that is found stands for. -/
def Info.meaning (x : Ident) : Info → Meaning
  | var v => .var (v.kind.root x)
  | fn _ => .fn
  | struct _ => .struct
  | builtin _ => .builtin

namespace Check

section Names

variable {top : TopLevel} {vars : Scope Var} {n : Nat} {u : Unfinished} {scopes : List (Scope Var)}
  {s s' : Expansion}

/-- Checking finds what a name means. -/
theorem meaning_of_find {x : Ident} {span : Span} {info : Info}
    (h : Gives (Context.find ⟨scopes, globals top vars n u⟩ x span) s (some info) s') :
    top.meaning? vars scopes x = some (info.meaning x) := by
  simp only [TopLevel.meaning?, Scope.find?, List.findSome?_append]
  rcases gives_find.1 h with ⟨v, hv, hinfo, -⟩ | ⟨hnone, hglobal⟩
  · cases hinfo
    rw [show scopes.findSome? (fun sc => sc.lookup? x) = some v from hv]
    rfl
  · rw [show scopes.findSome? (fun sc => sc.lookup? x) = none from hnone]
    rcases gives_globals hglobal with ⟨v, hv, rfl, -⟩ | ⟨hv, k, d, f, -, hd, -, rfl⟩ |
      ⟨hv, hf, k, d, f, -, hd, -, rfl⟩ | ⟨hv, hf, hs, overloads, hb, rfl, -⟩
    · simp [hv, Info.meaning]
    · simp [hv, hd, Info.meaning]
    · simp [hv, hf, hd, Info.meaning]
    · simp [hv, hf, hs, hb, Info.meaning]

end Names

variable {ty : Ty} {ts : List Typed} {t : Typed} {place : Bool} {ctx : Context} {s s' : Expansion}

section Constants

/-- A constant has the type of its kind. -/
def ConstTyped (t : Typed) : Prop := ∀ v, t.term = .const v → t.ty = .ofScalar v.kind

/-- A property that constants have which are computed from constants with it. -/
structure Inherited (P : Value → Prop) : Prop where
  unary {op : UnOp} {v w : Value} : P v → Value.unary? op v = some w → P w
  binary {op : BinOp} {x y v : Value} : P x → P y → Value.binary? op x y = some v → P v
  convert {v : Value} (k : Scalar) : P v → P (v.convert k)

/-- A constant has the type of its kind and the property. -/
def ConstHas (P : Value → Prop) (t : Typed) : Prop := ∀ v, t.term = .const v → t.ty = .ofScalar v.kind ∧ P v

variable {P : Value → Prop} (hP : Inherited P)

theorem arith?_scalar {a : Arith} {j k : Scalar} {ty : BasicTy}
    (h : BasicTy.arith? a (.scalar j) (.scalar k) = some ty) : ty = .scalar j := by
  simp only [BasicTy.arith?] at h
  split at h
  · exact (Option.some.inj h).symm
  · simp [BasicTy.isNumericAggregate, BasicTy.isScalar] at h

/-- An operator on constants has a result of the type it was checked to have. -/
theorem binary?_kind {y : Value} (hty : Ty.binary? op (.ofScalar x.kind) (.ofScalar y.kind) = some ty)
    (h : Value.binary? op x y = some v) : ty = .ofScalar v.kind := by
  cases op with
  | assign | update => simp [Value.binary?] at h
  | or | and =>
    obtain ⟨b, hb⟩ : ∃ b, v = .bool b := by
      cases x <;> cases y <;> simp [Value.binary?] at h
      exact ⟨_, h.symm⟩
    simp only [Ty.binary?, Ty.ofScalar, Ty.basicBinary?] at hty
    split at hty
    · cases hty
      rw [hb]
      rfl
    · cases hty
  | eq | ne =>
    obtain ⟨b, -, hb⟩ := Option.map_eq_some_iff.1 h
    simp only [Ty.binary?] at hty
    split at hty
    · cases hty
      rw [← hb]
      rfl
    · cases hty
  | compare c =>
    obtain ⟨o, -, hb⟩ := Option.map_eq_some_iff.1 h
    simp only [Ty.binary?, Ty.ofScalar, Ty.basicBinary?] at hty
    split at hty
    · cases hty
      rw [← hb]
      rfl
    · cases hty
  | arith a =>
    simp only [Ty.binary?, Ty.ofScalar, Ty.basicBinary?] at hty
    obtain ⟨b, hb, rfl⟩ := Option.map_eq_some_iff.1 hty
    have hk : v.kind = x.kind := by
      cases x <;> cases y <;> simp only [Value.binary?, Value.arith?, reduceCtorEq] at h
      all_goals
        split at h
        all_goals cases h
        all_goals rfl
    rw [arith?_scalar hb, hk]
    rfl

/-- `&&` and `||` take truth values and give one. -/
theorem binary?_logic {l r : Ty} (hop : op = .or ∨ op = .and)
    (h : Ty.binary? op l r = some ty) : l = .bool ∧ r = .bool ∧ ty = .bool := by
  have hboth : Ty.binary? .or l r = some ty := by
    rcases hop with rfl | rfl <;> exact h
  cases l with
  | void | array | struct => simp [Ty.binary?] at hboth
  | basic a =>
    cases r with
    | void | array | struct => simp [Ty.binary?] at hboth
    | basic b =>
      simp only [Ty.binary?, Ty.basicBinary?] at hboth
      split at hboth
      · rename_i hab
        cases hboth
        exact ⟨congrArg Ty.basic hab.1, congrArg Ty.basic hab.2, rfl⟩
      · cases hboth

include hP in
theorem constHas_operation {l r : Typed} (hty : Ty.binary? op l.ty r.ty = some ty) (hl : ConstHas P l)
    (hr : ConstHas P r) : ConstHas P (operation op ty l r) := by
  intro v hv
  rcases operation_cases op ty l r with ⟨x, hx, hop, h⟩ | ⟨x, hx, hop, h⟩ |
    ⟨x, y, w, hx, hy, -, -, hw, h⟩ | h
  · obtain ⟨hlty, -, rfl⟩ := binary?_logic (hop.imp And.left And.left) hty
    rw [h] at hv ⊢
    obtain rfl := Term.const.inj hv
    exact ⟨hlty.symm.trans (hl x hx).1, (hl x hx).2⟩
  · obtain ⟨-, hrty, rfl⟩ := binary?_logic (hop.imp And.left And.left) hty
    rw [h] at hv ⊢
    exact ⟨hrty.symm.trans (hr v hv).1, (hr v hv).2⟩
  · rw [h] at hv ⊢
    cases hv
    rw [(hl x hx).1, (hr y hy).1] at hty
    exact ⟨binary?_kind hty hw, hP.binary (hl x hx).2 (hr y hy).2 hw⟩
  · rw [h] at hv
    cases hv

include hP in
theorem constHas_unaryOperation {op : UnOp} {e : Typed} (hty : Ty.unary? op e.ty = some ty)
    (he : ConstHas P e) : ConstHas P (unaryOperation op ty e) := by
  intro v hv
  rcases unaryOperation_cases op ty e with ⟨x, w, hx, hw, h⟩ | h
  · rw [h] at hv ⊢
    obtain rfl := Term.const.inj hv
    rw [(he x hx).1] at hty
    have hk : w.kind = x.kind := by
      cases op <;> cases x <;> simp only [Value.unary?, Value.not?, Value.neg?, reduceCtorEq] at hw
      all_goals
        cases hw
        rfl
    have hsame : ty = .ofScalar x.kind := by
      cases op <;> simp only [Ty.unary?, Ty.ofScalar] at hty
      all_goals
        split at hty
        · exact (Option.some.inj hty).symm
        · cases hty
    exact ⟨hsame.trans (congrArg Ty.ofScalar hk.symm), hP.unary (he x hx).2 hw⟩
  · rw [h] at hv
    cases hv

theorem constHas_conditional {c yes no : Typed} (hyes : ConstHas P yes) (hno : ConstHas P no) :
    ConstHas P (conditional c yes no) := by
  intro v hv
  rcases conditional_cases c yes no with ⟨x, -, -, h⟩ | ⟨x, -, -, h⟩ | h
  · rw [h] at hv ⊢
    exact hyes v hv
  · rw [h] at hv ⊢
    exact hno v hv
  · rw [h] at hv
    cases hv

include hP in
theorem constHas_construction {ty : BasicTy} (h : construction ty ts = .ok t) (hts : ∀ t ∈ ts, ConstHas P t) :
    ConstHas P t := by
  intro v hv
  rcases construction_cases h with ⟨k, a, x, rfl, rfl, hx, rfl⟩ | rfl
  · cases hv
    exact ⟨by simp [Ty.ofScalar], hP.convert k (hts a List.mem_cons_self x hx).2⟩
  · cases hv

theorem constHas_useVar {x : Ident} {v : Var} (h : useVar place x v = .ok t) : ConstHas P t := by
  intro w hw
  unfold useVar at h
  repeat' split at h
  all_goals cases h
  all_goals cases hw

include hP in
/-- A constant that is left of an expression has the type the expression was checked to have, and what its literals
hand down. -/
theorem constHas_of_gives {e : Expr} (he : (Node.expr e).LiteralsHave P) (h : Gives (expr ctx place e) s t s') :
    ConstHas P t := by
  induction e generalizing place s t s' with
  | cond c yes no span _ ihyes ihno =>
    obtain ⟨-, c', s₁, yes', s₂, no', -, -, hyes, hno, -, rfl⟩ := gives_cond.1 h
    exact constHas_conditional (ihyes (he.child (by simp [Node.children])) hyes)
      (ihno (he.child (by simp [Node.children])) hno)
  | bin op l r span ihl ihr =>
    obtain ⟨-, l', s₁, r', ty, hl, hr, hty, -, rfl⟩ := gives_bin.1 h
    split
    · intro v hv
      cases hv
    · exact constHas_operation hP hty (ihl (he.child (by simp [Node.children])) hl)
        (ihr (he.child (by simp [Node.children])) hr)
  | un op e span ih =>
    obtain ⟨-, e', ty, he', hty, rfl⟩ := gives_un.1 h
    exact constHas_unaryOperation hP hty (ih (he.child (by simp [Node.children])) he')
  | index b i span _ _ =>
    obtain ⟨b', s₁, i', ty, -, -, -, -, rfl⟩ := gives_index.1 h
    intro v hv
    cases hv
  | member b name span _ =>
    obtain ⟨b', -, ⟨x, d, ty, -, -, -, rfl⟩ | ⟨sw, -, -, rfl⟩⟩ := gives_member.1 h
    all_goals
      intro v hv
      cases hv
  | call f args span _ =>
    obtain ⟨-, ⟨d, s₁, ts, -, -, -, rfl⟩ | ⟨overloads, s₁, ts, ty, -, -, -, rfl⟩ |
      ⟨d, s₁, ts, -, -, -, rfl⟩⟩ := gives_call.1 h
    all_goals
      intro v hv
      cases hv
  | construct ty args span ih =>
    obtain ⟨-, ts, hts, hmade⟩ := gives_construct.1 h
    exact constHas_construction hP hmade
      (forall_of_exprs hts fun a ha => ih a ha (he.child (List.mem_map_of_mem ha)))
  | var x span =>
    obtain ⟨v, -, hv⟩ := gives_var.1 h
    exact constHas_useVar hv
  | lit v span =>
    obtain ⟨-, -, rfl⟩ := gives_lit.1 h
    intro w hw
    cases hw
    exact ⟨rfl, he v span .refl⟩

/-- A constant that is left of an expression has the type the expression was checked to have. -/
theorem constTyped_of_gives {e : Expr} (h : Gives (expr ctx place e) s t s') : ConstTyped t := fun v hv =>
  (constHas_of_gives (P := fun _ => True) ⟨fun _ _ => trivial, fun _ _ _ => trivial, fun _ _ => trivial⟩
    (fun _ _ _ => trivial) h v hv).1

end Constants

section Preservation

variable (m : Machine)

/-- A constant that was checked to be a truth value is one. -/
theorem eval_truth (hc : ConstTyped t) (hty : t.ty = .bool)
    (hx : t.term = .const x) : t.term.eval m = pure (.scalar (.bool x.toBool)) := by
  have hkind : Ty.ofScalar x.kind = .bool := (hc x hx).symm.trans hty
  cases x with
  | bool b =>
    rw [hx]
    rfl
  | int i | float f => cases hkind

/-- The operator that is left does what the operator does. -/
theorem eval_operation {l r : Typed} (place : Run Slot) (ha : op.isAssignment = false)
    (hty : Ty.binary? op l.ty r.ty = some ty) (hl : ConstTyped l) :
    (operation op ty l r).term.eval m = m.operator op place (l.term.eval m) (r.term.eval m) := by
  -- A constant left operand of `&&` or `||` is a truth value, so its conditional is decided.
  have htruth {x : Value} (hx : l.term = .const x) (hop : op = .or ∨ op = .and) :
      l.term.eval m = pure (.scalar (.bool x.toBool)) :=
    eval_truth m hl (binary?_logic hop hty).1 hx
  rcases operation_cases op ty l r with ⟨x, hx, hop, h⟩ | ⟨x, hx, hop, h⟩ |
    ⟨x, y, v, hx, hy, hor, hand, hv, h⟩ | h
  · have heval := htruth hx (hop.imp And.left And.left)
    have hconst : (Term.const x).eval m = pure (.scalar (.bool x.toBool)) := hx ▸ heval
    rw [h, heval, hconst]
    rcases hop with ⟨rfl, hb⟩ | ⟨rfl, hb⟩ <;> simp [Machine.operator, cond_pure, hb]
  · rw [h, htruth hx (hop.imp And.left And.left)]
    rcases hop with ⟨rfl, hb⟩ | ⟨rfl, hb⟩ <;> simp [Machine.operator, cond_pure, hb]
  · rw [h, hx, hy]
    have hcompute := compute?_of_binary? (m := m) hv hor hand
    cases op with
    | assign | update => cases ha
    | or => exact absurd rfl hor
    | and => exact absurd rfl hand
    | eq | ne | compare | arith =>
      simp [Machine.operator, Machine.binary, Term.eval, hcompute, Run.ofOption]
  · rw [h]
    cases op with
    | assign | update => cases ha
    | or | and | eq | ne | compare | arith => rfl

theorem eval_unaryOperation (op : UnOp) (ty : Ty) (e : Typed) :
    (unaryOperation op ty e).term.eval m = e.term.eval m >>= m.unary op := by
  rcases unaryOperation_cases op ty e with ⟨x, v, hx, hv, h⟩ | h
  · rw [h, hx]
    simp [Term.eval, unary_of_unary? hv]
  · rw [h]
    rfl

theorem eval_conditional {c yes no : Typed} (hty : c.ty = .bool) (hc : ConstTyped c) :
    (conditional c yes no).term.eval m = Run.cond (c.term.eval m) (yes.term.eval m) (no.term.eval m) := by
  rcases conditional_cases c yes no with ⟨x, hx, hb, h⟩ | ⟨x, hx, hb, h⟩ | h
  · rw [h, eval_truth m hc hty hx, cond_pure, hb]
    rfl
  · rw [h, eval_truth m hc hty hx, cond_pure, hb]
    rfl
  · rw [h]
    rfl

theorem eval_construction {ty : BasicTy} (h : construction ty ts = .ok t) :
    t.term.eval m = Term.evals m (argTerms ts) >>= m.make ty := by
  rcases construction_cases h with ⟨k, a, v, rfl, rfl, ha, rfl⟩ | rfl
  · simp [argTerms, ha, Term.evals, Term.eval, Machine.make, cast_eq]
  · rfl

theorem eval_useVar {x : Ident} {v : Var} (h : useVar place x v = .ok t) :
    t.term.eval m = Run.load ⟨v.kind.root x, []⟩ ∧ t.term.place m = pure ⟨v.kind.root x, []⟩ := by
  obtain ⟨ty, kind⟩ := v
  cases kind with
  | attributeVar | uniformVar | localVar =>
    simp only [useVar] at h
    split at h
    · cases h
    · cases h
      exact ⟨rfl, rfl⟩
  | varyingVar =>
    cases h
    exact ⟨rfl, rfl⟩

/-- Several expressions are evaluated as they are if each of them is. -/
theorem evals_of_gives {names : Ident → Option Meaning} {es : List Expr} (h : Gives (exprs ctx es) s ts s')
    (ih : ∀ e ∈ es, ∀ {s t s'}, Gives (expr ctx false e) s t s' → t.term.eval m = e.eval m names) :
    Term.evals m (argTerms ts) = Expr.evals m names es := by
  induction es generalizing s ts with
  | nil =>
    obtain ⟨rfl, -⟩ := gives_exprs_nil.1 h
    rfl
  | cons e es ihes =>
    obtain ⟨t, s₁, more, ht, hmore, rfl⟩ := gives_exprs_cons.1 h
    have hrest := ihes hmore fun e he => ih e (List.mem_cons_of_mem _ he)
    have hfirst := ih e List.mem_cons_self ht
    simp only [argTerms, List.map_cons, Term.evals, Expr.evals, hfirst] at hrest ⊢
    rw [hrest]

/-- Every name that the context finds has the meaning of what is found. -/
def Explains (names : Ident → Option Meaning) (ctx : Context) : Prop :=
  ∀ x span s info s', Gives (ctx.find x span) s (some info) s' → names x = some (info.meaning x)

/-- The term that is left of an expression has its value and is its place, with the names as the context
finds them. -/
theorem eval_of_expr {names : Ident → Option Meaning} (hnames : Explains names ctx) {e : Expr}
    (h : Gives (expr ctx place e) s t s') :
    t.term.eval m = e.eval m names ∧ (place = true → t.term.place m = e.place m names) := by
  induction e generalizing place s t s' with
  | cond c yes no span ihc ihyes ihno =>
    obtain ⟨rfl, c', s₁, yes', s₂, no', hc, hty, hyes, hno, -, rfl⟩ := gives_cond.1 h
    refine ⟨?_, nofun⟩
    rw [eval_conditional m hty (constTyped_of_gives hc), (ihc hc).1, (ihyes hyes).1, (ihno hno).1]
    rfl
  | bin op l r span ihl ihr =>
    obtain ⟨rfl, l', s₁, r', ty, hl, hr, hty, -, rfl⟩ := gives_bin.1 h
    refine ⟨?_, nofun⟩
    by_cases ha : op.isAssignment = true
    · -- The left operand of an assignment is the one place that is not read.
      rw [ha] at hl
      simp only [ha, if_true, Term.eval, (ihl hl).1, (ihl hl).2 rfl, (ihr hr).1]
      rfl
    · rw [Bool.not_eq_true] at ha
      rw [ha] at hl
      simp only [ha, Bool.false_eq_true, if_false]
      rw [eval_operation m (l.place m names) ha hty (constTyped_of_gives hl), (ihl hl).1, (ihr hr).1]
      rfl
  | un op e span ih =>
    obtain ⟨rfl, e', ty, he, -, rfl⟩ := gives_un.1 h
    refine ⟨?_, nofun⟩
    rw [eval_unaryOperation, (ih he).1]
    rfl
  | index b i span ihb ihi =>
    obtain ⟨b', s₁, i', ty, hb, hi, -, -, rfl⟩ := gives_index.1 h
    refine ⟨?_, fun hplace => ?_⟩
    · simp only [Term.eval, Expr.eval, (ihb hb).1, (ihi hi).1]
    · simp only [Term.place, Expr.place, (ihb hb).2 hplace, (ihi hi).1]
  | member b name span ih =>
    obtain ⟨b', hb, ⟨x, d, ty, -, -, -, rfl⟩ | ⟨sw, -, -, rfl⟩⟩ := gives_member.1 h
    all_goals
      refine ⟨?_, fun hplace => ?_⟩
      · simp only [Term.eval, Expr.eval, (ih hb).1]
      · simp only [Term.place, Expr.place, (ih hb).2 hplace]
  | call f args span ih =>
    obtain ⟨rfl, hcall⟩ := gives_call.1 h
    refine ⟨?_, nofun⟩
    have hargs {s₁ ts} (hts : Gives (exprs ctx args) s₁ ts s') :=
      evals_of_gives m hts fun e he => fun hgives => (ih e he hgives).1
    rcases hcall with ⟨d, s₁, ts, hf, hts, -, rfl⟩ | ⟨overloads, s₁, ts, ty, hf, hts, -, rfl⟩ |
      ⟨d, s₁, ts, hf, hts, -, rfl⟩
    all_goals simp only [Term.eval, Expr.eval, hnames _ _ _ _ _ hf, Info.meaning, hargs hts]
  | construct ty args span ih =>
    obtain ⟨rfl, ts, hts, hmade⟩ := gives_construct.1 h
    refine ⟨?_, nofun⟩
    rw [eval_construction m hmade, evals_of_gives m hts fun e he => fun hgives => (ih e he hgives).1]
    rfl
  | var x span =>
    obtain ⟨v, hv, hused⟩ := gives_var.1 h
    obtain ⟨heval, hplace⟩ := eval_useVar m hused
    refine ⟨?_, fun _ => ?_⟩
    · rw [heval, Expr.eval, hnames _ _ _ _ _ hv]
      rfl
    · rw [hplace, Expr.place, hnames _ _ _ _ _ hv]
      rfl
  | lit v span =>
    obtain ⟨rfl, -, rfl⟩ := gives_lit.1 h
    exact ⟨rfl, nofun⟩

/-- Computing constants keeps the meaning. In every world, and whatever the machine does, the term that
is left of an accepted expression has the value of the expression, stores what it stores and calls what it
calls, in the same order; and where the expression is a place, the term denotes the same one. -/
theorem expr_keeps_meaning {top : TopLevel} {vars : Scope Var} {n : Nat} {u : Unfinished}
    {scopes : List (Scope Var)} {e : Expr} {place : Bool} {s s' : Expansion} {t : Typed}
    (h : Gives (expr ⟨scopes, globals top vars n u⟩ place e) s t s') :
    t.term.eval m = e.eval m (top.meaning? vars scopes) ∧
      (place = true → t.term.place m = e.place m (top.meaning? vars scopes)) :=
  eval_of_expr m (fun _ _ _ _ _ hfind => meaning_of_find hfind) h

/-- A conditional on `1 + 2 == 3` with `true && (a = false)` as its first branch and a call as its second:
what is left is the assignment. -/
theorem folded_conditional_keeps_meaning :
    let test : Expr := .bin .eq
      (.bin (.arith .add) (.lit (.int 1) .unset) (.lit (.int 2) .unset) .unset)
      (.lit (.int 3) .unset) .unset
    let stores : Expr := .bin .assign (.var "a" .unset) (.lit (.bool false) .unset) .unset
    let e : Expr := .cond test (.bin .and (.lit (.bool true) .unset) stores .unset)
      (.call "f" [] .unset) .unset
    let f : FnDecl := ⟨"f", [], some (.keyword (.scalar .bool) .unset),
      .mk [.returnStmt (some (.lit (.bool true) .unset)) .unset] .unset, .unset⟩
    let top : TopLevel := ⟨[f], [], []⟩
    let scopes : List (Scope Var) := [⟨[("a", ⟨.bool, .localVar true⟩)]⟩]
    let left : Term := .bin .assign (.localVar "a") (.const (.bool false))
    let m : Machine :=
      { wide := fun _ _ _ => none, wideNeg := fun _ => none, quotientByZero := fun _ => 0,
        construct := fun _ _ => none, makeStruct := fun _ _ => none, builtin := fun _ _ => none,
        call := fun _ _ w => some (.scalar (.bool true), w) }
    (∃ s', Gives (expr ⟨scopes, globals top .empty top.depth {}⟩ false e) {} ⟨.bool, .none, left⟩ s') ∧
      left.eval m = e.eval m (top.meaning? .empty scopes) := by
  intro test stores e f top scopes left m
  have h : ∃ s', Gives (expr ⟨scopes, globals top .empty top.depth {}⟩ false e) {} ⟨.bool, .none, left⟩ s' :=
    ⟨_, rfl⟩
  obtain ⟨s', hs'⟩ := h
  exact ⟨⟨s', hs'⟩, (expr_keeps_meaning m hs').1⟩

end Preservation

end Check

end Shading
