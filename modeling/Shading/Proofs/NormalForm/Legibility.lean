import Shading.Proofs.Folding
import Shading.Proofs.Grammar.Soundness
import Shading.Proofs.Lexing.Lexemes
import Shading.Proofs.NormalForm.Spelling

/-!
# What is read stays legible

The names of an expression that was read from a text are names, and its literals are finite. Checking keeps both: it takes
all names from the expression, and every constant it computes is finite. Since a constant has a scalar type, nothing can
be selected from one, and the operators of one operand are always computed on one. So the term that is left of an
accepted expression has a text that can be read (`legible_of_gives`).
-/

namespace Shading
open List Token Grammar Number

/-! ## Expressions that are read -/

mutual

/-- The names of the expression are names and its literals finite. -/
def Expr.Legible : Expr → Prop
  | .cond test yes no _ => test.Legible ∧ yes.Legible ∧ no.Legible
  | .bin _ left right _ => left.Legible ∧ right.Legible
  | .un _ operand _ => operand.Legible
  | .index base i _ => base.Legible ∧ i.Legible
  | .member base name _ => base.Legible ∧ IsName name
  | .call f args _ => IsName f ∧ Expr.AllLegible args
  | .construct _ args _ => Expr.AllLegible args
  | .var x _ => IsName x
  | .lit v _ => v.isFinite = true

def Expr.AllLegible : List Expr → Prop
  | [] => True
  | e :: es => e.Legible ∧ Expr.AllLegible es

end

theorem Expr.allLegible_iff {es : List Expr} : Expr.AllLegible es ↔ ∀ e ∈ es, e.Legible := by
  induction es with
  | nil => simp [Expr.AllLegible]
  | cons e es ih => rw [Expr.AllLegible, ih, forall_mem_cons]

theorem Expr.Legible.of_bare {e : Expr} (h : e.bare.Legible) : e.Legible := by
  have hargs : ∀ {es : List Expr}, (∀ a ∈ es, a.bare.Legible → a.Legible) → Expr.AllLegible (Expr.bareAll es) →
      Expr.AllLegible es := by
    intro es ih hes
    rw [Expr.bareAll_eq, Expr.allLegible_iff] at hes
    exact Expr.allLegible_iff.2 fun a ha => ih a ha (hes a.bare (mem_map_of_mem ha))
  induction e with
  | cond c yes no span ihc ihyes ihno => exact ⟨ihc h.1, ihyes h.2.1, ihno h.2.2⟩
  | bin op l r span ihl ihr => exact ⟨ihl h.1, ihr h.2⟩
  | un op e span ih => exact ih h
  | index b i span ihb ihi => exact ⟨ihb h.1, ihi h.2⟩
  | member b name span ih => exact ⟨ih h.1, h.2⟩
  | call f args span ih => exact ⟨h.1, hargs ih h.2⟩
  | construct ty args span ih => exact hargs ih h
  | var x span => exact h
  | lit v span => exact h

theorem Grammar.Items.forall_mem {α : Type} {Part : List Token → α → Prop} {ts : List Token} {as : List α}
    (h : Items Part ts as) : ∀ a ∈ as, ∃ us, us ⊆ ts ∧ Part us a := by
  induction h with
  | nil => nofun
  | last h =>
    intro a ha
    obtain rfl := mem_singleton.1 ha
    exact ⟨_, List.Subset.refl _, h⟩
  | cons h _ _ ih =>
    intro a ha
    rcases mem_cons.1 ha with rfl | ha
    · exact ⟨_, subset_append_left _ _, h⟩
    · obtain ⟨us, hus, ha⟩ := ih a ha
      exact ⟨us, fun t ht => mem_append_right _ (mem_cons_of_mem _ (hus ht)), ha⟩

namespace Value

theorem isFiniteFloat_floatOfMagnitude (negative : Bool) {bits : Nat} (h : bits < infinityBits) :
    isFiniteFloat (floatOfMagnitude negative bits) = true := by
  rw [isFiniteFloat, magnitudeOfFloat_floatOfMagnitude negative h]
  exact decide_eq_true h

/-- Literals denote finite constants. -/
theorem isFinite_of_parse {s : String} {v : Value} (h : parse s = .ok v) : v.isFinite = true := by
  unfold parse at h
  split at h
  · cases h
    rfl
  split at h
  · cases h
    rfl
  split at h
  · split at h
    · rename_i f hf
      cases h
      unfold readFloat at hf
      dsimp only at hf
      split at hf
      · cases hf
      · split at hf
        · rename_i hbits
          cases hf
          exact isFiniteFloat_floatOfMagnitude _ hbits
        · cases hf
    · cases h
  · split at h
    · split at h
      · cases h
      · cases h
        rfl
    · cases h

end Value

/-- What the grammar derives from tokens whose identifiers are names is legible. -/
theorem legible_of_expression {rung : Rung} {ts : List Token} {e : Expr} (h : Expression rung ts e)
    (hnames : ∀ t ∈ ts, t.kind = .ident → IsName t.lexeme) : e.Legible := by
  have hargs : ∀ {us ts : List Token} {args : List Expr}, us ⊆ ts → (∀ t ∈ ts, t.kind = .ident → IsName t.lexeme) →
      Items (fun us a => ∃ _ : Expression .assignment us a, (∀ t ∈ us, t.kind = .ident → IsName t.lexeme) → a.Legible)
        us args → Expr.AllLegible args := by
    intro us ts args hsub hnames hitems
    refine Expr.allLegible_iff.2 fun a ha => ?_
    obtain ⟨vs, hvs, -, hlegible⟩ := hitems.forall_mem a ha
    exact hlegible fun t ht => hnames t (hsub (hvs ht))
  induction h using Expression.induct with
  | assignment _ _ _ _ ihl ihr =>
    exact ⟨ihl fun t ht => hnames t (by simp [ht]), ihr fun t ht => hnames t (by simp [ht])⟩
  | conditional _ _ _ _ _ ihc ihy ihn =>
    exact ⟨ihc fun t ht => hnames t (by simp [ht]), ihy fun t ht => hnames t (by simp [ht]),
      ihn fun t ht => hnames t (by simp [ht])⟩
  | binary _ _ _ _ ihl ihr =>
    exact ⟨ihl fun t ht => hnames t (by simp [ht]), ihr fun t ht => hnames t (by simp [ht])⟩
  | unary _ _ ih => exact ih fun t ht => hnames t (by simp [ht])
  | index _ _ _ _ ihb ihi =>
    exact ⟨ihb fun t ht => hnames t (by simp [ht]), ihi fun t ht => hnames t (by simp [ht])⟩
  | member _ hname _ ih => exact ⟨ih fun t ht => hnames t (by simp [ht]), hnames _ (by simp) hname⟩
  | call hname _ _ _ ih => exact ⟨hnames _ (by simp) hname, hargs (fun t ht => by simp [ht]) hnames ih⟩
  | construct _ _ _ _ ih => exact hargs (fun t ht => by simp [ht]) hnames ih
  | var hname => exact hnames _ (by simp) hname
  | lit _ hparse => exact Value.isFinite_of_parse hparse
  | grouped _ _ _ ih => exact ih fun t ht => hnames t (by simp [ht])
  | loosen _ ih => exact ih hnames

/-- An expression that was read from the tokens of a text is legible. -/
theorem legible_of_reads {src : Source} {tokens : List Token} {c c' : Parser.Cursor} {e : Expr}
    (hread : Token.read src = .ok tokens) (hahead : c.ahead ⊆ tokens) (h : Parser.Reads Parser.expression c e c') :
    e.Legible := by
  obtain ⟨ts, hts, -, hok, -⟩ := Parser.walks_expression c
  rw [show Parser.outcome Parser.expression c = _ from h] at hts hok
  have hexpr := (hok e rfl).spelledBy
  refine Expr.Legible.of_bare (legible_of_expression hexpr fun t ht => isName_of_readFrom hread t (hahead ?_))
  rw [hts.ahead]
  exact mem_append_left _ ht

/-! ## Constants that are computed -/

namespace Value

theorem isFinite_neg {v w : Value} (hv : v.isFinite = true) (h : v.neg? = some w) : w.isFinite = true := by
  cases v with
  | bool b => cases h
  | int i =>
    cases h
    rfl
  | float f =>
    have hbits : (magnitudeOfFloat f).2 < infinityBits := of_decide_eq_true hv
    cases h
    show isFiniteFloat (-f) = true
    rw [← floatOfMagnitude_magnitudeOfFloat hbits, neg_floatOfMagnitude _ hbits]
    exact isFiniteFloat_floatOfMagnitude _ hbits

theorem isFinite_of_unary? {op : UnOp} {v w : Value} (hv : v.isFinite = true) (h : unary? op v = some w) :
    w.isFinite = true := by
  cases op with
  | not =>
    cases v with
    | bool b =>
      cases h
      rfl
    | int i => cases h
    | float f => cases h
  | neg => exact isFinite_neg hv h

/-- Results of operators are truth values, or integers, or doubles that were found to be finite. -/
theorem isFinite_of_binary? {op : BinOp} {x y v : Value} (h : binary? op x y = some v) : v.isFinite = true := by
  cases op with
  | assign | update => cases h
  | or | and =>
    simp only [binary?] at h
    split at h
    · cases h
      rfl
    · cases h
  | eq | ne =>
    obtain ⟨b, -, rfl⟩ := Option.map_eq_some_iff.1 h
    rfl
  | compare c =>
    obtain ⟨o, -, rfl⟩ := Option.map_eq_some_iff.1 h
    rfl
  | arith a =>
    simp only [binary?] at h
    unfold arith? at h
    split at h
    · split at h
      · cases h
      · cases h
        rfl
    · dsimp only at h
      split at h
      · rename_i hfinite
        cases h
        exact hfinite
      · cases h
    · cases h

theorem isFinite_convert {v : Value} (hv : v.isFinite = true) (k : Scalar) : (v.convert k).isFinite = true := by
  cases v with
  | bool b => cases k <;> cases b <;> decide
  | int i =>
    cases k with
    | bool | int => rfl
    | float =>
      have hlow := i.minValue_le_toInt
      have hhigh := i.toInt_le
      rw [Int32.toInt_minValue] at hlow
      rw [Int32.toInt_maxValue] at hhigh
      exact decide_eq_true (floatOfInt_finite (by omega))
  | float f =>
    cases k with
    | bool | int => rfl
    | float => exact hv

end Value

/-! ## Terms that are left -/

namespace Check

variable {ctx : Context} {place : Bool} {s s' : Expansion} {t : Typed}

/-- A constant of a type that a sign takes is computed. -/
theorem unary?_of_ty {op : UnOp} {v : Value} {ty : Ty} (h : Ty.unary? op (.ofScalar v.kind) = some ty) :
    ∃ w, Value.unary? op v = some w := by
  cases op <;> cases v <;> first | exact ⟨_, rfl⟩ | cases h

/-- Nothing can be selected from a constant. -/
theorem value?_of_index {b : Typed} (hb : ConstTyped b) {i ty : Ty} (h : Ty.index? b.ty i = some ty) :
    b.term.value? = none := by
  cases hvalue : b.term.value? with
  | none => rfl
  | some v =>
    rw [hb v (value?_eq_some.1 hvalue)] at h
    unfold Ty.index? at h
    split at h
    · cases h
    · cases h

theorem value?_of_swizzle {b : Typed} (hb : ConstTyped b) {letters : Ident} {sw : Swizzle}
    (h : Swizzle.parse? b.ty letters = some sw) : b.term.value? = none := by
  cases hvalue : b.term.value? with
  | none => rfl
  | some v =>
    rw [hb v (value?_eq_some.1 hvalue)] at h
    cases h

theorem value?_of_struct {b : Typed} (hb : ConstTyped b) {x : Ident} (h : b.ty = .struct x) : b.term.value? = none := by
  cases hvalue : b.term.value? with
  | none => rfl
  | some v =>
    rw [hb v (value?_eq_some.1 hvalue)] at h
    cases h

theorem legible_operation {op : BinOp} {ty : Ty} {l r : Typed} (hl : l.term.Legible) (hr : r.term.Legible) :
    (operation op ty l r).term.Legible := by
  rcases operation_cases op ty l r with ⟨x, hx, -, h⟩ | ⟨x, -, -, h⟩ | ⟨x, y, v, -, -, -, -, hv, h⟩ | h
  · rw [h]
    rwa [hx] at hl
  · rwa [h]
  · rw [h]
    exact Value.isFinite_of_binary? hv
  · rw [h]
    exact ⟨hl, hr⟩

theorem legible_unaryOperation {op : UnOp} {ty : Ty} {e : Typed} (he : e.term.Legible) (hconst : ConstTyped e)
    (hty : Ty.unary? op e.ty = some ty) : (unaryOperation op ty e).term.Legible := by
  unfold unaryOperation
  cases hvalue : e.term.value? with
  | none => exact ⟨hvalue, he⟩
  | some v =>
    have hterm := value?_eq_some.1 hvalue
    rw [hconst v hterm] at hty
    obtain ⟨w, hw⟩ := unary?_of_ty hty
    rw [hterm] at he
    simp only [Option.bind_some, hw]
    exact Value.isFinite_of_unary? he hw

theorem legible_conditional {c yes no : Typed} (hc : c.term.Legible) (hyes : yes.term.Legible)
    (hno : no.term.Legible) : (conditional c yes no).term.Legible := by
  rcases conditional_cases c yes no with ⟨v, -, -, h⟩ | ⟨v, -, -, h⟩ | h
  · rwa [h]
  · rwa [h]
  · rw [h]
    exact ⟨hc, hyes, hno⟩

theorem legible_argTerms {ts : List Typed} (h : ∀ t ∈ ts, t.term.Legible) : Term.AllLegible (argTerms ts) := by
  refine Term.allLegible_iff.2 fun a ha => ?_
  obtain ⟨t, ht, rfl⟩ := mem_map.1 ha
  exact h t ht

theorem legible_construction {ty : BasicTy} {ts : List Typed} (h : construction ty ts = .ok t)
    (hts : ∀ t ∈ ts, t.term.Legible) : t.term.Legible := by
  rcases construction_cases h with ⟨k, a, v, -, rfl, hv, rfl⟩ | rfl
  · have ha := hts a mem_cons_self
    rw [hv] at ha
    exact Value.isFinite_convert ha k
  · exact legible_argTerms hts

theorem legible_useVar {x : Ident} {v : Var} (hx : IsName x) (h : useVar place x v = .ok t) : t.term.Legible := by
  unfold useVar at h
  repeat' split at h
  all_goals cases h
  all_goals exact hx

/-- What is left of a legible expression is legible. -/
theorem legible_of_gives {e : Expr} (he : e.Legible) (h : Gives (expr ctx place e) s t s') : t.term.Legible := by
  have hargs : ∀ {args : List Expr} {s₁ s₂ : Expansion} {ts : List Typed}, Expr.AllLegible args →
      (∀ a ∈ args, ∀ {place s t s'}, a.Legible → Gives (expr ctx place a) s t s' → t.term.Legible) →
      Gives (exprs ctx args) s₁ ts s₂ → ∀ t ∈ ts, t.term.Legible := by
    intro args s₁ s₂ ts hlegible ih hts
    exact forall_of_exprs hts fun a ha => ih a ha (Expr.allLegible_iff.1 hlegible a ha)
  induction e generalizing place s t s' with
  | cond c yes no span ihc ihyes ihno =>
    obtain ⟨rfl, c', s₁, yes', s₂, no', hc, -, hyes, hno, -, rfl⟩ := gives_cond.1 h
    exact legible_conditional (ihc he.1 hc) (ihyes he.2.1 hyes) (ihno he.2.2 hno)
  | bin op l r span ihl ihr =>
    obtain ⟨rfl, l', s₁, r', ty, hl, hr, -, -, rfl⟩ := gives_bin.1 h
    split
    · exact ⟨ihl he.1 hl, ihr he.2 hr⟩
    · exact legible_operation (ihl he.1 hl) (ihr he.2 hr)
  | un op e span ih =>
    obtain ⟨rfl, e', ty, he', hty, rfl⟩ := gives_un.1 h
    exact legible_unaryOperation (ih he he') (constTyped_of_gives he') hty
  | index b i span ihb ihi =>
    obtain ⟨b', s₁, i', ty, hb, hi, hty, -, rfl⟩ := gives_index.1 h
    exact ⟨value?_of_index (constTyped_of_gives hb) hty, ihb he.1 hb, ihi he.2 hi⟩
  | member b name span ih =>
    obtain ⟨b', hb, ⟨x, d, ty, hty, -, -, rfl⟩ | ⟨sw, hsw, -, rfl⟩⟩ := gives_member.1 h
    · exact ⟨value?_of_struct (constTyped_of_gives hb) hty, ih he.1 hb, he.2⟩
    · exact ⟨value?_of_swizzle (constTyped_of_gives hb) hsw, ih he.1 hb, he.2⟩
  | call f args span ih =>
    obtain ⟨-, ⟨d, s₁, ts, -, hts, -, rfl⟩ | ⟨overloads, s₁, ts, ty, -, hts, -, rfl⟩ |
      ⟨d, s₁, ts, -, hts, -, rfl⟩⟩ := gives_call.1 h
    all_goals exact ⟨he.1, legible_argTerms (hargs he.2 (fun a ha _ _ _ _ => ih a ha) hts)⟩
  | construct ty args span ih =>
    obtain ⟨-, ts, hts, hc⟩ := gives_construct.1 h
    exact legible_construction hc (hargs he (fun a ha _ _ _ _ => ih a ha) hts)
  | var x span =>
    obtain ⟨v, -, hv⟩ := gives_var.1 h
    exact legible_useVar he hv
  | lit v span =>
    obtain ⟨-, -, rfl⟩ := gives_lit.1 h
    exact he

end Check

end Shading
