import Shading.Proofs.NormalForm.Rechecking
import Shading.Proofs.Updates.SpelledOut

/-!
# One update and its assignment

Checking `l op= r` is compared with checking `l = l op r`. The assignment checks `l` twice, as a place and as a value, and
the second time finds everything that it needs already open. So both are accepted for the same operands, with the same
type, and leave the same.

Their needs differ where `l` lies in a varying: the place of an update counts as written only, and the value that the
assignment takes from it as read.
-/

namespace Shading

/-- An update is allowed where the operator gives back the type of its left operand. -/
theorem Ty.binary?_update {op : Arith} {l r ty : Ty} :
    Ty.binary? (.update op) l r = some ty ↔ Ty.binary? (.arith op) l r = some l ∧ ty = l := by
  cases l with
  | basic a =>
    cases r with
    | basic b =>
      simp only [Ty.binary?, Ty.basicBinary?, Option.map_eq_some_iff, Option.filter_eq_some_iff, decide_eq_true_eq]
      constructor
      · rintro ⟨c, ⟨hc, rfl⟩, rfl⟩
        exact ⟨⟨c, hc, rfl⟩, rfl⟩
      · rintro ⟨⟨c, hc, heq⟩, rfl⟩
        cases heq
        exact ⟨a, ⟨hc, rfl⟩, rfl⟩
    | void | array | struct => simp [Ty.binary?]
  | void | array | struct => simp [Ty.binary?]

theorem Ty.binary?_assign {l r ty : Ty} : Ty.binary? .assign l r = some ty ↔ l = r ∧ l ≠ .void ∧ ty = l := by
  simp only [Ty.binary?]
  split
  · rename_i h
    simp only [Option.some.injEq, h.1, true_and, ne_eq, h.1 ▸ h.2, not_false_eq_true, eq_comm]
  · rename_i h
    simp only [reduceCtorEq, false_iff]
    rintro ⟨hl, hvoid, -⟩
    exact h ⟨hl, hvoid⟩

/-- Arithmetic works on basic types. -/
theorem Ty.basic_of_arith {op : Arith} {l r ty : Ty} (h : Ty.binary? (.arith op) l r = some ty) :
    ∃ a, l = .basic a := by
  cases l with
  | basic a => exact ⟨a, rfl⟩
  | void | array | struct => simp [Ty.binary?] at h

namespace Check

/-! ## Checking again -/

section Repetition

variable {ctx : Context} {u : Unfinished} {s s' s₁ : Expansion} {t : Typed}

/-- The expression is checked again with the same result, and nothing is left to open. -/
def Repeats (ctx : Context) (u : Unfinished) (s₁ : Expansion) (e : Expr) : Prop :=
  ∀ ⦃place s t s'⦄, Gives (expr ctx place e) s t s' → Grows u s' s₁ → Gives (expr ctx place e) s₁ t s₁

variable (hctx : Remembers u ctx.globals)
include hctx

theorem exprs_repeated {es : List Expr} {ts : List Typed} (ih : ∀ e ∈ es, Repeats ctx u s₁ e)
    (h : Gives (exprs ctx es) s ts s') (hgrows : Grows u s' s₁) : Gives (exprs ctx es) s₁ ts s₁ := by
  induction es generalizing s ts with
  | nil =>
    obtain ⟨rfl, -⟩ := gives_exprs_nil.1 h
    exact gives_exprs_nil.2 ⟨rfl, rfl⟩
  | cons e es ihes =>
    obtain ⟨t, s₂, more, ht, hmore, rfl⟩ := gives_exprs_cons.1 h
    have hfirst := ih e List.mem_cons_self ht (hctx.before_exprs hmore hgrows)
    have hrest := ihes (fun e he => ih e (List.mem_cons_of_mem _ he)) hmore
    exact gives_exprs_cons.2 ⟨t, s₁, more, hfirst, hrest, rfl⟩

/-- An accepted expression is accepted again in every later expansion, with the same result and without opening
anything. -/
theorem expr_repeated (e : Expr) : Repeats ctx u s₁ e := by
  induction e with
  | cond c yes no span ihc ihyes ihno =>
    intro place s t s' h hgrows
    obtain ⟨rfl, c', s₂, yes', s₃, no', hc, hty, hyes, hno, heq, rfl⟩ := gives_cond.1 h
    have hgrows₃ := hctx.before_expr hno hgrows
    have hgrows₂ := hctx.before_expr hyes hgrows₃
    exact gives_cond.2 ⟨rfl, c', s₁, yes', s₁, no', ihc hc hgrows₂, hty, ihyes hyes hgrows₃, ihno hno hgrows, heq, rfl⟩
  | bin op l r span ihl ihr =>
    intro place s t s' h hgrows
    obtain ⟨rfl, l', s₂, r', ty, hl, hr, hty, harr, rfl⟩ := gives_bin.1 h
    have hgrows₂ := hctx.before_expr hr hgrows
    exact gives_bin.2 ⟨rfl, l', s₁, r', ty, ihl hl hgrows₂, ihr hr hgrows, hty,
      fun hop => hasArrays_again (harr hop) hgrows, rfl⟩
  | un op e span ih =>
    intro place s t s' h hgrows
    obtain ⟨rfl, e', ty, he, hty, rfl⟩ := gives_un.1 h
    exact gives_un.2 ⟨rfl, e', ty, ih he hgrows, hty, rfl⟩
  | index b i span ihb ihi =>
    intro place s t s' h hgrows
    obtain ⟨b', s₂, i', ty, hb, hi, hty, hin, rfl⟩ := gives_index.1 h
    have hgrows₂ := hctx.before_expr hi hgrows
    exact gives_index.2 ⟨b', s₁, i', ty, ihb hb hgrows₂, ihi hi hgrows, hty, hin, rfl⟩
  | member b name span ih =>
    intro place s t s' h hgrows
    obtain ⟨b', hb, hcase⟩ := gives_member.1 h
    refine gives_member.2 ⟨b', ih hb hgrows, ?_⟩
    rcases hcase with ⟨x, d, ty, hx, hd, hty, rfl⟩ | hsw
    · exact .inl ⟨x, d, ty, hx, hgrows.struct? hd, hty, rfl⟩
    · exact .inr hsw
  | call f args span ih =>
    intro place s t s' h hgrows
    obtain ⟨rfl, hcase⟩ := gives_call.1 h
    refine gives_call.2 ⟨rfl, ?_⟩
    rcases hcase with ⟨d, s₂, ts, hf, hts, htys, rfl⟩ | ⟨overloads, s₂, ts, ty, hf, hts, hty, rfl⟩ |
      ⟨d, s₂, ts, hf, hts, htys, rfl⟩
    all_goals
      have hf₂ := find_again hctx hf (hctx.before_exprs hts hgrows) span
      have hts₂ := exprs_repeated hctx ih hts hgrows
    · exact .inl ⟨d, s₁, ts, hf₂, hts₂, htys, rfl⟩
    · exact .inr (.inl ⟨overloads, s₁, ts, ty, hf₂, hts₂, hty, rfl⟩)
    · exact .inr (.inr ⟨d, s₁, ts, hf₂, hts₂, htys, rfl⟩)
  | construct ty args span ih =>
    intro place s t s' h hgrows
    obtain ⟨rfl, ts, hts, ht⟩ := gives_construct.1 h
    exact gives_construct.2 ⟨rfl, ts, exprs_repeated hctx ih hts hgrows, ht⟩
  | var x span =>
    intro place s t s' h hgrows
    obtain ⟨v, hv, ht⟩ := gives_var.1 h
    exact gives_var.2 ⟨v, find_again hctx hv hgrows span, ht⟩
  | lit v span =>
    intro place s t s' h hgrows
    obtain ⟨rfl, -, rfl⟩ := gives_lit.1 h
    exact gives_lit.2 ⟨rfl, rfl, rfl⟩

omit hctx in
/-- What can be stored into can be read, with the same type and code. -/
theorem value_of_place {e : Expr} (h : Gives (expr ctx true e) s t s') :
    ∃ v, Gives (expr ctx false e) s v s' ∧ v.ty = t.ty ∧ v.term = t.term := by
  induction e generalizing s t s' with
  | cond => cases (gives_cond.1 h).1
  | bin => cases (gives_bin.1 h).1
  | un => cases (gives_un.1 h).1
  | index b i span ihb =>
    obtain ⟨b', s₂, i', ty, hb, hi, hty, hin, rfl⟩ := gives_index.1 h
    obtain ⟨v, hv, hvty, hvterm⟩ := ihb hb
    rw [← hvty] at hty hin
    exact ⟨_, gives_index.2 ⟨v, s₂, i', ty, hv, hi, hty, hin, rfl⟩, rfl, by rw [hvterm]⟩
  | member b name span ih =>
    obtain ⟨b', hb, hcase⟩ := gives_member.1 h
    obtain ⟨v, hv, hvty, hvterm⟩ := ih hb
    rcases hcase with ⟨x, d, ty, hx, hd, hty, rfl⟩ | ⟨sw, hsw, -, rfl⟩
    · exact ⟨_, gives_member.2 ⟨v, hv, .inl ⟨x, d, ty, hvty.trans hx, hd, hty, rfl⟩⟩, rfl, by rw [hvterm]⟩
    · rw [← hvty] at hsw
      exact ⟨_, gives_member.2 ⟨v, hv, .inr ⟨sw, hsw, by simp, rfl⟩⟩, rfl, by rw [hvterm]⟩
  | call => cases (gives_call.1 h).1
  | construct => cases (gives_construct.1 h).1
  | var x span =>
    obtain ⟨v, hv, ht⟩ := gives_var.1 h
    have hread : ∃ r, useVar false x v = .ok r ∧ r.ty = t.ty ∧ r.term = t.term := by
      unfold useVar at ht ⊢
      cases hkind : v.kind with
      | attributeVar => simp [hkind] at ht
      | uniformVar => simp [hkind] at ht
      | localVar mutable =>
        simp only [hkind] at ht ⊢
        split at ht
        · cases ht
        · cases ht
          exact ⟨_, rfl, rfl, rfl⟩
      | varyingVar =>
        simp only [hkind] at ht ⊢
        cases ht
        exact ⟨_, rfl, rfl, rfl⟩
    obtain ⟨r, hr, hty, hterm⟩ := hread
    exact ⟨r, gives_var.2 ⟨v, hv, hr⟩, hty, hterm⟩
  | lit => cases (gives_lit.1 h).1

end Repetition

/-! ## One update -/

section Update

variable {ctx : Context} {u : Unfinished} {place : Bool} {s s' : Expansion} {t t' : Typed} {op : Arith} {l r : Expr}
  {span span₁ : Span}

/-- A step has one outcome. -/
theorem gives_unique {α : Type} {m : Check α} {a b : α} {s s₁ s₂ : Expansion} (ha : Gives m s a s₁) (hb : Gives m s b s₂) :
    a = b ∧ s₁ = s₂ := by
  simpa using ha.symm.trans hb

/-- The place of an accepted assignment is read with the same code and opens nothing again. -/
theorem read_again (hctx : Remembers u ctx.globals) {l' : Typed} (h : Gives (expr ctx true l) s l' s') :
    ∃ v, Gives (expr ctx false l) s' v s' ∧ v.ty = l'.ty ∧ v.term = l'.term := by
  have hagain := expr_repeated hctx l h ((frame_grows u).refl s')
  exact value_of_place hagain

/-- A place is no constant, so arithmetic on its value is left to be done. -/
theorem operation_of_place {l' v : Typed} (h : Gives (expr ctx true l) s l' s')
    (hv : v.term = l'.term) (op : Arith) (ty : Ty) (r' : Typed) :
    operation (.arith op) ty v r' = ⟨ty, v.deps.union r'.deps, .bin (.arith op) l'.term r'.term⟩ := by
  have hstrict : BinOp.arith op ≠ .or ∧ BinOp.arith op ≠ .and := by simp
  rcases operation_strict hstrict.1 hstrict.2 ty v r' with ⟨x, -, -, hx, -⟩ | heq
  · cases place_of_const h (hv.symm.trans hx)
  · rw [heq, hv]

/-- What becomes of an assignment that writes an update out. -/
theorem gives_writtenOut (hctx : Remembers u ctx.globals) :
    Gives (expr ctx place (.bin .assign l (.bin (.arith op) l r span₁) span)) s t s' ↔
      place = false ∧ ∃ l' s₁ v r', Gives (expr ctx true l) s l' s₁ ∧
        Gives (expr ctx false l) s₁ v s₁ ∧ v.ty = l'.ty ∧ v.term = l'.term ∧
        Gives (expr ctx false r) s₁ r' s' ∧ Ty.binary? (.arith op) l'.ty r'.ty = some l'.ty ∧
        t = ⟨l'.ty, l'.deps.union (v.deps.union r'.deps),
          .bin .assign l'.term (.bin (.arith op) l'.term r'.term)⟩ := by
  constructor
  · intro h
    obtain ⟨rfl, l', s₁, e, ty, hl, he, hty, -, rfl⟩ := gives_bin.1 h
    obtain ⟨-, v', s₂, r', ty', hv', hr, hty', -, rfl⟩ := gives_bin.1 he
    obtain ⟨v, hv, hvty, hvterm⟩ := read_again hctx hl
    obtain ⟨rfl, rfl⟩ := gives_unique hv hv'
    have hop := operation_of_place hl hvterm op ty' r'
    simp only [BinOp.isAssignment, Bool.false_eq_true, if_false, hop] at hty
    obtain ⟨rfl, -, rfl⟩ := Ty.binary?_assign.1 hty
    refine ⟨rfl, l', s₁, v, r', hl, hv, hvty, hvterm, hr, hvty ▸ hty', ?_⟩
    simp only [BinOp.isAssignment, Bool.false_eq_true, if_true, if_false, hop]
  · rintro ⟨rfl, l', s₁, v, r', hl, hv, hvty, hvterm, hr, hty, rfl⟩
    obtain ⟨b, hb⟩ := Ty.basic_of_arith hty
    have hop := operation_of_place hl hvterm op l'.ty r'
    have hvalue : Gives (expr ctx false (.bin (.arith op) l r span₁)) s₁
        ⟨l'.ty, v.deps.union r'.deps, .bin (.arith op) l'.term r'.term⟩ s' :=
      gives_bin.2 ⟨rfl, v, s₁, r', l'.ty, hv, hr, hvty ▸ hty, by simp, hop.symm⟩
    have hassign : Ty.binary? .assign l'.ty l'.ty = some l'.ty :=
      Ty.binary?_assign.2 ⟨rfl, by simp [hb], rfl⟩
    refine gives_bin.2 ⟨rfl, l', s₁, _, l'.ty, hl, hvalue, hassign, fun _ => ?_, rfl⟩
    rw [hb]
    exact gives_pure.2 ⟨rfl, rfl⟩

/-- The value of the place is needed on top, and that makes a difference only in a varying. -/
theorem deps_writtenOut {e e' : Expr} {ty : Ty} {d d' : Deps} {l' r' : Term} {s₁ s₂ : Expansion}
    (h : Gives (expr ctx false e) s ⟨ty, d, .bin (.update op) l' r'⟩ s₁)
    (h' : Gives (expr ctx false e') s ⟨ty, d', .bin .assign l' (.bin (.arith op) l' r')⟩ s₂) :
    d' = d.reading l'.inVarying :=
  (Term.adds_ofBin (.update op) false l' r').deps_eq (exact_of_expr h) (exact_of_expr h')

/-- An update and the assignment that writes it out are accepted alike, with the same type and for the same operands. The
needs of the assignment are those of the update, and to read varyings if the place lies in one. -/
theorem writtenOut_iff_update (hctx : Remembers u ctx.globals) :
    Gives (expr ctx place (.bin .assign l (.bin (.arith op) l r span₁) span)) s t' s' ↔
      ∃ l' r' t, Gives (expr ctx place (.bin (.update op) l r span)) s t s' ∧
        t.term = .bin (.update op) l' r' ∧
        t' = ⟨t.ty, t.deps.reading l'.inVarying, .bin .assign l' (.bin (.arith op) l' r')⟩ := by
  constructor
  · intro h
    obtain ⟨rfl, l', s₁, v, r', hl, hv, hvty, hvterm, hr, hty, rfl⟩ := (gives_writtenOut hctx).1 h
    have hupdate : Gives (expr ctx false (.bin (.update op) l r span)) s
        ⟨l'.ty, l'.deps.union r'.deps, .bin (.update op) l'.term r'.term⟩ s' :=
      gives_bin.2 ⟨rfl, l', s₁, r', l'.ty, hl, hr, Ty.binary?_update.2 ⟨hty, rfl⟩, by simp, rfl⟩
    exact ⟨l'.term, r'.term, _, hupdate, rfl, by rw [deps_writtenOut hupdate h]⟩
  · rintro ⟨l', r', t, hupdate, hterm, rfl⟩
    obtain ⟨rfl, lt, s₁, rt, ty, hl, hr, hty, -, rfl⟩ := gives_bin.1 hupdate
    obtain ⟨harith, rfl⟩ := Ty.binary?_update.1 hty
    obtain ⟨v, hv, hvty, hvterm⟩ := read_again hctx hl
    cases hterm
    have h : Gives (expr ctx false (.bin .assign l (.bin (.arith op) l r span₁) span)) s _ s' :=
      (gives_writtenOut hctx).2 ⟨rfl, lt, s₁, v, rt, hl, hv, hvty, hvterm, hr, harith, rfl⟩
    rw [deps_writtenOut hupdate h] at h
    exact h

end Update

end Check

end Shading
