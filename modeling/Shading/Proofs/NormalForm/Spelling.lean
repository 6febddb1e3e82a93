import Shading.Code.Printer
import Shading.Proofs.Literals

/-!
# The expression that a text spells

A dialect that writes names and keywords as they are (`Dialect.Verbatim`) gives emitted expressions a text that can be read
again. `Term.expr` is the expression that this text spells: a term with its operators, calls and selections, and with
a sign of its own in front of each negative constant. The text of a term whose parts are legible scans to tokens that spell
this expression (`scanned_term`).
-/

namespace Shading
open List Token Grammar

/-- Names, keywords and arguments are written as in the source. -/
structure Dialect.Verbatim (d : Dialect) : Prop where
  ident : ∀ x, d.ident x = x
  builtin : ∀ x, d.builtin x = x
  attributeVar : ∀ x, d.attributeVar x = x
  uniformVar : ∀ block x, d.uniformVar block x = x
  varyingVar : ∀ x, d.varyingVar x = x
  keyword : ∀ ty, d.keyword ty = ty.name
  /-- Arguments stand between parentheses, with a comma and perhaps blanks between each two. -/
  args : ∃ k, ∀ deps items,
    d.args deps items = "(" ++ (String.ofList (',' :: List.replicate k ' ')).intercalate items ++ ")"

/-! ## Terms as expressions -/

/-- The expression that the text of a constant spells. -/
def Value.expr (v : Value) : Expr :=
  if v.isNegative then .un .neg (.lit v.magnitude .unset) .unset else .lit v .unset

mutual

/-- The expression that the text of a term spells. -/
def Term.expr : Term → Expr
  | .const v => v.expr
  | .cond test yes no => .cond test.expr yes.expr no.expr .unset
  | .bin op left right => .bin op left.expr right.expr .unset
  | .un op operand => .un op operand.expr .unset
  | .index base i => .index base.expr i.expr .unset
  | .member base name => .member base.expr name .unset
  | .swizzle base letters => .member base.expr letters .unset
  | .call f _ args => .call f (Term.exprAll args) .unset
  | .builtin f args => .call f (Term.exprAll args) .unset
  | .makeStruct s args => .call s (Term.exprAll args) .unset
  | .construct ty args => .construct ty (Term.exprAll args) .unset
  | .attributeVar x => .var x .unset
  | .uniformVar _ x => .var x .unset
  | .varyingVar x => .var x .unset
  | .localVar x => .var x .unset

def Term.exprAll : List Term → List Expr
  | [] => []
  | t :: ts => t.expr :: Term.exprAll ts

end

mutual

/-- The names of the term are names and its constants finite. Nothing is selected from a constant, and no sign stands in
front of one. -/
def Term.Legible : Term → Prop
  | .const v => v.isFinite = true
  | .cond test yes no => test.Legible ∧ yes.Legible ∧ no.Legible
  | .bin _ left right => left.Legible ∧ right.Legible
  | .un _ operand => operand.value? = none ∧ operand.Legible
  | .index base i => base.value? = none ∧ base.Legible ∧ i.Legible
  | .member base name => base.value? = none ∧ base.Legible ∧ IsName name
  | .swizzle base letters => base.value? = none ∧ base.Legible ∧ IsName letters
  | .call f _ args => IsName f ∧ Term.AllLegible args
  | .builtin f args => IsName f ∧ Term.AllLegible args
  | .makeStruct s args => IsName s ∧ Term.AllLegible args
  | .construct _ args => Term.AllLegible args
  | .attributeVar x => IsName x
  | .uniformVar _ x => IsName x
  | .varyingVar x => IsName x
  | .localVar x => IsName x

def Term.AllLegible : List Term → Prop
  | [] => True
  | t :: ts => t.Legible ∧ Term.AllLegible ts

end

/-- Induction over terms, where the arguments of a call are smaller than the call. -/
@[elab_as_elim, induction_eliminator]
theorem Term.induct {P : Term → Prop}
    (const : ∀ v, P (.const v))
    (cond : ∀ test yes no, P test → P yes → P no → P (.cond test yes no))
    (bin : ∀ op left right, P left → P right → P (.bin op left right))
    (un : ∀ op operand, P operand → P (.un op operand))
    (index : ∀ base i, P base → P i → P (.index base i))
    (member : ∀ base name, P base → P (.member base name))
    (swizzle : ∀ base letters, P base → P (.swizzle base letters))
    (call : ∀ f deps args, (∀ a ∈ args, P a) → P (.call f deps args))
    (builtin : ∀ f args, (∀ a ∈ args, P a) → P (.builtin f args))
    (makeStruct : ∀ s args, (∀ a ∈ args, P a) → P (.makeStruct s args))
    (construct : ∀ ty args, (∀ a ∈ args, P a) → P (.construct ty args))
    (attributeVar : ∀ x, P (.attributeVar x))
    (uniformVar : ∀ block x, P (.uniformVar block x))
    (varyingVar : ∀ x, P (.varyingVar x))
    (localVar : ∀ x, P (.localVar x)) (t : Term) : P t := by
  refine @Term.rec P (fun ts => ∀ a ∈ ts, P a) const cond bin un index member swizzle call builtin makeStruct construct
    attributeVar uniformVar varyingVar localVar ?_ ?_ t
  · intro a ha
    cases ha
  · intro t ts ht hts a ha
    rcases mem_cons.1 ha with rfl | ha
    · exact ht
    · exact hts a ha

theorem Term.exprAll_eq (ts : List Term) : Term.exprAll ts = ts.map Term.expr := by
  induction ts with
  | nil => rfl
  | cons t ts ih => rw [Term.exprAll, ih, map_cons]

variable {ts : List Term} {e : Expr} {t : Term} {d : Dialect}

theorem Term.allLegible_iff : Term.AllLegible ts ↔ ∀ t ∈ ts, t.Legible := by
  induction ts with
  | nil => simp [Term.AllLegible]
  | cons t ts ih => rw [Term.AllLegible, ih, forall_mem_cons]

theorem Dialect.terms_eq (d : Dialect) (ts : List Term) : d.terms ts = ts.map d.term := by
  induction ts with
  | nil => rfl
  | cons t ts ih => rw [Dialect.terms, ih, map_cons]

/-! ## Parts of texts -/

namespace Token

/-- A text between parentheses. -/
def Grouped (P : List Token → Prop) (ts : List Token) : Prop :=
  ∃ opening us closing, ts = opening :: (us ++ [closing]) ∧ opening.kind = .leftParen ∧ closing.kind = .rightParen ∧ P us

/-- Two texts with a token of the given kind between them. -/
def Joined (P : List Token → Prop) (k : Kind) (Q : List Token → Prop) (ts : List Token) : Prop :=
  ∃ us t vs, ts = us ++ t :: vs ∧ P us ∧ t.kind = k ∧ Q vs

variable {P Q : List Token → Prop} {cs ds : List Char} {ok : Char → Bool} {C : List Text.Glyph → Prop}

theorem Scans.group (h : Scans cs P (Opens ok)) (hok : ok ')' = true) :
    Scans ('(' :: (cs ++ [')'])) (Grouped P) Anything := by
  have hopen := scans_symbol (c := '(') (k := .leftParen) (by decide) fun _ _ => rfl
  have hclose := scans_symbol (c := ')') (k := .rightParen) (by decide) fun _ _ => rfl
  refine (hopen.andThen (h.before hclose hok)).imp ?_
  rintro ts ⟨os, rest, rfl, ⟨o, rfl, ho, -⟩, us, closing, rfl, hus, c, rfl, hc, -⟩
  exact ⟨o, us, c, rfl, ho, hc, hus⟩

/-- Two texts with a symbol between blanks. -/
theorem Scans.join {symbol : List Char} {k : Kind} {lexeme : String} (h : Scans cs P (Opens ok)) (hok : ok ' ' = true)
    (hsymbol : Scans symbol (IsToken k lexeme) (Opens (· == ' '))) (h' : Scans ds Q C) :
    Scans (cs ++ ' ' :: (symbol ++ ' ' :: ds)) (Joined P k Q) C := by
  have hright : Scans (' ' :: ds) (Then (· = []) Q) C := scans_blank.andThen h'
  have hmiddle : Scans (' ' :: (symbol ++ ' ' :: ds)) _ C := scans_blank.andThen (hsymbol.before hright rfl)
  refine (h.before hmiddle hok).imp ?_
  rintro ts ⟨us, rest, rfl, hus, gap, rest', rfl, rfl, ts', rest'', rfl, ⟨t, rfl, ht, -⟩, gap', vs, rfl, rfl, hvs⟩
  exact ⟨us, t, vs, rfl, hus, ht, hvs⟩

end Token

/-- An expression of a rung is one of every weaker rung. -/
theorem Grammar.Expression.loosenTo {strong weak : Rung} {ts : List Token} (h : Expression strong ts e)
    (hweak : weak.tightness ≤ strong.tightness) : Expression weak ts e := by
  obtain ⟨k, hk⟩ := Nat.exists_eq_add_of_le hweak
  induction k generalizing weak with
  | zero =>
    have hsame : weak = strong := by
      cases weak <;> cases strong <;> first | rfl | cases hk
    rwa [hsame]
  | succ k ih =>
    -- one rung at a time, from the weaker one upwards
    have hnext : weak.next.tightness = weak.tightness + 1 := by
      cases weak with
      | primary => cases strong <;> simp [Rung.tightness] at hk <;> omega
      | _ => rfl
    exact .loosen (ih (by omega) (by omega))

theorem Grammar.Expression.ofPrimary {ts : List Token} (h : Expression .primary ts e) :
    Expression .selection ts e := .loosen h

/-! ## The texts of terms -/

/-- The rung of the expression that the text of a term spells. -/
def Term.rung (t : Term) : Rung := if t.value?.isSome then .unary else .selection

/-- What may follow the text of a term: behind a constant nothing that would be part of it. -/
def Term.stop (t : Term) : Char → Bool := if t.value?.isSome then isClose else isBreak

/-- The text of the term scans to the expression that it spells. -/
def Term.Scanned (d : Dialect) (t : Term) : Prop :=
  Scans (d.term t).toList (fun ts => Expression t.rung ts t.expr) (Opens t.stop)

theorem Term.rung_of_none (h : t.value? = none) : t.rung = .selection := by
  rw [Term.rung, h]
  rfl

theorem Term.stop_of_none (h : t.value? = none) : t.stop = isBreak := by
  rw [Term.stop, h]
  rfl

namespace Term.Scanned

variable {d : Dialect} {t : Term}

/-- What is no constant is a selection and ends by itself. -/
theorem of_selection (hnone : t.value? = none)
    (h : Scans (d.term t).toList (fun ts => Expression .selection ts t.expr) (Opens isBreak)) : t.Scanned d := by
  rw [Term.Scanned, Term.rung_of_none hnone, Term.stop_of_none hnone]
  exact h

theorem selection (h : t.Scanned d) (hnone : t.value? = none) :
    Scans (d.term t).toList (fun ts => Expression .selection ts t.expr) (Opens isBreak) := by
  rw [Term.Scanned, Term.rung_of_none hnone, Term.stop_of_none hnone] at h
  exact h

/-- Every term is an operand in front of what closes an operand. -/
theorem operand (h : t.Scanned d) : Scans (d.term t).toList (fun ts => Expression .unary ts t.expr) (Opens isClose) := by
  cases hvalue : t.value? with
  | none =>
    refine ((h.selection hvalue).imp fun ts hts => .loosen hts).narrow fun rest hrest => ?_
    exact hrest.imp fun c => isBreak_of_isClose
  | some v =>
    rw [Term.Scanned, Term.rung, Term.stop, hvalue] at h
    exact h

/-- A text between parentheses is a selection. -/
theorem of_group {cs : List Char} (hnone : t.value? = none) (htext : (d.term t).toList = '(' :: (cs ++ [')']))
    (hexpr : t.expr = e) (h : Scans cs (fun ts => Expression .assignment ts e) (Opens isClose)) : t.Scanned d := by
  apply of_selection hnone
  rw [htext, hexpr]
  refine ((h.group rfl).imp ?_).narrow fun _ _ => trivial
  rintro ts ⟨opening, us, closing, rfl, hopen, hclose, hus⟩
  exact .ofPrimary (.grouped hopen hclose hus)

end Term.Scanned

/-! ### Constants -/

theorem scans_const {v : Value} (h : v.isFinite = true) :
    Scans v.text.toList (fun ts => Expression .unary ts v.expr) (Opens isClose) := by
  refine (Value.scans_text h).imp ?_
  rintro ts ⟨signs, t, rfl, hsigns, hkind, hparse⟩
  have hlit : Expression .unary [t] (.lit v.magnitude .unset) := by
    refine .loosen (.ofPrimary (.lit ?_ hparse))
    rw [hkind]
    cases v.kind <;> simp [Scalar.literalKind]
  unfold Value.expr
  cases hneg : v.isNegative <;> rw [hneg] at hsigns
  · rw [Value.magnitude, hneg] at hlit
    rw [map_eq_nil_iff.1 hsigns]
    exact hlit
  · obtain ⟨sign, hsign, hkind⟩ := map_eq_singleton_iff.1 hsigns
    rw [hsign]
    exact .unary hkind hlit

/-! ### Names and arguments -/

theorem scans_name {x : Ident} (h : IsName x) : Scans x.toList (IsToken .ident x) (Opens isBreak) := by
  have hscans := scans_word h.1 (by rw [h.2]; decide)
  rwa [h.2] at hscans

theorem isWordText_keyword (ty : BasicTy) : IsWordText ty.name := by
  rcases ty with (_ | _ | _) | ⟨_ | _ | _, _ | _ | _⟩ | (_ | _ | _) <;>
    exact ⟨_, _, rfl, by decide, all_eq_true.1 (by decide)⟩

theorem ofWord_keyword (ty : BasicTy) : Kind.ofWord ty.name = .tyKeyword := by
  rcases ty with (_ | _ | _) | ⟨_ | _ | _, _ | _ | _⟩ | (_ | _ | _) <;> decide

theorem scans_keyword (ty : BasicTy) : Scans ty.name.toList (IsToken .tyKeyword ty.name) (Opens isBreak) := by
  have hscans := scans_word (isWordText_keyword ty) (by rw [ofWord_keyword]; decide)
  rwa [ofWord_keyword] at hscans

theorem keywordTy_of_name {t : Token} {ty : BasicTy} (h : t.lexeme = ty.name) : keywordTy t = ty := by
  rw [keywordTy, h]
  rcases ty with (_ | _ | _) | ⟨_ | _ | _, _ | _ | _⟩ | (_ | _ | _) <;> decide

theorem scans_blanks (k : Nat) : Scans (List.replicate k ' ') (· = []) Anything := by
  induction k with
  | zero =>
    intro p rest _
    refine ⟨[], rfl, ?_⟩
    show readFrom p rest = (readFrom p rest).map _
    cases readFrom p rest <;> rfl
  | succ k ih =>
    refine (scans_blank.andThen ih).imp ?_
    rintro ts ⟨us, vs, rfl, rfl, rfl⟩
    rfl

theorem scans_comma (k : Nat) :
    Scans (',' :: List.replicate k ' ') (fun ts => ∃ t, ts = [t] ∧ t.kind = .comma) Anything := by
  have hcomma := scans_symbol (c := ',') (k := .comma) (by decide) fun _ _ => rfl
  refine (hcomma.andThen (scans_blanks k)).imp ?_
  rintro ts ⟨us, vs, rfl, ⟨t, rfl, ht, -⟩, rfl⟩
  exact ⟨t, rfl, ht⟩

/-- Operands with commas between them are the items of a list. -/
theorem scans_items (k : Nat) (h : ∀ t ∈ ts, t.Scanned d) :
    Scans ((String.ofList (',' :: List.replicate k ' ')).intercalate (ts.map d.term)).toList
      (fun us => Items (Expression .assignment) us (ts.map Term.expr)) (Opens isClose) := by
  induction ts with
  | nil =>
    rw [map_nil, String.intercalate_nil]
    refine ((scans_blanks 0).imp ?_).narrow fun _ _ => trivial
    rintro us rfl
    exact .nil
  | cons t ts ih =>
    have ht := (h t mem_cons_self).operand
    cases ts with
    | nil =>
      rw [map_singleton, String.intercalate_singleton]
      exact ht.imp fun us hus => .last (hus.loosenTo (by decide))
    | cons t' ts =>
      have hrest := ih fun a ha => h a (mem_cons_of_mem _ ha)
      rw [map_cons, map_cons, String.intercalate_cons_cons, String.toList_append, String.toList_append,
        String.toList_ofList, append_assoc]
      refine (ht.before ((scans_comma k).andThen hrest) rfl).imp ?_
      rintro us ⟨as, bs, rfl, has, cs, ds, rfl, ⟨comma, rfl, hcomma⟩, hds⟩
      exact .cons (has.loosenTo (by decide)) hcomma hds

/-- The text of a list of arguments. -/
theorem scans_args (hd : d.Verbatim) (deps : Deps) (h : ∀ t ∈ ts, t.Scanned d) :
    ∃ cs, (d.args deps (d.terms ts)).toList = '(' :: cs ∧
      Scans ('(' :: cs) (Grouped fun us => Items (Expression .assignment) us (Term.exprAll ts)) Anything := by
  obtain ⟨k, hargs⟩ := hd.args
  rw [hargs, Dialect.terms_eq, Term.exprAll_eq, String.toList_append, String.toList_append, append_assoc]
  exact ⟨_, rfl, (scans_items k h).group rfl⟩

/-- A word and arguments. -/
theorem scans_applied (hd : d.Verbatim) (deps : Deps) {w : String} {k : Kind}
    (hw : Scans w.toList (IsToken k w) (Opens isBreak)) (h : ∀ t ∈ ts, t.Scanned d) :
    Scans (w ++ d.args deps (d.terms ts)).toList
      (Then (IsToken k w) (Grouped fun us => Items (Expression .assignment) us (Term.exprAll ts))) (Opens isBreak) := by
  obtain ⟨cs, htext, hargs⟩ := scans_args hd deps h
  rw [String.toList_append, htext]
  exact (hw.before hargs rfl).narrow fun _ _ => trivial

/-- A name and arguments are a call. -/
theorem scans_call (hd : d.Verbatim) (deps : Deps) {f : Ident} (hf : IsName f) (h : ∀ t ∈ ts, t.Scanned d) :
    Scans (f ++ d.args deps (d.terms ts)).toList
      (fun us => Expression .selection us (.call f (Term.exprAll ts) .unset)) (Opens isBreak) := by
  refine (scans_applied hd deps (scans_name hf) h).imp ?_
  rintro us ⟨names, rest, rfl, ⟨name, rfl, hname, rfl⟩, opening, args, closing, rfl, hopen, hclose, hargs⟩
  exact .ofPrimary (.call hname hopen hclose hargs)

theorem scans_var {x : Ident} (h : IsName x) :
    Scans x.toList (fun us => Expression .selection us (.var x .unset)) (Opens isBreak) := by
  refine (scans_name h).imp ?_
  rintro us ⟨name, rfl, hname, rfl⟩
  exact .ofPrimary (.var hname)

/-- A name behind a point selects from what stands before it. -/
theorem scans_member (h : t.Scanned d) (hnone : t.value? = none) {name : Ident} (hname : IsName name) :
    Scans (d.term t ++ "." ++ name).toList
      (fun us => Expression .selection us (.member t.expr name .unset)) (Opens isBreak) := by
  obtain ⟨c, cs, hlist, hc, -⟩ := hname.1
  have hnameScans := scans_name hname
  rw [String.toList_append, String.toList_append, append_assoc]
  rw [hlist] at hnameScans ⊢
  have hdigit : (!c.isDigit) = true := by rw [isDigit_eq_false_of_isWordStart hc]; rfl
  refine ((h.selection hnone).before (scans_dot.before hnameScans hdigit) rfl).imp ?_
  rintro us ⟨bs, rest, rfl, hbs, dots, names, rfl, ⟨dot, rfl, hdot, -⟩, n, rfl, hn, rfl⟩
  exact .member hdot hn hbs

/-! ### All terms -/

section Terms

variable {d : Dialect}

theorem scanned_cond {test yes no : Term} (htest : test.Scanned d) (hyes : yes.Scanned d) (hno : no.Scanned d) :
    (Term.cond test yes no).Scanned d := by
  have hquestion : Scans ['?'] (IsToken .question _) (Opens (· == ' ')) :=
    (scans_symbol (c := '?') (by decide) fun _ _ => rfl).narrow fun _ _ => trivial
  have hcolon : Scans [':'] (IsToken .colon _) (Opens (· == ' ')) :=
    (scans_symbol (c := ':') (by decide) fun _ _ => rfl).narrow fun _ _ => trivial
  refine .of_group rfl ?_ rfl
    ((htest.operand.join rfl hquestion (hyes.operand.join rfl hcolon hno.operand)).imp ?_)
  · simp [Dialect.term]
  · rintro ts ⟨cs, question, rest, rfl, hcs, hq, ys, colon, ns, rfl, hys, hc, hns⟩
    refine .loosen (.conditional hq hc ?_ ?_ ?_)
    · exact hcs.loosenTo (by decide)
    · exact hys.loosenTo (by decide)
    · exact hns.loosenTo (by decide)

theorem scanned_bin (op : BinOp) {l r : Term} (hl : l.Scanned d) (hr : r.Scanned d) : (Term.bin op l r).Scanned d := by
  refine .of_group rfl ?_ rfl ((hl.operand.join rfl (scans_operator op) hr.operand).imp ?_)
  · simp [Dialect.term]
  · rintro ts ⟨ls, sign, rs, rfl, hls, hsign, hrs⟩
    have hrung : rungOf op = .assignment ∨ (rungOf op).isChain = true := by
      rcases op with _ | _ | _ | _ | _ | _ | _ | (_ | _ | _ | _) <;> first | exact .inl rfl | exact .inr rfl
    rcases hrung with hassign | hchain
    · exact .assignment hassign hsign (hls.loosenTo (by decide)) (hrs.loosenTo (by decide))
    · have htight : (rungOf op).next.tightness ≤ Rung.unary.tightness := by
        revert hchain
        cases rungOf op <;> decide
      have hbinary := Expression.binary hchain hsign (hls.loosenTo ((Rung.tightness_le_next _).trans htight))
        (hrs.loosenTo htight)
      exact hbinary.loosenTo (Nat.zero_le _)

/-- What is no constant starts with a parenthesis or a word. -/
theorem starts_term (hd : d.Verbatim) (h : t.Legible) (hnone : t.value? = none) :
    ∃ c cs, (d.term t).toList = c :: cs ∧ (c = '(' ∨ isWordStart (.char c) = true) := by
  have hgroup : ∀ s : String, ∃ c cs, ("(" ++ s).toList = c :: cs ∧ (c = '(' ∨ isWordStart (.char c) = true) := by
    intro s
    exact ⟨'(', s.toList, by simp, .inl rfl⟩
  have hword : ∀ {w : String} (s : String), IsWordText w →
      ∃ c cs, (w ++ s).toList = c :: cs ∧ (c = '(' ∨ isWordStart (.char c) = true) := by
    rintro w s ⟨c, cs, hlist, hc, -⟩
    exact ⟨c, cs ++ s.toList, by rw [String.toList_append, hlist]; rfl, .inr hc⟩
  have hbehind : ∀ {s : String} (s' : String),
      (∃ c cs, s.toList = c :: cs ∧ (c = '(' ∨ isWordStart (.char c) = true)) →
      ∃ c cs, (s ++ s').toList = c :: cs ∧ (c = '(' ∨ isWordStart (.char c) = true) := by
    rintro s s' ⟨c, cs, hlist, hc⟩
    exact ⟨c, cs ++ s'.toList, by rw [String.toList_append, hlist]; rfl, hc⟩
  induction t with
  | const v => cases hnone
  | cond test yes no =>
    simp only [Dialect.term, String.append_assoc]
    exact hgroup _
  | bin op l r =>
    simp only [Dialect.term, String.append_assoc]
    exact hgroup _
  | un op e =>
    simp only [Dialect.term, String.append_assoc]
    exact hgroup _
  | index b i ihb =>
    obtain ⟨hbase, hb, -⟩ := h
    simp only [Dialect.term, String.append_assoc]
    exact hbehind _ (ihb hb hbase)
  | member b name ih =>
    obtain ⟨hbase, hb, -⟩ := h
    simp only [Dialect.term, String.append_assoc]
    exact hbehind _ (ih hb hbase)
  | swizzle b letters ih =>
    obtain ⟨hbase, hb, -⟩ := h
    simp only [Dialect.term, String.append_assoc]
    exact hbehind _ (ih hb hbase)
  | call f deps args =>
    rw [Dialect.term, hd.ident]
    exact hword _ h.1.1
  | builtin f args =>
    rw [Dialect.term, hd.builtin]
    exact hword _ h.1.1
  | makeStruct x args =>
    rw [Dialect.term, hd.ident]
    exact hword _ h.1.1
  | construct ty args =>
    rw [Dialect.term, hd.keyword]
    exact hword _ (isWordText_keyword ty)
  | attributeVar x =>
    rw [Dialect.term, hd.attributeVar, ← String.append_empty (s := x)]
    exact hword _ h.1
  | uniformVar block x =>
    rw [Dialect.term, hd.uniformVar, ← String.append_empty (s := x)]
    exact hword _ h.1
  | varyingVar x =>
    rw [Dialect.term, hd.varyingVar, ← String.append_empty (s := x)]
    exact hword _ h.1
  | localVar x =>
    rw [Dialect.term, hd.ident, ← String.append_empty (s := x)]
    exact hword _ h.1

theorem scanned_un (hd : d.Verbatim) (op : UnOp) (hlegible : t.Legible) (hnone : t.value? = none)
    (h : t.Scanned d) : (Term.un op t).Scanned d := by
  obtain ⟨c, cs, htext, hc⟩ := starts_term hd hlegible hnone
  have hstop : (c != '=' && c != '>') = true := by
    by_contra hne
    simp only [Bool.and_eq_true, bne_iff_ne, not_and_or, not_not] at hne
    rcases hne with rfl | rfl <;> revert hc <;> decide
  have hoperand := h.operand
  rw [htext] at hoperand
  refine .of_group rfl ?_ rfl (((scans_sign op).before hoperand hstop).imp ?_)
  · simp [Dialect.term, htext]
  · rintro ts ⟨signs, us, rfl, ⟨sign, rfl, hsign, -⟩, hus⟩
    exact Expression.loosenTo (.unary hsign hus) (by decide)

theorem scanned_index {b i : Term} (hnone : b.value? = none) (hb : b.Scanned d) (hi : i.Scanned d) :
    (Term.index b i).Scanned d := by
  have hopen := scans_symbol (c := '[') (k := .leftBracket) (by decide) fun _ _ => rfl
  have hclose := scans_symbol (c := ']') (k := .rightBracket) (by decide) fun _ _ => rfl
  have hscans := (hb.selection hnone).before (hopen.andThen (hi.operand.before hclose rfl)) rfl
  refine .of_selection rfl ?_
  have htext : (d.term (.index b i)).toList = (d.term b).toList ++ '[' :: ((d.term i).toList ++ [']']) := by
    simp [Dialect.term]
  rw [htext]
  refine (hscans.imp ?_).narrow fun _ _ => trivial
  rintro us ⟨bs, rest, rfl, hbs, os, rest', rfl, ⟨o, rfl, ho, -⟩, is, cs, rfl, his, c, rfl, hc, -⟩
  exact .index ho hc hbs (his.loosenTo (by decide))

/-- The text of a legible term scans to the expression that it spells. -/
theorem scanned_term (hd : d.Verbatim) (h : t.Legible) : t.Scanned d := by
  induction t with
  | const v => exact scans_const h
  | cond test yes no ihtest ihyes ihno => exact scanned_cond (ihtest h.1) (ihyes h.2.1) (ihno h.2.2)
  | bin op l r ihl ihr => exact scanned_bin op (ihl h.1) (ihr h.2)
  | un op e ih => exact scanned_un hd op h.2 h.1 (ih h.2)
  | index b i ihb ihi => exact scanned_index h.1 (ihb h.2.1) (ihi h.2.2)
  | member b name ih =>
    refine .of_selection rfl ?_
    rw [Dialect.term, hd.ident]
    exact scans_member (ih h.2.1) h.1 h.2.2
  | swizzle b letters ih => exact .of_selection rfl (scans_member (ih h.2.1) h.1 h.2.2)
  | call f deps args ih =>
    refine .of_selection rfl ?_
    rw [Dialect.term, hd.ident]
    exact scans_call hd deps h.1 fun a ha => ih a ha (Term.allLegible_iff.1 h.2 a ha)
  | builtin f args ih =>
    refine .of_selection rfl ?_
    rw [Dialect.term, hd.builtin]
    exact scans_call hd .none h.1 fun a ha => ih a ha (Term.allLegible_iff.1 h.2 a ha)
  | makeStruct x args ih =>
    refine .of_selection rfl ?_
    rw [Dialect.term, hd.ident]
    exact scans_call hd .none h.1 fun a ha => ih a ha (Term.allLegible_iff.1 h.2 a ha)
  | construct ty args ih =>
    refine .of_selection rfl ?_
    rw [Dialect.term, hd.keyword]
    refine (scans_applied hd .none (scans_keyword ty) fun a ha => ih a ha (Term.allLegible_iff.1 h a ha)).imp ?_
    rintro us ⟨names, rest, rfl, ⟨name, rfl, hname, hlexeme⟩, opening, ts, closing, rfl, hopen, hclose, hargs⟩
    have hconstruct := Expression.construct hname hopen hclose hargs
    rw [keywordTy_of_name hlexeme] at hconstruct
    exact .ofPrimary hconstruct
  | attributeVar x =>
    refine .of_selection rfl ?_
    rw [Dialect.term, hd.attributeVar]
    exact scans_var h
  | uniformVar block x =>
    refine .of_selection rfl ?_
    rw [Dialect.term, hd.uniformVar]
    exact scans_var h
  | varyingVar x =>
    refine .of_selection rfl ?_
    rw [Dialect.term, hd.varyingVar]
    exact scans_var h
  | localVar x =>
    refine .of_selection rfl ?_
    rw [Dialect.term, hd.ident]
    exact scans_var h

end Terms

end Shading
