import Shading.Dialect.Plain
import Shading.Proofs.Grammar.Completeness
import Shading.Proofs.NormalForm.Rechecking

/-!
# Emitted expressions are expressions

A dialect that changes no name writes an accepted expression as an expression of this language. The text is read to its
end, and what is read is accepted where the first expression was, with the same type, the same needs and the same text
(`emitted_expr_normal`). So what is emitted is a normal form: emitting once more changes nothing, and no sign, digit or
parenthesis of the text groups otherwise than the term it stands for.
-/

namespace Shading
open Check Grammar

namespace Expr

/-- The expression that a text spells from its beginning to its end. -/
def ofText? (text : String) : Option Expr :=
  match Token.read (.ofString text) with
  | .error _ => none
  | .ok tokens =>
    match Parser.outcome Parser.expression ⟨Parser.endToken, tokens⟩ with
    | (.ok e, c) => if c.peek.kind = .eof then some e else none
    | (.error _, _) => none

/-- The expression is read somewhere in the source. -/
def OccursIn (src : Source) (e : Expr) : Prop :=
  ∃ tokens c c', Token.read src = .ok tokens ∧ c.ahead <:+ tokens ∧ Parser.Reads Parser.expression c e c'

variable {text : String} {e : Expr}

theorem ofText?_eq_some :
    ofText? text = some e ↔ ∃ tokens c, Token.read (.ofString text) = .ok tokens ∧
      Parser.Reads Parser.expression ⟨Parser.endToken, tokens⟩ e c ∧ c.peek.kind = .eof := by
  unfold ofText?
  constructor
  · intro h
    split at h
    · cases h
    · rename_i tokens hread
      split at h
      · rename_i e' c hparse
        split at h
        · rename_i hend
          cases h
          exact ⟨tokens, c, hread, hparse, hend⟩
        · cases h
      · cases h
  · rintro ⟨tokens, c, hread, hparse, hend⟩
    rw [hread]
    dsimp only
    rw [show Parser.outcome Parser.expression ⟨Parser.endToken, tokens⟩ = (.ok e, c) from hparse]
    exact if_pos hend

/-- A text that is an expression has the expression in it. -/
theorem occursIn_of_ofText? (h : ofText? text = some e) : e.OccursIn (.ofString text) := by
  obtain ⟨tokens, c, hread, hparse, -⟩ := ofText?_eq_some.1 h
  exact ⟨tokens, _, c, hread, List.suffix_refl tokens, hparse⟩

theorem OccursIn.legible {src : Source} (h : e.OccursIn src) : e.Legible := by
  obtain ⟨tokens, c, c', hread, hsuffix, hparse⟩ := h
  exact legible_of_reads hread hsuffix.subset hparse

end Expr

/-- The text of a term spells its expression and nothing else. -/
theorem Dialect.Verbatim.ofText?_term {d : Dialect} {t : Term} (hd : d.Verbatim) (h : t.Legible) :
    ∃ e, Expr.ofText? (d.term t) = some e ∧ e.bare = t.expr := by
  obtain ⟨ts, stop, hts, hstop, hread⟩ := (scanned_term hd h).operand.read (Token.opens_nil _)
  have hloose : Expression .assignment ts t.expr := hts.loosenTo (by decide)
  have hends : Parser.Ends .assignment (Parser.firstKind [stop]) :=
    .of_none (by rw [Parser.firstKind_cons, hstop]; rfl)
  obtain ⟨e, c, hparse, hc, hbare⟩ := Parser.accepts_expression hloose (c := ⟨Parser.endToken, ts ++ [stop]⟩) rfl hends
  have hend : c.peek.kind = .eof := by rw [Parser.Cursor.kind_peek, hc, Parser.firstKind_cons, hstop]
  exact ⟨e, Expr.ofText?_eq_some.2 ⟨_, c, hread, hparse, hend⟩, hbare⟩

/-- The text of a sum has parentheses, which are read with it. -/
example : (Expr.ofText? "(x + 2.0)").isSome = true := by decide +kernel

/-- Emitting comes to an end after one step. An accepted expression of some source is written as a text that is read to its
end as an expression. In the same scopes, with what has been opened by then or later, this one is accepted and leaves the
same: the same type, the same needs and the same term, hence the same text. Nothing new is opened for it. -/
theorem emitted_expr_normal {d : Dialect} (hd : d.Verbatim) {src : Source} {e : Expr} (hoccurs : e.OccursIn src)
    {top : TopLevel} {vars : Scope Var} {n : Nat} {u : Unfinished} {scopes : List (Scope Var)} {place : Bool}
    {s s' : Expansion} {t : Typed} (h : Gives (expr ⟨scopes, globals top vars n u⟩ place e) s t s') :
    ∃ e', Expr.ofText? (d.term t.term) = some e' ∧
      ∀ s₁, Grows u s' s₁ → Gives (expr ⟨scopes, globals top vars n u⟩ place e') s₁ t s₁ := by
  have hlegible := hoccurs.legible
  obtain ⟨e', htext, hbare⟩ := hd.ofText?_term (legible_of_gives hlegible h)
  exact ⟨e', htext, fun s₁ hgrows => gives_again (remembers_globals top vars n u) hlegible h hgrows hbare⟩

/-- The plain dialect where names do not say where they come from. -/
def Plain.unmarked : Dialect :=
  { Plain.dialect {} with builtin := id, attributeVar := id, uniformVar := fun _ x => x, varyingVar := id }

theorem Plain.unmarked_verbatim : Plain.unmarked.Verbatim where
  ident _ := rfl
  builtin _ := rfl
  attributeVar _ := rfl
  uniformVar _ _ := rfl
  varyingVar _ := rfl
  keyword _ := rfl
  args := ⟨1, fun deps items => by
    show "(" ++ ", ".intercalate items ++ "" ++ ")" = _
    rw [String.append_empty]
    rfl⟩

/-- A comparison with parts that are computed and parts that are dropped is written with the signs, exponents and
parentheses that are left, and its text is written as it stands. -/
theorem folded_comparison_is_normal :
    let float : TyExpr := .keyword (.scalar .float) .unset
    let half : FnDecl := ⟨"half", [⟨"x", float, .unset⟩], some float,
      .mk [.returnStmt (some (.bin (.arith .div) (.var "x" .unset) (.lit (.float 2.0) .unset) .unset)) .unset] .unset, .unset⟩
    let ray : StructDecl := ⟨"Ray", [⟨"dir", .keyword (.vector .float .three) .unset, .unset⟩], .unset⟩
    let scope : Scope Var := (Scope.empty.insert? "x" ⟨.basic (.scalar .float), .localVar true⟩).getD .empty
    let ctx : Context := ⟨[scope], globals ⟨[half], [ray], []⟩ .empty 3 {}⟩
    let text := "((x - ((-half(-2.0)) * (2.0 + x))) >= Ray(vec3(x, -2e+25, 0.25)).dir.zyx[2])"
    ∃ e t s e', Expr.ofText? ("1 > 2 && half(x) > 0.0 || x - -half(3.0 - 5.0) * (2.0 + x) >= " ++
        "(true ? Ray(vec3(x, -2e10 * 1e15, 1.0 / 4.0)).dir.zyx[3 - 1] : half(x))") = some e ∧
      Gives (expr ctx false e) {} t s ∧ Plain.unmarked.term t.term = text ∧
      Expr.ofText? text = some e' ∧ Gives (expr ctx false e') s t s := by
  intro float half ray scope ctx text
  have hrun : (Expr.ofText? ("1 > 2 && half(x) > 0.0 || x - -half(3.0 - 5.0) * (2.0 + x) >= " ++
      "(true ? Ray(vec3(x, -2e10 * 1e15, 1.0 / 4.0)).dir.zyx[3 - 1] : half(x))")).bind
      (fun e => ((expr ctx false e).outcome {}).1.toOption.map fun t => Plain.unmarked.term t.term) = some text := by
    decide +kernel
  obtain ⟨e, he, hrun⟩ := Option.bind_eq_some_iff.1 hrun
  obtain ⟨t, ht, htext⟩ := Option.map_eq_some_iff.1 hrun
  obtain ⟨s, h⟩ : ∃ s, Gives (expr ctx false e) {} t s := by
    refine ⟨((expr ctx false e).outcome {}).2, Prod.ext ?_ rfl⟩
    cases hr : ((expr ctx false e).outcome {}).1 with
    | error _ => rw [hr] at ht; cases ht
    | ok a => rw [hr] at ht; cases ht; rfl
  obtain ⟨e', he', hagain⟩ := emitted_expr_normal Plain.unmarked_verbatim (Expr.occursIn_of_ofText? he) h
  rw [htext] at he'
  exact ⟨e, t, s, e', he, h, htext, he', hagain s ((frame_grows _).refl s)⟩

/-- A text with something behind the expression is none. -/
example : (Expr.ofText? "x - 2.0 y").isSome = false := by decide +kernel

end Shading
