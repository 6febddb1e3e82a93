import Shading.Proofs.Alarms
import Shading.Proofs.DeclarationOrder
import Shading.Proofs.Parentheses

/-!
# Compiling never gets stuck

What the compiler takes for granted holds. When something of a struct type comes up, the struct has been opened, as long
as no builtin function returns one; there is a scope whenever a name is bound or compared with the names in it; and an
assignment that is a statement of its own has a pair of parentheses around it that can be left out.
-/

namespace Shading

def Expr.isAssignment : Expr → Bool
  | .bin op _ _ _ => op.isAssignment
  | _ => false

namespace Check

variable {fc : FnContext} {inLoop : Bool} {outer : List (Scope Var)} {inner : Scope Var} {e : Expr} {span : Span}
  {s s' : Expansion} {r : Scope Var × Option Kept}

/-- What is kept of an assignment is an assignment. -/
theorem term_of_assignment {ctx : Context} {t : Typed} (h : Gives (expr ctx false e) s t s')
    (he : e.isAssignment = true) : ∃ op l r, t.term = .bin op l r ∧ Code.ofExpr e t.term = .assign op l r := by
  cases e with
  | bin op l r span =>
    obtain ⟨-, l', s₁, r', ty, -, -, -, -, rfl⟩ := gives_bin.1 h
    have hop : op.isAssignment = true := he
    refine ⟨op, l'.term, r'.term, ?_, ?_⟩
    · rw [if_pos hop]
    · rw [if_pos hop, Code.ofExpr, if_pos hop]
  | _ => cases he

theorem ofExpr_of_not_assignment (he : e.isAssignment = false) (t : Term) : Code.ofExpr e t = .eval t := by
  unfold Code.ofExpr
  split
  · rw [show BinOp.isAssignment _ = false from he]
    rfl
  · rfl

/-- The text of an expression that is a statement. Only an assignment loses parentheses, namely those at both ends of
its text, of which the last one closes the first where the dialect writes balanced texts. -/
theorem text_of_exprStmt (d : Dialect) (he : e.Legible)
    (h : Gives (stmt fc inLoop outer inner (.exprStmt e span)) s r s') :
    ∃ t code, Gives (expr ⟨inner :: outer, fc.globals⟩ false e) s t s' ∧ r = (inner, some ⟨t.deps, code, []⟩) ∧
      (e.isAssignment = false → d.code code = d.term t.term ++ ";") ∧
      (e.isAssignment = true → ∃ bare, d.term t.term = "(" ++ bare ++ ")" ∧ d.code code = bare ++ ";" ∧
        (d.Balances → closesAtEnd 1 (bare.toList ++ [')']) = true)) := by
  obtain ⟨t, ht, rfl⟩ := gives_exprStmt h
  refine ⟨t, _, ht, rfl, fun hother => ?_, fun hassign => ?_⟩
  · rw [ofExpr_of_not_assignment hother]
    rfl
  · obtain ⟨op, l, r, hterm, hcode⟩ := term_of_assignment ht hassign
    have hlegible := legible_of_gives he ht
    rw [hterm] at hlegible
    rw [hcode, hterm]
    refine ⟨d.assignment op l r, d.term_bin op l r, rfl, fun hd => ?_⟩
    exact (balanced_assignment op (hd.term hlegible.1) (hd.term hlegible.2)).closes

end Check

/-- Compiling never gets stuck, whatever the shader and the dialect, if no builtin function returns a struct. Watching
the check for types with an unopened struct and for names without a scope to bind them in changes nothing, whatever
fault an alarm would be. No struct is found unopened. And of the text of an expression that is a statement, nothing is
left out but, if it is an assignment, one pair of parentheses around it. -/
theorem emit_never_stuck {extra : Builtins} (hextra : extra.resultStructs = []) (d : Dialect) (decls : List Decl) :
    (∀ alarm : Check.Alarm → Fault,
      (Check.watchProgram alarm (Builtin.defaults ++ extra) d.sharesDecls decls).outcome {} =
        (Check.program (Builtin.defaults ++ extra) d.sharesDecls decls).outcome {}) ∧
    (∀ x, (emit d extra decls).1 ≠ .error (.unopened x)) ∧
    (∀ {src : Source} {e : Expr}, e.OccursIn src → ∀ {fc inLoop outer inner span s r s'},
      Check.Gives (Check.stmt fc inLoop outer inner (.exprStmt e span)) s r s' →
      ∃ t code, Check.Gives (Check.expr ⟨inner :: outer, fc.globals⟩ false e) s t s' ∧
        r = (inner, some ⟨t.deps, code, []⟩) ∧
        (e.isAssignment = false → d.code code = d.term t.term ++ ";") ∧
        (e.isAssignment = true → ∃ bare, d.term t.term = "(" ++ bare ++ ")" ∧ d.code code = bare ++ ";" ∧
          (d.Balances → closesAtEnd 1 (bare.toList ++ [')']) = true))) := by
  have hb : (Builtin.defaults ++ extra).resultStructs = [] := by rw [resultStructs_defaults, hextra]
  refine ⟨fun alarm => (Check.alike_program hb).outcome_eq, fun x hx => ?_, fun hoccurs => ?_⟩
  · obtain ⟨s', hs'⟩ := outcome_of_emit_error hx
    have halike : Check.Alike Eq {} (Check.program (Builtin.defaults ++ extra) d.sharesDecls decls)
        (Check.watchProgram (fun _ => .unopened x) (Builtin.defaults ++ extra) d.sharesDecls decls) :=
      Check.alike_program hb
    exact halike.safe x (by rw [hs'])
  · exact Check.text_of_exprStmt d hoccurs.legible

/-- Structs inside structs and inside arrays are opened where they come up, and an assignment whose text ends with
several parentheses loses one of them. -/
theorem nested_structs_are_opened :
    let vec3 : TyExpr := .keyword (.vector .float .three) .unset
    let vec4 : TyExpr := .keyword (.vector .float .four) .unset
    let int (i : Int32) : Expr := .lit (.int i) .unset
    let noise : Builtin := ⟨"noise", [⟨[.float], .float⟩]⟩
    let light : Expr := .index (.member (.var "spot" .unset) "lights" .unset) (int 1) .unset
    let level : Expr := .call "noise" [.construct (.scalar .float) [int 1] .unset] .unset
    let color : Expr := .construct (.vector .float .four) [level] .unset
    let decls : List Decl := [.fn ⟨"vertex", [], some vec4, .mk
        [.letStmt "spot" none (some (.var "scene" .unset)) .unset,
          .exprStmt (.bin .assign (.member light "position" .unset)
            (.construct (.vector .float .three) [int 1] .unset) .unset) .unset,
          .returnStmt (some color) .unset] .unset, .unset⟩,
      .fn ⟨"fragment", [], some vec4, .mk [.returnStmt (some color) .unset] .unset, .unset⟩,
      .uniformVar ⟨"scene", .named "Scene" .unset, .unset⟩ none,
      .struct ⟨"Scene", [⟨"lights", .array (.named "Light" .unset) 2 .unset, .unset⟩], .unset⟩,
      .struct ⟨"Light", [⟨"position", vec3, .unset⟩], .unset⟩]
    let scope : Scope Var := (Scope.empty.insert? "level" ⟨.basic (.scalar .int), .localVar true⟩).getD .empty
    let fc : Check.FnContext := ⟨Check.globals ⟨[], [], []⟩ .empty 1 {}, .void⟩
    Builtins.resultStructs [noise] = [] ∧ (∃ c : Compiled, (emit (Glsl.dialect {}) [noise] decls).1 = .ok c) ∧
    (∀ alarm : Check.Alarm → Fault,
      (Check.watchProgram alarm (Builtin.defaults ++ [noise]) (Glsl.dialect {}).sharesDecls decls).outcome {} =
        (Check.program (Builtin.defaults ++ [noise]) (Glsl.dialect {}).sharesDecls decls).outcome {}) ∧
    ∃ (e : Expr) (t : Typed) (s : Expansion) (code : Code) (bare : String),
      Expr.ofText? "level = 2 * (level + (level - 1))" = some e ∧
      Check.Gives (Check.stmt fc false [] scope (.exprStmt e .unset)) {} (scope, some ⟨t.deps, code, []⟩) s ∧
      (Glsl.dialect {}).term t.term = "(" ++ bare ++ ")" ∧ (Glsl.dialect {}).code code = bare ++ ";" ∧
      closesAtEnd 1 (bare.toList ++ [')']) = true := by
  intro vec3 vec4 int noise light level color decls scope fc
  have hrun : (Expr.ofText? "level = 2 * (level + (level - 1))").any (fun e => e.isAssignment &&
      ((Check.stmt fc false [] scope (.exprStmt e .unset)).outcome {}).1.toOption.isSome) = true := by decide +kernel
  obtain ⟨p, events, -, h, -⟩ := emit_of_check
    (show (Program.check (Builtin.defaults ++ [noise]) (Glsl.dialect {}).sharesDecls decls).1.toOption.any
      (fun _ => true) = true by decide +kernel)
  have hnoise : Builtins.resultStructs [noise] = [] := rfl
  clear_value decls noise
  obtain ⟨hwatch, -, htext⟩ := emit_never_stuck hnoise (Glsl.dialect {}) decls
  refine ⟨hnoise, ⟨_, congrArg Prod.fst h⟩, hwatch, ?_⟩
  obtain ⟨e, he, hrun⟩ := (Option.any_eq_true _ _).1 hrun
  obtain ⟨hassign, hok⟩ := Bool.and_eq_true_iff.1 hrun
  rcases ho : (Check.stmt fc false [] scope (.exprStmt e .unset)).outcome {} with ⟨r, s⟩
  rw [ho] at hok
  cases r with
  | error _ => cases hok
  | ok r =>
    obtain ⟨t, code, -, rfl, -, hbare⟩ := htext (Expr.occursIn_of_ofText? he) ho
    obtain ⟨bare, hterm, hcode, hcloses⟩ := hbare hassign
    exact ⟨e, t, s, code, bare, he, ho, hterm, hcode, hcloses (Glsl.balances {})⟩

/-- A builtin function that returns a struct opens nothing, so that the struct may be missing. -/
example :
    let light : Builtin := ⟨"light", [⟨[], .struct "Light"⟩]⟩
    let vec4 : TyExpr := .keyword (.vector .float .four) .unset
    let body : Block := .mk [.returnStmt (some (.member (.call "light" [] .unset) "color" .unset)) .unset] .unset
    (emit (Glsl.dialect {}) [light] [.fn ⟨"vertex", [], some vec4, body, .unset⟩,
      .struct ⟨"Light", [⟨"color", vec4, .unset⟩], .unset⟩]).1 = .error (.unopened "Light") := by
  decide +kernel

end Shading
