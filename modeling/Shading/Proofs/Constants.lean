import Shading.Proofs.NormalForm.Rechecking

/-!
# Constants

The heads of loops, the tests of decided branches and the bounds of an index take a number or a truth value out of a
constant without a look at its kind, and where a decided part is dropped its needs go with it. Whatever is left as a
constant allows for that: it has the type of its kind and needs nothing. Since literals are finite and overflow is left to
the run, it is finite as well.
-/

namespace Shading.Check

/-- What is computed from finite constants is finite. -/
theorem inherited_isFinite : Inherited fun v => v.isFinite = true where
  unary := Value.isFinite_of_unary?
  binary _ _ h := Value.isFinite_of_binary? h
  convert k h := Value.isFinite_convert h k

/-- **Constants have the type of their kind and no effects.** A constant that is left of an expression with literals as
they are written, whatever is in scope, has the type of its kind, needs nothing and is finite. -/
theorem constants_are_typed_pure_finite {ctx : Context} {place : Bool} {e : Expr} {s s' : Expansion} {t : Typed} {v : Value}
    (he : (Node.expr e).LiteralsHave fun w => ∃ lexeme, Value.parse lexeme = .ok w)
    (h : Gives (expr ctx place e) s t s') (hv : t.term = .const v) :
    t.ty = .ofScalar v.kind ∧ t.deps = .none ∧ v.isFinite = true := by
  have hfinite : (Node.expr e).LiteralsHave fun w => w.isFinite = true := fun w span hw =>
    have ⟨_, hparse⟩ := he w span hw
    Value.isFinite_of_parse hparse
  have hconst := constHas_of_gives inherited_isFinite hfinite h v hv
  exact ⟨hconst.1, deps_of_const h hv, hconst.2⟩

/-- The branch that is taken is negated and converted; the other one reads a uniform variable. -/
theorem decided_conversion_is_constant :
    let e : Expr := .cond (.lit (.bool true) .unset)
      (.un .neg (.construct (.scalar .float) [.lit (.int 7) .unset] .unset) .unset) (.var "u" .unset) .unset
    let ctx : Context := ⟨[], fun _ _ => pure (some (.var ⟨.float, .uniformVar "frame"⟩))⟩
    let v : Value := .float (-Number.floatOfInt 7)
    ∃ t, Gives (expr ctx false e) {} t {} ∧ t.term = .const v ∧ t.ty = .float ∧ t.deps = .none ∧ v.isFinite = true := by
  intro e ctx v
  have hgives : Gives (expr ctx false e) {} ⟨.float, .none, .const v⟩ {} := by
    rfl
  have hlit {w : Value} {lexeme : String} (h : Value.parse lexeme = .ok w) :
      (Node.expr (.lit w .unset)).LiteralsHave fun w => ∃ lexeme, Value.parse lexeme = .ok w :=
    .of_children (fun _ _ hw => by cases hw; exact ⟨lexeme, h⟩) (List.forall_mem_nil _)
  have htrue := hlit (show Value.parse "true" = .ok (.bool true) by rfl)
  have hseven := hlit (show Value.parse "7" = .ok (.int 7) by rfl)
  have he : (Node.expr e).LiteralsHave fun w => ∃ lexeme, Value.parse lexeme = .ok w := by
    refine .of_children (by simp [e]) ?_
    rw [Node.children, List.forall_mem_cons, List.forall_mem_cons, List.forall_mem_singleton]
    refine ⟨htrue, ?_, ?_⟩
    · refine .of_children (by simp) (List.forall_mem_singleton.2 ?_)
      exact .of_children (by simp) (List.forall_mem_singleton.2 hseven)
    · exact .of_children (by simp) (List.forall_mem_nil _)
  exact ⟨_, hgives, rfl, constants_are_typed_pure_finite he hgives rfl⟩

end Shading.Check
