import Shading.Proofs.Assignments
import Shading.Proofs.Faults
import Shading.Proofs.Unrolling

/-!
# Cycles of references

The functions and structs that the stages and the types of the interface variables lead to are opened one inside the
other, and a name that is used while it is unfinished is a cycle.

An accepted shader has no cycle among them: what is opened is settled, and so is what it refers to, so every name that
is opened stands above finitely many others. And a cycle that is reported is one.
-/

namespace Shading

open Relation

variable {decls : List Decl} {x : Ident}

namespace Check

section Grounded

/-- Following references from the name comes to an end. -/
def Grounded (decls : List Decl) (x : Ident) : Prop := Acc (fun y x => Refers decls x y) x

theorem grounded_of_settled {builtins : Builtins} (h : Settled builtins decls x) : Grounded decls x := by
  induction h with
  | intro _ _ ih => exact ⟨_, ih⟩

/-- Where a shader is accepted, following references from the stages and the interface comes to an end. -/
theorem grounded_of_program {builtins : Builtins} {shared : Bool} {p : Program} {s' : Expansion}
    (h : Gives (program builtins shared decls) {} p s') (hx : Leads decls x) : Grounded decls x :=
  grounded_of_settled (((ensures_program builtins shared decls).of_gives (faithful_start builtins decls) h).1 x hx)

/-- No reference leads from a grounded name back to it. -/
theorem Grounded.not_cyclic (h : Grounded decls x) : ¬ TransGen (Refers decls) x x := by
  intro hcycle
  rw [← transGen_swap] at hcycle
  have hacc := h.transGen
  clear h
  induction hacc with
  | intro x _ ih => exact ih x hcycle hcycle

end Grounded

theorem blames_program (builtins : Builtins) (shared : Bool) (decls : List Decl) :
    Blames (ReportsCycle decls) (program builtins shared decls) :=
  (founded_program (fun d _ => .any (.decl d)) builtins shared).mono fun _ he => he.cycle

end Check

/-- Opening what is used ends, and finds the cycles. Whatever the shader, the dialect and the builtin functions, the
nested openings do not go deeper than the shader has declarations: unrolling them further, with anything at the
bottom, comes to the same. In an accepted shader no function or struct that the stages or the interface lead to
refers to itself, not even through others or in code that is left out. And where a cycle is reported, the names with
it are one: at least two, from the name back to it, with no other repetition, all of that kind and each referring to
the next, perhaps through others. -/
theorem emit_finds_cycles (d : Dialect) (extra : Builtins) (decls : List Decl) :
    (∀ n, (TopLevel.ofDecls (Builtin.defaults ++ extra) decls).depth ≤ n → ∀ bottom : Unfinished → Globals,
      let top := TopLevel.ofDecls (Builtin.defaults ++ extra) decls
      let m := Check.Method.ofLookup top fun vars => (Check.resolve top vars)^[n] bottom
      Check.program (Builtin.defaults ++ extra) d.sharesDecls decls =
        Check.programBy m d.sharesDecls decls) ∧
    (∀ c, (emit d extra decls).1 = .ok c → ∀ x, Leads decls x → ¬ TransGen (Refers decls) x x) ∧
    (∀ f path span, (emit d extra decls).1 = .error (.refused ⟨.cyclicFn f path, span⟩) →
      Cycle decls Decl.isFn f path) ∧
    (∀ s path span, (emit d extra decls).1 = .error (.refused ⟨.cyclicStruct s path, span⟩) →
      Cycle decls Decl.isStruct s path) := by
  refine ⟨fun n hn bottom => ?_, fun c hc x hx => ?_, fun f path span hf => ?_, fun s path span hs => ?_⟩
  · exact Check.program_unrolled _ _ _ hn bottom
  · obtain ⟨p, hp, -, -⟩ := accepted_of_emit_ok hc
    obtain ⟨s', hgives⟩ := Check.gives_of_check hp
    exact (Check.grounded_of_program hgives hx).not_cyclic
  · obtain ⟨s', ho⟩ := outcome_of_emit_error hf
    exact Check.blames_program _ _ _ _ _ _ ho
  · obtain ⟨s', ho⟩ := outcome_of_emit_error hs
    exact Check.blames_program _ _ _ _ _ _ ho

/-- A function that calls itself through another one, in code that is left out, and a struct that refers to itself
through a function in the place of a type. -/
theorem hidden_cycles_are_found :
    let vec4 : TyExpr := .keyword (.vector .float .four) .unset
    let call (f : Ident) : Expr := .call f [] .unset
    let fn (f : Ident) (body : List Stmt) : Decl := .fn ⟨f, [], some vec4, .mk body .unset, .unset⟩
    let color : Stmt := .returnStmt (some (.var "color" .unset)) .unset
    let never (st : Stmt) : Stmt := .ifStmt (.lit (.bool false) .unset) (.mk [st] .unset) none .unset
    let calls : List Decl := [.varyingVar ⟨"color", vec4, .unset⟩, fn "vertex" [.returnStmt (some (call "f")) .unset],
      fn "f" [never (.exprStmt (call "g") .unset), color], fn "g" [.returnStmt (some (call "f")) .unset],
      fn "fragment" [color]]
    let types : List Decl := [.uniformVar ⟨"u", .named "S" .unset, .unset⟩ none,
      .struct ⟨"S", [⟨"part", .named "f" .unset, .unset⟩], .unset⟩,
      fn "f" [.letStmt "x" (some (.named "S" .unset)) none .unset]]
    (emit (Glsl.dialect {}) [] calls).1 = .error (.refused ⟨.cyclicFn "f" ["f", "g", "f"], .unset⟩) ∧
      Cycle calls Decl.isFn "f" ["f", "g", "f"] ∧
      (emit (Glsl.dialect {}) [] types).1 = .error (.refused ⟨.cyclicStruct "S" ["S", "S"], .unset⟩) ∧
      Cycle types Decl.isStruct "S" ["S", "S"] := by
  intro vec4 call fn color never calls types
  have hcalls : (emit (Glsl.dialect {}) [] calls).1 =
      .error (.refused ⟨.cyclicFn "f" ["f", "g", "f"], .unset⟩) := by decide +kernel
  have htypes : (emit (Glsl.dialect {}) [] types).1 =
      .error (.refused ⟨.cyclicStruct "S" ["S", "S"], .unset⟩) := by decide +kernel
  exact ⟨hcalls, (emit_finds_cycles _ _ _).2.2.1 _ _ _ hcalls, htypes, (emit_finds_cycles _ _ _).2.2.2 _ _ _ htypes⟩

end Shading
