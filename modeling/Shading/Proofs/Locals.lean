import Shading.Proofs.Evaluation
import Shading.Proofs.Scoping.Reading
import Shading.Proofs.Statements

/-!
# The local variables of a place

Which names are local variables at a place of a function is told by the text around it: the parameters, the
variables of the loops and the declarations in front of it in its blocks. The scopes in which a function is
checked bind just these names.
-/

namespace Shading

open List

/-- The name that a statement binds for those behind it. -/
def Stmt.binds : Stmt → List Ident
  | letStmt x _ _ _ => [x]
  | _ => []

/-- The name that emitted code binds for what is behind it. -/
def Code.binds (c : Code) : List Ident := (KeptBlock.declared? c).toList

theorem binds_ofBranch (test : Term) (yes no : KeptBlock) : (Code.ofBranch test yes no).binds = [] := by
  unfold Code.ofBranch
  split <;> rfl

theorem binds_ofExpr (source : Expr) (t : Term) : (Code.ofExpr source t).binds = [] := by
  unfold Code.ofExpr
  split
  · split <;> rfl
  · rfl

theorem binds_kept? (b : KeptBlock) : (b.kept?.toList.map Kept.code).flatMap Code.binds = [] := by
  unfold KeptBlock.kept?
  split <;> rfl

/-- The scopes bind just the given names, each to a local variable. -/
def BindLocals (scopes : List (Scope Var)) (locals : List Ident) : Prop :=
  ∀ x, (Scope.find? scopes x).map (fun v => v.kind.root x) = if x ∈ locals then some (.localVar x) else none

namespace BindLocals

variable {scopes : List (Scope Var)} {locals : List Ident}

theorem nil : BindLocals [] [] := fun _ => rfl

theorem congr (h : BindLocals scopes locals) {locals' : List Ident} (hsame : ∀ x, x ∈ locals' ↔ x ∈ locals) :
    BindLocals scopes locals' := by
  intro x
  simp only [h x, hsame x]

theorem enter (h : BindLocals scopes locals) : BindLocals (.empty :: scopes) locals := h

theorem insert {inner inner' : Scope Var} (h : BindLocals (inner :: scopes) locals) {x : Ident} {ty : Ty}
    {mutable : Bool} (hinsert : inner.insert? x ⟨ty, .localVar mutable⟩ = some inner') :
    BindLocals (inner' :: scopes) (x :: locals) := by
  intro y
  have hy := h y
  rw [Scope.find?_cons] at hy ⊢
  rw [Scope.lookup?_insert? hinsert]
  by_cases hxy : y = x
  · subst hxy
    simp [VarKind.root]
  · simp only [hxy, if_false, mem_cons, false_or]
    exact hy

theorem loop (h : BindLocals scopes locals) (x : Ident) :
    BindLocals (⟨[(x, ⟨.int, .localVar false⟩)]⟩ :: scopes) (x :: locals) := h.enter.insert rfl

theorem contains {scope : Scope Var} (h : BindLocals [scope] locals) {x : Ident} (hx : x ∈ locals) :
    scope.contains x = true := by
  have hroot := h x
  rw [if_pos hx, Option.map_eq_some_iff] at hroot
  obtain ⟨v, hv, -⟩ := hroot
  simp only [Scope.find?, findSome?_cons, findSome?_nil] at hv
  cases hl : scope.lookup? x with
  | none => simp [hl] at hv
  | some w => simp [Scope.contains, hl]

end BindLocals

namespace Check

section Binding

variable {g : Globals} {s s' : Expansion}

theorem bindLocals_of_params {scope last : Scope Var} {ps : List TypedName} {out : List (Ident × Ty)}
    {locals : List Ident} (hlocals : BindLocals [scope] locals) (h : Gives (params g scope ps) s (last, out) s') :
    BindLocals [last] (ps.map TypedName.name ++ locals) ∧ out.map Prod.fst = ps.map TypedName.name := by
  induction ps generalizing scope s out locals with
  | nil =>
    obtain ⟨rfl, rfl, -⟩ := gives_params_nil h
    exact ⟨hlocals, rfl⟩
  | cons p ps ih =>
    obtain ⟨ty, s₁, scope', more, -, hinsert, hrest, rfl⟩ := gives_params_cons h
    obtain ⟨hlast, hnames⟩ := ih (hlocals.insert hinsert) hrest
    refine ⟨hlast.congr fun x => ?_, ?_⟩
    · simp only [map_cons, cons_append, mem_cons, mem_append]
      exact or_left_comm
    · rw [map_cons, map_cons, hnames]

/-- A statement adds the name that it declares to the inner scope, and what is kept of it binds this name. -/
theorem inner_of_stmt {fc : FnContext} {inLoop : Bool} {outer : List (Scope Var)} {inner : Scope Var} {st : Stmt}
    {r : Scope Var × Option Kept} (h : Gives (stmt fc inLoop outer inner st) s r s') :
    (r.2.toList.map Kept.code).flatMap Code.binds = st.binds ∧ (r.1 = inner ∧ st.binds = [] ∨
      ∃ x ty, st.binds = [x] ∧ inner.insert? x ⟨ty, .localVar true⟩ = some r.1) := by
  cases st with
  | breakStmt span =>
    obtain ⟨-, rfl, -⟩ := gives_break h
    exact ⟨rfl, .inl ⟨rfl, rfl⟩⟩
  | continueStmt span =>
    obtain ⟨-, rfl, -⟩ := gives_continue h
    exact ⟨rfl, .inl ⟨rfl, rfl⟩⟩
  | forStmt x first bound step body span =>
    obtain ⟨a, s₁, b, s₂, i, s₃, kept, s₄, -, -, -, -, ⟨-, rfl, -⟩ | ⟨-, -, rfl⟩⟩ := gives_for h
    all_goals exact ⟨rfl, .inl ⟨rfl, rfl⟩⟩
  | ifStmt test yes no span =>
    obtain ⟨t, s₁, yes', s₂, no', s₃, -, -, -, -, ⟨v, -, rfl, -⟩ | ⟨-, -, rfl⟩⟩ := gives_if h
    · exact ⟨binds_kept? _, .inl ⟨rfl, rfl⟩⟩
    · exact ⟨by simp [binds_ofBranch, Stmt.binds], .inl ⟨rfl, rfl⟩⟩
  | letStmt x ty init span =>
    obtain ⟨value, s₁, t, inner', -, -, hinsert, rfl⟩ := gives_let h
    exact ⟨rfl, .inr ⟨x, t, rfl, hinsert⟩⟩
  | returnStmt value span =>
    rcases gives_return h with ⟨-, -, rfl, -⟩ | ⟨e, e', -, -, -, rfl⟩
    all_goals exact ⟨rfl, .inl ⟨rfl, rfl⟩⟩
  | blockStmt b span =>
    obtain ⟨kept, -, rfl⟩ := gives_blockStmt h
    exact ⟨binds_kept? _, .inl ⟨rfl, rfl⟩⟩
  | exprStmt e span =>
    obtain ⟨e', -, rfl⟩ := gives_exprStmt h
    exact ⟨by simp [binds_ofExpr, Stmt.binds], .inl ⟨rfl, rfl⟩⟩

/-- Behind a statement the scopes bind what they did and the name that it declares. -/
theorem bindLocals_of_stmt {fc : FnContext} {inLoop : Bool} {outer : List (Scope Var)} {inner : Scope Var}
    {st : Stmt} {r : Scope Var × Option Kept} {locals : List Ident} (hlocals : BindLocals (inner :: outer) locals)
    (h : Gives (stmt fc inLoop outer inner st) s r s') : BindLocals (r.1 :: outer) (st.binds ++ locals) := by
  obtain ⟨hinner, hbinds⟩ | ⟨x, ty, hbinds, hinsert⟩ := (inner_of_stmt h).2 <;> rw [hbinds]
  · rwa [hinner]
  · exact hlocals.insert hinsert

end Binding

end Check

end Shading
