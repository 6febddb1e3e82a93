import Mathlib.Logic.Relation
import Shading.Tree

/-!
# The nodes of a tree

Whatever has a stretch of source of its own is a node: a type, an expression, a statement, a block, a member or parameter,
a declaration. The nodes directly inside one are its children, in the order in which they are written.
-/

namespace Shading

/-- A part of a shader with a span of its own. -/
inductive Node where
  | ty (t : TyExpr)
  | expr (e : Expr)
  | stmt (st : Stmt)
  | block (b : Block)
  | var (v : TypedName)
  | decl (d : Decl)

namespace Node

def span : Node → Span
  | ty t => t.span
  | expr e => e.span
  | stmt st => st.span
  | block b => b.span
  | var v => v.span
  | decl d => d.span

def children : Node → List Node
  | ty (.array elem _ _) => [ty elem]
  | ty (.keyword ..) | ty (.named ..) => []
  | expr (.cond test yes no _) => [expr test, expr yes, expr no]
  | expr (.bin _ l r _) => [expr l, expr r]
  | expr (.un _ e _) | expr (.member e _ _) => [expr e]
  | expr (.index b i _) => [expr b, expr i]
  | expr (.call _ args _) | expr (.construct _ args _) => args.map expr
  | expr (.var ..) | expr (.lit ..) => []
  | stmt (.breakStmt _) | stmt (.continueStmt _) => []
  | stmt (.forStmt _ first bound step body _) => expr first :: expr bound :: (step.toList.map expr ++ [block body])
  | stmt (.ifStmt test yes no _) => expr test :: block yes :: no.toList.map block
  | stmt (.letStmt _ t init _) => t.toList.map ty ++ init.toList.map expr
  | stmt (.returnStmt value _) => value.toList.map expr
  | stmt (.blockStmt b _) => [block b]
  | stmt (.exprStmt e _) => [expr e]
  | block b => b.stmts.map stmt
  | var v => [ty v.ty]
  | decl (.attributeVar v) | decl (.uniformVar v _) | decl (.varyingVar v) => [ty v.ty]
  | decl (.struct d) => d.members.map var
  | decl (.fn d) => d.params.map var ++ (d.result.toList.map ty ++ [block d.body])

/-- The first node is the second one or stands inside it. -/
def Within (m n : Node) : Prop := Relation.ReflTransGen (fun a b => a ∈ b.children) m n

/-- The spans of the node and of all nodes inside it start at the given places. -/
def StartsIn (P : Position → Prop) (n : Node) : Prop := ∀ m : Node, m.Within n → P m.span.start

/-- The literals of the node and of all nodes inside it have the property. -/
def LiteralsHave (Q : Value → Prop) (n : Node) : Prop := ∀ v span, (expr (.lit v span)).Within n → Q v

variable {P : Position → Prop} {Q : Value → Prop} {n : Node}

theorem LiteralsHave.child {m : Node} (h : n.LiteralsHave Q) (hm : m ∈ n.children) : m.LiteralsHave Q :=
  fun v span hv => h v span (hv.tail hm)

theorem LiteralsHave.of_children (hn : ∀ v span, n = expr (.lit v span) → Q v)
    (h : ∀ m ∈ n.children, m.LiteralsHave Q) : n.LiteralsHave Q := by
  intro v span hv
  rcases hv.cases_tail with hself | ⟨m, hv, hm⟩
  · exact hn v span hself
  · exact h m hm v span hv

theorem StartsIn.any (n : Node) : n.StartsIn fun _ => True := fun _ _ => trivial

theorem StartsIn.span (h : n.StartsIn P) : P n.span.start := h n .refl

theorem StartsIn.child {m : Node} (h : n.StartsIn P) (hm : m ∈ n.children) : m.StartsIn P :=
  fun a ha => h a (ha.tail hm)

theorem StartsIn.children (h : n.StartsIn P) : ∀ m ∈ n.children, m.StartsIn P := fun _ => h.child

end Node

end Shading
